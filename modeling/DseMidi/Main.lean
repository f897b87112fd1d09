import DseMidi.Command.Convert
import DseMidi.Command.Dump

/-!
# DseMidi.Main

**The program**: its first argument names a command, the others are the command's. This
is the only module that touches files and streams of the machine.
-/

namespace DseMidi

/-- The fault behind an error of the machine's file system. -/
def FileFault.ofError : IO.Error → FileFault
  | .noFileOrDirectory .. | .noSuchThing .. => .notFound
  | error => .other (toString error)

/-- Programs can run on the files of the machine. -/
instance : FileAccess IO where
  readFile path := do
    try
      let data ← IO.FS.readBinFile path
      return .ok data.toList
    catch error => return .error (.ofError error)
  writeFile path data := do
    try
      IO.FS.writeBinFile path ⟨data.toArray⟩
      return .ok ()
    catch error => return .error (.ofError error)

/-- Prints what a command reports and gives its exit code. -/
def Report.emit (report : Report) : IO UInt32 := do
  IO.print report.output
  report.messages.forM IO.eprintln
  return report.status.code

/-- Runs the command that the first argument names. -/
def runProgram : List String → IO UInt32
  | "convert" :: arguments => do (← Command.convert arguments).emit
  | "dump" :: arguments => do (← Command.dump arguments).emit
  | _ => do
    IO.eprintln "usage: convert OPTIONS INPUT... or dump OPTIONS INPUT"
    return ExitStatus.usage.code

end DseMidi

/-- The entry point. -/
def main (arguments : List String) : IO UInt32 :=
  DseMidi.runProgram arguments
