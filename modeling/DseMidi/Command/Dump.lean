import DseMidi.Command.Report
import DseMidi.Conversion
import DseMidi.Dump
import DseMidi.Files.Access
import DseMidi.Smf.Sequence

/-!
# DseMidi.Command.Dump

**The command that shows a MIDI file, or a sequence file, as JSON.** The text goes to
standard output or to a file, with a line break behind it.
-/

namespace DseMidi.Command

/-- The usage of the command. -/
def dumpUsage : String :=
  "usage: [--dse] [-o|--output PATH] [-c|--compact] INPUT\n"

/-- The command lines of the command: a single input. -/
def dumpSpec : CommandSpec :=
  { options := [⟨"dse", none, .flag⟩, ⟨"output", some 'o', .value⟩,
      ⟨"compact", some 'c', .flag⟩, helpOption dumpUsage, versionOption]
    operandLimit := some 1 }

/-- What the command is asked to do. -/
structure DumpRequest where
  input : String
  /-- Whether the input is a sequence file. -/
  dse : Bool
  output : Option String
  compact : Bool

/-- The request that a command line makes; without an input it makes none. -/
def DumpRequest.ofArguments (arguments : Arguments) : Except UsageFault DumpRequest :=
  match arguments.operands with
  | [] => .error .missingInput
  | input :: _ => .ok {
      input
      dse := arguments.has "dse"
      output := arguments.value? "output"
      compact := arguments.has "compact" }

/-- The sequence in a file's contents. -/
def DumpRequest.sequence (r : DumpRequest) (data : Bytes) : Except Fault Sequence :=
  if r.dse then (load .default data).map (·.sequence) else Smf.decode data

/-- The text for a sequence. -/
def DumpRequest.text (r : DumpRequest) (s : Sequence) : String :=
  s.dump.text (if r.compact then .compact else .pretty) ++ "\n"

variable {m : Type → Type} [Monad m] [FileAccess m]

/-- Does what is asked. -/
def DumpRequest.run (r : DumpRequest) : m Report := do
  match ← FileAccess.readFile r.input with
  | .error fault => pure (.failed (Fault.file fault).message)
  | .ok data =>
    match r.sequence data with
    | .error fault => pure (.failed fault.message)
    | .ok s =>
      match r.output with
      | none => pure (.text (r.text s))
      | some path =>
        match ← FileAccess.writeFile path (utf8Bytes (r.text s)) with
        | .error fault => pure (.failed (Fault.file fault).message)
        | .ok () => pure (.text "")

/-- Runs the command. -/
def dump (arguments : List String) : m Report :=
  match Arguments.ofList dumpSpec arguments with
  | .error interruption => pure (.ofInterruption interruption)
  | .ok arguments =>
    match DumpRequest.ofArguments arguments with
    | .error fault => pure (.misused fault)
    | .ok request => request.run

end DseMidi.Command
