import DseMidi.Command.Options

/-!
# DseMidi.Command.Report

**What a command leaves behind apart from files**: an exit status, the text on its
standard output, and messages for the user.
-/

namespace DseMidi

/-- How a command ended. -/
inductive ExitStatus
  | success
  | failure
  /-- The command line was wrong; nothing was done. -/
  | usage
  deriving DecidableEq

/-- The exit code of a status. -/
def ExitStatus.code : ExitStatus → UInt32
  | success => 0
  | failure => 1
  | usage => 2

/-- The outcome of a command. -/
structure Report where
  status : ExitStatus
  /-- The text on standard output. -/
  output : String
  /-- Messages for the user, not part of the output. -/
  messages : List String

namespace Report

/-- A failure with a message. -/
def failed (message : String) : Report := ⟨.failure, "", [message]⟩

/-- A wrong command line. -/
def misused (fault : UsageFault) : Report := ⟨.usage, "", [fault.message]⟩

/-- A text that was asked for, such as the usage of a command. -/
def text (output : String) : Report := ⟨.success, output, []⟩

/-- What is left to say when a command line is not read to its end. -/
def ofInterruption : Interruption → Report
  | .fault cause => misused cause
  | .notice output => text output

end Report

/-! ### Options of every command -/

/-- The option that asks for the usage of a command. -/
def helpOption (usage : String) : OptionSpec := ⟨"help", some 'h', .notice usage⟩

/-- The option that asks for the version of the program. -/
def versionOption : OptionSpec := ⟨"version", some 'V', .notice "version 0.1.0\n"⟩

end DseMidi
