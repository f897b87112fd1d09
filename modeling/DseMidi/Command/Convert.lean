import DseMidi.Command.Report
import DseMidi.FileConversion
import DseMidi.Files.Path

/-!
# DseMidi.Command.Convert

**The command that converts sequence files to MIDI files.**

Without an explicit output each input is converted to the file of the same name with
the extension `mid`. The side tables come from files of fixed names unless others are
given. The command fails if any input fails, and converts the others all the same.
-/

namespace DseMidi.Command

/-- The usage of the command. -/
def convertUsage : String :=
  "usage: [-o|--output PATH] [--program-map PATH] [--drum-map PATH] [--transpose PATH] "
    ++ "[-v|--verbose] INPUT...\n"

/-- The command lines of the command: any number of inputs. -/
def convertSpec : CommandSpec :=
  { options := [⟨"output", some 'o', .value⟩, ⟨"program-map", none, .value⟩,
      ⟨"drum-map", none, .value⟩, ⟨"transpose", none, .value⟩, ⟨"verbose", some 'v', .flag⟩,
      helpOption convertUsage, versionOption]
    operandLimit := none }

/-- What the command is asked to do. -/
structure ConvertRequest where
  inputs : List String
  output : Option String
  programMap : String
  drumMap : String
  transpose : String
  verbose : Bool

/-- The request that a command line makes; without any input it makes none. -/
def ConvertRequest.ofArguments (arguments : Arguments) : Except UsageFault ConvertRequest :=
  if arguments.operands.isEmpty then .error .missingInput
  else .ok {
    inputs := arguments.operands
    output := arguments.value? "output"
    programMap := (arguments.value? "program-map").getD "midimap.bin"
    drumMap := (arguments.value? "drum-map").getD "drummap.bin"
    transpose := (arguments.value? "transpose").getD "transpose.bin"
    verbose := arguments.has "verbose" }

/-- The file that an input is converted to if none is given. -/
def midiPath (input : String) : String :=
  Path.withExtension input "mid"

/-- The inputs with their outputs. -/
def ConvertRequest.jobs (r : ConvertRequest) : List Job :=
  r.inputs.map fun input => ⟨input, r.output.getD (midiPath input)⟩

/-- The messages on one input. -/
def outcomeMessages (verbose : Bool) (job : Job) : Except Fault Loaded → List String
  | .error fault => [job.input ++ ": " ++ fault.message]
  | .ok loaded =>
    (if verbose then [job.input ++ " -> " ++ job.output] else [])
      ++ loaded.warnings.map fun warning => job.input ++ ": " ++ warning.message

/-- The report on all inputs: a failure if any input failed. -/
def convertReport (verbose : Bool) (jobs : List Job)
    (outcomes : List (Except Fault Loaded)) : Report :=
  { status := if outcomes.all (·.isOk) then .success else .failure
    output := ""
    messages := (jobs.zip outcomes).flatMap fun (job, outcome) =>
      outcomeMessages verbose job outcome }

variable {m : Type → Type} [Monad m] [FileAccess m]

/-- Does what is asked. One output for several inputs is refused before any file is
looked at, and tables that cannot be read before any input is. -/
def ConvertRequest.run (r : ConvertRequest) : m Report :=
  if r.output.isSome ∧ 1 < r.inputs.length then
    pure (.failed "--output can only be used with a single input")
  else do
    match ← SideTables.loadFiles (some r.programMap) (some r.drumMap) (some r.transpose) with
    | .error fault => pure (.failed (Fault.file fault).message)
    | .ok tables =>
      let outcomes ← runJobs tables r.jobs
      pure (convertReport r.verbose r.jobs outcomes)

/-- Runs the command. -/
def convert (arguments : List String) : m Report :=
  match Arguments.ofList convertSpec arguments with
  | .error interruption => pure (.ofInterruption interruption)
  | .ok arguments =>
    match ConvertRequest.ofArguments arguments with
    | .error fault => pure (.misused fault)
    | .ok request => request.run

end DseMidi.Command
