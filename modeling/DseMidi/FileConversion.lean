import DseMidi.Conversion
import DseMidi.Files.Access

/-!
# DseMidi.FileConversion

**Converting files.** `SideTables.loadFiles` reads the side tables and `Job.run` converts
one sequence file. A file is only written when all of it is known, so a job that fails
leaves no trace. `runJobs` does several jobs one after the other: each has its own
outcome, and none depends on whether another failed.
-/

namespace DseMidi

variable {m : Type → Type} [Monad m] [FileAccess m]

/-! ### Side tables -/

/-- The contents of a file that may be missing. No path and no file are the same. -/
def readOptionalFile (path : Option String) : m (Except FileFault (Option Bytes)) :=
  match path with
  | none => pure (.ok none)
  | some path => do
    match ← FileAccess.readFile path with
    | .ok data => pure (.ok (some data))
    | .error .notFound => pure (.ok none)
    | .error fault => pure (.error fault)

/-- The tables in up to three files. A missing file leaves its table as it is; one that
cannot be read is a fault, and the files behind it are not looked at. -/
def SideTables.loadFiles (programs drumKeys shifts : Option String) :
    m (Except FileFault SideTables) := do
  match ← readOptionalFile programs with
  | .error fault => pure (.error fault)
  | .ok programs =>
    match ← readOptionalFile drumKeys with
    | .error fault => pure (.error fault)
    | .ok drumKeys =>
      match ← readOptionalFile shifts with
      | .error fault => pure (.error fault)
      | .ok shifts => pure (.ok (SideTables.ofContents programs drumKeys shifts))

/-! ### Jobs -/

/-- One conversion: a sequence file to read and a MIDI file to write. -/
structure Job where
  input : String
  output : String
  deriving DecidableEq

/-- Does one conversion. -/
def Job.run (tables : SideTables) (job : Job) : m (Except Fault Loaded) := do
  match ← FileAccess.readFile job.input with
  | .error fault => pure (.error (.file fault))
  | .ok data =>
    match load tables data with
    | .error fault => pure (.error fault)
    | .ok loaded =>
      match ← FileAccess.writeFile job.output (Smf.encode loaded.sequence) with
      | .error fault => pure (.error (.file fault))
      | .ok () => pure (.ok loaded)

/-- Does several conversions in order. -/
def runJobs (tables : SideTables) : List Job → m (List (Except Fault Loaded))
  | [] => pure []
  | job :: rest => do
    let outcome ← job.run tables
    let following ← runJobs tables rest
    pure (outcome :: following)

end DseMidi
