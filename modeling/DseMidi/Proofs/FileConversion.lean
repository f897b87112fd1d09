import DseMidi.Command.Convert
import DseMidi.Proofs.Files.Places
import DseMidi.Proofs.Loading

/-!
# DseMidi.Proofs.FileConversion

**What conversions do to a file system.** A job reads one file and writes at most one, when nothing
can fail any more. `Job.Ends` are the four ways in which it can end: three of them leave the file
system as it was, the last one changes it at one location (`Job.ends_runOn`).

Several jobs are these steps one after the other (`foldl_next`). A job that fails leaves to the
next one what it found itself, and so it might as well not be there (`runJobsOn_of_error`). A
request adds nothing but the tables in front of its jobs and the report behind them
(`ConvertRequest.runOn_of_tablesOn`).
-/

namespace DseMidi

/-! ### Programs on a file system -/

/-- One conversion on a file system: its outcome and what it leaves. -/
def Job.runOn (tables : SideTables) (job : Job) (fs : FileSystem) :
    Except Fault Loaded × FileSystem :=
  (job.run tables : StateM FileSystem (Except Fault Loaded)).run fs

/-- Several conversions on a file system: their outcomes and what they leave. -/
def runJobsOn (tables : SideTables) (jobs : List Job) (fs : FileSystem) :
    List (Except Fault Loaded) × FileSystem :=
  (runJobs tables jobs : StateM FileSystem (List (Except Fault Loaded))).run fs

/-- The tables that a request asks for, as they are found on a file system. -/
def Command.ConvertRequest.tablesOn (r : ConvertRequest) (fs : FileSystem) :
    Except FileFault SideTables :=
  ((SideTables.loadFiles (some r.programMap) (some r.drumMap) (some r.transpose) :
    StateM FileSystem (Except FileFault SideTables)).run fs).1

/-- What a request does on a file system: its report and what it leaves. -/
def Command.ConvertRequest.runOn (r : ConvertRequest) (fs : FileSystem) : Report × FileSystem :=
  (r.run : StateM FileSystem Report).run fs

theorem run_readFile_bind {α : Type} (path : String)
    (next : Except FileFault Bytes → StateM FileSystem α) (fs : FileSystem) :
    (FileAccess.readFile path >>= next).run fs = (next (fs.read path)).run fs := rfl

theorem run_writeFile_bind {α : Type} (path : String) (data : Bytes)
    (next : Except FileFault Unit → StateM FileSystem α) (fs : FileSystem) :
    (FileAccess.writeFile path data >>= next).run fs =
      match fs.write path data with
      | .error fault => (next (.error fault)).run fs
      | .ok fs' => (next (.ok ())).run fs' := by
  simp only [FileAccess.writeFile, bind_assoc, StateT.run_bind, StateT.run_get, pure_bind]
  cases fs.write path data with
  | error fault => rfl
  | ok fs' => rfl

/-! ### Single jobs -/

/-- The ways in which a job can end on a file system, each with its outcome and what it leaves.
The file is written last, and holds what converting the data gives. -/
inductive Job.Ends (tables : SideTables) (job : Job) (fs : FileSystem) :
    Except Fault Loaded × FileSystem → Prop
  | unread {fault : FileFault} (hread : fs.read job.input = .error fault) :
    Ends tables job fs (.error (.file fault), fs)
  | unloaded {data : Bytes} {fault : Fault} (hread : fs.read job.input = .ok data)
      (hload : load tables data = .error fault) :
    Ends tables job fs (.error fault, fs)
  | unwritten {data file : Bytes} {fault : FileFault} (hread : fs.read job.input = .ok data)
      (hconvert : convert tables data = .ok file)
      (hwrite : fs.write job.output file = .error fault) :
    Ends tables job fs (.error (.file fault), fs)
  | written {data file : Bytes} {loaded : Loaded} {fs' : FileSystem}
      (hread : fs.read job.input = .ok data) (hload : load tables data = .ok loaded)
      (hconvert : convert tables data = .ok file) (hwrite : fs.write job.output file = .ok fs')
      (hwritten : fs.Written job.output file fs') :
    Ends tables job fs (.ok loaded, fs')

/-- The outcome of a job, by the files that it finds. -/
def Job.outcome (tables : SideTables) (job : Job) (fs : FileSystem) : Except Fault Loaded :=
  match fs.read job.input with
  | .error fault => .error (.file fault)
  | .ok data =>
    match load tables data with
    | .error fault => .error fault
    | .ok loaded =>
      match fs.target job.output with
      | .error fault => .error (.file fault)
      | .ok _ => .ok loaded

/-- A file is only written behind everything that can fail. -/
theorem Job.runOn_eq (tables : SideTables) (job : Job) (fs : FileSystem) :
    job.runOn tables fs =
      (job.outcome tables fs,
        match job.outcome tables fs with
        | .error _ => fs
        | .ok loaded =>
          fs.put (fs.place job.output) (.file (Smf.encode loaded.sequence))) := by
  rw [Job.runOn, Job.run, run_readFile_bind, Job.outcome]
  cases fs.read job.input with
  | error fault => rfl
  | ok data =>
    dsimp only
    cases load tables data with
    | error fault => rfl
    | ok loaded =>
      dsimp only
      rw [run_writeFile_bind, fs.write_eq]
      cases htarget : fs.target job.output with
      | error fault => rfl
      | ok location =>
        rw [← FileSystem.place_of_target htarget]
        rfl

theorem Job.ends_runOn (tables : SideTables) (job : Job) (fs : FileSystem) :
    job.Ends tables fs (job.runOn tables fs) := by
  rw [Job.runOn_eq, Job.outcome]
  cases hread : fs.read job.input with
  | error fault => exact .unread hread
  | ok data =>
    dsimp only
    cases hload : load tables data with
    | error fault => exact .unloaded hread hload
    | ok loaded =>
      dsimp only
      have hconvert := convert_of_load hload
      have hwrite := fs.write_eq job.output (Smf.encode loaded.sequence)
      cases htarget : fs.target job.output with
      | error fault =>
        rw [htarget] at hwrite
        exact .unwritten hread hconvert hwrite
      | ok location =>
        rw [htarget] at hwrite
        rw [← FileSystem.place_of_target htarget]
        exact .written hread hload hconvert hwrite (FileSystem.written_put htarget _)

namespace Job.Ends

variable {tables : SideTables} {job : Job} {fs : FileSystem}
  {r : Except Fault Loaded × FileSystem}

/-- A job that fails leaves no trace. -/
theorem eq_of_error (h : job.Ends tables fs r) {fault : Fault} (hfault : r.1 = .error fault) :
    r.2 = fs := by
  cases h with
  | unread => rfl
  | unloaded => rfl
  | unwritten => rfl
  | written => cases hfault

/-- A job that does not fail leaves the conversion of its input at its output. -/
theorem lookup_place_of_ok (h : job.Ends tables fs r) {loaded : Loaded} (hok : r.1 = .ok loaded) :
    ∃ data file, fs.read job.input = .ok data ∧ convert tables data = .ok file ∧
      r.2.lookup (fs.place job.output) = some (.file file) := by
  cases h with
  | unread => cases hok
  | unloaded => cases hok
  | unwritten => cases hok
  | written hread hload hconvert hwrite hwritten =>
    exact ⟨_, _, hread, hconvert, hwritten.lookup_place⟩

theorem workingDirectory_eq (h : job.Ends tables fs r) :
    r.2.workingDirectory = fs.workingDirectory := by
  cases h with
  | unread => rfl
  | unloaded => rfl
  | unwritten => rfl
  | written hread hload hconvert hwrite hwritten => exact hwritten.workingDirectory_eq

/-- No job changes anything but its output. -/
theorem lookup_of_ne (h : job.Ends tables fs r) {location : Location}
    (hne : location ≠ fs.place job.output) : r.2.lookup location = fs.lookup location := by
  cases h with
  | unread => rfl
  | unloaded => rfl
  | unwritten => rfl
  | written hread hload hconvert hwrite hwritten => exact hwritten.lookup_of_ne location hne

end Job.Ends

/-! ### One job after the other -/

section Several

variable (tables : SideTables)

@[simp] theorem runJobsOn_nil (fs : FileSystem) : runJobsOn tables [] fs = ([], fs) := rfl

theorem runJobsOn_cons (job : Job) (rest : List Job) (fs : FileSystem) :
    runJobsOn tables (job :: rest) fs =
      ((job.runOn tables fs).1 :: (runJobsOn tables rest (job.runOn tables fs).2).1,
        (runJobsOn tables rest (job.runOn tables fs).2).2) := rfl

theorem runJobsOn_append (jobs more : List Job) (fs : FileSystem) :
    runJobsOn tables (jobs ++ more) fs =
      ((runJobsOn tables jobs fs).1 ++ (runJobsOn tables more (runJobsOn tables jobs fs).2).1,
        (runJobsOn tables more (runJobsOn tables jobs fs).2).2) := by
  induction jobs generalizing fs with
  | nil => rfl
  | cons job rest ih => rw [List.cons_append, runJobsOn_cons, ih, runJobsOn_cons, List.cons_append]

theorem length_runJobsOn (jobs : List Job) (fs : FileSystem) :
    (runJobsOn tables jobs fs).1.length = jobs.length := by
  induction jobs generalizing fs with
  | nil => rfl
  | cons job rest ih => rw [runJobsOn_cons, List.length_cons, ih, List.length_cons]

theorem workingDirectory_runJobsOn (jobs : List Job) (fs : FileSystem) :
    (runJobsOn tables jobs fs).2.workingDirectory = fs.workingDirectory := by
  induction jobs generalizing fs with
  | nil => rfl
  | cons job rest ih =>
    rw [runJobsOn_cons]
    exact (ih _).trans (job.ends_runOn tables fs).workingDirectory_eq

/-- Only outputs change. -/
theorem lookup_runJobsOn_of_ne {jobs : List Job} {fs : FileSystem} {location : Location}
    (h : ∀ job ∈ jobs, location ≠ fs.place job.output) :
    (runJobsOn tables jobs fs).2.lookup location = fs.lookup location := by
  induction jobs generalizing fs with
  | nil => rfl
  | cons job rest ih =>
    obtain ⟨hjob, hrest⟩ := List.forall_mem_cons.mp h
    have hends := job.ends_runOn tables fs
    rw [runJobsOn_cons, ih, hends.lookup_of_ne hjob]
    intro other hother
    rw [FileSystem.place_congr hends.workingDirectory_eq]
    exact hrest other hother

/-- Doing a further job: its outcome comes behind those so far. -/
def Job.next (done : List (Except Fault Loaded) × FileSystem) (job : Job) :
    List (Except Fault Loaded) × FileSystem :=
  (done.1 ++ [(job.runOn tables done.2).1], (job.runOn tables done.2).2)

theorem foldl_next (jobs : List Job) (done : List (Except Fault Loaded)) (fs : FileSystem) :
    jobs.foldl (Job.next tables) (done, fs) =
      (done ++ (runJobsOn tables jobs fs).1, (runJobsOn tables jobs fs).2) := by
  induction jobs generalizing done fs with
  | nil => simp
  | cons job rest ih =>
    rw [List.foldl_cons, Job.next, ih, runJobsOn_cons, List.append_assoc, List.singleton_append]

/-- A job that fails might as well not be there. -/
theorem runJobsOn_of_error {before after : List Job} {job : Job} {fs : FileSystem} {fault : Fault}
    (h : (job.runOn tables (runJobsOn tables before fs).2).1 = .error fault) :
    ∃ earlier later fs', earlier.length = before.length ∧
      runJobsOn tables (before ++ after) fs = (earlier ++ later, fs') ∧
      runJobsOn tables (before ++ job :: after) fs = (earlier ++ .error fault :: later, fs') := by
  have hsame := (job.ends_runOn tables (runJobsOn tables before fs).2).eq_of_error h
  refine ⟨_, _, _, length_runJobsOn tables before fs, runJobsOn_append tables before after fs, ?_⟩
  rw [runJobsOn_append, runJobsOn_cons, hsame, h]

end Several

/-! ### Requests -/

/-- Looking at a file that may be missing changes nothing. -/
theorem exists_run_readOptionalFile_bind (path : Option String) (fs : FileSystem) :
    ∃ contents, ∀ {α : Type} (next : Except FileFault (Option Bytes) → StateM FileSystem α),
      (readOptionalFile path >>= next).run fs = (next contents).run fs := by
  have hrun : ∃ contents, (readOptionalFile path :
      StateM FileSystem (Except FileFault (Option Bytes))).run fs = (contents, fs) := by
    cases path with
    | none => exact ⟨_, rfl⟩
    | some path =>
      rw [readOptionalFile, run_readFile_bind]
      cases fs.read path with
      | ok data => exact ⟨_, rfl⟩
      | error fault => cases fault <;> exact ⟨_, rfl⟩
  obtain ⟨contents, hcontents⟩ := hrun
  refine ⟨contents, ?_⟩
  intro α next
  rw [StateT.run_bind, hcontents]
  rfl

theorem exists_run_loadFiles (programs drumKeys shifts : Option String) (fs : FileSystem) :
    ∃ tables, (SideTables.loadFiles programs drumKeys shifts :
      StateM FileSystem (Except FileFault SideTables)).run fs = (tables, fs) := by
  obtain ⟨programs, hprograms⟩ := exists_run_readOptionalFile_bind programs fs
  obtain ⟨drumKeys, hdrumKeys⟩ := exists_run_readOptionalFile_bind drumKeys fs
  obtain ⟨shifts, hshifts⟩ := exists_run_readOptionalFile_bind shifts fs
  rw [SideTables.loadFiles, hprograms]
  cases programs with
  | error fault => exact ⟨_, rfl⟩
  | ok programs =>
    dsimp only
    rw [hdrumKeys]
    cases drumKeys with
    | error fault => exact ⟨_, rfl⟩
    | ok drumKeys =>
      dsimp only
      rw [hshifts]
      cases shifts with
      | error fault => exact ⟨_, rfl⟩
      | ok shifts => exact ⟨_, rfl⟩

namespace Command

/-- A request that is not refused and finds its tables does its jobs and reports on them. -/
theorem ConvertRequest.runOn_of_tablesOn {tables : SideTables} {fs : FileSystem}
    {r : ConvertRequest}
    (houtput : ¬ (r.output.isSome ∧ 1 < r.inputs.length)) (htables : r.tablesOn fs = .ok tables) :
    r.runOn fs = (convertReport r.verbose r.jobs (runJobsOn tables r.jobs fs).1,
      (runJobsOn tables r.jobs fs).2) := by
  obtain ⟨found, hfound⟩ :=
    exists_run_loadFiles (some r.programMap) (some r.drumMap) (some r.transpose) fs
  rw [ConvertRequest.tablesOn, hfound] at htables
  rw [ConvertRequest.runOn, ConvertRequest.run, if_neg houtput, StateT.run_bind, hfound]
  dsimp only at htables
  rw [htables]
  rfl

/-- The report tells whether a job failed. -/
theorem status_convertReport (verbose : Bool) (jobs : List Job)
    (outcomes : List (Except Fault Loaded)) :
    (convertReport verbose jobs outcomes).status = .failure ∧
        (∃ fault, .error fault ∈ outcomes) ∨
      (convertReport verbose jobs outcomes).status = .success ∧
        ∀ outcome ∈ outcomes, ∃ loaded, outcome = .ok loaded := by
  rw [convertReport]
  dsimp only
  split
  · next hall =>
    refine .inr ⟨rfl, ?_⟩
    intro outcome houtcome
    have hok := List.all_eq_true.mp hall outcome houtcome
    cases outcome with
    | ok loaded => exact ⟨loaded, rfl⟩
    | error fault => cases hok
  · next hall =>
    refine .inl ⟨rfl, ?_⟩
    obtain ⟨outcome, houtcome, hfault⟩ : ∃ outcome ∈ outcomes, outcome.isOk = false := by
      simpa using hall
    cases outcome with
    | ok loaded => cases hfault
    | error fault => exact ⟨fault, houtcome⟩

end Command

end DseMidi
