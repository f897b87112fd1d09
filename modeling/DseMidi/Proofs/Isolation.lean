import DseMidi.Proofs.FileConversion

/-!
# DseMidi.Proofs.Isolation

**No conversion gets into another's way.** What a job does is decided by the footprints of its two
paths (`Job.runOn_congr`). Where no job writes into the footprint of another, each of them does
what it would do alone (`ActAlone`), and so their order does not matter. Where paths are keys of a
map, it is enough that no two jobs have one output and that no output is an input.
-/

namespace DseMidi

/-! ### Jobs apart from each other -/

/-- The file systems are the same as far as the job can see. -/
structure FileSystem.AgreesFor (fs fs₀ : FileSystem) (job : Job) : Prop where
  workingDirectory_eq : fs.workingDirectory = fs₀.workingDirectory
  input : ∀ location ∈ fs₀.footprint job.input, fs.lookup location = fs₀.lookup location
  output : ∀ location ∈ fs₀.footprint job.output, fs.lookup location = fs₀.lookup location

/-- The other job cannot see what the job writes. -/
structure Job.UnseenBy (fs : FileSystem) (job other : Job) : Prop where
  input : fs.place job.output ∉ fs.footprint other.input
  output : fs.place job.output ∉ fs.footprint other.output

/-- The jobs have the outcomes that they would have alone, and each leaves at its output what it
would leave alone. -/
structure ActAlone (tables : SideTables) (fs : FileSystem) (jobs : List Job)
    (r : List (Except Fault Loaded) × FileSystem) : Prop where
  outcomes_eq : r.1 = jobs.map fun job => (job.runOn tables fs).1
  workingDirectory_eq : r.2.workingDirectory = fs.workingDirectory
  lookup_place : ∀ job ∈ jobs, r.2.lookup (fs.place job.output) =
    (job.runOn tables fs).2.lookup (fs.place job.output)
  lookup_of_ne : ∀ location, (∀ job ∈ jobs, location ≠ fs.place job.output) →
    r.2.lookup location = fs.lookup location

variable (tables : SideTables) {fs fs₀ : FileSystem} {job other : Job} {jobs : List Job}

theorem FileSystem.AgreesFor.outcome_eq (h : fs.AgreesFor fs₀ job) :
    job.outcome tables fs = job.outcome tables fs₀ := by
  rw [Job.outcome, Job.outcome, FileSystem.read_congr h.workingDirectory_eq h.input,
    FileSystem.target_congr h.workingDirectory_eq h.output]

/-- What a job does is decided by what it can see. -/
theorem Job.runOn_congr (h : fs.AgreesFor fs₀ job) :
    (job.runOn tables fs).1 = (job.runOn tables fs₀).1 ∧
      (job.runOn tables fs).2.lookup (fs₀.place job.output) =
        (job.runOn tables fs₀).2.lookup (fs₀.place job.output) := by
  rw [Job.runOn_eq, Job.runOn_eq, h.outcome_eq tables,
    FileSystem.place_congr h.workingDirectory_eq]
  refine ⟨rfl, ?_⟩
  cases job.outcome tables fs₀ with
  | error fault => exact h.output _ (fs₀.place_mem_footprint job.output)
  | ok loaded => exact FileSystem.lookup_put_congr fs fs₀ _ _

/-- A job keeps what others can see if they cannot see what it writes. -/
theorem FileSystem.AgreesFor.runOn (h : fs.AgreesFor fs₀ other) (hunseen : job.UnseenBy fs₀ other) :
    (job.runOn tables fs).2.AgreesFor fs₀ other := by
  have hends := job.ends_runOn tables fs
  have hkept : ∀ location ≠ fs₀.place job.output,
      (job.runOn tables fs).2.lookup location = fs.lookup location := by
    intro location hne
    rw [← FileSystem.place_congr h.workingDirectory_eq] at hne
    exact hends.lookup_of_ne hne
  refine ⟨hends.workingDirectory_eq.trans h.workingDirectory_eq, ?_, ?_⟩
  · intro location hlocation
    rw [hkept location (ne_of_mem_of_not_mem hlocation hunseen.input)]
    exact h.input location hlocation
  · intro location hlocation
    rw [hkept location (ne_of_mem_of_not_mem hlocation hunseen.output)]
    exact h.output location hlocation

/-- Jobs that cannot see what the others write do what they would do alone. -/
theorem runJobsOn_congr (hagrees : ∀ job ∈ jobs, fs.AgreesFor fs₀ job)
    (hunseen : jobs.Pairwise fun a b => a.UnseenBy fs₀ b ∧ b.UnseenBy fs₀ a) :
    (runJobsOn tables jobs fs).1 = jobs.map (fun job => (job.runOn tables fs₀).1) ∧
      ∀ job ∈ jobs, (runJobsOn tables jobs fs).2.lookup (fs₀.place job.output) =
        (job.runOn tables fs₀).2.lookup (fs₀.place job.output) := by
  induction jobs generalizing fs with
  | nil => exact ⟨rfl, by simp⟩
  | cons job rest ih =>
    obtain ⟨hjob, hrest⟩ := List.forall_mem_cons.mp hagrees
    obtain ⟨hhead, htail⟩ := List.pairwise_cons.mp hunseen
    obtain ⟨houtcome, hleft⟩ := Job.runOn_congr tables hjob
    have hagrees' : ∀ other ∈ rest, (job.runOn tables fs).2.AgreesFor fs₀ other :=
      fun other hother => (hrest other hother).runOn tables (hhead other hother).1
    obtain ⟨houtcomes, hlefts⟩ := ih hagrees' htail
    rw [runJobsOn_cons, houtcome, houtcomes]
    refine ⟨rfl, List.forall_mem_cons.mpr ⟨?_, hlefts⟩⟩
    -- None of the jobs behind writes to the same place.
    rw [lookup_runJobsOn_of_ne tables, hleft]
    intro other hother
    rw [FileSystem.place_congr (hagrees' other hother).workingDirectory_eq]
    exact (ne_of_mem_of_not_mem (fs₀.place_mem_footprint other.output)
      (hhead other hother).1.output).symm

theorem actAlone_runJobsOn
    (hunseen : jobs.Pairwise fun a b => a.UnseenBy fs b ∧ b.UnseenBy fs a) :
    ActAlone tables fs jobs (runJobsOn tables jobs fs) := by
  have hagrees : ∀ job ∈ jobs, fs.AgreesFor fs job :=
    fun _ _ => ⟨rfl, fun _ _ => rfl, fun _ _ => rfl⟩
  obtain ⟨houtcomes, hlefts⟩ := runJobsOn_congr tables hagrees hunseen
  exact ⟨houtcomes, workingDirectory_runJobsOn tables jobs fs, hlefts,
    fun _ => lookup_runJobsOn_of_ne tables⟩

/-- What jobs leave that do what they would do alone does not depend on their order. -/
theorem ActAlone.lookup_eq {jobs' : List Job} {r r' : List (Except Fault Loaded) × FileSystem}
    (h : ActAlone tables fs jobs r) (h' : ActAlone tables fs jobs' r') (hperm : jobs'.Perm jobs)
    (location : Location) : r'.2.lookup location = r.2.lookup location := by
  by_cases hwritten : ∃ job ∈ jobs, location = fs.place job.output
  · obtain ⟨job, hjob, rfl⟩ := hwritten
    rw [h'.lookup_place job (hperm.mem_iff.mpr hjob), h.lookup_place job hjob]
  · have hne : ∀ job ∈ jobs, location ≠ fs.place job.output :=
      fun job hjob heq => hwritten ⟨job, hjob, heq⟩
    rw [h'.lookup_of_ne location fun job hjob => hne job (hperm.mem_iff.mp hjob),
      h.lookup_of_ne location hne]

/-- Jobs with outputs of their own do not see what the others write, where the file system is a
map from paths to contents. -/
theorem pairwise_unseenBy (hnodup : (jobs.map Job.output).Nodup)
    (hinputs : ∀ path ∈ jobs.map Job.output, path ∉ jobs.map Job.input)
    (hmap : fs.IsMapFor (jobs.map Job.output) (jobs.map Job.input ++ jobs.map Job.output)) :
    jobs.Pairwise fun a b => a.UnseenBy fs b ∧ b.UnseenBy fs a := by
  have hunseen : ∀ a ∈ jobs, ∀ b ∈ jobs, a.output ≠ b.output → a.UnseenBy fs b := by
    intro a ha b hb hne
    have haoutput := List.mem_map_of_mem (f := Job.output) ha
    have hbinput := List.mem_map_of_mem (f := Job.input) hb
    have hboutput := List.mem_map_of_mem (f := Job.output) hb
    have hinput : a.output ≠ b.input := fun heq => hinputs _ haoutput (heq ▸ hbinput)
    exact ⟨hmap _ haoutput _ (List.mem_append_left _ hbinput) hinput,
      hmap _ haoutput _ (List.mem_append_right _ hboutput) hne⟩
  refine (List.pairwise_map.mp hnodup).imp_of_mem ?_
  intro a b ha hb hne
  exact ⟨hunseen a ha b hb hne, hunseen b hb a ha hne.symm⟩

/-! ### Isolation -/

/-- **Conversions are done completely or not at all, and none gets into another's way.** Every job
ends in one of four ways, and only the one in which nothing failed changes the file system, at its
output. Several jobs are these steps from left to right; one that fails could be left out, and it
is what makes a request fail. Jobs with outputs of their own, which are no inputs, do in every
order what they would do alone, and leave the same behind. -/
theorem runJobs_isolated (tables : SideTables) :
    (∀ job fs, Job.Ends tables job fs (job.runOn tables fs)) ∧
      (∀ jobs fs, runJobsOn tables jobs fs = jobs.foldl (Job.next tables) ([], fs)) ∧
      (∀ before job after fs fault,
        (Job.runOn tables job (runJobsOn tables before fs).2).1 = .error fault →
          ∃ earlier later fs', earlier.length = before.length ∧
            runJobsOn tables (before ++ after) fs = (earlier ++ later, fs') ∧
            runJobsOn tables (before ++ job :: after) fs =
              (earlier ++ .error fault :: later, fs')) ∧
      (∀ (r : Command.ConvertRequest) fs, ¬ (r.output.isSome ∧ 1 < r.inputs.length) →
        r.tablesOn fs = .ok tables →
          (r.runOn fs).2 = (runJobsOn tables r.jobs fs).2 ∧
          ((r.runOn fs).1.status = .failure ∧
              (∃ fault, .error fault ∈ (runJobsOn tables r.jobs fs).1) ∨
            (r.runOn fs).1.status = .success ∧
              ∀ outcome ∈ (runJobsOn tables r.jobs fs).1, ∃ loaded, outcome = .ok loaded)) ∧
      ∀ (jobs : List Job) (fs : FileSystem), (jobs.map Job.output).Nodup →
        (∀ path ∈ jobs.map Job.output, path ∉ jobs.map Job.input) →
        fs.IsMapFor (jobs.map Job.output) (jobs.map Job.input ++ jobs.map Job.output) →
          ∀ jobs', jobs'.Perm jobs →
            ActAlone tables fs jobs' (runJobsOn tables jobs' fs) ∧
            ∀ location, (runJobsOn tables jobs' fs).2.lookup location =
              (runJobsOn tables jobs fs).2.lookup location := by
  refine ⟨fun job fs => job.ends_runOn tables fs, ?_, ?_, ?_, ?_⟩
  · intro jobs fs
    rw [foldl_next, List.nil_append]
  · intro before job after fs fault h
    exact runJobsOn_of_error tables h
  · intro r fs houtput htables
    rw [Command.ConvertRequest.runOn_of_tablesOn houtput htables]
    exact ⟨rfl, Command.status_convertReport _ _ _⟩
  · intro jobs fs hnodup hinputs hmap jobs' hperm
    have hunseen := pairwise_unseenBy hnodup hinputs hmap
    have hunseen' := (hperm.pairwise_iff fun h => ⟨h.2, h.1⟩).mpr hunseen
    have halone := actAlone_runJobsOn tables hunseen
    have halone' := actAlone_runJobsOn tables hunseen'
    exact ⟨halone', halone.lookup_eq tables halone' hperm⟩

/-- A file that can be converted, and one that cannot and whose output exists already. -/
def mixedFiles : FileSystem :=
  .ofFiles ["home".toList]
    [("a.smd", some (singleTrackFile [0x98])), ("b.smd", some [0x00]), ("b.mid", some [0x2A])]

/-- A request for both of them, and for a file that is missing. -/
def mixedRequest : Command.ConvertRequest :=
  ⟨["a.smd", "b.smd", "c.smd"], none, "midimap.bin", "drummap.bin", "transpose.bin", false⟩

/-- The conversion that is done. -/
def doneJob : Job := ⟨"a.smd", "a.mid"⟩

/-- The conversion of what is no sequence. -/
def brokenJob : Job := ⟨"b.smd", "b.mid"⟩

/-- The conversion of the missing file. -/
def missingJob : Job := ⟨"c.smd", "c.mid"⟩

/-- The jobs of the request. -/
def mixedJobs : List Job := [doneJob, brokenJob, missingJob]

theorem jobs_mixedRequest : mixedRequest.jobs = mixedJobs := by
  decide +kernel

theorem tablesOn_mixedFiles : mixedRequest.tablesOn mixedFiles = .ok .default := by
  rfl

theorem isMapFor_mixedJobs : mixedFiles.IsMapFor (mixedJobs.map Job.output)
    (mixedJobs.map Job.input ++ mixedJobs.map Job.output) := by
  apply FileSystem.isMapFor_of_isFileName
  · unfold FileSystem.IsFileName
    decide
  · unfold FileSystem.IsFileName
    decide

theorem isOk_doneJob : (doneJob.runOn .default mixedFiles).1.isOk = true := by
  decide +kernel

theorem isOk_brokenJob : (brokenJob.runOn .default mixedFiles).1.isOk = false := by
  decide +kernel

theorem isOk_missingJob : (missingJob.runOn .default mixedFiles).1.isOk = false := by
  decide +kernel

/-- The request fails, and done in the opposite order its jobs leave one new file all the same. -/
theorem runJobs_isolated_mixedJobs :
    mixedRequest.tablesOn mixedFiles = .ok .default ∧
      (mixedRequest.runOn mixedFiles).1.status = .failure ∧
      (mixedJobs.map Job.output).Nodup ∧
      (∀ path ∈ mixedJobs.map Job.output, path ∉ mixedJobs.map Job.input) ∧
      mixedFiles.IsMapFor (mixedJobs.map Job.output)
        (mixedJobs.map Job.input ++ mixedJobs.map Job.output) ∧
      (runJobsOn .default mixedJobs.reverse mixedFiles).1.map Except.isOk = [false, false, true] ∧
      (∃ file, convert .default (singleTrackFile [0x98]) = .ok file ∧
        (runJobsOn .default mixedJobs.reverse mixedFiles).2.lookup
          (mixedFiles.place "a.mid") = some (.file file)) ∧
      (runJobsOn .default mixedJobs.reverse mixedFiles).2.lookup
        (mixedFiles.place "b.mid") = some (.file [0x2A]) ∧
      (runJobsOn .default mixedJobs.reverse mixedFiles).2.lookup
        (mixedFiles.place "c.mid") = none := by
  obtain ⟨-, -, -, hrequest, horder⟩ := runJobs_isolated .default
  have hnodup : (mixedJobs.map Job.output).Nodup := by decide
  have hinputs : ∀ path ∈ mixedJobs.map Job.output, path ∉ mixedJobs.map Job.input := by decide
  have halone := fun jobs hperm =>
    (horder mixedJobs mixedFiles hnodup hinputs isMapFor_mixedJobs jobs hperm).1
  have hreverse := halone mixedJobs.reverse (List.reverse_perm _)
  refine ⟨tablesOn_mixedFiles, ?_, hnodup, hinputs, isMapFor_mixedJobs, ?_, ?_, ?_, ?_⟩
  · obtain ⟨-, ⟨hstatus, -⟩ | ⟨-, hall⟩⟩ :=
      hrequest mixedRequest mixedFiles (by decide) tablesOn_mixedFiles
    · exact hstatus
    · have hbroken := isOk_brokenJob
      rw [jobs_mixedRequest, (halone mixedJobs (.refl _)).outcomes_eq] at hall
      obtain ⟨loaded, hloaded⟩ :=
        hall _ (List.mem_map_of_mem (show brokenJob ∈ mixedJobs by decide))
      rw [hloaded] at hbroken
      cases hbroken
  · rw [hreverse.outcomes_eq]
    show [(missingJob.runOn .default mixedFiles).1.isOk, (brokenJob.runOn .default mixedFiles).1.isOk,
      (doneJob.runOn .default mixedFiles).1.isOk] = _
    rw [isOk_missingJob, isOk_brokenJob, isOk_doneJob]
  · have hdone := isOk_doneJob
    obtain ⟨loaded, hloaded⟩ : ∃ loaded, (doneJob.runOn .default mixedFiles).1 = .ok loaded := by
      cases houtcome : (doneJob.runOn .default mixedFiles).1 with
      | ok loaded => exact ⟨loaded, rfl⟩
      | error fault =>
        rw [houtcome] at hdone
        cases hdone
    obtain ⟨data, file, hread, hconvert, hleft⟩ :=
      (doneJob.ends_runOn .default mixedFiles).lookup_place_of_ok hloaded
    have hsource : mixedFiles.read doneJob.input = .ok (singleTrackFile [0x98]) := by
      decide +kernel
    obtain rfl := Except.ok.inj (hread.symm.trans hsource)
    exact ⟨file, hconvert, (hreverse.lookup_place doneJob (by decide)).trans hleft⟩
  · refine (hreverse.lookup_place brokenJob (by decide)).trans ?_
    decide +kernel
  · refine (hreverse.lookup_place missingJob (by decide)).trans ?_
    decide +kernel

end DseMidi
