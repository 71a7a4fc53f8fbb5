import BidiSheet.Proofs.Task

/-!
# Batches in any order

The steps of a batch may be taken in any order. If the batch succeeds under one schedule, it succeeds under every
other one, with the same reports and the same files (`convertTree_interleaved`).

Two invariants carry this. Of a run without a fault, `Follows` says that each task is a job as far as it has come:
what it has read is what was there in the beginning, and its output has been opened where the name of the output says.
So at the end of such a run every stylesheet has a job that fits the disk as it was (`exists_fits_of_run`).
Of jobs that fit, `Stage` says that which files have been opened and written follows from how far each task has come,
and that all else is as it was. In every stage each task can take its next step, because neither what it reads nor
where it writes depends on what the others have written. So a run of such jobs succeeds, whatever its order is
(`convertTree_of_fits`).
-/

namespace BidiSheet

variable {disk now now' : Disk} {settings : Settings}

namespace Job

/-- A job as a task that has taken some steps. -/
def task (job : Job) : Nat → Task Location
  | 0 => .waiting job.input
  | 1 => .loaded ⟨job.input, job.output, job.sheet⟩
  | 2 => .opened ⟨⟨job.input, job.output, job.sheet⟩, job.target⟩
  | _ => .done job.report

/-- What the output of a job holds after some steps, if it has been opened. -/
def held (job : Job) : Nat → Option Bytes
  | 0 | 1 => none
  | 2 => some []
  | _ => some (bytes job.sheet.text)

variable {job : Job}

/-- After all its steps a job is done. -/
theorem task_of_le {k : Nat} (h : Task.steps ≤ k) : job.task k = .done job.report := by
  obtain ⟨k, rfl⟩ := Nat.exists_eq_add_of_le' h
  rfl

/-- After all its steps a job has written the reflection. -/
theorem held_of_le {k : Nat} (h : Task.steps ≤ k) : job.held k = some (bytes job.sheet.text) := by
  obtain ⟨k, rfl⟩ := Nat.exists_eq_add_of_le' h
  rfl

/-- No task of a job has failed. -/
theorem fault?_task (job : Job) (k : Nat) : (job.task k).fault? = none := by
  unfold task
  split <;> rfl

end Job

/-! ### Runs without a fault -/

/-- A task that has taken some steps without a fault: it is a job as far as it has come, where the job reads and
writes as it would have done on the disk of the beginning. -/
def Task.Follows (disk : Disk) (settings : Settings) (p : Path) (k : Nat) (task : Task Location) : Prop :=
  match k with
  | 0 => task = .waiting p
  | k + 1 => ∃ job : Job, job.Reads disk settings ∧ job.input = p ∧ task = job.task (k + 1) ∧
      (1 ≤ k → job.Fits disk settings)

/-- Writing to an output that has been opened changes nothing else. -/
theorem Job.Fits.grown_overwrite {job : Job} (h : job.Fits disk settings) (hgrown : Disk.Grown settings disk now)
    (bytes : Bytes) : Disk.Grown settings disk (now.overwrite job.target bytes) := by
  unfold Disk.overwrite
  split
  · exact h.grown_put hgrown _
  · exact hgrown

section

variable {p : Path} {k : Nat} {task task' : Task Location} (htree : disk.IsTree) (hsuffix : settings.suffix ≠ [])
  (hslash : '/' ∉ settings.suffix) (hfinds : ∃ q D n, disk.Finds settings p q D n) (hinput : ¬ disk.LinkAt p)
  (houtput : ∀ o, p.output? settings.suffix = some o → ¬ disk.LinkAt o)

include htree hsuffix hslash hfinds hinput houtput

/-- **A step without a fault takes a task further on its job.** -/
theorem Task.Follows.step (h : task.Follows disk settings p k) (hgrown : Disk.Grown settings disk now)
    (hstep : Task.Step settings.style settings.suffix now task task' now') (hfault : task'.fault? = none) :
    task'.Follows disk settings p (k + 1) ∧ Disk.Grown settings disk now' := by
  cases hstep with
  | load hout hread hreflect =>
    match k, h with
    | 0, h =>
      cases h
      obtain ⟨q, D, n, hfinds⟩ := hfinds
      obtain ⟨job, hreads, rfl, rfl, rfl⟩ := exists_reads htree hfinds hinput hgrown hout hread hreflect
      exact ⟨⟨job, hreads, rfl, rfl, fun hle => absurd hle (by simp)⟩, hgrown⟩
    | 1, ⟨job, _, _, htask, _⟩ | 2, ⟨job, _, _, htask, _⟩ | k + 3, ⟨job, _, _, htask, _⟩ => cases htask
  | create hplace =>
    match k, h with
    | 1, ⟨job, hreads, hp, htask, _⟩ =>
      cases htask
      subst hp
      obtain ⟨hfits, rfl⟩ :=
        hreads.fits htree hsuffix hslash (houtput _ (hreads.output?_eq htree)) hgrown hplace
      exact ⟨⟨job, hreads, rfl, rfl, fun _ => hfits⟩, hfits.grown_put hgrown _⟩
    | 2, ⟨job, _, _, htask, _⟩ | k + 3, ⟨job, _, _, htask, _⟩ => cases htask
  | write state =>
    match k, h with
    | 2, ⟨job, hreads, hp, htask, hfits⟩ =>
      cases htask
      have hfits := hfits le_rfl
      exact ⟨⟨job, hreads, hp, rfl, fun _ => hfits⟩, hfits.grown_overwrite hgrown _⟩
    | 1, ⟨job, _, _, htask, _⟩ | k + 3, ⟨job, _, _, htask, _⟩ => cases htask
  | rest report =>
    match k, h with
    | k + 3, ⟨job, hreads, hp, htask, hfits⟩ =>
      exact ⟨⟨job, hreads, hp, htask, fun _ => hfits (by simp)⟩, hgrown⟩
    | 1, ⟨job, _, _, htask, _⟩ | 2, ⟨job, _, _, htask, _⟩ => cases htask
  | fail fault => cases hfault

end

/-- A crew that has met no fault, each of its tasks having taken some steps. -/
structure Underway (disk : Disk) (settings : Settings) (found : List Path) (progress : Nat → Nat)
    (crew : Crew Location) (now : Disk) : Prop where
  length : crew.tasks.length = found.length
  tasks : ∀ i p (task : Task Location), found[i]? = some p → crew.tasks[i]? = some task →
    task.Follows disk settings p (progress i)
  grown : Disk.Grown settings disk now

/-- In the beginning no step has been taken. -/
theorem Underway.start (disk : Disk) (settings : Settings) (found : List Path) :
    Underway disk settings found (fun _ => 0) (Crew.start found) disk where
  length := List.length_map _
  tasks i p task hp htask := by
    rw [Crew.start, List.getElem?_map, hp] at htask
    exact (Option.some.inj htask).symm
  grown := .refl _ _

section

variable {found : List Path} {progress : Nat → Nat} {crew : Crew Location} (htree : disk.IsTree)
  (hsuffix : settings.suffix ≠ []) (hslash : '/' ∉ settings.suffix)
  (hfound : ∀ p ∈ found, ∃ q D n, disk.Finds settings p q D n) (hinputs : ∀ p ∈ found, ¬ disk.LinkAt p)
  (houtputs : ∀ p ∈ found, ∀ o, p.output? settings.suffix = some o → ¬ disk.LinkAt o)

include htree hsuffix hslash hfound hinputs houtputs

/-- **A step without a fault leaves the crew underway.** -/
theorem Underway.advance (h : Underway disk settings found progress crew now) (hfault : crew.fault = none) (i : Nat)
    (hfault' : (crew.advance Disk.access settings.style settings.suffix i now).1.fault = none) :
    Underway disk settings found (Function.update progress i (progress i + 1))
      (crew.advance Disk.access settings.style settings.suffix i now).1
      (crew.advance Disk.access settings.style settings.suffix i now).2 := by
  cases htask : crew.tasks[i]? with
  | none =>
    rw [Crew.advance_of_none htask]
    refine ⟨h.length, fun j p task hp htask' => ?_, h.grown⟩
    have hij : j ≠ i := by
      rintro rfl
      rw [htask] at htask'
      cases htask'
    rw [Function.update_of_ne hij]
    exact h.tasks j p task hp htask'
  | some task =>
    obtain ⟨notices, task', now', hrun, hstep⟩ := task.exists_step settings.style settings.suffix now
    have hadvance := Crew.advance_of_step hfault htask hrun
    rw [hadvance] at hfault' ⊢
    have hi : i < found.length := h.length ▸ (List.getElem?_eq_some_iff.mp htask).1
    have hp : found[i]? = some found[i] := List.getElem?_eq_getElem hi
    have hmem := List.getElem_mem hi
    obtain ⟨hfollows, hgrown⟩ := (h.tasks i _ task hp htask).step htree hsuffix hslash (hfound _ hmem)
      (hinputs _ hmem) (houtputs _ hmem) h.grown hstep hfault'
    refine ⟨(List.length_set ..).trans h.length, fun j p t hj ht => ?_, hgrown⟩
    by_cases hij : j = i
    · subst hij
      rw [List.getElem?_set_self (h.length ▸ hi)] at ht
      rw [hp] at hj
      cases hj
      cases ht
      rw [Function.update_self]
      exact hfollows
    · rw [List.getElem?_set_ne (Ne.symm hij)] at ht
      rw [Function.update_of_ne hij]
      exact h.tasks j p t hj ht

/-- **If a batch meets no fault, every stylesheet has a job that fits** the disk as it was before. -/
theorem exists_fits_of_run {order : List Nat} (horder : ∀ i < found.length, Task.steps ≤ order.count i)
    (hfault : ((Crew.start found).run Disk.access settings.style settings.suffix order disk).1.fault = none) :
    ∀ p ∈ found, ∃ job : Job, job.Fits disk settings ∧ job.input = p := by
  have hend := Crew.run_induction
    (P := fun progress crew now => crew.fault = none → Underway disk settings found progress crew now)
    (fun progress crew now i h hnone => (h (Crew.fault_of_advance hnone)).advance htree hsuffix hslash hfound hinputs
      houtputs (Crew.fault_of_advance hnone) i hnone)
    (fun _ => Underway.start disk settings found) order hfault
  intro p hp
  obtain ⟨i, hi, rfl⟩ := List.getElem_of_mem hp
  have hcount := horder i hi
  have hfollows := hend.tasks i _ _ (List.getElem?_eq_getElem hi) (List.getElem?_eq_getElem (hend.length ▸ hi))
  obtain ⟨k, hk⟩ := Nat.exists_eq_add_of_le' hcount
  rw [Nat.zero_add, hk] at hfollows
  obtain ⟨job, -, hjob, -, hfits⟩ := hfollows
  exact ⟨job, hfits (by simp), hjob⟩

end

/-! ### Stages -/

/-- Some jobs, each of which has taken some steps: of the outputs, those that have been opened hold what they should,
and all else is as it was. Nothing new is listed if all outputs were there before. -/
structure Stage (disk : Disk) (settings : Settings) (jobs : List Job) (progress : Nat → Nat) (crew : Crew Location)
    (now : Disk) : Prop where
  tasks : crew.tasks = jobs.mapIdx fun i job => job.task (progress i)
  fault : crew.fault = none
  isTree : now.IsTree
  grown : Disk.Grown settings disk now
  held : ∀ i (job : Job) b, jobs[i]? = some job → job.held (progress i) = some b → now.node? job.target = some (.file b)
  kept : ∀ l, l ∉ jobs.map Job.target → now.node? l = disk.node? l
  listed : jobs.map Job.target ⊆ disk.nodes.map Prod.fst → now.nodes.map Prod.fst = disk.nodes.map Prod.fst

variable {jobs : List Job} {progress : Nat → Nat} {crew : Crew Location}

/-- In the beginning no step has been taken. -/
theorem Stage.start (htree : disk.IsTree) (settings : Settings) (jobs : List Job) :
    Stage disk settings jobs (fun _ => 0) (Crew.start (jobs.map Job.input)) disk where
  tasks := by
    refine List.ext_getElem? fun i => ?_
    rw [Crew.start, List.getElem?_mapIdx, List.getElem?_map, List.getElem?_map, Option.map_map]
    rfl
  fault := rfl
  isTree := htree
  grown := .refl _ _
  held _ _ _ _ h := nomatch h
  kept _ _ := rfl
  listed _ := rfl

/-- The tasks after one of them has taken a step. -/
theorem set_mapIdx_task {i : Nat} {job : Job} (hjob : jobs[i]? = some job) (k : Nat) :
    (jobs.mapIdx fun i job => job.task (progress i)).set i (job.task k)
      = jobs.mapIdx fun j job => job.task (Function.update progress i k j) := by
  refine List.ext_getElem? fun j => ?_
  rw [List.getElem?_set, List.getElem?_mapIdx, List.getElem?_mapIdx, List.length_mapIdx]
  by_cases hij : i = j
  · subst hij
    obtain ⟨hlt, rfl⟩ := List.getElem?_eq_some_iff.mp hjob
    simp [hlt]
  · simp [hij, Ne.symm hij]

/-- No two jobs have one output. -/
theorem index_eq_of_target_eq (hnodup : (jobs.map Job.target).Nodup) {i j : Nat} {job job' : Job}
    (hi : jobs[i]? = some job) (hj : jobs[j]? = some job') (h : job.target = job'.target) : i = j := by
  have hlt : i < (jobs.map Job.target).length := by
    rw [List.length_map]
    exact (List.getElem?_eq_some_iff.mp hi).1
  refine (List.getElem?_inj hlt hnodup).mp ?_
  rw [List.getElem?_map, List.getElem?_map, hi, hj, Option.map_some, Option.map_some, h]

/-- **The next step of a job can be taken.** It leaves the disk as it is, or puts into the output what the output is to
hold after it. -/
theorem Job.Fits.exists_step {job : Job} (h : job.Fits disk settings) (htree : disk.IsTree)
    (hgrown : Disk.Grown settings disk now) (k : Nat)
    (hheld : ∀ b, job.held k = some b → now.node? job.target = some (.file b)) :
    ∃ notices now', (job.task k).step Disk.access settings.style settings.suffix now
        = ((notices, job.task (k + 1)), now') ∧
      (job.held (k + 1) = job.held k ∧ now' = now ∨
        ∃ b, job.held (k + 1) = some b ∧ now' = now.put job.target (.file b)) := by
  match k with
  | 0 =>
    have hload := load_of_ok (h.output?_eq htree) (h.readText_eq htree hgrown) h.reflect
    refine ⟨(settings.style.events job.source).map .sheet, now, ?_, .inl ⟨rfl, rfl⟩⟩
    simp only [task, Task.step, bind, StateT.bind, hload]
    rfl
  | 1 =>
    have hcreate : (⟨job.input, job.output, job.sheet⟩ : Loaded).create Disk.access now
        = (⟨[], .ok ⟨⟨job.input, job.output, job.sheet⟩, job.target⟩⟩, now.put job.target (.file [])) :=
      Loaded.create_of_ok (Disk.create_eq_ok_iff.mp (h.create_eq hgrown)).1
    refine ⟨[], _, ?_, .inr ⟨[], rfl, rfl⟩⟩
    simp only [task, Task.step, bind, StateT.bind, hcreate]
    rfl
  | 2 =>
    -- nothing is left in the output of what was there before
    have hoverwrite : now.overwrite job.target (bytes job.sheet.text)
        = now.put job.target (.file (bytes job.sheet.text)) := by
      rw [Disk.overwrite, hheld [] rfl]
      simp only [List.drop_nil, List.append_nil]
    exact ⟨_, _, rfl, .inr ⟨_, rfl, hoverwrite⟩⟩
  | k + 3 => exact ⟨[], now, rfl, .inl ⟨rfl, rfl⟩⟩

/-- A disk on which some jobs have been done. -/
structure Ran (settings : Settings) (jobs : List Job) (disk later : Disk) : Prop where
  isTree : disk.IsTree
  isTree_later : later.IsTree
  fits : ∀ job ∈ jobs, job.Fits disk settings
  grown : Disk.Grown settings disk later
  written : ∀ job ∈ jobs, later.node? job.target = some (.file (bytes job.sheet.text))
  kept : ∀ l, l ∉ jobs.map Job.target → later.node? l = disk.node? l

/-- What the outputs hold after one of the jobs has taken a step. -/
theorem forall_held_update {P : Job → Bytes → Prop} {i k : Nat} {job : Job} (hjob : jobs[i]? = some job)
    (hself : ∀ b, job.held k = some b → P job b)
    (hother : ∀ j job' b, j ≠ i → jobs[j]? = some job' → job'.held (progress j) = some b → P job' b) :
    ∀ j (job' : Job) b, jobs[j]? = some job' → job'.held (Function.update progress i k j) = some b → P job' b := by
  intro j job' b hj hb
  by_cases hij : j = i
  · subst hij
    rw [hjob] at hj
    cases hj
    rw [Function.update_self] at hb
    exact hself b hb
  · rw [Function.update_of_ne hij] at hb
    exact hother j job' b hij hj hb

/-- The stage is the same for a count of steps that no job takes. -/
theorem Stage.update_of_none (h : Stage disk settings jobs progress crew now) {i : Nat} (hnone : jobs[i]? = none)
    (k : Nat) : Stage disk settings jobs (Function.update progress i k) crew now := by
  have hne : ∀ {j job}, jobs[j]? = some job → j ≠ i := by
    rintro j job hsome rfl
    rw [hnone] at hsome
    cases hsome
  refine { h with tasks := ?_, held := fun j job b hj hb => ?_ }
  · rw [h.tasks]
    refine List.ext_getElem? fun j => ?_
    rw [List.getElem?_mapIdx, List.getElem?_mapIdx]
    refine Option.map_congr fun job hj => ?_
    rw [Function.update_of_ne (hne hj)]
  · rw [Function.update_of_ne (hne hj)] at hb
    exact h.held j job b hj hb

section

variable (htree : disk.IsTree) (hjobs : ∀ job ∈ jobs, job.Fits disk settings)
  (hnodup : (jobs.map Job.target).Nodup)

include hjobs hnodup

/-- The stage after a job has put into its output what the output is to hold. -/
theorem Stage.put (h : Stage disk settings jobs progress crew now) {crew' : Crew Location} {i k : Nat} {job : Job}
    {content : Bytes} (hjob : jobs[i]? = some job) (hcontent : job.held k = some content)
    (htasks : crew'.tasks = jobs.mapIdx fun j job => job.task (Function.update progress i k j))
    (hfault : crew'.fault = none) :
    Stage disk settings jobs (Function.update progress i k) crew' (now.put job.target (.file content)) := by
  have hfits := hjobs job (List.mem_of_getElem? hjob)
  have hput : ∀ l, (now.put job.target (.file content)).node? l
      = if l = job.target then some (.file content) else now.node? l := Disk.node?_put job.target_ne_nil _
  have hmem : job.target ∈ jobs.map Job.target := List.mem_map_of_mem (List.mem_of_getElem? hjob)
  refine ⟨htasks, hfault, ?_, hfits.grown_put h.grown _, forall_held_update hjob (fun b hb => ?_) ?_, fun l hl => ?_,
    fun hall => ?_⟩
  · refine h.isTree.put_file ?_ hfits.isName ?_ _
    · exact (h.grown.isFolder_eq _).trans hfits.finds.isFolder
    · exact (h.grown.isFolder_eq _).trans hfits.isFolder
  · rw [hcontent] at hb
    cases hb
    rw [hput, if_pos rfl]
  · intro j job' b hij hj hb
    rw [hput, if_neg fun heq => hij (index_eq_of_target_eq hnodup hj hjob heq)]
    exact h.held j job' b hj hb
  · have hl' : l ≠ job.target := by
      rintro rfl
      exact hl hmem
    rw [hput, if_neg hl']
    exact h.kept l hl
  · have hlisted := h.listed hall
    rw [Disk.locations_put, hlisted, if_pos (hall hmem)]

include htree

/-- **In every stage, each task can take its next step.** -/
theorem Stage.advance (h : Stage disk settings jobs progress crew now) (i : Nat) :
    Stage disk settings jobs (Function.update progress i (progress i + 1))
      (crew.advance Disk.access settings.style settings.suffix i now).1
      (crew.advance Disk.access settings.style settings.suffix i now).2 := by
  cases hjob : jobs[i]? with
  | none =>
    have htask : crew.tasks[i]? = none := by
      rw [h.tasks, List.getElem?_mapIdx, hjob, Option.map_none]
    rw [Crew.advance_of_none htask]
    exact h.update_of_none hjob _
  | some job =>
    have htask : crew.tasks[i]? = some (job.task (progress i)) := by
      rw [h.tasks, List.getElem?_mapIdx, hjob, Option.map_some]
    obtain ⟨notices, now', hrun, hdisk⟩ := (hjobs job (List.mem_of_getElem? hjob)).exists_step htree h.grown
      (progress i) fun b => h.held i job b hjob
    rw [Crew.advance_of_step h.fault htask hrun]
    have htasks : crew.tasks.set i (job.task (progress i + 1))
        = jobs.mapIdx fun j job => job.task (Function.update progress i (progress i + 1) j) := by
      rw [h.tasks]
      exact set_mapIdx_task hjob _
    have hfault := job.fault?_task (progress i + 1)
    rcases hdisk with ⟨hsame, rfl⟩ | ⟨content, hcontent, rfl⟩
    · refine { h with tasks := htasks, fault := hfault, held := forall_held_update hjob (fun b hb => ?_) ?_ }
      · exact h.held i job b hjob (hsame ▸ hb)
      · exact fun j job' b _ => h.held j job' b
    · exact h.put hjobs hnodup hjob hcontent htasks hfault

/-- In the end all tasks are done, under every schedule. -/
theorem exists_stage (schedule : Schedule) :
    ∃ progress crew later, (Crew.start (jobs.map Job.input)).run Disk.access settings.style settings.suffix
        (schedule.order (jobs.map Job.input).length) disk = (crew, later) ∧
      Stage disk settings jobs progress crew later ∧ ∀ i job, jobs[i]? = some job → Task.steps ≤ progress i := by
  have hend := Crew.run_induction (P := Stage disk settings jobs)
    (fun progress crew now i h => h.advance htree hjobs hnodup i) (Stage.start htree settings jobs)
    (schedule.order (jobs.map Job.input).length)
  refine ⟨_, _, _, rfl, hend, fun i job hi => ?_⟩
  rw [Nat.zero_add, List.length_map]
  exact schedule.steps_le_count_order (List.getElem?_eq_some_iff.mp hi).1

/-- **A batch whose jobs fit succeeds under every schedule.** No place is listed anew if all outputs were there
before. -/
theorem convertTree_of_fits (hfound : (discover disk settings).result = .ok (jobs.map Job.input))
    (schedule : Schedule) :
    (convertTree schedule settings disk).1.result = .ok ⟨jobs.map Job.report⟩ ∧
      Ran settings jobs disk (convertTree schedule settings disk).2 ∧
      (jobs.map Job.target ⊆ disk.nodes.map Prod.fst →
        (convertTree schedule settings disk).2.nodes.map Prod.fst = disk.nodes.map Prod.fst) := by
  obtain ⟨hresult, hdisk⟩ := convertTree_of_discover schedule hfound
  obtain ⟨progress, crew, later, hrun, hstage, hprogress⟩ := exists_stage htree hjobs hnodup schedule
  have htasks : crew.tasks = jobs.map fun job => .done job.report := by
    rw [hstage.tasks]
    refine List.ext_getElem? fun i => ?_
    rw [List.getElem?_mapIdx, List.getElem?_map]
    exact Option.map_congr fun job hjob => Job.task_of_le (hprogress i job hjob)
  have hreports : crew.outcome.result = .ok (jobs.map Job.report) := by
    simp only [Crew.outcome, hstage.fault, htasks, List.filterMap_map]
    refine congrArg Except.ok ?_
    rw [← List.filterMap_eq_map]
    rfl
  rw [hresult, hdisk, convertFiles_eq, hrun, hreports]
  refine ⟨rfl, ⟨htree, hstage.isTree, hjobs, hstage.grown, fun job hjob => ?_, hstage.kept⟩, hstage.listed⟩
  obtain ⟨i, hi⟩ := List.mem_iff_getElem?.mp hjob
  exact hstage.held i job _ hi (Job.held_of_le (hprogress i job hi))

end

/-- Two disks on which the same jobs have been done agree. -/
theorem Ran.agrees {later later' : Disk} (h : Ran settings jobs disk later) (h' : Ran settings jobs disk later') :
    later'.Agrees later := by
  refine ⟨h'.grown.home.trans h.grown.home.symm, fun l => ?_⟩
  by_cases hl : l ∈ jobs.map Job.target
  · obtain ⟨job, hjob, rfl⟩ := List.mem_map.mp hl
    rw [h.written job hjob, h'.written job hjob]
  · rw [h.kept l hl, h'.kept l hl]

/-! ### Any two schedules -/

/-- If a batch succeeds, its stylesheets have jobs that fit, and the batch does them under every schedule. -/
theorem exists_jobs_of_convertTree {found : List Path} {summary : Summary} {schedule : Schedule}
    (htree : disk.IsTree) (hsuffix : settings.suffix ≠ []) (hslash : '/' ∉ settings.suffix)
    (hfound : (discover disk settings).result = .ok found) (hinputs : ∀ p ∈ found, ¬ disk.LinkAt p)
    (houtputs : ∀ p ∈ found, ∀ o, p.output? settings.suffix = some o → ¬ disk.LinkAt o)
    (hok : (convertTree schedule settings disk).1.result = .ok summary) :
    ∃ jobs : List Job, jobs.map Job.input = found ∧ jobs.map Job.report = summary.reports ∧
      (∀ job ∈ jobs, job.Fits disk settings) ∧ (jobs.map Job.target).Nodup ∧
      ∀ schedule', (convertTree schedule' settings disk).1.result = .ok summary ∧
        Ran settings jobs disk (convertTree schedule' settings disk).2 := by
  obtain ⟨hfinds, hentries⟩ := finds_of_discover htree hfound
  have hrun := convertTree_of_discover schedule hfound
  have hfault : ((Crew.start found).run Disk.access settings.style settings.suffix
      (schedule.order found.length) disk).1.fault = none := by
    have hresult := hrun.1.symm.trans hok
    rw [convertFiles_eq] at hresult
    cases hfault : ((Crew.start found).run Disk.access settings.style settings.suffix
        (schedule.order found.length) disk).1.fault with
    | none => rfl
    | some fault =>
      simp only [Crew.outcome, hfault] at hresult
      cases hresult
  have hfits := exists_fits_of_run htree hsuffix hslash hfinds hinputs houtputs
    (fun i hi => schedule.steps_le_count_order hi) hfault
  obtain ⟨jobs, rfl, hjobs⟩ : ∃ jobs : List Job, jobs.map Job.input = found ∧ ∀ job ∈ jobs, job.Fits disk settings := by
    clear hfound hinputs houtputs hfinds hentries hrun hfault
    induction found with
    | nil => exact ⟨[], rfl, fun _ hjob => absurd hjob List.not_mem_nil⟩
    | cons p found ih =>
      obtain ⟨hp, hrest⟩ := List.forall_mem_cons.mp hfits
      obtain ⟨job, hjob, rfl⟩ := hp
      obtain ⟨jobs, rfl, hjobs⟩ := ih hrest
      exact ⟨job :: jobs, rfl, List.forall_mem_cons.mpr ⟨hjob, hjobs⟩⟩
  have hnodup := Job.nodup_targets htree hjobs hentries
  have hdone := convertTree_of_fits htree hjobs hnodup hfound
  obtain rfl : ⟨jobs.map Job.report⟩ = summary := Except.ok.inj ((hdone schedule).1.symm.trans hok)
  exact ⟨jobs, rfl, rfl, hjobs, hnodup, fun schedule' => ⟨(hdone schedule').1, (hdone schedule').2.1⟩⟩

/-- What a report says of the disk before and after: the output is under the name for it and holds the
reflection of what was in the stylesheet, and the stylesheet is as it was. -/
structure Report.Holds (settings : Settings) (before after : Disk) (report : Report) : Prop where
  output : report.input.output? settings.suffix = some report.output
  reflected : ∃ source sheet, before.readText report.input = .ok source ∧
    settings.style.reflect source = .ok sheet ∧ after.readText report.output = .ok sheet.text ∧
      sheet.substitutions = report.substitutions
  kept : after.readText report.input = before.readText report.input

/-- **A batch comes out the same in any order of its steps.** If no stylesheet that is found and no output is a
link, and the batch succeeds under one schedule, then it succeeds under every other one. There is one report for
each stylesheet, in the order in which they were found; each output holds the reflection of what was in its
stylesheet, and nothing else on the disk has changed. -/
theorem convertTree_interleaved {found : List Path} {summary : Summary} {schedule : Schedule} (htree : disk.IsTree)
    (hsuffix : settings.suffix ≠ []) (hslash : '/' ∉ settings.suffix)
    (hfound : (discover disk settings).result = .ok found) (hinputs : ∀ p ∈ found, ¬ disk.LinkAt p)
    (houtputs : ∀ p ∈ found, ∀ o, p.output? settings.suffix = some o → ¬ disk.LinkAt o)
    (hok : (convertTree schedule settings disk).1.result = .ok summary) (schedule' : Schedule) :
    ∃ final, (convertTree schedule' settings disk).2 = final ∧
      (convertTree schedule' settings disk).1.result = .ok summary ∧
      summary.reports.map Report.input = found ∧
      (∀ report ∈ summary.reports, report.Holds settings disk final) ∧
      (∀ l, (∀ report ∈ summary.reports, disk.entryOf report.output ≠ .ok l) → final.node? l = disk.node? l) ∧
      final.Agrees (convertTree schedule settings disk).2 := by
  obtain ⟨jobs, rfl, hreports, hjobs, hnodup, hdone⟩ :=
    exists_jobs_of_convertTree htree hsuffix hslash hfound hinputs houtputs hok
  obtain ⟨hresult, hran⟩ := hdone schedule'
  refine ⟨_, rfl, hresult, ?_, fun report hreport => ?_, fun l hl => ?_, (hdone schedule).2.agrees hran⟩
  · rw [← hreports, List.map_map]
    rfl
  · obtain ⟨job, hjob, rfl⟩ := List.mem_map.mp (hreports ▸ hreport)
    have hfits := hjobs job hjob
    refine ⟨hfits.output?_eq htree, ⟨job.source, job.sheet, hfits.readText, hfits.reflect, ?_, rfl⟩, ?_⟩
    · exact hfits.readText_output hran.grown (hran.written job hjob)
    · exact (hfits.readText_eq htree hran.grown).trans hfits.readText.symm
  · refine hran.kept l fun hmem => ?_
    obtain ⟨job, hjob, rfl⟩ := List.mem_map.mp hmem
    exact hl job.report (hreports ▸ List.mem_map_of_mem hjob) (hjobs job hjob).entryOf_output

/-! ### An example with a folder that is reached through a link -/

/-- A disk with two stylesheets, one of them in a folder that is found under the name of a link. -/
def sharedDisk : Disk where
  home := []
  nodes := [(.ofString "r", .folder), (.ofString "r/a.css", .file (bytes "a\x7bleft:0\x7d".toList)),
    (.ofString "r/s", .folder), (.ofString "r/s/b.css", .file (bytes "b\x7bfloat:right\x7d".toList)),
    (.ofString "r/t", .link (bytes "s".toList))]

def sharedFound : List Path := [.ofString "r/a.css", .ofString "r/t/b.css"]

/-- What is to be done for the two stylesheets. -/
def sharedJobs : List Job :=
  [{ folder := .ofString "r", place := .ofString "r", name := bytes "a.css".toList
     outName := bytes "a-rtl.css".toList, source := "a\x7bleft:0\x7d".toList
     sheet := ⟨"a\x7bright:0\x7d".toList, 1, 1, 0⟩ },
   { folder := .ofString "r/t", place := .ofString "r/s", name := bytes "b.css".toList
     outName := bytes "b-rtl.css".toList, source := "b\x7bfloat:right\x7d".toList
     sheet := ⟨"b\x7bfloat:left\x7d".toList, 1, 1, 0⟩ }]

def sharedReports : List Report :=
  [⟨.ofString "r/a.css", .ofString "r/a-rtl.css", 1⟩, ⟨.ofString "r/t/b.css", .ofString "r/t/b-rtl.css", 1⟩]

/-- Both stylesheets are found, the second one through the link. -/
theorem sharedDisk_discover : (discover sharedDisk linkedSettings).result = .ok sharedFound := by
  have hsorted : sharedFound.mergeSort Path.le = sharedFound := by cbv
  have hrun : Walk.runFor sharedDisk linkedSettings 3 (.start linkedSettings)
      = ⟨[], [.ofString "r/s", .ofString "r"], sharedFound, [.alreadyWalked (.ofString "r/s")], none⟩ := by cbv
  rw [discover_of_runFor 3 hrun, hsorted]

/-- No stylesheet and no output is a link. -/
theorem sharedDisk_not_linkAt : ∀ report ∈ sharedReports,
    ¬ sharedDisk.LinkAt report.input ∧ ¬ sharedDisk.LinkAt report.output := by
  have hlink : ∀ {path : Path} {l : Location}, sharedDisk.entryOf path = .ok l → sharedDisk.isLink l = false →
      ¬ sharedDisk.LinkAt path := fun h hl => by simp [Disk.linkAt_iff h, hl]
  rw [sharedReports, List.forall_mem_cons, List.forall_mem_singleton]
  refine ⟨⟨hlink (l := .ofString "r/a.css") ?_ (by decide +kernel),
    hlink (l := .ofString "r/a-rtl.css") ?_ (by decide +kernel)⟩,
    hlink (l := .ofString "r/s/b.css") ?_ (by decide +kernel),
    hlink (l := .ofString "r/s/b-rtl.css") ?_ (by decide +kernel)⟩ <;> cbv

/-- No stylesheet that is found is a link. -/
theorem sharedDisk_inputs : ∀ p ∈ sharedFound, ¬ sharedDisk.LinkAt p := by
  intro p hp
  obtain ⟨report, hreport, rfl⟩ : ∃ report ∈ sharedReports, report.input = p := List.mem_map.mp hp
  exact (sharedDisk_not_linkAt report hreport).1

/-- No output of a stylesheet that is found is a link. -/
theorem sharedDisk_outputs :
    ∀ p ∈ sharedFound, ∀ o, p.output? linkedSettings.suffix = some o → ¬ sharedDisk.LinkAt o := by
  intro p hp o ho
  have houtputs : sharedFound.map (Path.output? linkedSettings.suffix)
      = sharedReports.map fun report => some report.output := by cbv
  have hmem : p.output? linkedSettings.suffix ∈ sharedFound.map (Path.output? linkedSettings.suffix) :=
    List.mem_map_of_mem hp
  rw [houtputs, ho] at hmem
  obtain ⟨report, hreport, heq⟩ := List.mem_map.mp hmem
  cases heq
  exact (sharedDisk_not_linkAt report hreport).2

/-- There is a job for each stylesheet. -/
theorem sharedJobs_inputs : sharedJobs.map Job.input = sharedFound := by decide +kernel

/-- Both jobs fit. -/
theorem sharedJobs_fit : ∀ job ∈ sharedJobs, job.Fits sharedDisk linkedSettings := by
  intro job hjob
  have hlink : ¬ sharedDisk.LinkAt job.input :=
    sharedDisk_inputs _ (sharedJobs_inputs ▸ List.mem_map_of_mem hjob)
  rw [sharedJobs, List.mem_cons, List.mem_singleton] at hjob
  have hresolve : sharedDisk.resolve job.input = .ok (job.place ++ [job.name]) := by
    rcases hjob with rfl | rfl <;> cbv
  rcases hjob with rfl | rfl <;> exact {
    finds := ⟨rfl, by cbv, by decide +kernel, by decide +kernel, by decide +kernel, _, hresolve, by decide +kernel⟩
    not_linkAt := hlink
    readText := Disk.readText_of_resolve hresolve (by decide +kernel)
    reflect := by decide +kernel
    outName := by decide +kernel
    isName := by decide +kernel
    size := by decide +kernel
    accepted := by decide +kernel
    isFolder := by decide +kernel
    isLink := by decide +kernel }

/-- The two stylesheets are converted under every schedule. -/
theorem sharedDisk_convertTree (schedule : Schedule) :
    (convertTree schedule linkedSettings sharedDisk).1.result = .ok ⟨sharedReports⟩ ∧
      Ran linkedSettings sharedJobs sharedDisk (convertTree schedule linkedSettings sharedDisk).2 := by
  have hreports : sharedJobs.map Job.report = sharedReports := by decide +kernel
  have hdone := convertTree_of_fits (by decide +kernel) sharedJobs_fit (by decide +kernel)
    (sharedJobs_inputs ▸ sharedDisk_discover) schedule
  rw [hreports] at hdone
  exact ⟨hdone.1, hdone.2.1⟩

/-- Both stylesheets are read before either output is opened, and written in the other order. -/
def crossed : Schedule := fun _ => [0, 1, 1, 0, 1, 0]

/-- Here the crossed steps come out as those of one stylesheet after the other do. -/
theorem convertTree_interleaved_sharedDisk :
    ∃ final, (convertTree crossed linkedSettings sharedDisk).2 = final ∧
      (convertTree crossed linkedSettings sharedDisk).1.result = .ok ⟨sharedReports⟩ ∧
      sharedReports.map Report.input = sharedFound ∧
      (∀ report ∈ sharedReports, report.Holds linkedSettings sharedDisk final) ∧
      (∀ l, (∀ report ∈ sharedReports, sharedDisk.entryOf report.output ≠ .ok l) →
        final.node? l = sharedDisk.node? l) ∧
      final.Agrees (convertTree .inTurn linkedSettings sharedDisk).2 := by
  exact convertTree_interleaved (by decide +kernel) (by decide +kernel) (by decide +kernel) sharedDisk_discover
    sharedDisk_inputs sharedDisk_outputs (sharedDisk_convertTree .inTurn).1 crossed

end BidiSheet
