import BidiSheet.Proofs.Job

/-!
# Steps of a batch

What a step of a task can do on a disk is said once, by `Task.Step`: it reads and reflects the stylesheet, opens the
output or writes it, or it fails, and then the disk stays as it is. A batch takes such steps in the order of its
schedule, and whatever each step preserves holds in the end (`Crew.run_induction`). There the progress of each task is
counted: in the order of any schedule, every task is named at least as often as it has steps
(`Schedule.steps_le_count_order`).

If there is only one stylesheet, the schedule does not matter, and the batch does what `convertFile` does
(`convertFiles_singleton`).
-/

namespace BidiSheet

variable {style : Style} {suffix : Text} {disk disk' : Disk}

/-! ### What a step can do -/

/-- What the next step of a task may come to, and the disk after it. -/
inductive Task.Step (style : Style) (suffix : Text) (disk : Disk) :
    Task Location → Task Location → Disk → Prop where
  | load {p output : Path} {source : Text} {sheet : Sheet} (houtput : p.output? suffix = some output)
      (hread : disk.readText p = .ok source) (hreflect : style.reflect source = .ok sheet) :
      Step style suffix disk (.waiting p) (.loaded ⟨p, output, sheet⟩) disk
  | create {state : Loaded} {L : Location} (hplace : disk.place state.output = .ok L) :
      Step style suffix disk (.loaded state) (.opened ⟨state, L⟩) (disk.put L (.file []))
  | write (state : Opened Location) :
      Step style suffix disk (.opened state)
        (.done ⟨state.input, state.output, state.sheet.substitutions⟩)
        (disk.overwrite state.handle (bytes state.sheet.text))
  | rest (report : Report) : Step style suffix disk (.done report) (.done report) disk
  | fail {task : Task Location} (fault : BatchFault) : Step style suffix disk task (.failed fault) disk

/-- A stylesheet that can be read and reflected is loaded. -/
theorem load_of_ok {p output : Path} {source : Text} {sheet : Sheet} (houtput : p.output? suffix = some output)
    (hread : disk.readText p = .ok source) (hreflect : style.reflect source = .ok sheet) :
    load Disk.access style suffix p disk
      = (⟨(style.events source).map .sheet, .ok ⟨p, output, sheet⟩⟩, disk) := by
  simp only [load, houtput, Disk.access, bind, StateT.bind, hread, pure, StateT.pure, hreflect]

/-- Loading a stylesheet gives what it says, or fails; the disk stays as it is. -/
theorem load_cases (style : Style) (suffix : Text) (p : Path) (disk : Disk) :
    (∃ notices fault, load Disk.access style suffix p disk = (⟨notices, .error fault⟩, disk)) ∨
    ∃ output source sheet, p.output? suffix = some output ∧ disk.readText p = .ok source ∧
      style.reflect source = .ok sheet ∧ load Disk.access style suffix p disk
        = (⟨(style.events source).map .sheet, .ok ⟨p, output, sheet⟩⟩, disk) := by
  cases houtput : p.output? suffix with
  | none => exact .inl ⟨_, _, by simp only [load, houtput]; rfl⟩
  | some output =>
    cases hread : disk.readText p with
    | error fault =>
      exact .inl ⟨_, _, by simp only [load, houtput, Disk.access, bind, StateT.bind, hread]; rfl⟩
    | ok source =>
      cases hreflect : style.reflect source with
      | error fault =>
        exact .inl ⟨_, _, by
          simp only [load, houtput, Disk.access, bind, StateT.bind, hread, hreflect]
          rfl⟩
      | ok sheet =>
        exact .inr ⟨output, source, sheet, rfl, rfl, hreflect, load_of_ok houtput hread hreflect⟩

/-- An output that has a place is opened there. -/
theorem Loaded.create_of_ok {state : Loaded} {L : Location} (h : disk.place state.output = .ok L) :
    state.create Disk.access disk = (⟨[], .ok ⟨state, L⟩⟩, disk.put L (.file [])) := by
  have hcreate := Disk.create_eq_ok_iff.mpr ⟨h, rfl⟩
  simp only [Loaded.create, Disk.access, bind, StateT.bind, hcreate, pure, StateT.pure]

/-- An output is opened, or opening it fails and the disk stays as it is. -/
theorem Loaded.create_cases (state : Loaded) (disk : Disk) :
    (∃ fault, state.create Disk.access disk = (⟨[], .error fault⟩, disk)) ∨
    ∃ L, disk.place state.output = .ok L ∧
      state.create Disk.access disk = (⟨[], .ok ⟨state, L⟩⟩, disk.put L (.file [])) := by
  cases hplace : disk.place state.output with
  | error fault =>
    have hcreate : disk.create state.output = .error fault := by
      rw [Disk.create, hplace]
      rfl
    exact .inl ⟨_, by simp only [Loaded.create, Disk.access, bind, StateT.bind, hcreate]; rfl⟩
  | ok L => exact .inr ⟨L, rfl, Loaded.create_of_ok hplace⟩

/-- What was opened is written. -/
theorem Opened.write_eq (state : Opened Location) (disk : Disk) :
    state.write Disk.access disk
      = (⟨[.converted state.input state.output state.sheet.substitutions],
          .ok ⟨state.input, state.output, state.sheet.substitutions⟩⟩,
        disk.overwrite state.handle (bytes state.sheet.text)) := rfl

/-- **What a step of a task does.** -/
theorem Task.exists_step (style : Style) (suffix : Text) (task : Task Location) (disk : Disk) :
    ∃ notices task' disk', task.step Disk.access style suffix disk = ((notices, task'), disk') ∧
      Task.Step style suffix disk task task' disk' := by
  cases task with
  | waiting p =>
    rcases load_cases style suffix p disk with ⟨notices, fault, hload⟩ |
      ⟨output, source, sheet, houtput, hread, hreflect, hload⟩
    · exact ⟨notices, .failed fault, disk, by simp only [step, bind, StateT.bind, hload]; rfl, .fail fault⟩
    · exact ⟨_, _, disk, by simp only [step, bind, StateT.bind, hload]; rfl, .load houtput hread hreflect⟩
  | loaded state =>
    rcases state.create_cases disk with ⟨fault, hcreate⟩ | ⟨L, hplace, hcreate⟩
    · exact ⟨[], .failed fault, disk, by simp only [step, bind, StateT.bind, hcreate]; rfl, .fail fault⟩
    · exact ⟨[], _, _, by simp only [step, bind, StateT.bind, hcreate]; rfl, .create hplace⟩
  | opened state => exact ⟨_, _, _, rfl, .write state⟩
  | done report => exact ⟨[], _, disk, rfl, .rest report⟩
  | failed fault => exact ⟨[], _, disk, rfl, .fail fault⟩

/-! ### Steps of a crew -/

namespace Crew

variable {crew : Crew Location} {i : Nat} {task : Task Location}

/-- There is no step for a task that there is not. -/
theorem advance_of_none (h : crew.tasks[i]? = none) :
    crew.advance Disk.access style suffix i disk = (crew, disk) := by
  unfold advance
  rw [h]
  rfl

/-- As long as there is no fault, the next step of a task can be taken. -/
theorem advance_of_step (hfault : crew.fault = none) (htask : crew.tasks[i]? = some task) {notices : List Notice}
    {task' : Task Location} (h : task.step Disk.access style suffix disk = ((notices, task'), disk')) :
    crew.advance Disk.access style suffix i disk
      = (⟨crew.tasks.set i task', crew.notices ++ notices, task'.fault?⟩, disk') := by
  unfold advance
  rw [htask, hfault]
  simp only [Option.isSome_none, Bool.false_and, Bool.false_eq_true, if_false, bind, StateT.bind, h]
  rfl

/-- A fault is not forgotten. -/
theorem fault_of_advance (h : (crew.advance Disk.access style suffix i disk).1.fault = none) :
    crew.fault = none := by
  cases hfault : crew.fault with
  | none => rfl
  | some fault =>
    exfalso
    cases htask : crew.tasks[i]? with
    | none =>
      rw [advance_of_none htask, hfault] at h
      cases h
    | some task =>
      obtain ⟨notices, task', disk', hstep, -⟩ := task.exists_step style suffix disk
      cases hwaiting : task.isWaiting <;>
        simp [advance, htask, hfault, hwaiting, bind, StateT.bind, hstep, pure, StateT.pure] at h

/-- The task whose turn it is takes a step, and the others go on behind it. -/
theorem run_cons (crew : Crew Location) (i : Nat) (order : List Nat) (disk : Disk) :
    crew.run Disk.access style suffix (i :: order) disk
      = (crew.advance Disk.access style suffix i disk).1.run Disk.access style suffix order
          (crew.advance Disk.access style suffix i disk).2 := rfl

/-- **What each step preserves holds in the end**, where it may depend on how many steps each task has been given. -/
theorem run_induction {P : (Nat → Nat) → Crew Location → Disk → Prop}
    (hstep : ∀ progress crew disk i, P progress crew disk →
      P (Function.update progress i (progress i + 1)) (crew.advance Disk.access style suffix i disk).1
        (crew.advance Disk.access style suffix i disk).2)
    {progress : Nat → Nat} {crew : Crew Location} {disk : Disk} (h : P progress crew disk) (order : List Nat) :
    P (fun i => progress i + order.count i) (crew.run Disk.access style suffix order disk).1
      (crew.run Disk.access style suffix order disk).2 := by
  induction order generalizing progress crew disk with
  | nil => exact h
  | cons i order ih =>
    have hcount : (fun j => Function.update progress i (progress i + 1) j + order.count j)
        = fun j => progress j + (i :: order).count j := by
      funext j
      by_cases hij : j = i
      · subst hij
        rw [Function.update_self, List.count_cons_self]
        omega
      · rw [Function.update_of_ne hij, List.count_cons_of_ne (Ne.symm hij)]
    rw [run_cons, ← hcount]
    exact ih (hstep progress crew disk i h)

end Crew

/-- **A schedule gives every task all its steps.** -/
theorem Schedule.steps_le_count_order (schedule : Schedule) {tasks i : Nat} (h : i < tasks) :
    Task.steps ≤ (schedule.order tasks).count i := by
  have hsub : (List.replicate Task.steps i).Sublist (inTurn tasks) :=
    List.sublist_flatten_of_mem (List.mem_map_of_mem (List.mem_range.mpr h))
  have hcount := hsub.count_le i
  rw [List.count_replicate_self] at hcount
  rw [order, List.count_append]
  omega

/-! ### Converting files -/

/-- A batch starts its tasks, runs them by the schedule and collects what they answer. -/
theorem convertFiles_eq (schedule : Schedule) (style : Style) (suffix : Text) (paths : List Path) (disk : Disk) :
    convertFiles Disk.access schedule style suffix paths disk
      = ((((Crew.start paths).run Disk.access style suffix (schedule.order paths.length) disk).1).outcome,
          ((Crew.start paths).run Disk.access style suffix (schedule.order paths.length) disk).2) := rfl

/-- A batch succeeds if the stylesheets it finds can be converted, and then leaves the disk as that does. -/
theorem convertTree_of_discover {settings : Settings} {found : List Path} (schedule : Schedule)
    (h : (discover disk settings).result = .ok found) :
    (convertTree schedule settings disk).1.result
        = (convertFiles Disk.access schedule settings.style settings.suffix found disk).1.result.map Summary.mk ∧
      (convertTree schedule settings disk).2
        = (convertFiles Disk.access schedule settings.style settings.suffix found disk).2 := by
  unfold convertTree convertFound Logged.andThen
  simp only [bind, StateT.bind, pure, StateT.pure, h]
  exact ⟨rfl, rfl⟩

/-- A stylesheet is converted if it can be read and reflected, and its output be opened. -/
theorem convertFile_of_ok {p output : Path} {source : Text} {sheet : Sheet} {L : Location}
    (houtput : p.output? suffix = some output) (hread : disk.readText p = .ok source)
    (hreflect : style.reflect source = .ok sheet) (hplace : disk.place output = .ok L) :
    (convertFile Disk.access style suffix p disk).1.result = .ok ⟨p, output, sheet.substitutions⟩ ∧
      (convertFile Disk.access style suffix p disk).2
        = (disk.put L (.file [])).overwrite L (bytes sheet.text) := by
  have hload := load_of_ok houtput hread hreflect
  have hcreate : (⟨p, output, sheet⟩ : Loaded).create Disk.access disk
      = (⟨[], .ok ⟨⟨p, output, sheet⟩, L⟩⟩, disk.put L (.file [])) := Loaded.create_of_ok hplace
  unfold convertFile Logged.andThen
  simp only [bind, StateT.bind, hload, hcreate, Opened.write_eq, pure, StateT.pure]
  exact ⟨trivial, trivial⟩

/-! ### A single stylesheet -/

namespace Task

/-- The conversion of a stylesheet after so many steps. -/
def after (style : Style) (suffix : Text) (p : Path) (disk : Disk) : Nat → (List Notice × Task Location) × Disk
  | 0 => (([], .waiting p), disk)
  | k + 1 =>
    let ((notices, task), disk) := after style suffix p disk k
    let ((notices', task), disk) := task.step Disk.access style suffix disk
    ((notices ++ notices', task), disk)

/-- **The steps of a task do what `convertFile` does.** -/
theorem after_steps (style : Style) (suffix : Text) (p : Path) (disk : Disk) :
    after style suffix p disk steps
      = (((convertFile Disk.access style suffix p disk).1.notices,
          ofResult .done (convertFile Disk.access style suffix p disk).1.result),
        (convertFile Disk.access style suffix p disk).2) := by
  unfold convertFile Logged.andThen
  rcases load_cases style suffix p disk with ⟨notices, fault, hload⟩ | ⟨output, source, sheet, -, -, -, hload⟩
  · simp only [steps, after, step, bind, StateT.bind, hload, pure, StateT.pure, ofResult, List.append_nil,
      List.nil_append]
  · rcases Loaded.create_cases ⟨p, output, sheet⟩ disk with ⟨fault, hcreate⟩ | ⟨L, -, hcreate⟩
    · simp only [steps, after, step, bind, StateT.bind, hload, hcreate, pure, StateT.pure, ofResult,
        List.append_nil, List.nil_append]
    · simp only [steps, after, step, bind, StateT.bind, hload, hcreate, Opened.write_eq, pure, StateT.pure, ofResult,
        List.append_nil, List.nil_append]

/-- There is nothing left to do after these steps. -/
theorem after_of_le (style : Style) (suffix : Text) (p : Path) (disk : Disk) {k : Nat} (h : steps ≤ k) :
    after style suffix p disk k = after style suffix p disk steps := by
  induction k, h using Nat.le_induction with
  | base => rfl
  | succ k _ ih =>
    rw [after, ih, after_steps]
    cases (convertFile Disk.access style suffix p disk).1.result <;>
      simp only [ofResult, step, pure, StateT.pure, List.append_nil]

end Task

/-- The next step of the only task. -/
theorem Crew.advance_singleton (task : Task Location) (notices : List Notice) {notices' : List Notice}
    {task' : Task Location} (h : task.step Disk.access style suffix disk = ((notices', task'), disk')) :
    (⟨[task], notices, task.fault?⟩ : Crew Location).advance Disk.access style suffix 0 disk
      = (⟨[task'], notices ++ notices', task'.fault?⟩, disk') := by
  cases task with
  | failed fault =>
    cases h
    rfl
  | waiting _ | loaded _ | opened _ | done _ => exact advance_of_step rfl rfl h

/-- **Any steps bring the only task as far as their number does.** -/
theorem Crew.run_singleton {p : Path} {now : Disk} {notices : List Notice} {task : Task Location} {k : Nat}
    (h : Task.after style suffix p disk k = ((notices, task), now)) (order : List Nat) :
    ∃ notices' task' now', (⟨[task], notices, task.fault?⟩ : Crew Location).run Disk.access style suffix order now
        = (⟨[task'], notices', task'.fault?⟩, now') ∧
      Task.after style suffix p disk (k + order.count 0) = ((notices', task'), now') := by
  induction order generalizing k notices task now with
  | nil => exact ⟨notices, task, now, rfl, h⟩
  | cons i order ih =>
    rw [run_cons]
    by_cases hi : i = 0
    · subst hi
      obtain ⟨notices', task', now', hstep, -⟩ := task.exists_step style suffix now
      have hafter : Task.after style suffix p disk (k + 1) = ((notices ++ notices', task'), now') := by
        simp only [Task.after, h, hstep]
      have hcount : k + (order.count 0 + 1) = k + 1 + order.count 0 := by omega
      rw [advance_singleton task notices hstep, List.count_cons_self, hcount]
      exact ih hafter
    · have hnone : [task][i]? = none := by
        rw [List.getElem?_eq_none_iff, List.length_singleton]
        exact Nat.one_le_iff_ne_zero.mpr hi
      rw [advance_of_none hnone, List.count_cons_of_ne hi]
      exact ih h

/-- **A single stylesheet is converted in the same way under every schedule.** -/
theorem convertFiles_singleton (schedule : Schedule) (style : Style) (suffix : Text) (p : Path) (disk : Disk) :
    (convertFiles Disk.access schedule style suffix [p] disk).1.result
        = (convertFile Disk.access style suffix p disk).1.result.map ([·]) ∧
      (convertFiles Disk.access schedule style suffix [p] disk).2
        = (convertFile Disk.access style suffix p disk).2 := by
  have hstart : Task.after style suffix p disk 0 = (([], .waiting p), disk) := rfl
  obtain ⟨notices, task, now, hrun, hafter⟩ := Crew.run_singleton hstart (schedule.order 1)
  have hcount : Task.steps ≤ 0 + (schedule.order 1).count 0 := by
    rw [Nat.zero_add]
    exact schedule.steps_le_count_order Nat.one_pos
  rw [Task.after_of_le style suffix p disk hcount, Task.after_steps, Prod.mk.injEq, Prod.mk.injEq] at hafter
  obtain ⟨⟨-, rfl⟩, rfl⟩ := hafter
  have hcrew : Crew.start [p] = (⟨[.waiting p], [], (Task.waiting p : Task Location).fault?⟩ : Crew Location) := rfl
  rw [convertFiles_eq, List.length_singleton, hcrew, hrun]
  refine ⟨?_, rfl⟩
  cases (convertFile Disk.access style suffix p disk).1.result <;> rfl

/-- **A batch with a single stylesheet**, if it can be read and reflected and its output be opened. -/
theorem convertTree_of_single {settings : Settings} {p output : Path} {source : Text} {sheet : Sheet} {L : Location}
    (schedule : Schedule) (hfound : (discover disk settings).result = .ok [p])
    (houtput : p.output? settings.suffix = some output) (hread : disk.readText p = .ok source)
    (hreflect : settings.style.reflect source = .ok sheet) (hplace : disk.place output = .ok L) :
    (convertTree schedule settings disk).1.result = .ok ⟨[⟨p, output, sheet.substitutions⟩]⟩ ∧
      (convertTree schedule settings disk).2 = (disk.put L (.file [])).overwrite L (bytes sheet.text) := by
  obtain ⟨hresult, hdisk⟩ := convertTree_of_discover schedule hfound
  obtain ⟨hfiles, hfilesDisk⟩ := convertFiles_singleton schedule settings.style settings.suffix p disk
  obtain ⟨hfile, hfileDisk⟩ := convertFile_of_ok houtput hread hreflect hplace
  rw [hresult, hdisk, hfiles, hfilesDisk, hfile, hfileDisk]
  exact ⟨rfl, rfl⟩

end BidiSheet
