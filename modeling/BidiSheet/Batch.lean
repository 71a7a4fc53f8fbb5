import BidiSheet.Sheet
import BidiSheet.Walk

/-!
# Batches

A batch finds the stylesheets under a folder and writes the reflection of each beside it.

The stylesheets are converted at the same time. Each is a `Task` of three steps: it is read and reflected, its
output is opened, which leaves nothing in that file, and the reflection is written. A `Schedule` says in which
order the steps of different tasks are taken. When a task fails, no other one is begun, but those that have
begun are finished; what has been written stays.

What a batch needs of a file system is an `Access`. A disk has one (`Disk.access`).

* `discover` finds the stylesheets that want reflecting, in the order of their paths.
* `convertFile` reflects one stylesheet, `convertTree` all that are found.
-/

namespace BidiSheet

/-- Why a batch stops. -/
inductive BatchFault where
  /-- The operation on this path failed. -/
  | disk (path : Path) (fault : DiskFault)
  /-- The reflection of the stylesheet at this path could not be unmasked. -/
  | unmask (path : Path) (fault : Masked.Fault)
  /-- There is no name for an output. -/
  | noOutputName (path : Path)
  deriving DecidableEq, Repr

namespace BatchFault

/-- The wording of a fault. -/
def message : BatchFault → String
  | .disk path _ => "I/O error on " ++ path.toString
  | .unmask path _ => "failed to flip " ++ path.toString
  | .noOutputName path => path.toString ++ " has no file name to derive an output name from"

/-- The wording of what lies behind a fault. -/
def cause? : BatchFault → Option String
  | .disk _ fault => some fault.message
  | .unmask _ fault => some fault.message
  | .noOutputName _ => none

end BatchFault

/-- The result of a part of a batch, and what was reported on the way. -/
structure Logged (α : Type) where
  notices : List Notice
  result : Except BatchFault α

/-- One part of a batch after another. The second one is left out if the first one fails. -/
def Logged.andThen {m : Type → Type} [Monad m] {α β : Type} (part : m (Logged α)) (next : α → m (Logged β)) :
    m (Logged β) := do
  let first ← part
  match first.result with
  | .error fault => return ⟨first.notices, .error fault⟩
  | .ok a =>
    let second ← next a
    return ⟨first.notices ++ second.notices, second.result⟩

/-! ### Finding stylesheets -/

/-- What a search has found, in the order of the paths. -/
def Walk.outcome (w : Walk) : Logged (List Path) :=
  ⟨w.notices, match w.stop with
    | none => .ok (w.found.mergeSort Path.le)
    | some (path, fault) => .error (.disk path fault)⟩

/-- The stylesheets below the root that want reflecting, in the order of their paths. -/
def discover (disk : Disk) (settings : Settings) : Logged (List Path) :=
  (Walk.run disk settings (.start settings)).outcome

/-! ### Converting a stylesheet -/

/-- The report on one stylesheet. -/
structure Report where
  input : Path
  output : Path
  substitutions : Nat
  deriving DecidableEq, Repr

/-- What a batch needs of a file system. -/
structure Access (m : Type → Type) (Handle : Type) where
  readText : Path → m (Except DiskFault Text)
  /-- Opens a file to be written. If there is one already, nothing is left in it. -/
  create : Path → m (Except DiskFault Handle)
  /-- Writes a text to a file that was opened, from its beginning on. -/
  write : Handle → Text → m (Except DiskFault Unit)

/-- The access that a disk gives. A file that was opened is known by its location. -/
def Disk.access : Access (StateM Disk) Location where
  readText path := fun disk => (disk.readText path, disk)
  create path := fun disk =>
    match disk.create path with
    | .error fault => (.error fault, disk)
    | .ok (loc, disk) => (.ok loc, disk)
  write loc t := fun disk => (.ok (), disk.overwrite loc (bytes t))

/-- A stylesheet that has been read and reflected, and where its reflection is to be written. -/
structure Loaded where
  input : Path
  output : Path
  sheet : Sheet
  deriving DecidableEq, Repr

/-- A stylesheet whose output has been opened. -/
structure Opened (Handle : Type) extends Loaded where
  handle : Handle
  deriving DecidableEq, Repr

section

variable {m : Type → Type} [Monad m] {Handle : Type}

/-- Reads and reflects the stylesheet at a path. -/
def load (access : Access m Handle) (style : Style) (suffix : Text) (input : Path) : m (Logged Loaded) :=
  match input.output? suffix with
  | none => return ⟨[], .error (.noOutputName input)⟩
  | some output => do
    match ← access.readText input with
    | .error fault => return ⟨[], .error (.disk input fault)⟩
    | .ok source =>
      return ⟨(style.events source).map .sheet, match style.reflect source with
        | .error fault => .error (.unmask input fault)
        | .ok sheet => .ok ⟨input, output, sheet⟩⟩

/-- Opens the output of a stylesheet. -/
def Loaded.create (access : Access m Handle) (loaded : Loaded) : m (Logged (Opened Handle)) := do
  match ← access.create loaded.output with
  | .error fault => return ⟨[], .error (.disk loaded.output fault)⟩
  | .ok handle => return ⟨[], .ok ⟨loaded, handle⟩⟩

/-- Writes the reflection of a stylesheet. -/
def Opened.write (access : Access m Handle) (opened : Opened Handle) : m (Logged Report) := do
  let ⟨⟨input, output, sheet⟩, handle⟩ := opened
  match ← access.write handle sheet.text with
  | .error fault => return ⟨[], .error (.disk output fault)⟩
  | .ok () =>
    return ⟨[.converted input output sheet.substitutions], .ok ⟨input, output, sheet.substitutions⟩⟩

/-- Reflects the stylesheet at a path and writes the result beside it. -/
def convertFile (access : Access m Handle) (style : Style) (suffix : Text) (path : Path) : m (Logged Report) :=
  Logged.andThen (Logged.andThen (load access style suffix path) (·.create access)) (·.write access)

end

/-! ### Converting stylesheets at the same time -/

/-- How far the conversion of one stylesheet has come. -/
inductive Task (Handle : Type) where
  | waiting (input : Path)
  | loaded (state : Loaded)
  | opened (state : Opened Handle)
  | done (report : Report)
  | failed (fault : BatchFault)
  deriving DecidableEq, Repr

namespace Task

variable {m : Type → Type} [Monad m] {Handle : Type}

/-- The report of a task that is done. -/
def report? : Task Handle → Option Report
  | .done report => some report
  | _ => none

/-- The fault of a task that has failed. -/
def fault? : Task Handle → Option BatchFault
  | .failed fault => some fault
  | _ => none

/-- Whether a task has not begun. -/
def isWaiting : Task Handle → Bool
  | .waiting _ => true
  | _ => false

/-- The task that goes on with the result of a step, or has failed with it. -/
def ofResult {α : Type} (next : α → Task Handle) : Except BatchFault α → Task Handle
  | .ok a => next a
  | .error fault => .failed fault

/-- The next step of a task. There is none if it is done or has failed. -/
def step (access : Access m Handle) (style : Style) (suffix : Text) :
    Task Handle → m (List Notice × Task Handle)
  | .waiting input => do
    let part ← load access style suffix input
    return (part.notices, ofResult .loaded part.result)
  | .loaded state => do
    let part ← state.create access
    return (part.notices, ofResult .opened part.result)
  | .opened state => do
    let part ← state.write access
    return (part.notices, ofResult .done part.result)
  | task => return ([], task)

/-- The number of steps that a task takes at most. -/
def steps : Nat := 3

end Task

/-- The tasks of a batch, what they have reported, and the first of their faults. -/
structure Crew (Handle : Type) where
  tasks : List (Task Handle)
  notices : List Notice := []
  fault : Option BatchFault := none

namespace Crew

variable {m : Type → Type} [Monad m] {Handle : Type}

/-- A task for each stylesheet. -/
def start (paths : List Path) : Crew Handle := { tasks := paths.map .waiting }

/-- The next step of one of the tasks. After a fault none is begun. -/
def advance (access : Access m Handle) (style : Style) (suffix : Text) (crew : Crew Handle) (i : Nat) :
    m (Crew Handle) :=
  match crew.tasks[i]? with
  | none => return crew
  | some task =>
    if crew.fault.isSome && task.isWaiting then return crew
    else do
      let (notices, task) ← task.step access style suffix
      return ⟨crew.tasks.set i task, crew.notices ++ notices, crew.fault <|> task.fault?⟩

/-- Steps of the tasks in some order. -/
def run (access : Access m Handle) (style : Style) (suffix : Text) (crew : Crew Handle) (order : List Nat) :
    m (Crew Handle) :=
  order.foldlM (fun crew i => crew.advance access style suffix i) crew

/-- The reports of the tasks, or the first fault. -/
def outcome (crew : Crew Handle) : Logged (List Report) :=
  ⟨crew.notices, match crew.fault with
    | none => .ok (crew.tasks.filterMap Task.report?)
    | some fault => .error fault⟩

end Crew

/-- In which order the steps of so many tasks are taken, each task being named by its number. -/
abbrev Schedule := Nat → List Nat

namespace Schedule

/-- One task after the other. -/
def inTurn : Schedule := fun tasks => (List.range tasks).flatMap (List.replicate Task.steps)

/-- The steps of a schedule, and then all that are left. -/
def order (schedule : Schedule) (tasks : Nat) : List Nat := schedule tasks ++ inTurn tasks

end Schedule

/-! ### Converting a tree -/

/-- The report on a batch: one report for each stylesheet, in the order of their paths. -/
structure Summary where
  reports : List Report
  deriving DecidableEq, Repr

namespace Summary

/-- The number of stylesheets. -/
def files (s : Summary) : Nat := s.reports.length

/-- The number of declarations that were changed. -/
def substitutions (s : Summary) : Nat := s.reports.foldr (fun r n => r.substitutions + n) 0

end Summary

/-- The style of a batch: the standard rules. -/
def Settings.style (settings : Settings) : Style := { urls := settings.urls }

section

variable {m : Type → Type} [Monad m] {Handle : Type}

/-- Reflects the stylesheets at some paths, and writes each result beside its stylesheet. -/
def convertFiles (access : Access m Handle) (schedule : Schedule) (style : Style) (suffix : Text)
    (paths : List Path) : m (Logged (List Report)) := do
  let crew ← (Crew.start paths).run access style suffix (schedule.order paths.length)
  return crew.outcome

/-- Reflects the stylesheets that a search has found. -/
def convertFound (access : Access m Handle) (schedule : Schedule) (settings : Settings)
    (found : Logged (List Path)) : m (Logged Summary) :=
  Logged.andThen (return found) fun paths => do
    let done ← convertFiles access schedule settings.style settings.suffix paths
    return ⟨.converting paths.length settings.root :: done.notices, done.result.map Summary.mk⟩

end

/-- Reflects every stylesheet under the root. -/
def convertTree (schedule : Schedule) (settings : Settings) (disk : Disk) : Logged Summary × Disk :=
  convertFound Disk.access schedule settings (discover disk settings) disk

end BidiSheet
