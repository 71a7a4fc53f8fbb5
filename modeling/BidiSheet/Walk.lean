import BidiSheet.Disk.File
import BidiSheet.Notice
import BidiSheet.Path.Output
import BidiSheet.Settings

/-!
# Searching a disk for stylesheets

All folders below a root are searched, links to folders included. The folder that was met last is
searched first. A folder may be reached on several ways, but is searched only once, under the path on
which it is reached first; so links that lead back up do no harm. Links that lead nowhere are skipped.
The search is given up at a folder that cannot be listed, and at a name in a folder that cannot be looked
at because its path has become too long.

A search asks for one folder after the other (`Walk.next?`), and goes on once it is told what is in that folder
(`Walk.resume`), wherever the answer comes from.

* `Walk.enter` searches one folder, given what is in it.
* `Walk.run` searches a disk; it ends because every folder is entered once at most.
-/

namespace BidiSheet

/-- What a name in a folder leads to. -/
inductive Status where
  | folder
  | file
  /-- A link that leads nowhere, and why. -/
  | broken (fault : DiskFault)
  /-- There is no telling, and why. -/
  | unreachable (fault : DiskFault)
  deriving DecidableEq, Repr

/-- What is in a folder, and which folder it is, whatever way led to it. -/
structure Listing where
  real : Location
  entries : List (Bytes × Status)
  deriving DecidableEq, Repr

namespace Disk

/-- What a path leads to, if its last name is that of the entry at a location. -/
def status (disk : Disk) (entry : Location) (path : Path) : Status :=
  match disk.resolve path with
  | .ok loc => if disk.isFolder loc then .folder else .file
  | .error fault =>
    if refusal? path = none ∧ disk.isLink entry then .broken fault else .unreachable fault

/-- The number of bytes in the path of a location from the top folder. -/
def extent (loc : Location) : Nat := loc.foldr (fun name n => name.length + 1 + n) 0

/-- What is in the folder at a path. Neither the path nor that of the folder's location may be too
long. -/
def listing (disk : Disk) (path : Path) : Except DiskFault Listing :=
  match disk.locate path with
  | .error fault => .error fault
  | .ok loc =>
    if pathLimit < max path.raw.length (extent loc) then .error .tooLong
    else if disk.isFolder loc then
      .ok ⟨loc, (disk.names loc).map fun name =>
        (name, disk.status (loc ++ [name]) (path.join name))⟩
    else .error .notFolder

/-- What can be listed is a folder. -/
theorem listing_real {disk : Disk} {path : Path} {listing : Listing}
    (h : disk.listing path = .ok listing) : listing.real ∈ disk.folders := by
  unfold Disk.listing at h
  split at h
  · simp at h
  split at h
  · simp at h
  split at h
  · next hf =>
    cases h
    exact mem_folders hf
  · simp at h

end Disk

/-- A search. -/
structure Walk where
  /-- The folders still to be searched, the next one first. -/
  pending : List Path
  /-- The folders that have been searched. -/
  visited : List Location := []
  /-- The stylesheets found. -/
  found : List Path := []
  /-- What there was to report. -/
  notices : List Notice := []
  /-- The path at which the search was given up, and why. -/
  stop : Option (Path × DiskFault) := none

namespace Walk

/-- The search after it has met a path. A search that was given up meets nothing more. -/
def meet (settings : Settings) (w : Walk) (path : Path) (status : Status) : Walk :=
  if w.stop.isSome then w
  else match status with
  | .folder => { w with pending := path :: w.pending }
  | .broken fault => { w with notices := w.notices ++ [.brokenLink path fault] }
  | .unreachable fault => { w with stop := some (path, fault) }
  | .file =>
    if !path.hasExtension settings.extension then w
    else if path.isOutput settings.suffix then
      { w with notices := w.notices ++ [.skippedOutput path] }
    else { w with found := w.found ++ [path] }

/-- The search after it has come to a folder, given what is in it. -/
def enter (settings : Settings) (w : Walk) (folder : Path) (listing : Listing) : Walk :=
  if listing.real ∈ w.visited then { w with notices := w.notices ++ [.alreadyWalked folder] }
  else
    listing.entries.foldl (fun w (name, status) => w.meet settings (folder.join name) status)
      { w with visited := listing.real :: w.visited }

/-- Meeting an entry searches no folder. -/
theorem visited_meet (settings : Settings) (w : Walk) (path : Path) (status : Status) :
    (w.meet settings path status).visited = w.visited := by
  unfold meet
  split <;> try rfl
  split <;> try rfl
  split <;> try rfl
  split <;> rfl

/-- Meeting entries searches no folder. -/
theorem visited_foldl_meet (settings : Settings) (folder : Path) (entries : List (Bytes × Status))
    (w : Walk) :
    (entries.foldl (fun w (name, status) => w.meet settings (folder.join name) status) w).visited
      = w.visited := by
  induction entries generalizing w with
  | nil => rfl
  | cons e es ih => rw [List.foldl_cons, ih, visited_meet]

/-- The number of folders of a disk that have not been searched. -/
def unvisited (disk : Disk) (w : Walk) : Nat := disk.folders.countP (· ∉ w.visited)

/-- Searching one more folder leaves fewer. -/
theorem countP_lt_of_mem {folders visited : List Location} {loc : Location} (h : loc ∈ folders)
    (hv : loc ∉ visited) :
    folders.countP (· ∉ loc :: visited) < folders.countP (· ∉ visited) := by
  induction folders with
  | nil => simp at h
  | cons f fs ih =>
    have hle : fs.countP (· ∉ loc :: visited) ≤ fs.countP (· ∉ visited) :=
      List.countP_mono_left fun x _ hx => by simp at hx ⊢; exact hx.2
    by_cases hf : f = loc
    · subst hf
      simp [hv]
      simpa using Nat.lt_succ_of_le hle
    · have hm : loc ∈ fs := by
        rcases List.mem_cons.mp h with h | h
        · exact absurd h.symm hf
        · exact h
      have := ih hm
      by_cases hfv : f ∈ visited <;> simp_all

/-- Coming to a folder either searches it, which leaves fewer, or leaves the search as it was. -/
theorem enter_decreases {disk : Disk} (settings : Settings) (w : Walk) (folder : Path)
    {listing : Listing} (h : listing.real ∈ disk.folders) :
    (w.enter settings folder listing).unvisited disk < w.unvisited disk ∨
      (w.enter settings folder listing).unvisited disk = w.unvisited disk ∧
        (w.enter settings folder listing).pending = w.pending := by
  unfold enter
  split
  · exact .inr ⟨rfl, rfl⟩
  · next hv =>
    refine .inl ?_
    unfold unvisited
    rw [visited_foldl_meet]
    exact countP_lt_of_mem h hv

/-- The search of the root, before it has begun. -/
def start (settings : Settings) : Walk := { pending := [settings.root] }

/-- The folder that is searched next, unless the search is at its end or was given up. -/
def next? (w : Walk) : Option Path := if w.stop.isSome then none else w.pending.head?

/-- The search after its next folder has been listed. It is given up if that is not possible. -/
def resume (settings : Settings) (w : Walk) (folder : Path) (listing : Except DiskFault Listing) : Walk :=
  let w := { w with pending := w.pending.tail }
  match listing with
  | .error fault => { w with stop := some (folder, fault) }
  | .ok listing => w.enter settings folder listing

/-- Listing one more folder leaves fewer to be searched, or fewer pending. -/
theorem resume_decreases {disk : Disk} (settings : Settings) {w : Walk} {folder : Path}
    (h : w.next? = some folder) :
    (w.resume settings folder (disk.listing folder)).unvisited disk < w.unvisited disk ∨
      (w.resume settings folder (disk.listing folder)).unvisited disk = w.unvisited disk ∧
        (w.resume settings folder (disk.listing folder)).pending.length < w.pending.length := by
  have hpending : w.pending.tail.length < w.pending.length := by
    unfold next? at h
    split at h
    · simp at h
    · cases hp : w.pending with
      | nil => simp [hp] at h
      | cons first rest => exact Nat.lt_succ_self _
  unfold resume
  split
  · exact .inr ⟨rfl, hpending⟩
  · next hl =>
    rcases enter_decreases settings { w with pending := w.pending.tail } folder
      (Disk.listing_real hl) with h | ⟨h, hp⟩
    · exact .inl h
    · exact .inr ⟨h, by rw [hp]; exact hpending⟩

/-- Searches a disk to the end, or until the search is given up. -/
def run (disk : Disk) (settings : Settings) (w : Walk) : Walk :=
  match _h : w.next? with
  | none => w
  | some folder => run disk settings (w.resume settings folder (disk.listing folder))
termination_by (w.unvisited disk, w.pending.length)
decreasing_by
  rcases resume_decreases settings _h with h | ⟨h, hpending⟩
  · exact Prod.Lex.left _ _ h
  · rw [h]
    exact Prod.Lex.right _ hpending

end Walk

end BidiSheet
