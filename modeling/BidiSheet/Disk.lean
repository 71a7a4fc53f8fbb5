import BidiSheet.Path

/-!
# Disks

A disk is a tree of folders with files and symbolic links in them. A place on the disk is a *location*:
the names that lead to it from the top folder. Relative paths begin at the *working folder*, which may
lie anywhere on the disk, so that two dots can lead out of it. A path is resolved name by name, links
being followed on the way; more than forty links in one path are taken for a loop. A name and a path
have a greatest length, and a path with a NUL in it leads nowhere.

* `Disk.locate` finds the location that a path of any length leads to.
* `Disk.resolve` finds it for a path that is not too long.
* `Disk.place` finds the location where a file is to be written.
-/

namespace BidiSheet

/-- The names that lead to a place, from the top folder on. -/
abbrev Location := List Bytes

/-- What is at a place. -/
inductive Node where
  | folder
  | file (bytes : Bytes)
  /-- A symbolic link, which leads on to another path. -/
  | link (target : Bytes)
  deriving DecidableEq

/-- A disk, as a list of its places. The top folder is not listed. -/
structure Disk where
  /-- The location of the working folder. -/
  home : Location
  nodes : List (Location × Node)

/-- Why an operation on a disk fails. -/
inductive DiskFault where
  | notFound
  | notFolder
  | isFolder
  | linkLoop
  /-- A name, or a whole path, is too long. -/
  | tooLong
  /-- A path has a NUL in it. -/
  | nulInPath
  /-- The bytes of a file are not the UTF-8 form of a text. -/
  | notText
  /-- The system refuses for another reason, in its own words. -/
  | refused (reason : String)
  deriving DecidableEq, Repr

/-- The wording of a fault. -/
def DiskFault.message : DiskFault → String
  | .notFound => "No such file or directory (os error 2)"
  | .notFolder => "Not a directory (os error 20)"
  | .isFolder => "Is a directory (os error 21)"
  | .linkLoop => "Too many levels of symbolic links (os error 40)"
  | .tooLong => "File name too long (os error 36)"
  | .nulInPath => "file name contained an unexpected NUL byte"
  | .notText => "stream did not contain valid UTF-8"
  | .refused reason => reason

namespace Disk

/-- A disk with nothing but its working folder and the folders that lead to it. -/
def bare (home : Location) : Disk :=
  ⟨home, (List.range home.length).map fun n => (home.take (n + 1), .folder)⟩

/-- What is at a location. -/
def node? (disk : Disk) (loc : Location) : Option Node :=
  if loc = [] then some .folder else disk.nodes.lookup loc

/-- Whether there is a folder at a location. -/
def isFolder (disk : Disk) (loc : Location) : Bool :=
  match disk.node? loc with
  | some .folder => true
  | _ => false

/-- Whether there is a link at a location. -/
def isLink (disk : Disk) (loc : Location) : Bool :=
  match disk.node? loc with
  | some (.link _) => true
  | _ => false

/-- The locations of all folders. -/
def folders (disk : Disk) : List Location :=
  [] :: (disk.nodes.map Prod.fst).filter disk.isFolder

/-- A folder is among the folders. -/
theorem mem_folders {disk : Disk} {loc : Location} (h : disk.isFolder loc = true) :
    loc ∈ disk.folders := by
  by_cases hl : loc = []
  · simp [folders, hl]
  · refine List.mem_cons_of_mem _ (List.mem_filter.mpr ⟨?_, h⟩)
    unfold isFolder node? at h
    rw [if_neg hl] at h
    split at h
    · next hn =>
      obtain ⟨l₁, l₂, hnodes, _⟩ := List.lookup_eq_some_iff.mp hn
      simp [hnodes]
    · simp at h

/-- The names in a folder. -/
def names (disk : Disk) (loc : Location) : List Bytes :=
  disk.nodes.filterMap fun (l, _) => if l.dropLast = loc then l.getLast? else none

/-- A disk with a node put at a location, in place of one that was there. -/
def put (disk : Disk) (loc : Location) (node : Node) : Disk :=
  if disk.nodes.any (·.1 = loc) then
    { disk with nodes := disk.nodes.map fun (l, n) => if l = loc then (l, node) else (l, n) }
  else { disk with nodes := disk.nodes ++ [(loc, node)] }

/-- A disk without what is at a location. -/
def erase (disk : Disk) (loc : Location) : Disk :=
  { disk with nodes := disk.nodes.filter (·.1 ≠ loc) }

/-! ### Resolving paths -/

/-- The number of links that are followed for one path. -/
def linkLimit : Nat := 40

/-- The greatest number of bytes in a name. -/
def nameLimit : Nat := 255

/-- The greatest number of bytes in a path. -/
def pathLimit : Nat := 4095

/-- Where the steps of a link's target, or of a path, begin: at the top if it is absolute. -/
def startOf (loc : Location) (target : Bytes) : Location :=
  if target.head? = some slash then [] else loc

/-- Follows steps from a location, with `links` links left. -/
def follow (disk : Disk) (links : Nat) (loc : Location) (steps : List Bytes) :
    Except DiskFault Location :=
  match steps with
  | [] => .ok loc
  | step :: steps =>
    if !disk.isFolder loc then .error .notFolder
    else if Path.isIdle step then follow disk links loc steps
    else if step = [dot, dot] then follow disk links loc.dropLast steps
    else if nameLimit < step.length then .error .tooLong
    else
      match disk.node? (loc ++ [step]) with
      | none => .error .notFound
      | some (.link target) =>
        match links with
        | 0 => .error .linkLoop
        | links + 1 => follow disk links (startOf loc target) (target.splitOn slash ++ steps)
      | some _ => follow disk links (loc ++ [step]) steps
termination_by (links, steps.length)

/-- The location that a path leads to, all links followed, however long the path is. -/
def locate (disk : Disk) (path : Path) : Except DiskFault Location :=
  if nul ∈ path.raw then .error .nulInPath
  else if path.raw = [] then .error .notFound
  else disk.follow linkLimit (startOf disk.home path.raw) (path.raw.splitOn slash)

/-- Why a path cannot be opened, whatever is on the disk. -/
def refusal? (path : Path) : Option DiskFault :=
  if nul ∈ path.raw then some .nulInPath
  else if pathLimit < path.raw.length then some .tooLong
  else none

/-- The location that a path leads to, all links followed. -/
def resolve (disk : Disk) (path : Path) : Except DiskFault Location :=
  match refusal? path with
  | some fault => .error fault
  | none => disk.locate path

/-- Follows steps from a location to where a file is to be written, with `links` links left. The file
need not be there yet, but its folder must. A path that ends in a slash or in dots names no file. -/
def followPlace (disk : Disk) (links : Nat) (loc : Location) (steps : List Bytes) :
    Except DiskFault Location :=
  match steps with
  | [] => .error .isFolder
  | step :: steps =>
    if !disk.isFolder loc then .error .notFolder
    else if Path.isIdle step then followPlace disk links loc steps
    else if step = [dot, dot] then followPlace disk links loc.dropLast steps
    else if steps ≠ [] ∧ steps.all (· = []) then .error .isFolder
    else if nameLimit < step.length then .error .tooLong
    else if steps = [] ∧ !disk.isLink (loc ++ [step]) then
      if disk.isFolder (loc ++ [step]) then .error .isFolder else .ok (loc ++ [step])
    else
      match disk.node? (loc ++ [step]) with
      | none => .error .notFound
      | some (.link target) =>
        match links with
        | 0 => .error .linkLoop
        | links + 1 => followPlace disk links (startOf loc target) (target.splitOn slash ++ steps)
      | some _ => followPlace disk links (loc ++ [step]) steps
termination_by (links, steps.length)

/-- The location where a file at a path is to be written. -/
def place (disk : Disk) (path : Path) : Except DiskFault Location :=
  match refusal? path with
  | some fault => .error fault
  | none =>
    if path.raw = [] then .error .notFound
    else disk.followPlace linkLimit (startOf disk.home path.raw) (path.raw.splitOn slash)

end Disk

end BidiSheet
