import BidiSheet.Disk

/-!
# Files on a disk

Reading, writing and listing what is on a disk, by path. Texts are stored in their UTF-8 form. A file is written
in two steps: it is opened, which makes it anew or leaves nothing in it, and then its bytes are written.
-/

namespace BidiSheet

namespace Disk

/-- The bytes of the file at a path. -/
def read (disk : Disk) (path : Path) : Except DiskFault Bytes := do
  let loc ← disk.resolve path
  match disk.node? loc with
  | some (.file bytes) => .ok bytes
  | some .folder => .error .isFolder
  | _ => .error .notFound

/-- The text of the file at a path. -/
def readText (disk : Disk) (path : Path) : Except DiskFault Text := do
  match text? (← disk.read path) with
  | some t => .ok t
  | none => .error .notText

/-- Opens the file at a path to be written: where it is, and a disk on which it is empty. -/
def create (disk : Disk) (path : Path) : Except DiskFault (Location × Disk) := do
  let loc ← disk.place path
  return (loc, disk.put loc (.file []))

/-- A disk with some bytes written to the file at a location, from its beginning on. -/
def overwrite (disk : Disk) (loc : Location) (bytes : Bytes) : Disk :=
  match disk.node? loc with
  | some (.file old) => disk.put loc (.file (bytes ++ old.drop bytes.length))
  | _ => disk

/-! ### Setting up a disk -/

/-- A disk with a folder made at a path, if nothing is there. -/
def makeFolder (disk : Disk) (path : Path) : Except DiskFault Disk :=
  match disk.resolve path with
  | .ok _ => .ok disk
  | .error _ => return disk.put (← disk.place path) .folder

/-- A disk with all folders made that lead along some names. -/
def makeFolders (disk : Disk) (names : List Bytes) : Except DiskFault Disk :=
  (List.range names.length).foldlM
    (fun d n => d.makeFolder ⟨[slash].intercalate (names.take (n + 1))⟩) disk

/-- The names that lead to the folder of a path. -/
def folderNames (path : Path) : List Bytes := (path.raw.splitOn slash).dropLast

/-- A disk with a file added at a path, and the folders that lead to it. -/
def addFile (disk : Disk) (path : Path) (bytes : Bytes) : Except DiskFault Disk := do
  let (loc, disk) ← (← disk.makeFolders (folderNames path)).create path
  return disk.overwrite loc bytes

/-- A disk with a folder added at a path, and the folders that lead to it. -/
def addFolder (disk : Disk) (path : Path) : Except DiskFault Disk :=
  disk.makeFolders (path.raw.splitOn slash)

/-- The location of a path, its last name not followed if it is a link. -/
def entryOf (disk : Disk) (path : Path) : Except DiskFault Location := do
  match path.split? with
  | none => .error .isFolder
  | some (folder, name) =>
    if folder.raw = [] then .ok (disk.home ++ [name]) else return (← disk.resolve folder) ++ [name]

/-- A disk with a link added at a path, and the folders that lead to it. -/
def addLink (disk : Disk) (path : Path) (target : Bytes) : Except DiskFault Disk := do
  let disk ← disk.makeFolders (folderNames path)
  return disk.put (← disk.entryOf path) (.link target)

/-- A disk without the file, or the link, at a path. -/
def removeFile (disk : Disk) (path : Path) : Except DiskFault Disk := do
  let loc ← disk.entryOf path
  match disk.node? loc with
  | none => .error .notFound
  | some .folder => .error .isFolder
  | some _ => return disk.erase loc

/-! ### Listing a disk -/

/-- All files below the working folder, in the order of their paths from there. Links are not
followed. -/
def files (disk : Disk) : List (Bytes × Bytes) :=
  let found := disk.nodes.filterMap fun (loc, node) =>
    match node with
    | .file bytes =>
      if disk.home.isPrefixOf loc then
        some ([slash].intercalate (loc.drop disk.home.length), bytes)
      else none
    | _ => none
  found.mergeSort fun a b => (List.compareLex compare (a.1.map UInt8.toNat) (b.1.map UInt8.toNat)).isLE

end Disk

end BidiSheet
