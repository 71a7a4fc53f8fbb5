import BidiSheet.Bytes

/-!
# Paths

A path is a sequence of bytes in which slashes divide the names of folders and files. It is kept as it was
written, since it is shown as it was written. What it means is given by its components: repeated slashes,
a slash at the end, and single dots other than at the beginning add nothing.

* `Path.split?` divides a path into its folder and the name of the file.
* `Path.join` is the path of a name in a folder.
* `Path.le` orders paths by their components.
-/

namespace BidiSheet

/-- The byte that divides names. -/
def slash : UInt8 := 0x2F

/-- The byte that stands before an extension. -/
def dot : UInt8 := 0x2E

/-- The byte that no path may have. -/
def nul : UInt8 := 0

/-- A path, as it is written. -/
structure Path where
  raw : Bytes
  deriving DecidableEq, Repr

/-- A component of a path. -/
inductive Component where
  /-- The slash at the beginning of an absolute path. -/
  | root
  /-- The dot at the beginning of a path. -/
  | here
  /-- Two dots. -/
  | up
  | name (n : Bytes)
  deriving DecidableEq, Repr

namespace Path

/-- A path that is given as a text. -/
def ofText (t : Text) : Path := ⟨bytes t⟩

/-- A path that is given as a string. -/
def ofString (s : String) : Path := ofText s.toList

/-- A path as it is shown. -/
def toString (p : Path) : String := String.ofList (shown p.raw)

/-- A slash or a dot that stands at the beginning of a path and is a component of its own, or nothing. -/
def anchor (p : Path) : Bytes :=
  if p.raw.head? = some slash then [slash]
  else if p.raw.takeWhile (· ≠ slash) = [dot] then [dot]
  else []

/-- What stands between the slashes after the anchor. -/
def chunks (p : Path) : List Bytes := (p.raw.drop p.anchor.length).splitOn slash

/-- Whether a chunk adds nothing to a path. -/
def isIdle (chunk : Bytes) : Bool := chunk = [] || chunk = [dot]

/-- Some chunks without the idle ones at the end. -/
def dropIdle (chunks : List Bytes) : List Bytes := (chunks.reverse.dropWhile isIdle).reverse

/-- The components of a path. -/
def components (p : Path) : List Component :=
  (if p.anchor = [slash] then [.root] else if p.anchor = [dot] then [.here] else []) ++
  (p.chunks.filter (!isIdle ·)).map fun c => if c = [dot, dot] then .up else .name c

/-! ### Folder and name -/

/-- The folder of a path and the name of the file in it, if the path ends in a name. -/
def split? (p : Path) : Option (Path × Bytes) :=
  let chunks := dropIdle p.chunks
  match chunks.getLast? with
  | none => none
  | some n =>
    if n = [dot, dot] then none
    else some (⟨p.anchor ++ [slash].intercalate (dropIdle chunks.dropLast)⟩, n)

/-- The name of the file that a path leads to. -/
def fileName? (p : Path) : Option Bytes := p.split?.map Prod.snd

/-- The path of a name in a folder. -/
def join (folder : Path) (name : Bytes) : Path :=
  if folder.raw = [] || folder.raw.getLast? = some slash then ⟨folder.raw ++ name⟩
  else ⟨folder.raw ++ slash :: name⟩

/-- A name without its extension, and the extension: what follows the last dot, unless that dot is the
first byte. -/
def splitName (name : Bytes) : Bytes × Option Bytes :=
  match name.reverse.dropWhile (· ≠ dot) with
  | [] => (name, none)
  | [_] => (name, none)
  | _ :: stem => (stem.reverse, some (name.reverse.takeWhile (· ≠ dot)).reverse)

/-- The name of a file without its extension. -/
def stem? (p : Path) : Option Bytes := p.fileName?.map fun n => (splitName n).1

/-- The extension of a file. -/
def extension? (p : Path) : Option Bytes := p.fileName?.bind fun n => (splitName n).2

/-! ### Order -/

/-- Components are ordered by kind, and names by their bytes. -/
def componentKey : Component → List Nat
  | .root => [0]
  | .here => [1]
  | .up => [2]
  | .name n => 3 :: n.map UInt8.toNat

/-- Paths are ordered by their components. -/
def key (p : Path) : List (List Nat) := p.components.map componentKey

/-- Whether a path does not come after another. -/
def le (p q : Path) : Bool := (List.compareLex (List.compareLex compare) p.key q.key).isLE

end Path

end BidiSheet
