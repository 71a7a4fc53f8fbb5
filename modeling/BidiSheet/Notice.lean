import BidiSheet.Disk
import BidiSheet.Event

/-!
# Notices

What is reported while a batch runs: the events of each stylesheet, and what happens around them.
-/

namespace BidiSheet

/-- A report about a batch. -/
inductive Notice where
  /-- A report about a stylesheet. -/
  | sheet (event : Event)
  /-- The folder at this path has been searched before. -/
  | alreadyWalked (folder : Path)
  /-- The file at this path is an output. -/
  | skippedOutput (path : Path)
  /-- The link at this path leads nowhere. -/
  | brokenLink (path : Path) (fault : DiskFault)
  /-- So many stylesheets were found. -/
  | converting (files : Nat) (root : Path)
  /-- A stylesheet was reflected, and so many declarations changed. -/
  | converted (input output : Path) (substitutions : Nat)
  /-- The batch is done. -/
  | finished (files substitutions : Nat)
  deriving DecidableEq, Repr

namespace Notice

/-- The level of a notice. -/
def level : Notice → Level
  | .sheet event => event.level
  | .alreadyWalked _ => .trace
  | .skippedOutput _ => .trace
  | .brokenLink _ _ => .warn
  | .converting _ _ => .info
  | .converted _ _ _ => .debug
  | .finished _ _ => .info

/-- The wording of a notice. -/
def message : Notice → String
  | .sheet event => event.message
  | .alreadyWalked folder => "already walked " ++ folder.toString
  | .skippedOutput path => "skipping generated " ++ path.toString
  | .brokenLink path fault => "skipping broken link " ++ path.toString ++ ": " ++ fault.message
  | .converting files root => s!"converting {files} stylesheets under " ++ root.toString
  | .converted input output substitutions =>
    input.toString ++ " -> " ++ output.toString ++ s!" ({substitutions} declarations flipped)"
  | .finished files substitutions =>
    s!"wrote {files} stylesheets, {substitutions} declarations flipped"

/-- A notice as one line. -/
def line (n : Notice) : String := n.level.name ++ " " ++ n.message

end Notice

end BidiSheet
