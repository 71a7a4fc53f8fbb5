import BidiSheet.Declaration

/-!
# Segments

The masked text of a stylesheet is cut at braces and semicolons. A segment that an opening brace closes
is a selector and is copied; every other closed segment may be a declaration. The text after the last
brace or semicolon may be a declaration only inside an open block, or where there is no brace at all, as
in a `style` attribute.

* `Segments.read` cuts a text; `Segments.text_read` says that nothing is lost.
* `Segments.reflect` reflects every declaration and leaves all else as it is.
* `reflectText` does both, and counts.
-/

namespace BidiSheet

/-- The delimiter that opens a block. -/
def openBrace : Char := '\x7b'

/-- The delimiter that closes a block. -/
def closeBrace : Char := '\x7d'

/-- Whether a character ends a segment. -/
def isDelimiter (c : Char) : Bool := c = openBrace || c = closeBrace || c = ';'

/-- A segment with the delimiter that closes it. -/
structure Segment where
  body : Text
  closer : Char
  deriving DecidableEq, Repr

/-- The text of a segment. -/
def Segment.text (s : Segment) : Text := s.body ++ [s.closer]

/-- The closed segments of a text, and the text after the last of them. -/
structure Segments where
  closed : List Segment
  tail : Text
  deriving DecidableEq, Repr

namespace Segments

/-- The text that was cut into segments. -/
def text (ss : Segments) : Text := ss.closed.flatMap Segment.text ++ ss.tail

/-- Puts a character before the first segment. -/
def push (c : Char) : Segments → Segments
  | ⟨[], tail⟩ => ⟨[], c :: tail⟩
  | ⟨s :: ss, tail⟩ => ⟨{ s with body := c :: s.body } :: ss, tail⟩

/-- Puts an empty segment with its delimiter before the first segment. -/
def close (c : Char) (ss : Segments) : Segments := { ss with closed := ⟨[], c⟩ :: ss.closed }

/-- Cuts a text at its delimiters. -/
def read : Text → Segments
  | [] => ⟨[], []⟩
  | c :: cs => if isDelimiter c then (read cs).close c else (read cs).push c

/-- A character in front is the first of the text. -/
theorem text_push (c : Char) (ss : Segments) : (ss.push c).text = c :: ss.text := by
  obtain ⟨_ | _, _⟩ := ss <;> simp [push, text, Segment.text]

/-- A delimiter in front is the first of the text. -/
theorem text_close (c : Char) (ss : Segments) : (ss.close c).text = c :: ss.text := by
  simp [close, text, Segment.text]

/-- Cutting a text loses nothing. -/
theorem text_read (t : Text) : (read t).text = t := by
  induction t with
  | nil => rfl
  | cons c cs ih => rw [read]; split <;> simp [text_push, text_close, ih]

/-! ### Blocks -/

/-- The number of open blocks after a delimiter. A closing brace outside all blocks is ignored. -/
def depthAfter (depth : Nat) (closer : Char) : Nat :=
  if closer = openBrace then depth + 1 else if closer = closeBrace then depth - 1 else depth

/-- The number of blocks that are open at the end. -/
def depth (ss : Segments) : Nat := (ss.closed.map Segment.closer).foldl depthAfter 0

/-- Whether there is a brace. -/
def hasBrace (ss : Segments) : Bool := ss.closed.any fun s => s.closer ≠ ';'

end Segments

/-! ### Verdicts -/

/-- What becomes of a segment. -/
inductive Verdict where
  /-- It is no declaration. -/
  | other
  /-- It is a declaration, and stays as it is. -/
  | same
  /-- It is a declaration, and the rule of this name turns it into another text. -/
  | changed (rule : String) (text : Text)
  deriving DecidableEq, Repr

namespace Verdict

/-- What becomes of a segment that may be a declaration. -/
def ofBody (table : Table) (body : Text) : Verdict :=
  match Declaration.read? body with
  | none => .other
  | some d =>
    match d.reflect? table with
    | none => .same
    | some (rule, d') => .changed rule.name d'.text

/-- The text of a segment with body `body`, after the verdict. -/
def textOf (body : Text) : Verdict → Text
  | .changed _ text => text
  | _ => body

/-- Whether the segment is a declaration. -/
def isDeclaration : Verdict → Bool
  | .other => false
  | _ => true

/-- Whether the segment is changed. -/
def isChange : Verdict → Bool
  | .changed _ _ => true
  | _ => false

end Verdict

/-- What becomes of a closed segment. -/
def Segment.verdict (table : Table) (s : Segment) : Verdict :=
  if s.closer = openBrace then .other else .ofBody table s.body

/-- A segment with its body reflected. -/
def Segment.reflect (table : Table) (s : Segment) : Segment :=
  { s with body := (s.verdict table).textOf s.body }

namespace Segments

/-- Whether the text after the last delimiter may be a declaration. -/
def tailMayDeclare (ss : Segments) : Bool := 0 < ss.depth || !ss.hasBrace

/-- What becomes of the text after the last delimiter. -/
def tailVerdict (table : Table) (ss : Segments) : Verdict :=
  if ss.tailMayDeclare then .ofBody table ss.tail else .other

/-- The segments with every declaration reflected. -/
def reflect (table : Table) (ss : Segments) : Segments :=
  { closed := ss.closed.map (Segment.reflect table)
    tail := (ss.tailVerdict table).textOf ss.tail }

/-- Every segment's body with its verdict, in order. -/
def verdicts (table : Table) (ss : Segments) : List (Text × Verdict) :=
  ss.closed.map (fun s => (s.body, s.verdict table)) ++ [(ss.tail, ss.tailVerdict table)]

end Segments

/-! ### Reflecting a text -/

/-- A change of one segment: the name of the rule, and the segment before and after. -/
structure Change where
  rule : String
  before : Text
  after : Text
  deriving DecidableEq, Repr

/-- A segment's change, if its verdict is one. -/
def Change.ofVerdict : Text × Verdict → Option Change
  | (body, .changed rule text) => some ⟨rule, body, text⟩
  | _ => none

/-- A reflected text, with the number of its declarations and the changes that were made. -/
structure Reflection where
  text : Text
  declarations : Nat
  changes : List Change
  deriving DecidableEq, Repr

/-- The number of declarations that were changed. -/
def Reflection.substitutions (r : Reflection) : Nat := r.changes.length

/-- Reflects every declaration of a masked text. -/
def reflectText (table : Table) (t : Text) : Reflection :=
  let ss := Segments.read t
  let verdicts := ss.verdicts table
  { text := (ss.reflect table).text
    declarations := verdicts.countP fun (_, v) => v.isDeclaration
    changes := verdicts.filterMap Change.ofVerdict }

end BidiSheet
