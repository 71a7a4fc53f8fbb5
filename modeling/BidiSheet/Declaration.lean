import BidiSheet.Rule

/-!
# Declarations

A declaration is a segment of a stylesheet of the form `property: value`, possibly with blanks and
markers before the property and before the colon, and possibly with an annotation such as `!important`
after the value. It is held as its parts, and its text is their concatenation.

* `Declaration.read?` takes a segment apart, `Declaration.text` puts it together.
* `Declaration.text_read`: reading loses nothing.
* `Declaration.reflect?` applies the first rule that covers the property.
-/

namespace BidiSheet

/-- A declaration, as its parts in order. -/
structure Declaration where
  /-- Blanks and markers before the property. -/
  lead : Text
  /-- A star or underscore that hides the property from some browsers, or nothing. -/
  hack : Text
  /-- A vendor's mark before the property, such as `-webkit-`, or nothing. -/
  vendor : Text
  /-- The property without hack and vendor's mark. -/
  base : Text
  /-- Blanks and markers before the colon. -/
  gap : Text
  /-- What stands between the colon and the annotation. -/
  value : Text
  /-- The annotation, beginning with an exclamation mark, or nothing. -/
  tail : Text
  deriving DecidableEq, Repr

namespace Declaration

/-- The property as it is written. -/
def name (d : Declaration) : Text := d.hack ++ d.vendor ++ d.base

/-- The text of a declaration. -/
def text (d : Declaration) : Text :=
  d.lead ++ d.name ++ d.gap ++ ':' :: d.value ++ d.tail

/-! ### Reading -/

/-- The number of characters of the blanks and markers at the front. -/
def trivia : Text → Nat
  | [] => 0
  | c :: cs =>
    if isBlank c then trivia cs + 1
    else
      match Marker.read? (c :: cs) with
      | some found => found.size + trivia (cs.drop (found.digits + 1))
      | none => 0
termination_by t => t.length
decreasing_by
  · exact Nat.lt_succ_self _
  · exact length_drop_lt c cs _

/-- Whether a character can be part of the name of a property. -/
def isNameChar (c : Char) : Bool := c.isAlphanum || c = '-' || c = '_'

/-- Whether a character before a property is a hack. -/
def isHack (c : Char) : Bool := c = '*' || c = '_'

/-- The length of the vendor's mark at the front of a name: two hyphens with something other than a
hyphen between them. A name that begins with two hyphens has none. -/
def vendorLength : Text → Nat
  | '-' :: t =>
    match (t.takeWhile (· ≠ '-')).length with
    | 0 => 0
    | n + 1 => if n + 1 < t.length then n + 3 else 0
  | _ => 0

/-- The number of characters before the first exclamation mark outside round brackets, with `depth` of
them open. -/
def valueLength (depth : Nat) : Text → Nat
  | [] => 0
  | c :: cs => if c = '!' ∧ depth = 0 then 0 else valueLength (nest depth c) cs + 1

/-- The hack at the front of a text. -/
def hackOf (t : Text) : Text := (t.take 1).takeWhile isHack

/-- A text is its hack and what is behind it. -/
theorem hackOf_append (t : Text) : hackOf t ++ t.drop (hackOf t).length = t := by
  cases t with
  | nil => simp [hackOf]
  | cons c cs => by_cases h : isHack c <;> simp [hackOf, h]

/-- Takes a segment apart, if it is a declaration. -/
def read? (segment : Text) : Option Declaration :=
  let named := segment.drop (trivia segment)
  let bare := named.drop (hackOf named).length
  let name := bare.takeWhile isNameChar
  let after := bare.dropWhile isNameChar
  if name = [] then none
  else
    match after.drop (trivia after) with
    | ':' :: rest =>
      some
        { lead := segment.take (trivia segment)
          hack := hackOf named
          vendor := name.take (vendorLength name)
          base := name.drop (vendorLength name)
          gap := after.take (trivia after)
          value := rest.take (valueLength 0 rest)
          tail := rest.drop (valueLength 0 rest) }
    | _ => none

/-- Reading a segment loses nothing. -/
theorem text_read {segment : Text} {d : Declaration} (h : read? segment = some d) :
    d.text = segment := by
  unfold read? at h
  simp only at h
  split at h
  · simp at h
  split at h
  · next rest hrest =>
    cases h
    simp only [text, name, List.append_assoc, List.cons_append, List.take_append_drop]
    rw [← hrest, List.take_append_drop, List.takeWhile_append_dropWhile, hackOf_append,
      List.take_append_drop]
  · simp at h

/-! ### Reflecting -/

/-- A declaration after a rule, or nothing if the rule leaves it as it is. A renamed property keeps the
case of the property, and a renaming always counts. -/
def underRule? (rule : Rule) (d : Declaration) : Option Declaration :=
  match rule.action with
  | .rename vocabulary => (vocabulary.lookup d.base).map fun base => { d with base }
  | action =>
    let value := action.onValue (Value.read d.value)
    if action.admits value && value.isChanged then some { d with value := value.render } else none

/-- A declaration after the first rule of a table that covers its property, and that rule. Nothing if
no rule covers it, or if the rule leaves it as it is. -/
def reflect? (table : Table) (d : Declaration) : Option (Rule × Declaration) :=
  match table.ruleFor (lower d.base) with
  | none => none
  | some rule => (d.underRule? rule).map fun d' => (rule, d')

end Declaration

end BidiSheet
