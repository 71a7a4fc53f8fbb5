import BidiSheet.Proofs.Named

/-!
# The letters of a masked text

A masked text is a sequence of characters and of markers. Its *letters* are these, every marker being one
letter that has a number (`Marker.letters`), and the numbers of the markers alone, in their order, are its
*numbers* (`Marker.numbers`). An intact text is unmasked letter by letter: characters are written as they are,
and markers as the texts of their spans (`Masked.Intact.source_named`).
-/

namespace BidiSheet

open Marker (opener closer isControl)

namespace Marker

/-- The letters of a text: its characters, and its markers with their numbers. A control character that
opens no marker is a character like any other. -/
def letters : Text → List (Char ⊕ Nat)
  | [] => []
  | c :: cs =>
    match read? (c :: cs) with
    | none => .inl c :: letters cs
    | some found => .inr found.id :: letters (cs.drop (found.digits + 1))
termination_by t => t.length
decreasing_by
  · exact Nat.lt_succ_self _
  · exact length_drop_lt c cs _

/-- The numbers of the markers of a text, in order. -/
def numbers (t : Text) : List Nat := (letters t).filterMap Sum.getRight?

theorem letters_nil : letters [] = [] := by rw [letters]

/-- A character without a meaning for markers is a letter of its own. -/
theorem letters_plain {c : Char} (hc : isControl c = false) (t : Text) :
    letters (c :: t) = .inl c :: letters t := by
  rw [letters, read?_of_ne_opener (ne_opener_of_not_isControl hc)]

/-- A marker is one letter. -/
theorem letters_mark {i : Nat} (hi : i < bound) (t : Text) :
    letters (opener :: (Nat.toDigits 10 i ++ closer :: t)) = .inr i :: letters t := by
  rw [letters, read?_text hi]
  simp only [drop_digits]

theorem numbers_nil : numbers [] = [] := by rw [numbers, letters_nil]; rfl

/-- A character without a meaning for markers has no number. -/
theorem numbers_plain {c : Char} (hc : isControl c = false) (t : Text) :
    numbers (c :: t) = numbers t := by
  rw [numbers, letters_plain hc]
  rfl

/-- A marker has its number. -/
theorem numbers_mark {i : Nat} (hi : i < bound) (t : Text) :
    numbers (opener :: (Nat.toDigits 10 i ++ closer :: t)) = i :: numbers t := by
  rw [numbers, letters_mark hi]
  rfl

end Marker

/-- The kind and the text of a span, whatever bytes it covers. -/
def Span.construct (span : Span) : SpanKind × Text := (span.kind, span.text)

/-- The kind and the text of a kept piece. -/
def Piece.construct? : Piece → Option (SpanKind × Text)
  | .plain _ => none
  | .kept kind text => some (kind, text)

namespace Masked

/-- What is written for a letter: a character as it is, and a marker as the text of its span. -/
def writing (spans : List Span) : Char ⊕ Nat → Text
  | .inl c => [c]
  | .inr i => spans[i]?.elim [] Span.text

namespace Intact

variable {spans : List Span} {s t : Text}

/-- The letters of an intact text stay what they are, whatever follows. -/
theorem letters_append (h : Intact spans s) (t : Text) :
    Marker.letters (s ++ t) = Marker.letters s ++ Marker.letters t := by
  induction h using Intact.induction with
  | nil => rw [Marker.letters_nil, List.nil_append, List.nil_append]
  | plain c s hc _ ih =>
    rw [List.cons_append, Marker.letters_plain hc, Marker.letters_plain hc, ih, List.cons_append]
  | mark i s hi _ _ ih =>
    rw [List.cons_append, List.append_assoc, List.cons_append, Marker.letters_mark hi,
      Marker.letters_mark hi, ih, List.cons_append]

/-- The numbers of an intact text stay what they are, whatever follows. -/
theorem numbers_append (h : Intact spans s) (t : Text) :
    Marker.numbers (s ++ t) = Marker.numbers s ++ Marker.numbers t := by
  rw [Marker.numbers, h.letters_append, List.filterMap_append, Marker.numbers, Marker.numbers]

/-- The text of the pieces that are named is written letter by letter. -/
theorem source_named (h : Intact spans t) :
    Piece.source (named spans t) = (Marker.letters t).flatMap (writing spans) := by
  induction h using Intact.induction with
  | nil => rw [named_nil, Marker.letters_nil]; rfl
  | plain c t hc _ ih =>
    rw [named_plain hc, Marker.letters_plain hc, Piece.source_plain, ih]
    rfl
  | mark i t hi hlt _ ih =>
    have hspan := List.getElem?_eq_getElem hlt
    rw [named_mark hi hspan, Marker.letters_mark hi, Piece.source_kept, List.flatMap_cons, ih, writing,
      hspan]
    rfl

/-- The kept pieces that are named are the spans of the markers. -/
theorem constructs_named (h : Intact spans t) :
    ((named spans t).filterMap Piece.construct?).map some
      = (Marker.numbers t).map fun i => spans[i]?.map Span.construct := by
  induction h using Intact.induction with
  | nil => rw [named_nil, Marker.numbers_nil]; rfl
  | plain c t hc _ ih =>
    rw [named_plain hc, Marker.numbers_plain hc, ← ih]
    rfl
  | mark i t hi hlt _ ih =>
    have hspan := List.getElem?_eq_getElem hlt
    rw [named_mark hi hspan, Marker.numbers_mark hi, List.map_cons, ← ih, hspan]
    rfl

end Intact

/-- The spans of a list of pieces are its kept pieces. -/
theorem constructs_spansFrom (offset : Nat) (ps : List Piece) :
    (spansFrom offset ps).map Span.construct = ps.filterMap Piece.construct? := by
  induction ps generalizing offset with
  | nil => rfl
  | cons p ps ih =>
    cases p with
    | plain c => exact ih _
    | kept kind t => exact congrArg ((kind, t) :: ·) (ih _)

end Masked

end BidiSheet
