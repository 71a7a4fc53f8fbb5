import BidiSheet.Piece

/-!
# Masked sheets

A masked sheet is a source in which every kept stretch has been replaced by a marker, together with
the stretches in the order of their numbers. What works on the masked text cannot touch what is kept,
and *unmasking* puts the stretches back.
-/

namespace BidiSheet

/-- A kept stretch: its kind, the bytes of the source that it covers, and the text that is put back
for its marker. -/
structure Span where
  kind : SpanKind
  start : Nat
  stop : Nat
  text : Text
  deriving DecidableEq, Repr

/-- The span of kind `kind` between two byte offsets of a source. -/
def Span.ofSource (source : Text) (kind : SpanKind) (start stop : Nat) : Span :=
  ⟨kind, start, stop, byteSlice start stop source⟩

/-- A masked text and the spans that its markers stand for. The marker with number `i` stands for the
span at place `i`. -/
structure Masked where
  text : Text
  spans : List Span
  deriving DecidableEq, Repr

namespace Masked

/-- The text of a list of pieces, its kept pieces replaced by markers from number `id` on. -/
def maskText (id : Nat) : List Piece → Text
  | [] => []
  | .plain c :: ps => c :: maskText id ps
  | .kept _ _ :: ps => Marker.text id ++ maskText (id + 1) ps

/-- The kept pieces as spans of a source, the first piece beginning at byte `offset`. -/
def spansFrom (offset : Nat) : List Piece → List Span
  | [] => []
  | .plain c :: ps => spansFrom (offset + c.utf8Size) ps
  | .kept kind t :: ps =>
    ⟨kind, offset, offset + byteSize t, t⟩ :: spansFrom (offset + byteSize t) ps

/-- The masked sheet of a source. -/
def ofSource (source : Text) : Masked :=
  ⟨maskText 0 (pieces source), spansFrom 0 (pieces source)⟩

/-! ### Unmasking -/

/-- Why a text cannot be unmasked. -/
inductive Fault where
  /-- A marker names a span that there is not. -/
  | unresolved (id : Nat)
  /-- At this byte a marker opens that is not well formed. -/
  | malformed (offset : Nat)
  deriving DecidableEq, Repr

/-- The wording of a fault. -/
def Fault.message : Fault → String
  | .unresolved id => s!"unresolved placeholder #{id}"
  | .malformed offset => s!"malformed placeholder marker at byte {offset}"

/-- Puts the spans back into a text that begins at byte `offset`. Text that was put back is not read
again. -/
def unmaskFrom (spans : List Span) (offset : Nat) : Text → Except Fault Text
  | [] => .ok []
  | c :: cs =>
    if c = Marker.opener then
      match Marker.read? (c :: cs) with
      | none => .error (.malformed offset)
      | some found =>
        match spans[found.id]? with
        | none => .error (.unresolved found.id)
        | some span =>
          (unmaskFrom spans (offset + found.size) (cs.drop (found.digits + 1))).map (span.text ++ ·)
    else (unmaskFrom spans (offset + c.utf8Size) cs).map (c :: ·)
termination_by t => t.length
decreasing_by
  · exact length_drop_lt c cs _
  · exact Nat.lt_succ_self _

/-- The text of a masked sheet with its spans put back. -/
def unmask (sheet : Masked) : Except Fault Text := unmaskFrom sheet.spans 0 sheet.text

end Masked

end BidiSheet
