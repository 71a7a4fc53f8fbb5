import BidiSheet.Proofs.Masked
import BidiSheet.Proofs.Reading

/-!
# Masking loses nothing

A masked text with its spans stands for a list of pieces: each marker names the kept piece of its span,
and every other character is plain (`Masked.named`). Unmasking a text whose markers all have spans gives
the text of these pieces (`Alike.unmaskFrom_eq`), and the masked text of a list of pieces names that list
(`Masked.named_maskText`). So masking a source loses nothing of it (`Masked.ofSource_lossless`).

Alike texts, whose markers have equal spans, name the same pieces (`Alike.named_eq`).
-/

namespace BidiSheet

open Marker (opener closer isControl)

namespace Masked

/-- The pieces that a masked text names. A marker without a span, or one that is not well formed, is read
as plain characters. -/
def named (spans : List Span) : Text → List Piece
  | [] => []
  | c :: cs =>
    match Marker.read? (c :: cs) with
    | none => .plain c :: named spans cs
    | some found =>
      match spans[found.id]? with
      | none => .plain c :: named spans cs
      | some span => .kept span.kind span.text :: named spans (cs.drop (found.digits + 1))
termination_by t => t.length
decreasing_by
  · exact Nat.lt_succ_self _
  · exact Nat.lt_succ_self _
  · exact length_drop_lt c cs _

variable {spans : List Span}

theorem named_nil : named spans [] = [] := by rw [named]

/-- A character without a meaning for markers is plain. -/
theorem named_plain {c : Char} (hc : isControl c = false) (t : Text) :
    named spans (c :: t) = .plain c :: named spans t := by
  rw [named, Marker.read?_of_ne_opener (Marker.ne_opener_of_not_isControl hc)]

/-- A marker names its span. -/
theorem named_mark {i : Nat} {span : Span} (hi : i < Marker.bound) (hspan : spans[i]? = some span)
    (t : Text) :
    named spans (opener :: (Nat.toDigits 10 i ++ closer :: t))
      = .kept span.kind span.text :: named spans t := by
  rw [named, Marker.read?_text hi]
  simp only [hspan, Marker.drop_digits]

/-! ### Unmasking -/

/-- A character without a meaning for markers is unmasked as it is. -/
theorem unmaskFrom_plain (spans : List Span) (offset : Nat) {c : Char} (hc : c ≠ opener)
    (t : Text) :
    unmaskFrom spans offset (c :: t) = (unmaskFrom spans (offset + c.utf8Size) t).map (c :: ·) := by
  rw [unmaskFrom, if_neg hc]

/-- A marker is unmasked as the text of its span. -/
theorem unmaskFrom_mark {spans : List Span} {i : Nat} {span : Span} (hi : i < Marker.bound)
    (hspan : spans[i]? = some span) (offset : Nat) (t : Text) :
    unmaskFrom spans offset (opener :: (Nat.toDigits 10 i ++ closer :: t))
      = (unmaskFrom spans (offset + ((Nat.toDigits 10 i).length + 2)) t).map (span.text ++ ·) := by
  rw [unmaskFrom, if_pos rfl, Marker.read?_text hi]
  simp only [hspan, Marker.drop_digits, Marker.Found.size]

/-- The spans with the numbers `i` and `j` in two lists are the same but for their place in the source. -/
def SameSpan (spans spans' : List Span) (i j : Nat) : Prop :=
  ∃ a b, spans[i]? = some a ∧ spans'[j]? = some b ∧ a.kind = b.kind ∧ a.text = b.text

end Masked

namespace Alike

variable {ρ : Nat → Nat → Prop} {spans spans' : List Span} {s t : Text}

/-- A text whose markers all have spans names pieces one after the other. -/
theorem named_append (h : Alike ρ s t) (hρ : ∀ i j, ρ i j → ∃ span, spans[i]? = some span)
    (y : Text) : Masked.named spans (s ++ y) = Masked.named spans s ++ Masked.named spans y := by
  induction h with
  | nil => rw [Masked.named_nil, List.nil_append, List.nil_append]
  | plain hc h ih =>
    rw [List.cons_append, Masked.named_plain hc, Masked.named_plain hc, ih, List.cons_append]
  | @mark i j s t hi hj hij h ih =>
    obtain ⟨span, hspan⟩ := hρ i j hij
    rw [List.cons_append, List.append_assoc, List.cons_append, Masked.named_mark hi hspan,
      Masked.named_mark hi hspan, ih, List.cons_append]

/-- **Alike texts name the same pieces**, if `ρ` relates only numbers of spans that are the same. -/
theorem named_eq (h : Alike ρ s t) (hρ : ∀ i j, ρ i j → Masked.SameSpan spans spans' i j) :
    Masked.named spans s = Masked.named spans' t := by
  induction h with
  | nil => rw [Masked.named_nil, Masked.named_nil]
  | plain hc h ih => rw [Masked.named_plain hc, Masked.named_plain hc, ih]
  | @mark i j s t hi hj hij h ih =>
    obtain ⟨a, b, ha, hb, hkind, htext⟩ := hρ i j hij
    rw [Masked.named_mark hi ha, Masked.named_mark hj hb, hkind, htext, ih]

/-- **Unmasking gives the text of the pieces that are named.** -/
theorem unmaskFrom_eq (h : Alike ρ s t) (hρ : ∀ i j, ρ i j → ∃ span, spans[i]? = some span)
    (offset : Nat) :
    Masked.unmaskFrom spans offset s = .ok (Piece.source (Masked.named spans s)) := by
  induction h generalizing offset with
  | nil => rw [Masked.unmaskFrom, Masked.named_nil, Piece.source_nil]
  | plain hc h ih =>
    rw [Masked.unmaskFrom_plain spans offset (Marker.ne_opener_of_not_isControl hc), ih,
      Masked.named_plain hc, Piece.source_plain]
    rfl
  | @mark i j s t hi hj hij h ih =>
    obtain ⟨span, hspan⟩ := hρ i j hij
    rw [Masked.unmaskFrom_mark hi hspan, ih, Masked.named_mark hi hspan, Piece.source_kept]
    rfl

end Alike

namespace Masked

/-- **A masked text names the pieces that it was made from.** The pieces' spans stand between others. -/
theorem named_maskText {ps : List Piece} (hps : Piece.Sound ps) (earlier later : List Span)
    (start : Nat) (hlt : earlier.length + ps.countP Piece.isKept ≤ Marker.bound) :
    named (earlier ++ (spansFrom start ps ++ later)) (maskText earlier.length ps) = ps := by
  induction ps generalizing earlier start with
  | nil => exact named_nil
  | cons p ps ih =>
    cases p with
    | plain c => rw [maskText, named_plain hps.head, spansFrom, ih hps.tail _ _ hlt]
    | kept kind t =>
      rw [Piece.countP_isKept_kept] at hlt
      rw [maskText, Marker.text_append, spansFrom, List.cons_append]
      rw [named_mark (by omega) (by simp : _ = some ⟨kind, start, start + byteSize t, t⟩)]
      -- the span just named is one of the earlier spans of the rest
      have hnext := ih hps.tail (earlier ++ [⟨kind, start, start + byteSize t, t⟩])
        (start + byteSize t) (by rw [List.length_append, List.length_singleton]; omega)
      rw [List.length_append, List.length_singleton, List.append_assoc, List.singleton_append] at hnext
      rw [hnext]

/-- The spans of pieces follow one another. -/
theorem spansFrom_append (offset : Nat) (ps qs : List Piece) :
    spansFrom offset (ps ++ qs)
      = spansFrom offset ps ++ spansFrom (offset + byteSize (Piece.source ps)) qs := by
  induction ps generalizing offset with
  | nil => rfl
  | cons p ps ih =>
    cases p with
    | plain c =>
      rw [List.cons_append, spansFrom, spansFrom, ih, Piece.source_plain, byteSize_cons, Nat.add_assoc]
    | kept kind t =>
      rw [List.cons_append, spansFrom, spansFrom, ih, Piece.source_kept, byteSize_append,
        Nat.add_assoc, List.cons_append]

/-! ### Intact texts -/

/-- Every control character of a text belongs to a marker, and the marker has a span. -/
def Intact (spans : List Span) (t : Text) : Prop := Alike (fun i j => i = j ∧ i < spans.length) t t

namespace Intact

variable {spans : List Span} {s t : Text}

/-- A text without control characters is intact. -/
theorem of_plain (h : Plain t) : Intact spans t := Alike.of_plain h

/-- Intact texts can be put together. -/
theorem append (hs : Intact spans s) (ht : Intact spans t) : Intact spans (s ++ t) := Alike.append hs ht

/-- An intact text names its own spans whatever follows. -/
theorem named_append (h : Intact spans s) (t : Text) :
    named spans (s ++ t) = named spans s ++ named spans t :=
  Alike.named_append h (fun _ _ hi => ⟨_, List.getElem?_eq_getElem hi.2⟩) t

/-- An intact text is unmasked as the text of what it names. -/
theorem unmaskFrom_eq (h : Intact spans t) (offset : Nat) :
    unmaskFrom spans offset t = .ok (Piece.source (named spans t)) :=
  Alike.unmaskFrom_eq h (fun _ _ hi => ⟨_, List.getElem?_eq_getElem hi.2⟩) offset

/-- Induction over an intact text, letter by letter. -/
@[elab_as_elim] theorem induction {motive : (t : Text) → Intact spans t → Prop}
    (nil : motive [] Alike.nil)
    (plain : ∀ c t (hc : isControl c = false) (h : Intact spans t), motive t h →
      motive (c :: t) (Alike.plain hc h))
    (mark : ∀ i t (hi : i < Marker.bound) (hlt : i < spans.length) (h : Intact spans t), motive t h →
      motive (opener :: (Nat.toDigits 10 i ++ closer :: t)) (Alike.mark hi hi ⟨rfl, hlt⟩ h))
    {t : Text} (h : Intact spans t) : motive t h := by
  have hboth : ∀ {s t}, Alike (fun i j => i = j ∧ i < spans.length) s t →
      s = t ∧ ∀ h : Intact spans s, motive s h := by
    intro s t h
    induction h with
    | nil => exact ⟨rfl, fun _ => nil⟩
    | @plain c s t hc h ih =>
      obtain ⟨rfl, hs⟩ := ih
      exact ⟨rfl, fun _ => plain c s hc h (hs h)⟩
    | @mark i j s t hi _ hij h ih =>
      obtain ⟨rfl, hs⟩ := ih
      obtain ⟨rfl, hlt⟩ := hij
      exact ⟨rfl, fun _ => mark i s hi hlt h (hs h)⟩
  exact (hboth h).2 h

end Intact

/-! ### Whole sources -/

/-- A source has as many spans as kept pieces. -/
theorem length_spans_ofSource (source : Text) :
    (ofSource source).spans.length = (pieces source).countP Piece.isKept :=
  length_spansFrom 0 (pieces source)

/-- The number of spans of a source is below the bound of markers. -/
theorem countP_isKept_pieces_lt {source : Text} (h : byteSize source < Marker.bound) :
    (pieces source).countP Piece.isKept < Marker.bound := by
  have hle := Piece.countP_isKept_le (Piece.sound_cut false source)
  rw [Piece.text_cut] at hle
  exact Nat.lt_of_le_of_lt hle h

section

variable {source : Text} (h : (pieces source).countP Piece.isKept ≤ Marker.bound)

include h

/-- The masked text of a source is intact. -/
theorem intact_ofSource : Intact (ofSource source).spans (ofSource source).text := by
  apply alike_maskText (Piece.sound_cut false source)
  · rwa [Nat.zero_add]
  · rwa [Nat.zero_add]
  · intro k hk
    rw [length_spans_ofSource, Nat.zero_add]
    exact ⟨rfl, hk⟩

/-- A masked source names its pieces. -/
theorem named_ofSource : named (ofSource source).spans (ofSource source).text = pieces source := by
  have hnamed := named_maskText (Piece.sound_cut false source) [] [] 0
    (by rwa [List.length_nil, Nat.zero_add])
  rwa [List.nil_append, List.append_nil] at hnamed

end

/-- **Masking loses nothing.** Each span is a non-empty stretch of the source between two characters,
and holds its text; the spans follow one another; the masked text is what lies between them, with
markers numbered from zero in their places; and unmasking gives back the source, as long as a marker
can number its bytes. -/
theorem ofSource_lossless (source : Text) :
    (∀ span ∈ (ofSource source).spans, span.Covers source) ∧
    ((ofSource source).spans.Pairwise fun a b => a.stop ≤ b.start) ∧
    (ofSource source).text = interleave source 0 0 (ofSource source).spans ∧
    (byteSize source < Marker.bound → (ofSource source).unmask = .ok source) := by
  have hsound : Piece.Sound (pieces source) := Piece.sound_cut false source
  refine ⟨?_, pairwise_spansFrom 0 _, ?_, ?_⟩
  · intro span hspan
    have h := covers_of_mem_spansFrom [] hsound.text_ne_nil hspan
    rwa [List.nil_append, text_pieces] at h
  · have h := interleave_spansFrom [] [] 0 (pieces source)
    rw [List.nil_append, List.nil_append, text_pieces] at h
    exact h.symm
  · intro hlt
    have hcount := Nat.le_of_lt (countP_isKept_pieces_lt hlt)
    rw [unmask, (intact_ofSource hcount).unmaskFrom_eq, named_ofSource hcount, Piece.source_pieces]

/-- A string, an escaped control character, a character of two bytes behind a backslash and a comment
that is never closed. -/
theorem unmask_ofSource_escaped :
    byteSize "a\\\x02'\x03'\\é/*".toList < Marker.bound ∧
      (ofSource "a\\\x02'\x03'\\é/*".toList).unmask = .ok "a\\\x02'\x03'\\é/*".toList :=
  ⟨by decide, (ofSource_lossless _).2.2.2 (by decide)⟩

end Masked

end BidiSheet
