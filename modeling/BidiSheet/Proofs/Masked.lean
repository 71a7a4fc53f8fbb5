import BidiSheet.Proofs.Alike

/-!
# Spans and masked texts

The spans of a masked sheet are stretches of its source: none is empty, they follow one another, and
each holds exactly the text that it covers (`Span.Covers`, `Masked.pairwise_spansFrom`). The masked text
is what lies between the spans, with the markers `0`, `1`, … in their places
(`Masked.interleave_spansFrom`).

All of it is proved on the pieces of the source. What is needed about the way a source is cut into
pieces is that no piece is empty (`Piece.text_ne_nil_of_mem_cut`) and that a control character is never
left plain, whether it is escaped or not (`Piece.not_isControl_of_mem_cut`).
-/

namespace BidiSheet

open Marker (opener closer isControl)

/-! ### Cutting texts at byte offsets -/

/-- Dropping bytes drops the first character first. -/
theorem dropBytes_cons_of_pos {n : Nat} (hn : 0 < n) (c : Char) (t : Text) :
    dropBytes n (c :: t) = dropBytes (n - c.utf8Size) t := by
  cases n with
  | zero => exact absurd hn (Nat.lt_irrefl 0)
  | succ n => rfl

/-- Taking bytes takes the first character first. -/
theorem takeBytes_cons_of_pos {n : Nat} (hn : 0 < n) (c : Char) (t : Text) :
    takeBytes n (c :: t) = c :: takeBytes (n - c.utf8Size) t := by
  cases n with
  | zero => exact absurd hn (Nat.lt_irrefl 0)
  | succ n => rfl

/-- Dropping as many bytes as a text has drops that text. -/
theorem dropBytes_append (s t : Text) : dropBytes (byteSize s) (s ++ t) = t := by
  induction s with
  | nil => rw [byteSize_nil, List.nil_append, dropBytes]
  | cons c s ih =>
    have hpos : 0 < byteSize (c :: s) := by
      rw [byteSize_cons]
      exact Nat.add_pos_left c.utf8Size_pos _
    rw [List.cons_append, dropBytes_cons_of_pos hpos, byteSize_cons, Nat.add_sub_cancel_left, ih]

/-- Taking as many bytes as a text has takes that text. -/
theorem takeBytes_append (s t : Text) : takeBytes (byteSize s) (s ++ t) = s := by
  induction s with
  | nil => rw [byteSize_nil, takeBytes]
  | cons c s ih =>
    have hpos : 0 < byteSize (c :: s) := by
      rw [byteSize_cons]
      exact Nat.add_pos_left c.utf8Size_pos _
    rw [List.cons_append, takeBytes_cons_of_pos hpos, byteSize_cons, Nat.add_sub_cancel_left, ih]

/-- The stretch between two boundaries of characters is the text between them. -/
theorem byteSlice_append (before t after : Text) :
    byteSlice (byteSize before) (byteSize before + byteSize t) (before ++ (t ++ after)) = t := by
  rw [byteSlice, dropBytes_append, Nat.add_sub_cancel_left, takeBytes_append]

/-- A character has at least one byte. -/
theorem length_le_byteSize (t : Text) : t.length ≤ byteSize t := by
  induction t with
  | nil => exact Nat.le_refl 0
  | cons c t ih =>
    have hc := c.utf8Size_pos
    rw [List.length_cons, byteSize_cons]
    omega

/-- A byte offset at which no character of a text is split. -/
def IsBoundary (t : Text) (offset : Nat) : Prop :=
  ∃ before after, t = before ++ after ∧ byteSize before = offset

/-- A boundary lies within the text. -/
theorem IsBoundary.le {t : Text} {offset : Nat} (h : IsBoundary t offset) : offset ≤ byteSize t := by
  obtain ⟨before, after, rfl, rfl⟩ := h
  rw [byteSize_append]
  exact Nat.le_add_right _ _

/-! ### Pieces -/

namespace Piece

/-- Whether a piece is a kept stretch. -/
def isKept : Piece → Bool
  | .plain _ => false
  | .kept _ _ => true

/-- A plain piece is not kept. -/
@[simp] theorem countP_isKept_plain (c : Char) (ps : List Piece) :
    (plain c :: ps).countP isKept = ps.countP isKept := rfl

/-- A kept piece is one more. -/
@[simp] theorem countP_isKept_kept (kind : SpanKind) (t : Text) (ps : List Piece) :
    (kept kind t :: ps).countP isKept = ps.countP isKept + 1 :=
  List.countP_cons_of_pos rfl

/-- A control character always begins a kept stretch. -/
theorem not_isControl_of_keptAt {joined : Bool} {c : Char} {cs : Text}
    (h : keptAt joined c cs = none) : isControl c = false := by
  unfold keptAt at h
  split at h
  · simp only at h
    split at h <;> simp at h
  split at h
  · simp at h
  split at h
  · simp at h
  split at h
  · simp at h
  split at h
  · simp at h
  next hc => simpa using hc

/-- No control character is left plain, whether a backslash stands before it or not. -/
theorem not_isControl_of_mem_cut {joined : Bool} {t : Text} {c : Char}
    (h : .plain c ∈ cut joined t) : isControl c = false := by
  fun_induction cut joined t with
  | case1 => simp at h
  | case2 _ d ds kind n _ ih =>
    rcases List.mem_cons.mp h with h | h
    · simp at h
    · exact ih h
  | case3 _ hk => simp_all [not_isControl_of_keptAt hk]
  | case4 _ d ds _ hk ih =>
    rcases List.mem_cons.mp h with h | h
    · cases h
      exact not_isControl_of_keptAt hk
    · exact ih h
  | case5 _ d ds hd hk ih =>
    rcases List.mem_cons.mp h with h | h
    · cases h
      exact not_isControl_of_keptAt hk
    rcases List.mem_cons.mp h with h | h
    · cases h
      simpa using hd
    · exact ih h
  | case6 _ d ds hk _ ih =>
    rcases List.mem_cons.mp h with h | h
    · cases h
      exact not_isControl_of_keptAt hk
    · exact ih h

/-- No piece is empty. -/
theorem text_ne_nil_of_mem_cut {joined : Bool} {t : Text} {p : Piece} (h : p ∈ cut joined t) :
    p.text ≠ [] := by
  fun_induction cut joined t with
  | case1 => simp at h
  | case2 _ d ds kind n _ ih =>
    rcases List.mem_cons.mp h with rfl | h
    · exact List.cons_ne_nil _ _
    · exact ih h
  | case3 => simp_all [text]
  | case4 _ d ds _ _ ih =>
    rcases List.mem_cons.mp h with rfl | h
    · exact List.cons_ne_nil _ _
    · exact ih h
  | case5 _ d ds _ _ ih =>
    rcases List.mem_cons.mp h with rfl | h
    · exact List.cons_ne_nil _ _
    rcases List.mem_cons.mp h with rfl | h
    · exact List.cons_ne_nil _ _
    · exact ih h
  | case6 _ d ds _ _ ih =>
    rcases List.mem_cons.mp h with rfl | h
    · exact List.cons_ne_nil _ _
    · exact ih h

/-- A list of pieces that may have come from cutting a source: no piece is empty, and no control
character is plain. -/
structure Sound (ps : List Piece) : Prop where
  text_ne_nil : ∀ p ∈ ps, p.text ≠ []
  not_isControl : ∀ c, .plain c ∈ ps → isControl c = false

/-- What a text is cut into is sound. -/
theorem sound_cut (joined : Bool) (t : Text) : Sound (cut joined t) :=
  ⟨fun _ => text_ne_nil_of_mem_cut, fun _ => not_isControl_of_mem_cut⟩

/-- Behind the first of sound pieces there are sound ones. -/
theorem Sound.tail {p : Piece} {ps : List Piece} (h : Sound (p :: ps)) : Sound ps :=
  ⟨fun q hq => h.text_ne_nil q (List.mem_cons_of_mem p hq),
    fun c hc => h.not_isControl c (List.mem_cons_of_mem p hc)⟩

/-- A plain piece among sound ones is no control character. -/
theorem Sound.head {c : Char} {ps : List Piece} (h : Sound (.plain c :: ps)) :
    isControl c = false :=
  h.not_isControl c List.mem_cons_self

/-- There are no more kept pieces than there are bytes in the source. -/
theorem countP_isKept_le {ps : List Piece} (h : Sound ps) :
    ps.countP isKept ≤ byteSize (ps.flatMap text) := by
  induction ps with
  | nil => exact Nat.le_refl 0
  | cons p ps ih =>
    have hp : 0 < byteSize p.text :=
      Nat.lt_of_lt_of_le (List.length_pos_iff.mpr (h.text_ne_nil p List.mem_cons_self))
        (length_le_byteSize p.text)
    have hps := ih h.tail
    rw [List.countP_cons, List.flatMap_cons, byteSize_append]
    split <;> omega

end Piece

/-! ### Spans -/

/-- A span that is a non-empty stretch of a source, with whole characters at both ends, and that holds
the text which it covers. -/
structure Span.Covers (source : Text) (span : Span) : Prop where
  start_lt_stop : span.start < span.stop
  stop_le : span.stop ≤ byteSize source
  isBoundary_start : IsBoundary source span.start
  isBoundary_stop : IsBoundary source span.stop
  eq_ofSource : span = Span.ofSource source span.kind span.start span.stop

/-- The span of a stretch covers it. -/
theorem Span.covers_mk {before t after : Text} (ht : t ≠ []) (kind : SpanKind) :
    Span.Covers (before ++ (t ++ after))
      ⟨kind, byteSize before, byteSize before + byteSize t, t⟩ where
  start_lt_stop := by
    have hpos : 0 < t.length := List.length_pos_iff.mpr ht
    have hle := length_le_byteSize t
    show byteSize before < byteSize before + byteSize t
    omega
  stop_le := by
    show byteSize before + byteSize t ≤ byteSize (before ++ (t ++ after))
    rw [byteSize_append, byteSize_append]
    omega
  isBoundary_start := ⟨before, t ++ after, rfl, rfl⟩
  isBoundary_stop := ⟨before ++ t, after, (List.append_assoc _ _ _).symm, byteSize_append _ _⟩
  eq_ofSource := by rw [Span.ofSource, byteSlice_append]

namespace Masked

/-- There are as many spans as kept pieces. -/
theorem length_spansFrom (offset : Nat) (ps : List Piece) :
    (spansFrom offset ps).length = ps.countP Piece.isKept := by
  induction ps generalizing offset with
  | nil => rfl
  | cons p ps ih => cases p <;> simp [spansFrom, ih]

/-- No span begins before the pieces do. -/
theorem le_start_of_mem_spansFrom {offset : Nat} {ps : List Piece} {span : Span}
    (h : span ∈ spansFrom offset ps) : offset ≤ span.start := by
  induction ps generalizing offset with
  | nil => exact absurd h List.not_mem_nil
  | cons p ps ih =>
    cases p with
    | plain c => exact Nat.le_trans (Nat.le_add_right _ _) (ih h)
    | kept kind t =>
      rcases List.mem_cons.mp h with rfl | h
      · exact Nat.le_refl offset
      · exact Nat.le_trans (Nat.le_add_right _ _) (ih h)

/-- Every span ends before the next one begins. -/
theorem pairwise_spansFrom (offset : Nat) (ps : List Piece) :
    (spansFrom offset ps).Pairwise fun a b => a.stop ≤ b.start := by
  induction ps generalizing offset with
  | nil => exact .nil
  | cons p ps ih =>
    cases p with
    | plain c => exact ih _
    | kept kind t => exact .cons (fun _ => le_start_of_mem_spansFrom) (ih _)

/-- Every span covers the stretch of the source that it was made of. -/
theorem covers_of_mem_spansFrom (before : Text) {ps : List Piece} {span : Span}
    (hps : ∀ p ∈ ps, p.text ≠ []) (h : span ∈ spansFrom (byteSize before) ps) :
    span.Covers (before ++ ps.flatMap Piece.text) := by
  induction ps generalizing before with
  | nil => exact absurd h List.not_mem_nil
  | cons p ps ih =>
    have htail : ∀ q ∈ ps, q.text ≠ [] := fun q hq => hps q (List.mem_cons_of_mem p hq)
    have hsource : before ++ (p :: ps).flatMap Piece.text
        = (before ++ p.text) ++ ps.flatMap Piece.text := by simp
    cases p with
    | plain c =>
      rw [hsource]
      apply ih _ htail
      simpa [Piece.text, spansFrom] using h
    | kept kind t =>
      rcases List.mem_cons.mp h with rfl | h
      · rw [List.flatMap_cons]
        exact Span.covers_mk (hps _ List.mem_cons_self) kind
      · rw [hsource]
        apply ih _ htail
        simpa [Piece.text] using h

/-! ### The masked text -/

/-- The text of a source from byte `offset` on, with each of some spans replaced by a marker. The
markers are numbered from `id` on. -/
def interleave (source : Text) (offset id : Nat) : List Span → Text
  | [] => dropBytes offset source
  | span :: spans =>
    byteSlice offset span.start source ++ Marker.text id
      ++ interleave source span.stop (id + 1) spans

/-- The masked text is what lies between the spans, with markers in between. Of the source, `before`
has been written out, and `gap` lies between the last span and the pieces. -/
theorem interleave_spansFrom (before gap : Text) (id : Nat) (ps : List Piece) :
    interleave (before ++ (gap ++ ps.flatMap Piece.text)) (byteSize before) id
      (spansFrom (byteSize before + byteSize gap) ps) = gap ++ maskText id ps := by
  induction ps generalizing before gap id with
  | nil =>
    rw [spansFrom, interleave, dropBytes_append]
    rfl
  | cons p ps ih =>
    cases p with
    | plain c =>
      have h := ih before (gap ++ [c]) id
      simpa [Piece.text, spansFrom, maskText, Nat.add_assoc] using h
    | kept kind t =>
      have h := ih (before ++ (gap ++ t)) [] (id + 1)
      simp only [byteSize_append, byteSize_nil, Nat.add_zero, List.nil_append,
        List.append_assoc] at h
      rw [spansFrom, interleave, byteSlice_append, List.flatMap_cons, Piece.text]
      simp only [Nat.add_assoc, List.append_assoc] at h ⊢
      rw [h, maskText]

/-- Masked texts of the same pieces are alike, wherever their numbering begins. -/
theorem alike_maskText {ρ : Nat → Nat → Prop} {ps : List Piece} (hps : Piece.Sound ps) {i j : Nat}
    (hi : i + ps.countP Piece.isKept ≤ Marker.bound) (hj : j + ps.countP Piece.isKept ≤ Marker.bound)
    (hρ : ∀ k < ps.countP Piece.isKept, ρ (i + k) (j + k)) :
    Alike ρ (maskText i ps) (maskText j ps) := by
  induction ps generalizing i j with
  | nil => exact .nil
  | cons p ps ih =>
    cases p with
    | plain c => exact .plain hps.head (ih hps.tail hi hj hρ)
    | kept kind t =>
      rw [Piece.countP_isKept_kept] at hi hj hρ
      rw [maskText, maskText, Marker.text_append, Marker.text_append]
      refine .mark (by omega) (by omega) (hρ 0 (by omega)) (ih hps.tail (by omega) (by omega) ?_)
      intro k hk
      have h := hρ (k + 1) (by omega)
      rwa [Nat.add_comm k 1, ← Nat.add_assoc, ← Nat.add_assoc] at h

end Masked

end BidiSheet
