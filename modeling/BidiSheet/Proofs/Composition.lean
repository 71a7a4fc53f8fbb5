import BidiSheet.Proofs.Sheet

/-!
# Stylesheets compose

Two stylesheets written one after the other are reflected one after the other, if the first ends with a
brace that closes its last block (`Style.reflect_append`).

The pieces of the two are then the pieces of both (`pieces_append`), since nothing before the brace is read
beyond it; the same goes for any delimiter, with or without blanks behind it. Behind the first stylesheet's
spans, those of the second have higher numbers than on their own; but reflecting does not depend on how
markers are numbered. And where both have a brace, what may be declared at the end of the second does not
depend on the first.
-/

namespace BidiSheet

/-- Whether a text ends in a delimiter and blanks. -/
def endsSegment (t : Text) : Bool := (t.reverse.dropWhile isBlank).head?.any isDelimiter

/-- Whether a text ends a segment is seen from its end, but for blanks. -/
theorem endsSegment_concat (t : Text) (c : Char) :
    endsSegment (t ++ [c]) = if isBlank c then endsSegment t else isDelimiter c := by
  rw [endsSegment, List.reverse_append, List.reverse_singleton, List.singleton_append,
    List.dropWhile_cons]
  split
  · rfl
  · rfl

/-- **A source that ends in a plain delimiter and blanks is cut without regard to what follows.** -/
theorem pieces_append {a : Text} (h : Piece.EndsSegment (pieces a)) (b : Text) :
    pieces (a ++ b) = pieces a ++ pieces b := by
  have hreads : Piece.Reads false (pieces a ++ pieces b) :=
    (Piece.reads_cut false a).append h (Piece.reads_cut false b)
  have hcut := Piece.cut_of_reads hreads
  rwa [Piece.source_append, Piece.source_pieces, Piece.source_pieces] at hcut

namespace Masked

/-! ### Masking pieces one after the other -/

/-- Pieces behind others are masked with higher numbers. -/
theorem maskText_append (id : Nat) (ps qs : List Piece) :
    maskText id (ps ++ qs) = maskText id ps ++ maskText (id + ps.countP Piece.isKept) qs := by
  induction ps generalizing id with
  | nil => rfl
  | cons p ps ih =>
    cases p with
    | plain c => rw [List.cons_append, maskText, maskText, ih, Piece.countP_isKept_plain]; rfl
    | kept kind t =>
      rw [List.cons_append, maskText, maskText, ih, Piece.countP_isKept_kept, List.append_assoc,
        Nat.add_assoc, Nat.add_comm 1]

/-- A masked text that ends in a delimiter and blanks comes from pieces that do, since no marker does. -/
theorem endsSegment_of_maskText {id : Nat} {ps : List Piece} (h : endsSegment (maskText id ps) = true) :
    Piece.EndsSegment ps := by
  induction ps using List.reverseRecOn with
  | nil => cases h
  | append_singleton ps p ih =>
    rw [maskText_append] at h
    cases p with
    | plain c =>
      rw [maskText, maskText, endsSegment_concat] at h
      split at h
      next hc => exact (ih h).append_blank hc
      next hc => exact (Piece.EndsSegment.delimiter h (w := []) (by simp)).append_left ps
    | kept kind t =>
      rw [maskText, maskText, List.append_nil, Marker.text, ← List.cons_append, ← List.append_assoc,
        endsSegment_concat] at h
      cases h

/-- How markers `0`, …, `n - 1` are numbered behind `k` others. -/
def Shifted (k n : Nat) (i j : Nat) : Prop := j = k + i ∧ i < n

/-- Shifted numbers are related one to one. -/
theorem biUnique_shifted (k n : Nat) : Relator.BiUnique (Shifted k n) := by
  constructor
  · rintro i j l ⟨rfl, -⟩ ⟨hjl, -⟩
    omega
  · rintro i j l ⟨rfl, -⟩ ⟨rfl, -⟩
    rfl

/-- The same pieces masked with higher numbers are alike. -/
theorem alike_shifted {ps : List Piece} (hps : Piece.Sound ps) {k : Nat}
    (hk : k + ps.countP Piece.isKept ≤ Marker.bound) :
    Alike (Shifted k (ps.countP Piece.isKept)) (maskText 0 ps) (maskText k ps) := by
  refine alike_maskText hps (by omega) hk ?_
  intro i hi
  rw [Nat.zero_add]
  exact ⟨rfl, hi⟩

/-- Wherever a list of pieces begins, its spans are the same but for their places. -/
theorem sameSpan_spansFrom {ps : List Piece} {i : Nat} (hi : i < ps.countP Piece.isKept)
    (offset offset' : Nat) : SameSpan (spansFrom offset ps) (spansFrom offset' ps) i i := by
  induction ps generalizing i offset offset' with
  | nil => cases hi
  | cons p ps ih =>
    cases p with
    | plain c => exact ih (by rwa [Piece.countP_isKept_plain] at hi) _ _
    | kept kind t =>
      cases i with
      | zero => exact ⟨_, _, rfl, rfl, rfl, rfl⟩
      | succ i =>
        rw [Piece.countP_isKept_kept] at hi
        exact ih (Nat.lt_of_succ_lt_succ hi) _ _

/-- Pieces have the same spans with others behind them. -/
theorem sameSpan_append_left {ps : List Piece} (qs : List Piece) {i j : Nat}
    (hij : i = j ∧ i < (spansFrom 0 ps).length) :
    SameSpan (spansFrom 0 ps) (spansFrom 0 (ps ++ qs)) i j := by
  obtain ⟨rfl, hi⟩ := hij
  refine ⟨_, _, List.getElem?_eq_getElem hi, ?_, rfl, rfl⟩
  rw [spansFrom_append, List.getElem?_append_left hi, List.getElem?_eq_getElem hi]

/-- Pieces have the same spans behind others, with higher numbers. -/
theorem sameSpan_append_right (ps : List Piece) {qs : List Piece} {i j : Nat}
    (hij : Shifted (ps.countP Piece.isKept) (qs.countP Piece.isKept) i j) :
    SameSpan (spansFrom 0 qs) (spansFrom 0 (ps ++ qs)) i j := by
  obtain ⟨rfl, hi⟩ := hij
  obtain ⟨x, y, hx, hy, hsame⟩ := sameSpan_spansFrom hi 0 (0 + byteSize (Piece.source ps))
  refine ⟨x, y, hx, ?_, hsame⟩
  rw [spansFrom_append, ← length_spansFrom 0 ps, List.getElem?_append_right (Nat.le_add_right _ _),
    Nat.add_sub_cancel_left, hy]

/-- Exchanging words in urls does not depend on where they stand. -/
theorem SameSpan.swapUrls {sheet sheet' : Masked} {i j : Nat} (h : SameSpan sheet.spans sheet'.spans i j)
    (options : UrlOptions) :
    SameSpan (sheet.swapUrls options).spans (sheet'.swapUrls options).spans i j := by
  obtain ⟨a, b, ha, hb, hkind, htext⟩ := h
  refine ⟨a.swapWords options, b.swapWords options, ?_, ?_, ?_⟩
  · rw [Masked.swapUrls, List.getElem?_map, ha]
    rfl
  · rw [Masked.swapUrls, List.getElem?_map, hb]
    rfl
  · rw [Span.swapWords, Span.swapWords, hkind, htext]
    split
    · exact ⟨rfl, rfl⟩
    · exact ⟨hkind, htext⟩

end Masked

namespace Segments

/-- A character in a body is no brace. -/
theorem hasBrace_push (c : Char) (ss : Segments) : (ss.push c).hasBrace = ss.hasBrace := by
  obtain ⟨_ | _, _⟩ := ss <;> rfl

/-- A text with a brace has segments with one. -/
theorem hasBrace_read {t : Text} (h : openBrace ∈ t ∨ closeBrace ∈ t) :
    (read t).hasBrace = true := by
  induction t with
  | nil => simp at h
  | cons c t ih =>
    rw [read]
    by_cases hc : c = openBrace ∨ c = closeBrace
    · have hne : c ≠ ';' := by rcases hc with rfl | rfl <;> decide
      have hdelimiter : isDelimiter c = true := by rcases hc with rfl | rfl <;> rfl
      rw [if_pos hdelimiter]
      show (decide (c ≠ ';') || (read t).hasBrace) = true
      rw [decide_eq_true hne, Bool.true_or]
    · have hrest : (read t).hasBrace = true := by
        apply ih
        rcases h with h | h
        · exact .inl (List.mem_of_ne_of_mem (fun heq => hc (.inl heq.symm)) h)
        · exact .inr (List.mem_of_ne_of_mem (fun heq => hc (.inr heq.symm)) h)
      split
      · show (decide (c ≠ ';') || (read t).hasBrace) = true
        rw [hrest, Bool.or_true]
      · rw [hasBrace_push, hrest]

end Segments

namespace Style

section

variable {a b : Text} (h : Piece.EndsSegment (pieces a))
include h

/-- The masked text of two sources is that of the first, and that of the second with higher numbers. -/
theorem text_ofSource_append :
    (Masked.ofSource (a ++ b)).text = (Masked.ofSource a).text ++
      Masked.maskText ((pieces a).countP Piece.isKept) (pieces b) := by
  rw [Masked.ofSource, pieces_append h, Masked.maskText_append, Nat.zero_add, Masked.ofSource]

/-- The spans of two sources are those of the first, and those of the second further behind. -/
theorem spans_ofSource_append :
    (Masked.ofSource (a ++ b)).spans = (Masked.ofSource a).spans ++
      Masked.spansFrom (byteSize a) (pieces b) := by
  rw [Masked.ofSource, pieces_append h, Masked.spansFrom_append, Nat.zero_add, Piece.source_pieces,
    Masked.ofSource]

/-- The markers of the first stylesheet have the same spans in both. -/
theorem sameSpan_first {i j : Nat} (hij : i = j ∧ i < (Masked.ofSource a).spans.length) :
    Masked.SameSpan (Masked.ofSource a).spans (Masked.ofSource (a ++ b)).spans i j := by
  rw [Masked.ofSource, Masked.ofSource, pieces_append h]
  exact Masked.sameSpan_append_left (pieces b) hij

/-- What is intact in the first source is intact in both. -/
theorem intact_first (options : UrlOptions) {x : Text}
    (hx : Masked.Intact (Masked.ofSource a).spans x) :
    Masked.Intact ((Masked.ofSource (a ++ b)).swapUrls options).spans x := by
  refine Alike.mono (fun i j hij => ⟨hij.1, ?_⟩) hx
  rw [Masked.length_swapUrls, spans_ofSource_append h, List.length_append]
  exact Nat.lt_add_right _ hij.2

/-- A text that has markers of the first stylesheet only names its pieces, in front of others. -/
theorem named_first (options : UrlOptions) {x : Text} (hx : Masked.Intact (Masked.ofSource a).spans x)
    (y : Text) :
    Masked.named ((Masked.ofSource (a ++ b)).swapUrls options).spans (x ++ y)
      = Masked.named ((Masked.ofSource a).swapUrls options).spans x ++
        Masked.named ((Masked.ofSource (a ++ b)).swapUrls options).spans y := by
  rw [(intact_first h options hx).named_append,
    Alike.named_eq hx fun i j hij => (sameSpan_first h hij).swapUrls options]

/-- The markers of the second stylesheet, renumbered, have the same spans in both. -/
theorem sameSpan_second {i j : Nat}
    (hij : Masked.Shifted ((pieces a).countP Piece.isKept) ((pieces b).countP Piece.isKept) i j) :
    Masked.SameSpan (Masked.ofSource b).spans (Masked.ofSource (a ++ b)).spans i j := by
  rw [Masked.ofSource, Masked.ofSource, pieces_append h]
  exact Masked.sameSpan_append_right (pieces a) hij

end

/-- **Stylesheets compose.** If the first ends with a brace that leaves no block open, and the second has
a brace, then both together are reflected to the reflections of both, one after the other; and so are
their declarations, changes and kept spans counted. -/
theorem reflect_append (style : Style) {a b : Text} (hbytes : byteSize (a ++ b) < Marker.bound)
    (hend : (Masked.ofSource a).text.getLast? = some closeBrace)
    (hdepth : (Segments.read (Masked.ofSource a).text).depth = 0)
    (hbrace : openBrace ∈ (Masked.ofSource b).text ∨ closeBrace ∈ (Masked.ofSource b).text) :
    ∃ A B, style.reflect a = .ok A ∧ style.reflect b = .ok B ∧
      style.reflect (a ++ b) = .ok
        { text := A.text ++ B.text
          declarations := A.declarations + B.declarations
          substitutions := A.substitutions + B.substitutions
          kept := A.kept + B.kept } := by
  have hlast : Piece.EndsSegment (pieces a) := by
    obtain ⟨u, hu⟩ := List.getLast?_eq_some_iff.mp hend
    exact Masked.endsSegment_of_maskText (hu ▸ endsSegment_concat u closeBrace)
  have hkept := Masked.countP_isKept_pieces_lt hbytes
  have hcount := hkept
  rw [pieces_append hlast, List.countP_append] at hcount
  have hshifted : Alike
      (Masked.Shifted ((pieces a).countP Piece.isKept) ((pieces b).countP Piece.isKept))
      (Masked.ofSource b).text (Masked.maskText ((pieces a).countP Piece.isKept) (pieces b)) :=
    Masked.alike_shifted (Piece.sound_cut false b) (Nat.le_of_lt hcount)
  have hbrace' : (Segments.read (Masked.maskText ((pieces a).countP Piece.isKept)
      (pieces b))).hasBrace = true := by
    rw [Segments.hasBrace_eq, ← (Segments.alike_read hshifted).closers, ← Segments.hasBrace_eq]
    exact Segments.hasBrace_read hbrace
  obtain ⟨hfirst, -, -⟩ := alike_reflectText (Masked.intact_ofSource (by omega : (pieces a).countP _ ≤ _))
    style.table
  obtain ⟨hsecond, hdeclarations, hsubstitutions⟩ := alike_reflectText hshifted style.table
  obtain ⟨htext, hdecl, hsub⟩ := reflectText_append hend hdepth hbrace' style.table
  have hspans := fun i j hij => (@sameSpan_second a b hlast i j hij).swapUrls style.urls
  refine ⟨_, _, reflect_eq style (by omega), reflect_eq style (by omega), ?_⟩
  rw [reflect_eq style (Nat.le_of_lt hkept), text_ofSource_append hlast, htext, hdecl, hsub]
  congr 2
  · rw [named_first hlast style.urls hfirst, Piece.source_append, hsecond.named_eq hspans]
  · rw [hdeclarations]
  · rw [hsubstitutions (Masked.biUnique_shifted _ _)]
  · show _ = (Masked.ofSource a).spans.length + (Masked.spansFrom 0 (pieces b)).length
    rw [spans_ofSource_append hlast, List.length_append, Masked.length_spansFrom,
      Masked.length_spansFrom]

/-- The first stylesheet ends with a declaration that only the brace closes, and a comment; the second with
a block that is left open. -/
theorem reflect_append_blocks :
    byteSize ("x\x7bleft:0/*;*/\x7d".toList ++ "y\x7bfloat:left".toList) < Marker.bound ∧
    (Masked.ofSource "x\x7bleft:0/*;*/\x7d".toList).text.getLast? = some closeBrace ∧
    (Segments.read (Masked.ofSource "x\x7bleft:0/*;*/\x7d".toList).text).depth = 0 ∧
    openBrace ∈ (Masked.ofSource "y\x7bfloat:left".toList).text ∧
    ∃ A B, reflect {} "x\x7bleft:0/*;*/\x7d".toList = .ok A ∧
      reflect {} "y\x7bfloat:left".toList = .ok B ∧
      reflect {} ("x\x7bleft:0/*;*/\x7d".toList ++ "y\x7bfloat:left".toList) = .ok
        { text := A.text ++ B.text
          declarations := A.declarations + B.declarations
          substitutions := A.substitutions + B.substitutions
          kept := A.kept + B.kept } := by
  have hbytes : byteSize ("x\x7bleft:0/*;*/\x7d".toList ++ "y\x7bfloat:left".toList) < Marker.bound := by
    decide
  have hend : (Masked.ofSource "x\x7bleft:0/*;*/\x7d".toList).text.getLast? = some closeBrace := by
    decide +kernel
  have hdepth : (Segments.read (Masked.ofSource "x\x7bleft:0/*;*/\x7d".toList).text).depth = 0 := by
    decide +kernel
  have hbrace : openBrace ∈ (Masked.ofSource "y\x7bfloat:left".toList).text := by
    decide +kernel
  exact ⟨hbytes, hend, hdepth, hbrace, reflect_append {} hbytes hend hdepth (.inl hbrace)⟩

end Style

end BidiSheet
