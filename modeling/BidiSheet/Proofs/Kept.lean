import BidiSheet.Proofs.Sheet
import BidiSheet.Proofs.Tally

/-!
# What is kept is written again

No kept span is lost, altered or made up. The markers of a masked source have the numbers of its spans, each
once and in order (`Masked.numbers_ofSource`). In the reflected text each of them stands once, and twice if it
is in the second of three corner radii (`Style.kept_reflect`). Unmasking writes the reflected text letter by
letter, and for each marker the text of its span: of urls with their words exchanged, of all else as it was.
-/

namespace BidiSheet

namespace Masked

/-- Kept pieces are numbered in order. -/
theorem numbers_maskText {ps : List Piece} (hps : Piece.Sound ps) {k : Nat}
    (hk : k + ps.countP Piece.isKept ≤ Marker.bound) :
    Marker.numbers (maskText k ps) = List.range' k (ps.countP Piece.isKept) := by
  induction ps generalizing k with
  | nil => exact Marker.numbers_nil
  | cons p ps ih =>
    cases p with
    | plain c =>
      rw [Piece.countP_isKept_plain] at hk ⊢
      rw [maskText, Marker.numbers_plain hps.head, ih hps.tail hk]
    | kept kind t =>
      rw [Piece.countP_isKept_kept] at hk ⊢
      rw [maskText, Marker.text_append, Marker.numbers_mark (by omega), ih hps.tail (by omega),
        List.range'_succ]

/-- The markers of a masked source are numbered in order. -/
theorem numbers_ofSource {source : Text} (h : (pieces source).countP Piece.isKept ≤ Marker.bound) :
    Marker.numbers (ofSource source).text = List.range (ofSource source).spans.length := by
  have hnumbers := numbers_maskText (Piece.sound_cut false source) (k := 0) (by rwa [Nat.zero_add])
  rw [length_spans_ofSource, List.range_eq_range']
  exact hnumbers

/-- The texts that markers are written as when the words of urls are exchanged. -/
theorem writing_swapUrls (options : UrlOptions) {sheet : Masked} {i : Nat} {span : Span}
    (h : sheet.spans[i]? = some span) :
    writing (sheet.swapUrls options).spans (.inr i)
      = if span.kind = .url then Url.swapWords options span.text else span.text := by
  rw [writing, swapUrls, List.getElem?_map, h]
  exact apply_ite Span.text _ _ _

end Masked

/-- If the markers of a text all have different numbers, those of the repeated words are written twice and
all others once. -/
theorem Tallied.count_eq {spans : List Span} {s t : Text} {ws : List Text} (h : Tallied spans s t ws)
    (hs : (Marker.numbers s).Nodup) (i : Nat) :
    (Marker.numbers t).count i =
      if i ∈ Marker.numbers s then if i ∈ ws.flatMap Marker.numbers then 2 else 1 else 0 := by
  have heq := h.eq i
  have hle := h.le i
  rw [tallies_eq_count, tally] at hle
  rw [tallies_eq_count, tally, tally, hs.count] at heq
  rw [hs.count] at hle
  rw [heq]
  split
  next hmem =>
    rw [if_pos hmem] at hle
    split
    next hmem' =>
      have hpos := List.count_pos_iff.mpr hmem'
      omega
    next hmem' => rw [List.count_eq_zero.mpr hmem']
  next hmem =>
    rw [if_neg hmem] at hle
    omega

namespace Style

/-- **No kept span is lost, altered or made up.** Its marker stands once in the reflected text, and twice if
it is in a word that is repeated; and it is written as the text of the span, or as the url with its words
exchanged. -/
theorem kept_reflect (style : Style) {source : Text} (hbytes : byteSize source < Marker.bound) :
    let masked := Masked.ofSource source
    let reflected := (reflectText style.table masked.text).text
    let swapped := (masked.swapUrls style.urls).spans
    Marker.numbers masked.text = List.range masked.spans.length ∧
    (∀ i, (Marker.numbers reflected).count i =
      if i < masked.spans.length then
        if i ∈ (repeats style.table masked.text).flatMap Marker.numbers then 2 else 1
      else 0) ∧
    (∃ sheet, style.reflect source = .ok sheet ∧
      sheet.text = (Marker.letters reflected).flatMap (Masked.writing swapped)) ∧
    (∀ i span, masked.spans[i]? = some span → Masked.writing swapped (.inr i) =
      if span.kind = .url then Url.swapWords style.urls span.text else span.text) ∧
    (style.urls = {} → swapped = masked.spans) := by
  intro masked reflected swapped
  have hkept := Nat.le_of_lt (Masked.countP_isKept_pieces_lt hbytes)
  have hintact : Masked.Intact masked.spans masked.text := Masked.intact_ofSource hkept
  have hnumbers : Marker.numbers masked.text = List.range masked.spans.length :=
    Masked.numbers_ofSource hkept
  refine ⟨hnumbers, fun i => ?_, ⟨_, reflect_eq style hkept, ?_⟩,
    fun i span => Masked.writing_swapUrls style.urls, fun hurls => ?_⟩
  · have hcount := (tallied_reflectText hintact style.table).count_eq (hnumbers ▸ List.nodup_range) i
    rw [hnumbers] at hcount
    simpa only [List.mem_range] using hcount
  · have hreflected := hintact.reflectText style.table
    rw [Masked.Intact, ← Masked.length_swapUrls style.urls] at hreflected
    exact Masked.Intact.source_named hreflected
  · show (masked.swapUrls style.urls).spans = masked.spans
    rw [hurls, Masked.swapUrls_default]

/-- A comment in the second of three radii, a declaration that is to be left alone, and a url. -/
theorem kept_reflect_radii :
    let style : Style := { urls := ⟨true, true⟩ }
    let source :=
      "a\x7bborder-radius:1px (/*left*/) 3px/2px;/*@noflip*/left:0;background:url(left.png)\x7d".toList
    let masked := Masked.ofSource source
    let reflected := (reflectText style.table masked.text).text
    let swapped := (masked.swapUrls style.urls).spans
    byteSize source < Marker.bound ∧
    (repeats style.table masked.text).flatMap Marker.numbers = [0] ∧
    Marker.numbers masked.text = List.range masked.spans.length ∧
    (∀ i, (Marker.numbers reflected).count i =
      if i < masked.spans.length then
        if i ∈ (repeats style.table masked.text).flatMap Marker.numbers then 2 else 1
      else 0) ∧
    (∃ sheet, style.reflect source = .ok sheet ∧
      sheet.text = (Marker.letters reflected).flatMap (Masked.writing swapped)) ∧
    (∀ i span, masked.spans[i]? = some span → Masked.writing swapped (.inr i) =
      if span.kind = .url then Url.swapWords style.urls span.text else span.text) ∧
    (style.urls = {} → swapped = masked.spans) := by
  refine ⟨?bytes, ?repeated, kept_reflect _ ?bytes⟩
  case bytes => decide +kernel
  case repeated => decide +kernel

end Style

end BidiSheet
