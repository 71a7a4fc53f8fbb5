import BidiSheet.Proofs.Rescan
import BidiSheet.Proofs.Sheet
import BidiSheet.Proofs.Tally

/-!
# Reflections are restored by reflecting twice

Reflecting a stylesheet is no involution: letters change their case once, a percentage is written in its
shortest form, three corner radii become four. But it is one on its own results
(`Style.reflect_involutive_on_image`).

The proof follows the masked text. Let `t` be the masked text of the source, with its spans. The reflection
is what the reflected text names, and scanning it finds the same kept stretches (`reads_reflectText`), so
its masked text is like the reflected text of `t` but for the numbers of the markers
(`Alike.maskText_named`). Reflecting does not depend on these numbers, so the reflection of the reflection
is what the text reflected twice names (`Style.exists_reflect_named`), and likewise the third time. The text
reflected three times is the text reflected once (`reflectText_reflectText_reflectText`).
-/

namespace BidiSheet

open Masked (named Intact maskText spansFrom)

/-! ### Masking again -/

/-- **Masking the pieces that a text names gives the text again**, but for the numbers of the markers. The
spans of the pieces stand behind others. -/
theorem Alike.maskText_named {ρ : Nat → Nat → Prop} {spans : List Span} {s t : Text} (h : Alike ρ s t)
    (hρ : ∀ i j, ρ i j → ∃ span, spans[i]? = some span) (earlier : List Span) (start : Nat)
    (hlt : earlier.length + (named spans s).countP Piece.isKept ≤ Marker.bound) :
    Alike (Masked.SameSpan spans (earlier ++ spansFrom start (named spans s))) s
      (maskText earlier.length (named spans s)) := by
  induction h generalizing earlier start with
  | nil =>
    rw [Masked.named_nil]
    exact .nil
  | plain hc h ih =>
    rw [Masked.named_plain hc] at hlt ⊢
    exact .plain hc (ih earlier _ hlt)
  | @mark i j s t hi hj hij h ih =>
    obtain ⟨span, hspan⟩ := hρ i j hij
    rw [Masked.named_mark hi hspan, Piece.countP_isKept_kept] at hlt
    rw [Masked.named_mark hi hspan, maskText, Marker.text_append, spansFrom]
    refine .mark hi (by omega) ⟨span, ⟨span.kind, start, start + byteSize span.text, span.text⟩, hspan,
      by simp, rfl, rfl⟩ ?_
    -- the span just named is one of the earlier spans of the rest
    have hnext := ih (earlier ++ [⟨span.kind, start, start + byteSize span.text, span.text⟩])
      (start + byteSize span.text) (by rw [List.length_append, List.length_singleton]; omega)
    rwa [List.length_append, List.length_singleton, List.append_assoc, List.singleton_append] at hnext

/-! ### Reflecting what a text names -/

/-- **The reflection of what a text names is what the reflected text names**, if the named pieces read. -/
theorem Style.exists_reflect_named {spans : List Span} {t : Text} (h : Intact spans t)
    (hreads : Piece.Reads false (named spans t)) (hcount : (Marker.numbers t).length ≤ Marker.bound) :
    ∃ sheet, reflect {} (Piece.source (named spans t)) = .ok sheet ∧
      sheet.text = Piece.source (named spans (reflectText .standard t).text) := by
  have hpieces : pieces (Piece.source (named spans t)) = named spans t := Piece.cut_of_reads hreads
  rw [← h.countP_isKept_named] at hcount
  refine ⟨_, reflect_eq {} (by rwa [hpieces]), ?_⟩
  have halike := Alike.maskText_named h (fun _ _ hi => ⟨_, List.getElem?_eq_getElem hi.2⟩) [] 0
    (by rwa [List.length_nil, Nat.zero_add])
  rw [List.nil_append, List.length_nil, ← hpieces] at halike
  have hreflected := (alike_reflectText halike .standard).1
  simp only [Masked.swapUrls_default]
  exact congrArg Piece.source (hreflected.named_eq fun _ _ hij => hij).symm

/-! ### The declarations of an intact text -/

/-- The bodies of an intact text are intact. -/
theorem intact_of_mem_bodies {spans : List Span} {t body : Text} (h : Intact spans t)
    (hbody : body ∈ (Segments.read t).bodies) : Intact spans body := by
  have hparts := Segments.alike_read h
  rcases Segments.mem_bodies hbody with ⟨s, hs, rfl⟩ | rfl
  · exact (List.forall₂_same.mp hparts.closed s hs).body
  · exact hparts.tail

/-- The values of an intact text have whole markers. -/
theorem isMarked_of_mem_declarations {spans : List Span} {t : Text} (h : Intact spans t) {d : Declaration}
    (hd : d ∈ declarations t) : Tokens.isMarked (Value.read d.value).tokens = true := by
  obtain ⟨body, hbody, hread⟩ := List.mem_filterMap.mp hd
  exact Value.isMarked_read (Declaration.intactParts_of_read? (intact_of_mem_bodies h hbody) hread).value

/-! ### Reflecting three times -/

namespace Style

/-- **Reflecting is an involution on reflections**: a stylesheet that is reflected three times is the same
as after the first time, as long as a marker can number twice its bytes. The declarations that put words in
another order, those of boxes and of corner radii, have to be settled. -/
theorem reflect_involutive_on_image {source : Text} (hbytes : 2 * byteSize source ≤ Marker.bound)
    (hsettled : ∀ d ∈ declarations (Masked.ofSource source).text, d.isMoved .standard = true →
      d.Settled (Masked.ofSource source).spans) :
    ∃ A B C, reflect {} source = .ok A ∧ reflect {} A.text = .ok B ∧ reflect {} B.text = .ok C ∧
      C.text = A.text := by
  have hkept : (pieces source).countP Piece.isKept ≤ byteSize source := by
    have hle := Piece.countP_isKept_le (Piece.sound_cut false source)
    rwa [Piece.text_cut] at hle
  have hbound : (pieces source).countP Piece.isKept ≤ Marker.bound := by omega
  have hnamed := Masked.named_ofSource hbound
  have hintact := Masked.intact_ofSource hbound
  have htally := hintact.countP_isKept_named
  rw [hnamed] at htally
  generalize (Masked.ofSource source).spans = spans at hsettled hnamed hintact
  generalize (Masked.ofSource source).text = t at hsettled hnamed hintact htally
  -- the masked text, reflected once and twice
  have hreads : Piece.Reads false (named spans t) := by
    rw [hnamed]
    exact Piece.reads_cut false source
  have hreads₁ := reads_reflectText hintact hsettled hreads
  have hintact₁ := hintact.reflectText .standard
  have hsettled₁ : ∀ d ∈ declarations (reflectText .standard t).text, d.isMoved .standard = true →
      d.Settled spans := by
    rw [declarations_reflectText_text]
    intro e he hmoved
    obtain ⟨d, hd, rfl⟩ := List.mem_map.mp he
    rw [Declaration.isMoved_reflect] at hmoved
    exact (hsettled d hd hmoved).reflect (isMarked_of_mem_declarations hintact hd) hmoved
  have hreads₂ := reads_reflectText hintact₁ hsettled₁ hreads₁
  have hintact₂ := hintact₁.reflectText .standard
  have hthrice := reflectText_reflectText_reflectText fun d hd =>
    ⟨isMarked_of_mem_declarations hintact hd, fun hmoved => (hsettled d hd hmoved).closed⟩
  -- the second reflection has as many markers as the first
  have htally₁ := (tallied_reflectText hintact .standard).length_le_double
  have htally₂ := (tallied_reflectText hintact₂ .standard).length_le
  rw [hthrice] at htally₂
  obtain ⟨A, hA, htextA⟩ := exists_reflect_named hintact hreads (by omega)
  obtain ⟨B, hB, htextB⟩ := exists_reflect_named hintact₁ hreads₁ (by omega)
  obtain ⟨C, hC, htextC⟩ := exists_reflect_named hintact₂ hreads₂ (by omega)
  rw [hnamed, Piece.source_pieces] at hA
  refine ⟨A, B, C, hA, htextA ▸ hB, htextB ▸ hC, ?_⟩
  rw [htextC, hthrice, htextA]

/-- A declaration that is to be left alone, brackets with a comment inside, a number with a sign, three
radii, a hack, a bracket that is never closed, a url, and a percentage with a zero too many. -/
theorem reflect_involutive_on_attribute :
    let source := ("/*@noflip*/left:0;Margin:0 (/*;*/) +3px 4PX;border-radius:1px 2px 3px;" ++
      "*LEFT:(0;background:url(left) 010%").toList
    2 * byteSize source ≤ Marker.bound ∧
    (∀ d ∈ declarations (Masked.ofSource source).text, d.isMoved .standard = true →
      d.Settled (Masked.ofSource source).spans) ∧
    ∃ A B C, reflect {} source = .ok A ∧ reflect {} A.text = .ok B ∧ reflect {} B.text = .ok C ∧
      C.text = A.text := by
  refine ⟨?bytes, ?settled, reflect_involutive_on_image ?bytes ?settled⟩
  case bytes => decide +kernel
  case settled => decide +kernel

end Style

end BidiSheet
