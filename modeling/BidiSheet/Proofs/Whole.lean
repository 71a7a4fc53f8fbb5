import BidiSheet.Proofs.Reflected

/-!
# Texts whose markers are whole

The texts that are reflected come from masking, and there every opening character begins a marker. That is
all that the readers of values and declarations need, so most of what is said of masked texts holds of every
text whose markers are whole (`Marker.AllWhole`), whoever wrote it: numbers may be written with leading
zeros and name nothing, and closing characters may stand alone.

A marker has no character at which a text is cut. So the markers of a text's declarations are whole
(`allWhole_of_mem_declarations`), and no word of a value begins with an opening character
(`Value.isMarked_of_allWhole`).
-/

namespace BidiSheet

open Marker (opener closer)

namespace Marker

/-- Every opening character of a text begins a marker. -/
def AllWhole (t : Text) : Prop := ∀ s, s <:+ t → s.head? = some opener → (read? s).isSome = true

/-- All markers are whole if each end of the text that begins with an opening character begins with one. -/
theorem allWhole_iff_tails {t : Text} :
    AllWhole t ↔ ∀ s ∈ t.tails, s.head? = some opener → (read? s).isSome = true := by
  simp only [AllWhole, List.mem_tails]

instance (t : Text) : Decidable (AllWhole t) := decidable_of_iff _ allWhole_iff_tails.symm

variable {s r t : Text}

/-- The end of a text whose markers are whole has whole markers. -/
theorem AllWhole.suffix (h : AllWhole t) (hs : s <:+ t) : AllWhole s :=
  fun u hu => h u (hu.trans hs)

/-- Whether a marker could not go on with the first character of a text. -/
def isOutside (t : Text) : Bool := t.head?.all fun c => !c.isDigit && c ≠ closer

/-- A marker that begins in `s` ends there, if none could go on behind it. -/
theorem isSome_read?_of_append (hne : s ≠ []) (hr : isOutside r = true)
    (h : (read? (s ++ r)).isSome = true) : (read? s).isSome = true := by
  obtain ⟨found, hfound⟩ := Option.isSome_iff_exists.mp h
  obtain ⟨ds, rest, heq, hds, hne', hlt, -⟩ := exists_of_read? hfound
  obtain ⟨c, s, rfl⟩ := List.exists_cons_of_ne_nil hne
  obtain ⟨rfl, hrest⟩ := List.cons.inj heq
  have hsplit : s ++ r = (ds ++ [closer]) ++ rest := by
    rw [List.append_assoc, List.singleton_append]
    exact hrest
  rcases List.append_eq_append_iff.mp hsplit with ⟨u, hmarker, hu⟩ | ⟨u, hs, -⟩
  · -- the marker would end behind `s`
    cases u with
    | nil =>
      rw [List.append_nil] at hmarker
      rw [← hmarker, read?_mark hds hne' hlt]
      rfl
    | cons d u =>
      have hd : d ∈ ds ++ [closer] := by
        rw [hmarker]
        exact List.mem_append_right s List.mem_cons_self
      rw [hu] at hr
      have hout : d.isDigit = false ∧ d ≠ closer := by simpa [isOutside] using hr
      rcases List.mem_append.mp hd with hdigit | hcloser
      · exact absurd (hds d hdigit) (by simp [hout.1])
      · exact absurd (List.mem_singleton.mp hcloser) hout.2
  · rw [hs, List.append_assoc, List.singleton_append, read?_mark hds hne' hlt]
    rfl

/-- Markers are whole in the front part of a text, if the cut is not inside of one. -/
theorem AllWhole.left (h : AllWhole (s ++ r)) (hr : isOutside r = true) : AllWhole s := by
  rintro u ⟨front, rfl⟩ hhead
  have hne : u ≠ [] := by
    rintro rfl
    cases hhead
  apply isSome_read?_of_append hne hr
  apply h
  · exact ⟨front, by rw [List.append_assoc]⟩
  · rw [List.head?_append_of_ne_nil u hne, hhead]

end Marker

open Marker (AllWhole isOutside)

/-! ### Values -/

/-- No word begins with an opening character, if all markers are whole. -/
theorem Value.Reads.isMarked_of_allWhole {tail : Text} {ts : List Token} (h : Reads tail ts)
    (hwhole : AllWhole (Tokens.source ts ++ tail)) : Tokens.isMarked ts = true := by
  induction h with
  | nil => rfl
  | @cons gap cs kind c ts hgap hc h rest ih =>
    rw [Tokens.source_cons, List.append_assoc, List.append_assoc] at hwhole
    have htoken := hwhole.suffix (List.suffix_append gap _)
    rw [Tokens.isMarked, List.all_cons, Bool.and_eq_true]
    refine ⟨?_, ih (htoken.suffix (List.suffix_append (c :: cs) _))⟩
    by_cases hword : kind = .word
    · subst hword
      have hopener : c ≠ opener := by
        rintro rfl
        obtain ⟨-, hkind, -⟩ | ⟨-, hkind, -⟩ | ⟨-, -, hkind, -⟩ | ⟨-, -, hnone, -⟩ := tokenAt_cases h
        · cases hkind
        · cases hkind
        · cases hkind
        · have hsome := htoken _ (List.suffix_refl _) rfl
          rw [List.cons_append, hnone] at hsome
          cases hsome
      simpa using hopener
    · simp [hword]

/-- A text whose markers are whole has no word that begins with a broken one. -/
theorem Value.isMarked_of_allWhole {x : Text} (h : AllWhole x) :
    Tokens.isMarked (read x).tokens = true := by
  apply (reads_read x).isMarked_of_allWhole
  rwa [source_tokens_read]

/-! ### Declarations -/

/-- A delimiter is outside all markers. -/
theorem isOutside_of_isDelimiter {c : Char} (h : isDelimiter c = true) (t : Text) :
    isOutside (c :: t) = true := by
  have hcases : (c = openBrace ∨ c = closeBrace) ∨ c = ';' := by simpa [isDelimiter] using h
  rcases hcases with (rfl | rfl) | rfl <;> rfl

/-- The markers of the segments of a text are whole. -/
theorem allWhole_of_mem_bodies {t body : Text} (h : AllWhole t)
    (hbody : body ∈ (Segments.read t).bodies) : AllWhole body := by
  have hcut := Segments.cut_read t
  rw [← Segments.text_read t, Segments.text] at h
  rcases Segments.mem_bodies hbody with ⟨s, hs, rfl⟩ | rfl
  · obtain ⟨before, behind, hclosed⟩ := List.append_of_mem hs
    have hdelimiter := hcut.closer s hs
    rw [hclosed, List.flatMap_append, List.flatMap_cons, Segment.text, List.append_assoc,
      List.append_assoc, List.append_assoc] at h
    exact (h.suffix (List.suffix_append _ _)).left (isOutside_of_isDelimiter hdelimiter _)
  · exact h.suffix (List.suffix_append _ _)

/-- A value is followed by nothing, or by an exclamation mark. -/
theorem Declaration.Legible.isOutside_tail {d : Declaration} (h : d.Legible) : isOutside d.tail = true := by
  have hvalue := h.value
  rw [valueLength_eq, outerLength_append_eq_iff] at hvalue
  rcases hvalue.2 with hnil | ⟨-, hmark⟩
  · rw [hnil]
    rfl
  · cases htail : d.tail with
    | nil => rfl
    | cons c t =>
      rw [htail] at hmark
      have hc : c = '!' := by simpa using hmark
      rw [hc]
      rfl

/-- **The values of a text with whole markers have whole markers.** -/
theorem allWhole_of_mem_declarations {t : Text} (h : AllWhole t) {d : Declaration}
    (hd : d ∈ declarations t) : AllWhole d.value := by
  obtain ⟨body, hbody, hread⟩ := List.mem_filterMap.mp hd
  have hwhole := allWhole_of_mem_bodies h hbody
  rw [← Declaration.text_read hread, Declaration.text, List.append_assoc, List.cons_append] at hwhole
  have hrest := (hwhole.suffix (List.suffix_append _ _)).suffix (List.suffix_cons ':' _)
  exact hrest.left (Declaration.legible_of_read? hread).isOutside_tail

end BidiSheet
