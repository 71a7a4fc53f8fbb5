import BidiSheet.Proofs.Case.Part
import BidiSheet.Proofs.Piece
import BidiSheet.Proofs.Quiet

/-!
# Exchanging words keeps their case

A word that takes over the case of another is again a model of that case: writing a word and its partner
in each other's case, one after the other, changes nothing after the first time
(`Vocabulary.lookup_lookup`). This is proved part by part, for all words whose parts are counterparts of
each other (`recase_keeps_case`), and the words of each vocabulary are.
-/

namespace BidiSheet

/-! ### Parts -/

/-- The hyphen has no other case. -/
theorem toLower_eq_hyphen_iff {c : Char} : c.toLower = '-' ↔ c = '-' := by
  constructor
  · exact eq_of_toLower_eq (by decide)
  · rintro rfl
    decide

/-- A hyphen ends a part, and any other character belongs to the first one. -/
theorem parts_cons (c : Char) (w : Text) :
    parts (c :: w) = if c = '-' then [] :: parts w else (parts w).modifyHead (c :: ·) := by
  rw [parts, List.splitOn, List.splitOnP_cons_eq_if_modifyHead]
  simp [parts, List.splitOn]

/-- Making a word small makes its parts small. -/
theorem parts_lower (w : Text) : parts (lower w) = (parts w).map lower := by
  induction w with
  | nil => rfl
  | cons c w ih =>
    show parts (c.toLower :: lower w) = _
    rw [parts_cons, parts_cons, ih]
    by_cases hc : c = '-'
    · rw [if_pos hc, if_pos (toLower_eq_hyphen_iff.mpr hc)]
      rfl
    · rw [if_neg hc, if_neg (mt toLower_eq_hyphen_iff.mp hc)]
      cases parts w <;> rfl

/-- Parts with hyphens between them are the parts of a word. -/
theorem parts_intercalate {ts : List Text} (hne : ts ≠ []) (h : ∀ t ∈ ts, '-' ∉ t) :
    parts (['-'].intercalate ts) = ts :=
  List.splitOn_intercalate _ h hne

/-- Hyphens stay where they are in small letters. -/
theorem hyphen_mem_lower_iff {t : Text} : '-' ∈ lower t ↔ '-' ∈ t := by
  rw [lower, List.mem_map]
  constructor
  · rintro ⟨c, hc, hlow⟩
    rwa [toLower_eq_hyphen_iff.mp hlow] at hc
  · exact fun h => ⟨'-', h, by decide⟩

/-- No part has a hyphen. -/
theorem hyphen_not_mem_of_mem_parts {w t : Text} (h : t ∈ parts w) : '-' ∉ t := by
  induction w generalizing t with
  | nil =>
    rw [List.mem_singleton.mp h]
    exact List.not_mem_nil
  | cons c w ih =>
    rw [parts_cons] at h
    split at h
    next =>
      rcases List.mem_cons.mp h with rfl | h
      · exact List.not_mem_nil
      · exact ih h
    next hc =>
      cases hparts : parts w with
      | nil => exact absurd hparts (List.splitOnP_ne_nil _ w)
      | cons u us =>
        rw [hparts] at h ih
        rcases List.mem_cons.mp h with rfl | h
        · rw [List.mem_cons, not_or]
          exact ⟨Ne.symm hc, ih List.mem_cons_self⟩
        · exact ih (List.mem_cons_of_mem u h)

/-- A word is given by its parts. -/
theorem eq_of_parts_eq {v w : Text} (h : parts v = parts w) : v = w := by
  have hjoin := congrArg (['-'].intercalate ·) h
  simpa only [parts, List.intercalate_splitOn] using hjoin

/-! ### A word in the case of another -/

section

variable {word model : Text}

/-- A word in the case of another has its parts in the case of the other's. -/
theorem parts_recase (h : (parts word).length = (parts model).length) :
    parts (recase word model) = List.zipWith recasePart (parts word) (parts model) := by
  rw [recase, if_pos h]
  refine parts_intercalate ?_ ?_
  · rw [Ne, List.zipWith_eq_nil_iff, not_or]
    exact ⟨List.splitOnP_ne_nil _ word, List.splitOnP_ne_nil _ model⟩
  · -- no hyphen comes in or goes with the case
    intro u hu
    obtain ⟨i, hi, rfl⟩ := List.mem_iff_getElem.mp hu
    rw [List.getElem_zipWith, ← hyphen_mem_lower_iff, lower_recasePart, hyphen_mem_lower_iff]
    exact hyphen_not_mem_of_mem_parts (List.getElem_mem _)

/-- The case of parts does not change their letters. -/
theorem map_lower_zipWith_recasePart {ts ms : List Text} (h : ts.length = ms.length) :
    (List.zipWith recasePart ts ms).map lower = ts.map lower := by
  induction ts generalizing ms with
  | nil => rfl
  | cons t ts ih =>
    cases ms with
    | nil => cases h
    | cons m ms =>
      rw [List.zipWith_cons_cons, List.map_cons, List.map_cons, lower_recasePart,
        ih (Nat.succ.inj h)]

/-- A word in any case is the same word. -/
theorem lower_recase_eq_lower (word model : Text) : lower (recase word model) = lower word := by
  by_cases h : (parts word).length = (parts model).length
  · apply eq_of_parts_eq
    rw [parts_lower, parts_lower, parts_recase h, map_lower_zipWith_recasePart h]
  · rw [recase, if_neg h, lower_recasePart]

end

/-! ### Words that stand for each other -/

section

variable {ss ts ms : List Text}

/-- Counterparts are so both ways. -/
theorem counterparts_symm (h : List.Forall₂ Counterparts ss ts) : List.Forall₂ Counterparts ts ss :=
  (h.imp fun _ _ => Counterparts.symm).flip

/-- Counterparts are written in small letters. -/
theorem map_lower_of_counterparts (h : List.Forall₂ Counterparts ss ts) : ts.map lower = ts := by
  induction h with
  | nil => rfl
  | cons hst _ ih => rw [List.map_cons, hst.small_right, ih]

/-- A second change of case takes parts back to parts of one case. -/
theorem zipWith_recasePart_recasePart (h : List.Forall₂ Counterparts ss ts) (hms : ms.map lower = ss)
    (huniform : ∀ m ∈ ms, isUniform m = true) :
    List.zipWith recasePart ss (List.zipWith recasePart ts ms) = ms := by
  induction h generalizing ms with
  | nil => exact (List.map_eq_nil_iff.mp hms).symm
  | @cons s t ss ts hst _ ih =>
    cases ms with
    | nil => cases hms
    | cons m ms =>
      rw [List.map_cons, List.cons.injEq] at hms
      have hm := hst.recasePart_recasePart hms.1 (huniform m List.mem_cons_self)
      have hrest := ih hms.2 fun u hu => huniform u (List.mem_cons_of_mem m hu)
      rw [List.zipWith_cons_cons, List.zipWith_cons_cons, hm, hrest]

/-- A third change of case undoes the second. -/
theorem zipWith_recasePart_thrice (h : List.Forall₂ Counterparts ss ts) (hms : ms.map lower = ss) :
    List.zipWith recasePart ts (List.zipWith recasePart ss (List.zipWith recasePart ts ms))
      = List.zipWith recasePart ts ms := by
  induction h generalizing ms with
  | nil => rfl
  | @cons s t ss ts hst _ ih =>
    cases ms with
    | nil => cases hms
    | cons m ms =>
      rw [List.map_cons, List.cons.injEq] at hms
      simp only [List.zipWith_cons_cons]
      rw [hst.recasePart_thrice hms.1, ih hms.2]

end

section

variable {v w m : Text}

/-- The parts of a word in whatever case are those of the word. -/
theorem map_lower_parts (hm : lower m = v) : (parts m).map lower = parts v := by
  rw [← parts_lower, hm]

/-- A word whose parts have counterparts is written in small letters. -/
theorem lower_of_counterparts (h : List.Forall₂ Counterparts (parts v) (parts w)) : lower w = w := by
  apply eq_of_parts_eq
  rw [parts_lower, map_lower_of_counterparts h]

/-- A word in the case of another one is the same word. -/
theorem lower_recase (h : List.Forall₂ Counterparts (parts v) (parts w)) (m : Text) :
    lower (recase w m) = w := by
  rw [lower_recase_eq_lower, lower_of_counterparts h]

/-- A partner in the case of a word has its parts in the case of the word's. -/
theorem parts_recase_of_lower (h : List.Forall₂ Counterparts (parts v) (parts w)) (hm : lower m = v) :
    parts (recase w m) = List.zipWith recasePart (parts w) (parts m) := by
  refine parts_recase ?_
  have hmap := congrArg List.length (map_lower_parts hm)
  rw [List.length_map] at hmap
  rw [hmap, h.length_eq]

/-- **A word returns** when it is exchanged to and fro, if each of its parts is written in one way. -/
theorem recase_recase (h : List.Forall₂ Counterparts (parts v) (parts w)) (hm : lower m = v)
    (huniform : ∀ t ∈ parts m, isUniform t = true) : recase v (recase w m) = m := by
  apply eq_of_parts_eq
  rw [parts_recase_of_lower (counterparts_symm h) (lower_recase h m), parts_recase_of_lower h hm]
  exact zipWith_recasePart_recasePart h (map_lower_parts hm) huniform

/-- **The case of a word is kept** when the word is exchanged to and fro. -/
theorem recase_thrice (h : List.Forall₂ Counterparts (parts v) (parts w)) (hm : lower m = v) :
    recase w (recase v (recase w m)) = recase w m := by
  have h' := counterparts_symm h
  have hback := lower_recase h' (recase w m)
  apply eq_of_parts_eq
  rw [parts_recase_of_lower h hback, parts_recase_of_lower h' (lower_recase h m), parts_recase_of_lower h hm]
  exact zipWith_recasePart_thrice h (map_lower_parts hm)

end

/-- The parts of a keyword are written in small letters. -/
theorem lower_of_mem_parts {w t : Text} (h : isKeyword w = true) (ht : t ∈ parts w) : lower t = t := by
  have hid : ∀ c ∈ t, c.toLower = id c := by
    intro c hc
    have hkey := List.all_eq_true.mp h c (mem_of_mem_parts ht hc)
    simp only [Bool.or_eq_true, decide_eq_true_eq] at hkey
    apply Char.toLower_eq_of_not_isUpper
    obtain (hlower | hdigit) | rfl := hkey
    · exact Char.not_isUpper_of_isLower hlower
    · intro hupper
      simp only [Char.isUpper, Char.isDigit, Bool.and_eq_true, decide_eq_true_eq, ge_iff_le] at hupper hdigit
      exact absurd (UInt32.le_trans hupper.1 hdigit.2) (by decide)
    · decide
  rw [lower, List.map_congr_left hid, List.map_id]

/-- The parts of keywords that may take over each other's case are counterparts. -/
theorem counterparts_of_areTwins {v w : Text} (hv : isKeyword v = true) (hw : isKeyword w = true)
    (h : areTwins v w = true) : List.Forall₂ Counterparts (parts v) (parts w) := by
  rw [areTwins, Bool.and_eq_true, decide_eq_true_eq, List.all_eq_true] at h
  refine List.forall₂_iff_zip.mpr ⟨h.1, fun {s t} hmem => ?_⟩
  have htwins := h.2 _ hmem
  simp only [Bool.and_eq_true, beq_iff_eq, decide_eq_decide] at htwins
  obtain ⟨hs, ht⟩ := List.of_mem_zip hmem
  obtain ⟨⟨hbegins, hbegins'⟩, hsingle⟩ := htwins
  have hpos := length_letters_pos hbegins
  have hpos' := length_letters_pos hbegins'
  rw [← letters, ← letters] at hsingle
  exact ⟨lower_of_mem_parts hv hs, lower_of_mem_parts hw ht, hbegins, hbegins', by omega⟩

/-- A word whose parts have counterparts begins with a letter, as its first part does. -/
theorem beginsWithLetter_of_counterparts {v w : Text} (h : List.Forall₂ Counterparts (parts v) (parts w)) :
    beginsWithLetter v = true := by
  have hbegins : ∀ s ∈ parts v, beginsWithLetter s = true := by
    intro s hs
    obtain ⟨i, hi, rfl⟩ := List.mem_iff_getElem.mp hs
    exact ((List.forall₂_iff_get.mp h).2 i hi (h.length_eq ▸ hi)).begins_left
  cases v with
  | nil => exact absurd (hbegins [] (by decide)) (by decide)
  | cons c u =>
    rw [parts_cons] at hbegins
    split at hbegins
    · exact absurd (hbegins [] List.mem_cons_self) (by decide)
    · cases hu : parts u with
      | nil => exact absurd hu (List.splitOn_ne_nil '-' u)
      | cons s ss =>
        rw [hu] at hbegins
        exact hbegins (c :: s) List.mem_cons_self

/-- A word of letters has one part. -/
theorem parts_of_isLetters {w : Text} (h : isLetters w = true) : parts w = [w] := by
  apply List.splitOnP_eq_singleton
  intro c hc
  rw [beq_eq_false_iff_ne]
  rintro rfl
  exact absurd ((isLetters_iff.mp h).2 _ hc) (by decide)

/-- Words of letters alone have one part. -/
theorem recase_of_isLetters {w m : Text} (hw : isLetters w = true) (hm : isLetters m = true) :
    recase w m = recasePart w m := by
  rw [recase, parts_of_isLetters hw, parts_of_isLetters hm]
  exact List.intercalate_singleton

/-! ### Vocabularies -/

namespace Vocabulary

variable {v : Vocabulary} {w w₁ : Text}

/-- In pairs of distinct words, each word of a pair is found beside the other. -/
theorem findSome?_of_mem {pairs : List (Text × Text)} {a b : Text}
    (hdistinct : (pairs.flatMap fun pair => [pair.1, pair.2]).Nodup) (h : (a, b) ∈ pairs) :
    (pairs.findSome? fun pair => if a = pair.1 then some pair.2 else if a = pair.2 then some pair.1 else none)
        = some b ∧
    (pairs.findSome? fun pair => if b = pair.1 then some pair.2 else if b = pair.2 then some pair.1 else none)
        = some a := by
  induction pairs with
  | nil => cases h
  | cons pair pairs ih =>
    obtain ⟨x, y⟩ := pair
    rw [List.flatMap_cons, List.nodup_append] at hdistinct
    obtain ⟨hpair, hrest, hapart⟩ := hdistinct
    rw [List.findSome?_cons, List.findSome?_cons]
    rcases List.mem_cons.mp h with heq | hmem
    · obtain ⟨rfl, rfl⟩ := Prod.mk.inj heq
      have hne : b ≠ a := fun hba => by simp [hba] at hpair
      simp [hne]
    · have hwords : ∀ w ∈ [a, b], w ≠ x ∧ w ≠ y := by
        intro w hw
        have hw' : w ∈ pairs.flatMap fun pair => [pair.1, pair.2] := List.mem_flatMap.mpr ⟨_, hmem, hw⟩
        exact ⟨(hapart x (by simp) w hw').symm, (hapart y (by simp) w hw').symm⟩
      have ha := hwords a (by simp)
      have hb := hwords b (by simp)
      simpa [ha, hb] using ih hrest hmem

/-- No word is its own partner. -/
theorem partner_ne_self (w : Text) : v.partner w ≠ some w := by
  intro h
  have hmem : (w, w) ∈ v.pairs := or_self_iff.mp (mem_pairs_of_partner h)
  have hpair : [w, w].Nodup := (List.nodup_flatMap.mp v.distinct).1 _ hmem
  simp at hpair

/-- The words of a pair are partners, and may be written in each other's case. -/
theorem isPair_of_mem {a b : Text} (h : (a, b) ∈ v.pairs) :
    v.partner a = some b ∧ v.partner b = some a ∧ List.Forall₂ Counterparts (parts a) (parts b) := by
  obtain ⟨ha, hb⟩ := findSome?_of_mem v.distinct h
  obtain ⟨hkey, hkey'⟩ := v.keywords _ h
  exact ⟨ha, hb, counterparts_of_areTwins hkey hkey' (v.twins _ h)⟩

/-- The partner of a word is the other word of its pair. -/
theorem partner_eq_some_iff {p : Text} :
    v.partner w = some p ↔ (w, p) ∈ v.pairs ∨ (p, w) ∈ v.pairs := by
  refine ⟨mem_pairs_of_partner, ?_⟩
  rintro (h | h)
  · exact (isPair_of_mem h).1
  · exact (isPair_of_mem h).2.1

/-- When a word is found, and what it is exchanged for. -/
theorem lookup_eq_some_iff :
    v.lookup w = some w₁ ↔
      ∃ p, ((lower w, p) ∈ v.pairs ∨ (p, lower w) ∈ v.pairs) ∧ recase p w = w₁ := by
  rw [lookup, Option.map_eq_some_iff]
  simp only [partner_eq_some_iff]

/-- Partners have each other, and parts that are counterparts. -/
theorem isPair_of_partner {p : Text} (h : v.partner w = some p) :
    v.partner p = some w ∧ List.Forall₂ Counterparts (parts w) (parts p) := by
  rcases mem_pairs_of_partner h with hab | hab
  · exact (isPair_of_mem hab).2
  · obtain ⟨hp, -, hparts⟩ := isPair_of_mem hab
    exact ⟨hp, counterparts_symm hparts⟩

/-- **The partner of a word's partner has that partner again**, in the same case. -/
theorem lookup_lookup (h : v.lookup w = some w₁) :
    ∃ w₂, v.lookup w₁ = some w₂ ∧ v.lookup w₂ = some w₁ := by
  obtain ⟨p, hp, rfl⟩ := Option.map_eq_some_iff.mp h
  obtain ⟨hback, hparts⟩ := isPair_of_partner hp
  refine ⟨recase (lower w) (recase p w), ?_, ?_⟩
  · rw [lookup, lower_recase hparts, hback]
    rfl
  · rw [lookup, lower_recase (counterparts_symm hparts), hp, Option.map_some, recase_thrice hparts rfl]

/-- A third look-up undoes the second. -/
theorem lookup_thrice (v : Vocabulary) (w : Text) :
    ((v.lookup w).bind v.lookup).bind v.lookup = v.lookup w := by
  cases h : v.lookup w with
  | none => rfl
  | some w₁ =>
    obtain ⟨w₂, h₁, h₂⟩ := lookup_lookup h
    rw [Option.bind_some, h₁, Option.bind_some, h₂]

/-- A word that is found is exchanged. -/
theorem swap_of_lookup (h : v.lookup w = some w₁) : v.swap w = w₁ := by
  rw [swap, h, Option.getD_some]

/-- A word that is not found stays as it is. -/
theorem swap_of_lookup_eq_none (h : v.lookup w = none) : v.swap w = w := by
  rw [swap, h, Option.getD_none]

/-- A third exchange undoes the second. -/
theorem swap_swap_swap (v : Vocabulary) (w : Text) : v.swap (v.swap (v.swap w)) = v.swap w := by
  cases h : v.lookup w with
  | none => rw [swap_of_lookup_eq_none h, swap_of_lookup_eq_none h, swap_of_lookup_eq_none h]
  | some w₁ =>
    obtain ⟨w₂, h₁, h₂⟩ := lookup_lookup h
    rw [swap_of_lookup h, swap_of_lookup h₁, swap_of_lookup h₂]

end Vocabulary

/-- **Exchanging words keeps their case.** Let the parts of two words be counterparts. Whatever the case in
which one of them is written, it is exchanged for the other. Exchanged to and fro it returns, if each of its
parts is written in one way, and exchanged a third time it gives what it gave at first. In each vocabulary the
words of the pairs are exchanged, and no others, and doing so three times is doing so once. -/
theorem recase_keeps_case :
    (∀ r s : Text, List.Forall₂ Counterparts (parts r) (parts s) → ∀ w, sameWord w s = true →
      sameWord (recase r w) r = true ∧
      ((∀ t ∈ parts w, isUniform t = true) → recase s (recase r w) = w) ∧
      recase r (recase s (recase r w)) = recase r w) ∧
    ∀ (v : Vocabulary) (w : Text),
      (∀ w₁, v.lookup w = some w₁ ↔
        ∃ p, ((lower w, p) ∈ v.pairs ∨ (p, lower w) ∈ v.pairs) ∧ recase p w = w₁) ∧
      ((v.lookup w).bind v.lookup).bind v.lookup = v.lookup w := by
  refine ⟨?_, fun v w => ⟨fun w₁ => Vocabulary.lookup_eq_some_iff, v.lookup_thrice w⟩⟩
  intro r s hparts w hw
  have hback := counterparts_symm hparts
  have hlower : lower w = s := (of_decide_eq_true hw).trans (lower_of_counterparts hparts)
  exact ⟨decide_eq_true (lower_recase_eq_lower r w), recase_recase hback hlower, recase_thrice hback hlower⟩

/-- Digits among the letters, and a single letter that is capital where the next part is capitalised. -/
theorem recase_keeps_case_numbered :
    let r := "w2-rotate3x".toList
    let s := "e1-resize".toList
    let w := "E1-Resize".toList
    let mixed := "e1-rESIZE".toList
    let cursor := "NE-reSize".toList
    List.Forall₂ Counterparts (parts r) (parts s) ∧
    (sameWord w s = true ∧ sameWord (recase r w) r = true ∧ recase r w = "W2-Rotate3x".toList) ∧
    ((∀ t ∈ parts w, isUniform t = true) ∧ recase s (recase r w) = w) ∧
    (sameWord mixed s = true ∧ recase s (recase r mixed) ≠ mixed ∧
      recase r (recase s (recase r mixed)) = recase r mixed) ∧
    Vocabulary.cursor.lookup cursor = some "NW-resize".toList ∧
    ((Vocabulary.cursor.lookup cursor).bind Vocabulary.cursor.lookup).bind Vocabulary.cursor.lookup
      = Vocabulary.cursor.lookup cursor := by
  intro r s w mixed cursor
  have hparts : List.Forall₂ Counterparts (parts r) (parts s) := by decide +kernel
  have hw : sameWord w s = true := by decide +kernel
  have hmixed : sameWord mixed s = true := by decide +kernel
  have huniform : ∀ t ∈ parts w, isUniform t = true := by decide +kernel
  obtain ⟨hwords, hvocabularies⟩ := recase_keeps_case
  obtain ⟨hsame, hreturns, -⟩ := hwords r s hparts w hw
  refine ⟨hparts, ⟨hw, hsame, by decide +kernel⟩, ⟨huniform, hreturns huniform⟩,
    ⟨hmixed, by decide +kernel, (hwords r s hparts mixed hmixed).2.2⟩, ?_,
    (hvocabularies .cursor cursor).2⟩
  exact ((hvocabularies .cursor cursor).1 _).mpr ⟨"nw-resize".toList, by decide +kernel, by decide +kernel⟩

end BidiSheet
