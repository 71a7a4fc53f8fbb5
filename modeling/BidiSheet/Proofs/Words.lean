import BidiSheet.Proofs.Case
import BidiSheet.Proofs.Number

/-!
# Words seen from the other side

What the actions do to the words of a group, seen as functions on lists of words. Keywords, percentages and
quantities are *restyled*: they are exchanged for quiet words that end alike, with a percent sign or with
a character of an identifier (`Words.Restyled`). Sides and corners are put in another order.

Doing the same three times is doing it once (`Words.position_position_position`,
`Words.offset_offset_offset`). The first time may settle how a word is written: a plus sign, leading zeros
or an odd mixture of capitals are lost for good. From then on the words go to and fro.
-/

namespace BidiSheet

/-! ### Numbers and what follows them -/

/-- A text that is not empty has a last character. -/
theorem exists_last_of_forall {p : Char → Bool} {t : Text} (hne : t ≠ []) (h : ∀ c ∈ t, p c = true) :
    ∃ u c, t = u ++ [c] ∧ p c = true := by
  obtain ⟨u, c, rfl⟩ := (List.eq_nil_or_concat t).resolve_left hne
  rw [List.concat_eq_append] at h ⊢
  exact ⟨u, c, rfl, h c (List.mem_append_right u List.mem_cons_self)⟩

/-- A numeral ends in a digit. -/
theorem Numeral.exists_digit_of_read? {t rest : Text} {n : Numeral} (h : read? t = some (n, rest)) :
    ∃ u c, t = u ++ c :: rest ∧ c.isDigit = true := by
  have hwritten := written_of_read? h
  obtain ⟨sign, -, ht⟩ := hwritten.text
  rw [body] at ht
  split at ht
  next hnil =>
    obtain ⟨u, c, hu, hc⟩ := exists_last_of_forall (hwritten.ne_nil.resolve_right (not_not.mpr hnil))
      hwritten.whole
    refine ⟨sign ++ u, c, ?_, hc⟩
    rw [ht, hu]
    simp
  next hne =>
    obtain ⟨u, c, hu, hc⟩ := exists_last_of_forall hne hwritten.fraction
    refine ⟨sign ++ (n.whole ++ '.' :: u), c, ?_, hc⟩
    rw [ht, hu]
    simp

/-- No numeral begins with a letter. -/
theorem Numeral.read?_of_isAlpha {c : Char} (h : c.isAlpha = true) (t : Text) :
    read? (c :: t) = none := by
  have hminus : c ≠ '-' := by rintro rfl; cases h
  have hplus : c ≠ '+' := by rintro rfl; cases h
  have hpoint : c ≠ '.' := by rintro rfl; cases h
  have hdigit : ¬ c.isDigit = true := by
    intro hd
    simp [Char.isDigit, Char.isAlpha, Char.isUpper, Char.isLower, UInt32.le_iff_toNat_le] at h hd
    omega
  simp [read?, readSign, readFraction, hminus, hplus, hpoint, hdigit]

namespace Words

variable {w w' : Text} {ws : List Text}

/-! ### Restyled words -/

/-- A word that ends in a character of an identifier, and then `unit`. -/
def EndsIn (w unit : Text) : Prop := ∃ u c, w = u ++ c :: unit ∧ isIdent c = true

/-- Quiet words that end alike, so that what stands behind the one can stand behind the other. -/
def Restyled (w w' : Text) : Prop :=
  Quiet w ∧ Quiet w' ∧ ∃ unit, (unit = [] ∨ unit = ['%']) ∧ EndsIn w unit ∧ EndsIn w' unit

/-- Digits belong to identifiers. -/
theorem isIdent_of_isDigit {c : Char} (h : c.isDigit = true) : isIdent c = true := by
  simp [isIdent, Char.isAlphanum, h]

/-- The characters of keywords are characters of identifiers. -/
theorem isIdent_of_isKeyword (h : isKeyword w = true) : ∀ c ∈ w, isIdent c = true := by
  intro c hc
  have hkey := List.all_eq_true.mp h c hc
  simp only [Bool.or_eq_true, decide_eq_true_eq] at hkey
  obtain (hlower | hdigit) | rfl := hkey
  · simp [isIdent, Char.isAlphanum, Char.isAlpha, hlower]
  · exact isIdent_of_isDigit hdigit
  · decide

/-- A word with a partner begins with a letter, and consists of characters of identifiers. -/
theorem isIdent_of_lookup {v : Vocabulary} (h : v.lookup w = some w') :
    (∃ c t, w = c :: t ∧ c.isAlpha = true) ∧ ∀ c ∈ w, isIdent c = true := by
  obtain ⟨p, hp, -⟩ := Option.map_eq_some_iff.mp h
  refine ⟨?_, ?_⟩
  · have hbegins := beginsWithLetter_of_counterparts (Vocabulary.isPair_of_partner hp).2
    rw [beginsWithLetter_lower] at hbegins
    exact exists_cons_of_beginsWithLetter hbegins
  · intro c hc
    have hkey : isKeyword (lower w) = true := Vocabulary.isKeyword_of_partner hp
    exact isIdent_of_toLower (isIdent_of_isKeyword hkey _ (List.mem_map_of_mem hc))

/-- A word of a vocabulary is restyled. -/
theorem restyled_of_lookup {v : Vocabulary} (h : v.lookup w = some w') : Restyled w w' := by
  obtain ⟨w₂, h₂, -⟩ := Vocabulary.lookup_lookup h
  obtain ⟨⟨c, t, hct, -⟩, hw⟩ := isIdent_of_lookup h
  obtain ⟨⟨c', t', hct', -⟩, hw'⟩ := isIdent_of_lookup h₂
  obtain ⟨hq, hq'⟩ := Vocabulary.quiet_of_lookup h
  exact ⟨hq, hq', [], .inl rfl, exists_last_of_forall (by simp [hct]) hw,
    exists_last_of_forall (by simp [hct']) hw'⟩

/-- A vocabulary restyles a word or leaves it alone. -/
theorem swap_eq_or_restyled (v : Vocabulary) (w : Text) : v.swap w = w ∨ Restyled w (v.swap w) := by
  cases h : v.lookup w with
  | none => exact .inl (Vocabulary.swap_of_lookup_eq_none h)
  | some w' =>
    rw [Vocabulary.swap_of_lookup h]
    exact .inr (restyled_of_lookup h)

/-- Behind a number comes a percent sign, or letters. -/
theorem endsIn_of_read? {n : Numeral} {rest : Text} (h : Numeral.read? w = some (n, rest))
    (hrest : rest = ['%'] ∨ ∀ c ∈ rest, c.isAlpha = true) :
    EndsIn w (if rest = ['%'] then ['%'] else []) := by
  obtain ⟨u, c, rfl, hc⟩ := Numeral.exists_digit_of_read? h
  split
  next hpercent => exact ⟨u, c, by rw [hpercent], isIdent_of_isDigit hc⟩
  next hpercent =>
    have hletters := hrest.resolve_left hpercent
    rcases List.eq_nil_or_concat rest with rfl | ⟨v, d, rfl⟩
    · exact ⟨u, c, rfl, isIdent_of_isDigit hc⟩
    · rw [List.concat_eq_append] at hletters ⊢
      refine ⟨u ++ c :: v, d, by simp, ?_⟩
      exact isIdent_of_isAlpha (hletters d (List.mem_append_right v List.mem_cons_self))

/-- A numeral is restyled into another one with the same unit. -/
theorem restyled_of_read? {n n' : Numeral} {rest : Text} (hw : Quiet w) (hw' : Quiet w')
    (h : Numeral.read? w = some (n, rest)) (h' : Numeral.read? w' = some (n', rest))
    (hrest : rest = ['%'] ∨ ∀ c ∈ rest, c.isAlpha = true) : Restyled w w' := by
  refine ⟨hw, hw', _, ?_, endsIn_of_read? h hrest, endsIn_of_read? h' hrest⟩
  split
  · exact .inr rfl
  · exact .inl rfl

/-- A complemented percentage is restyled. -/
theorem restyled_of_complement? (h : Percentage.complement? w = some w') : Restyled w w' := by
  obtain ⟨hq, hq'⟩ := Percentage.quiet_of_complement? h
  obtain ⟨n, hn, -, -, -, rfl⟩ := Percentage.complement?_eq_some_iff.mp h
  obtain ⟨m, hm, -, -⟩ :=
    Numeral.read?_render n.places ((100 * 10 ^ n.places : Nat) - n.scaled)
  exact restyled_of_read? hq hq' hn hm (.inl rfl)

/-- What follows the numeral of a quantity. -/
theorem exists_of_quantity {q : Quantity} (h : Quantity.read? w = some q) :
    ∃ n rest, Numeral.read? w = some (n, rest) ∧
      (rest = ['%'] ∨ ∀ c ∈ rest, c.isAlpha = true) := by
  unfold Quantity.read? at h
  split at h
  · cases h
  next n rest hn =>
    split at h
    next hrest => exact ⟨n, rest, hn, .inl hrest⟩
    next =>
      split at h
      next hletters => exact ⟨n, rest, hn, .inr (List.all_eq_true.mp hletters)⟩
      next => cases h

/-- A negated quantity is restyled. -/
theorem restyled_negate {q : Quantity} (h : Quantity.read? w = some q) : Restyled w (negate w) := by
  obtain ⟨n, rest, hn, hrest⟩ := exists_of_quantity h
  have hq := Quantity.quiet_of_read? h
  exact restyled_of_read? hq (quiet_negate hq) hn (read?_negate hn) hrest

/-! ### Positions -/

/-- What takes the place of the first word of a position. -/
def opposite (w : Text) : Text := (Percentage.complement? w).getD (Vocabulary.side.swap w)

/-- The first word that can be part of a position begins it. -/
theorem position_of_isPosition (h : isPosition w = true) (ws : List Text) :
    position (w :: ws) = opposite w :: ws.map Vocabulary.side.swap := by
  rw [position, if_pos h, opposite]

/-- A word that cannot be part of a position stays. -/
theorem position_of_not_isPosition (h : isPosition w = false) (ws : List Text) :
    position (w :: ws) = w :: position ws := by
  rw [position, if_neg (by simp [h])]

/-- A side is a position, and no percentage. -/
theorem of_side_lookup (h : Vocabulary.side.lookup w = some w') :
    isPosition w = true ∧ Percentage.complement? w = none := by
  obtain ⟨p, hp, -⟩ := Option.map_eq_some_iff.mp h
  have hsides : lower w = "left".toList ∨ lower w = "right".toList := by
    rcases Vocabulary.mem_pairs_of_partner hp with hmem | hmem
    · exact .inl (Prod.mk.inj (List.mem_singleton.mp hmem)).1
    · exact .inr (Prod.mk.inj (List.mem_singleton.mp hmem)).2
  refine ⟨?_, ?_⟩
  · rw [isPosition, Bool.or_eq_true]
    rcases hsides with hw | hw
    · exact .inl (by rw [hw]; decide)
    · exact .inl (by rw [hw]; decide)
  · cases w with
    | nil => rcases hsides with hw | hw <;> simp [lower] at hw
    | cons c t =>
      have hc : c.isAlpha = true := by
        rw [← Char.isAlpha_toLower_eq_isAlpha]
        rcases hsides with hw | hw
        · rw [(List.cons.inj hw).1]
          decide
        · rw [(List.cons.inj hw).1]
          decide
      rw [Percentage.complement?, Numeral.read?_of_isAlpha hc]

/-- **The first word of a position goes to and fro** once it has been exchanged. -/
theorem opposite_opposite_opposite (h : isPosition w = true) :
    isPosition (opposite w) = true ∧ opposite (opposite (opposite w)) = opposite w := by
  cases hc : Percentage.complement? w with
  | some c =>
    have hw : opposite w = c := by rw [opposite, hc, Option.getD_some]
    obtain ⟨d, hd, hback⟩ := Percentage.complement?_complement? hc
    obtain ⟨q, hq⟩ := Percentage.read?_complement hc
    refine ⟨?_, ?_⟩
    · rw [hw, isPosition, hq, Option.isSome_some, Bool.or_true]
    · have hcd : opposite c = d := by rw [opposite, hd, Option.getD_some]
      have hdc : opposite d = c := by rw [opposite, hback, Option.getD_some]
      rw [hw, hcd, hdc]
  | none =>
    have hswap : opposite w = Vocabulary.side.swap w := by rw [opposite, hc, Option.getD_none]
    cases hl : Vocabulary.side.lookup w with
    | none =>
      have hw : opposite w = w := by rw [hswap, Vocabulary.swap_of_lookup_eq_none hl]
      rw [hw, hw, hw]
      exact ⟨h, rfl⟩
    | some w₁ =>
      have hw : opposite w = w₁ := by rw [hswap, Vocabulary.swap_of_lookup hl]
      obtain ⟨w₂, h₁, h₂⟩ := Vocabulary.lookup_lookup hl
      have hw₁ : opposite w₁ = w₂ := by
        rw [opposite, (of_side_lookup h₁).2, Option.getD_none, Vocabulary.swap_of_lookup h₁]
      have hw₂ : opposite w₂ = w₁ := by
        rw [opposite, (of_side_lookup h₂).2, Option.getD_none, Vocabulary.swap_of_lookup h₂]
      rw [hw, hw₁, hw₂]
      exact ⟨(of_side_lookup h₁).1, rfl⟩

/-- A third exchange of all words undoes the second. -/
theorem map_swap_swap_swap (v : Vocabulary) (ws : List Text) :
    ((ws.map v.swap).map v.swap).map v.swap = ws.map v.swap := by
  rw [List.map_map, List.map_map]
  exact List.map_congr_left fun w _ => v.swap_swap_swap w

/-- A third reflection of a position undoes the second. -/
theorem position_position_position (ws : List Text) :
    position (position (position ws)) = position ws := by
  induction ws with
  | nil => rfl
  | cons w ws ih =>
    cases h : isPosition w with
    | false =>
      rw [position_of_not_isPosition h, position_of_not_isPosition h, position_of_not_isPosition h, ih]
    | true =>
      obtain ⟨h₁, hback⟩ := opposite_opposite_opposite h
      have h₂ := (opposite_opposite_opposite h₁).1
      rw [position_of_isPosition h, position_of_isPosition h₁, position_of_isPosition h₂, hback,
        map_swap_swap_swap]

/-- A word of a position is restyled or left alone. -/
theorem opposite_eq_or_restyled (w : Text) : opposite w = w ∨ Restyled w (opposite w) := by
  unfold opposite
  cases h : Percentage.complement? w with
  | none => exact swap_eq_or_restyled .side w
  | some c => exact .inr (restyled_of_complement? h)

/-! ### Offsets -/

/-- A word that is no quantity stays. -/
theorem offset_of_read?_eq_none (h : Quantity.read? w = none) (ws : List Text) :
    offset (w :: ws) = w :: offset ws := by
  rw [offset, h]

/-- An offset of zero stays. -/
theorem offset_of_isZero {q : Quantity} (h : Quantity.read? w = some q)
    (hzero : q.numeral.isZero = true) (ws : List Text) : offset (w :: ws) = w :: ws := by
  rw [offset, h]
  simp only [if_pos hzero]

/-- The first quantity is negated. -/
theorem offset_of_not_isZero {q : Quantity} (h : Quantity.read? w = some q)
    (hzero : q.numeral.isZero = false) (ws : List Text) : offset (w :: ws) = negate w :: ws := by
  rw [offset, h]
  simp only [hzero, Bool.false_eq_true, if_false]

/-- A third reflection of an offset undoes the second. -/
theorem offset_offset_offset (ws : List Text) : offset (offset (offset ws)) = offset ws := by
  induction ws with
  | nil => rfl
  | cons w ws ih =>
    cases h : Quantity.read? w with
    | none =>
      rw [offset_of_read?_eq_none h, offset_of_read?_eq_none h, offset_of_read?_eq_none h, ih]
    | some q =>
      cases hzero : q.numeral.isZero with
      | true => rw [offset_of_isZero h hzero, offset_of_isZero h hzero, offset_of_isZero h hzero]
      | false =>
        obtain ⟨q₁, h₁, hz₁⟩ := Quantity.read?_negate h
        obtain ⟨q₂, h₂, hz₂⟩ := Quantity.read?_negate h₁
        obtain ⟨n, rest, hn, -⟩ := exists_of_quantity h
        rw [offset_of_not_isZero h hzero, offset_of_not_isZero h₁ (hz₁.trans hzero),
          offset_of_not_isZero h₂ (hz₂.trans (hz₁.trans hzero)), negate_negate_negate hn]

end Words

end BidiSheet
