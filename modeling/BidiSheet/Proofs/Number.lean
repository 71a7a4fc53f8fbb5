import BidiSheet.Proofs.Quiet

/-!
# Numbers seen from the other side

What is read as a numeral is written in one of its ways (`Numeral.written_of_read?`), and a percentage is read
as its numeral (`Numeral.read?_of_written`). A percentage that was written out is read again as the same
number with the same places (`Numeral.read?_render`), so the complement of a complement has the first
complement as its own (`Percentage.complement?_complement?`): what is lost is only how the percentage was
written at first. A quantity and its negation differ in the sign alone (`Quantity.read?_negate`), so one is
zero if the other is, and negating goes to and fro (`Words.negate_negate_negate`).
-/

namespace BidiSheet

namespace Numeral

/-! ### Reading numerals -/

/-- Reads a numeral behind its sign. -/
def readUnsigned? (negative : Bool) (t : Text) : Option (Numeral × Text) :=
  let whole := t.takeWhile Char.isDigit
  let (fraction, rest) := readFraction (t.dropWhile Char.isDigit)
  if whole = [] ∧ fraction = [] then none else some (⟨negative, whole, fraction⟩, rest)

/-- A numeral is read behind its sign. -/
theorem read?_eq (t : Text) : read? t = readUnsigned? (readSign t).1 (readSign t).2 := rfl

/-- The sign of a numeral has nothing to do with what follows it. -/
theorem readUnsigned?_sign {negative : Bool} {t rest : Text} {n : Numeral}
    (h : readUnsigned? negative t = some (n, rest)) (negative' : Bool) :
    readUnsigned? negative' t = some ({ n with negative := negative' }, rest) := by
  unfold readUnsigned? at h ⊢
  simp only at h ⊢
  split at h
  · cases h
  next hne =>
    cases h
    rw [if_neg hne]

/-- A numeral begins with a digit or a point behind its sign. -/
theorem readSign_of_readUnsigned? {negative : Bool} {t rest : Text} {n : Numeral}
    (h : readUnsigned? negative t = some (n, rest)) : readSign t = (false, t) := by
  unfold readSign
  split
  next u => simp [readUnsigned?, readFraction] at h
  next u => simp [readUnsigned?, readFraction] at h
  next => rfl

/-- A fraction is nothing, or a point with digits behind it. -/
theorem readFraction_cases (t : Text) :
    ((readFraction t).1 = [] ∧ (readFraction t).2 = t) ∨
    ((readFraction t).1 ≠ [] ∧ (∀ c ∈ (readFraction t).1, c.isDigit = true) ∧
      t = '.' :: ((readFraction t).1 ++ (readFraction t).2)) := by
  unfold readFraction
  split
  next t =>
    split
    next => exact .inl ⟨rfl, rfl⟩
    next hne =>
      refine .inr ⟨hne, fun c => List.mem_takeWhile_imp, ?_⟩
      rw [List.takeWhile_append_dropWhile]
  next => exact .inl ⟨rfl, rfl⟩

/-- A whole percentage is read. -/
theorem readUnsigned?_whole {whole : Text} (hwhole : ∀ c ∈ whole, c.isDigit = true)
    (hne : whole ≠ []) (negative : Bool) :
    readUnsigned? negative (whole ++ ['%']) = some (⟨negative, whole, []⟩, ['%']) := by
  have htake : (whole ++ ['%']).takeWhile Char.isDigit = whole := by
    rw [List.takeWhile_append_of_pos hwhole, List.takeWhile_cons_of_neg (by decide), List.append_nil]
  have hdrop : (whole ++ ['%']).dropWhile Char.isDigit = ['%'] := by
    rw [List.dropWhile_append_of_pos hwhole, List.dropWhile_cons_of_neg (by decide)]
  rw [readUnsigned?, htake, hdrop]
  simp [readFraction, hne]

/-- A percentage with a point is read. -/
theorem readUnsigned?_point {whole fraction : Text} (hwhole : ∀ c ∈ whole, c.isDigit = true)
    (hfraction : ∀ c ∈ fraction, c.isDigit = true) (hne : fraction ≠ []) (negative : Bool) :
    readUnsigned? negative (whole ++ '.' :: (fraction ++ ['%']))
      = some (⟨negative, whole, fraction⟩, ['%']) := by
  have htake : (whole ++ '.' :: (fraction ++ ['%'])).takeWhile Char.isDigit = whole := by
    rw [List.takeWhile_append_of_pos hwhole, List.takeWhile_cons_of_neg (by decide), List.append_nil]
  have hdrop : (whole ++ '.' :: (fraction ++ ['%'])).dropWhile Char.isDigit
      = '.' :: (fraction ++ ['%']) := by
    rw [List.dropWhile_append_of_pos hwhole, List.dropWhile_cons_of_neg (by decide)]
  have htake' : (fraction ++ ['%']).takeWhile Char.isDigit = fraction := by
    rw [List.takeWhile_append_of_pos hfraction, List.takeWhile_cons_of_neg (by decide),
      List.append_nil]
  have hdrop' : (fraction ++ ['%']).dropWhile Char.isDigit = ['%'] := by
    rw [List.dropWhile_append_of_pos hfraction, List.dropWhile_cons_of_neg (by decide)]
  rw [readUnsigned?, htake, hdrop]
  simp [readFraction, htake', hdrop', hne]

/-! ### Numerals as they are written -/

/-- The signs with which a numeral is written. -/
def signs (negative : Bool) : List Text := if negative then [['-']] else [[], ['+']]

/-- A numeral behind its sign: digits, digits with a point and more digits, or a point with digits. -/
def body (n : Numeral) : Text := n.whole ++ if n.fraction = [] then [] else '.' :: n.fraction

/-- A text is its sign and what is behind it. -/
theorem exists_sign (t : Text) : ∃ sign ∈ signs (readSign t).1, t = sign ++ (readSign t).2 := by
  unfold readSign
  split
  · exact ⟨['-'], List.mem_singleton_self _, rfl⟩
  · exact ⟨['+'], List.mem_cons_of_mem _ List.mem_cons_self, rfl⟩
  · exact ⟨[], List.mem_cons_self, rfl⟩

/-- The text is the numeral with one of its signs, and `rest` behind it. -/
structure Written (n : Numeral) (rest t : Text) : Prop where
  whole : ∀ c ∈ n.whole, c.isDigit = true
  fraction : ∀ c ∈ n.fraction, c.isDigit = true
  /-- There is a digit. -/
  ne_nil : n.whole ≠ [] ∨ n.fraction ≠ []
  text : ∃ sign ∈ signs n.negative, t = sign ++ (n.body ++ rest)

/-- A numeral is read where it is written. -/
theorem written_of_read? {n : Numeral} {t rest : Text} (h : read? t = some (n, rest)) :
    Written n rest t := by
  obtain ⟨sign, hsign, ht⟩ := exists_sign t
  rw [read?_eq, readUnsigned?] at h
  simp only at h
  split at h
  · cases h
  next hne =>
    cases h
    have hunsigned := List.takeWhile_append_dropWhile (p := Char.isDigit) (l := (readSign t).2)
    have hdigits : ∀ c ∈ (readSign t).2.takeWhile Char.isDigit, c.isDigit = true :=
      fun c => List.mem_takeWhile_imp
    rw [not_and_or] at hne
    rcases readFraction_cases ((readSign t).2.dropWhile Char.isDigit) with
      ⟨hnil, hsame⟩ | ⟨hfraction, hfractionDigits, hdrop⟩
    · refine ⟨hdigits, by simp [hnil], hne, sign, hsign, ?_⟩
      rw [body, hnil, if_pos rfl, List.append_nil, hsame, hunsigned, ← ht]
    · refine ⟨hdigits, hfractionDigits, hne, sign, hsign, ?_⟩
      rw [body, if_neg hfraction, List.append_assoc, List.cons_append, ← hdrop, hunsigned, ← ht]

section

variable {n : Numeral} {w : Text}

/-- The body of a written numeral is read. -/
theorem readUnsigned?_body (h : Written n ['%'] w) :
    readUnsigned? n.negative (n.body ++ ['%']) = some (n, ['%']) := by
  rw [body]
  split
  next hnil =>
    obtain ⟨negative, whole, fraction⟩ := n
    cases hnil
    rw [List.append_nil]
    exact readUnsigned?_whole h.whole (h.ne_nil.resolve_right (not_not.mpr rfl)) _
  next hne =>
    rw [List.append_assoc, List.cons_append]
    exact readUnsigned?_point h.whole h.fraction hne _

/-- A percentage is read as its numeral. -/
theorem read?_of_written (h : Written n ['%'] w) : read? w = some (n, ['%']) := by
  have hbody := readUnsigned?_body h
  obtain ⟨sign, hsign, rfl⟩ := h.text
  have hread : readSign (sign ++ (n.body ++ ['%'])) = (n.negative, n.body ++ ['%']) := by
    cases hnegative : n.negative with
    | true =>
      rw [hnegative] at hsign
      rw [List.mem_singleton.mp hsign]
      rfl
    | false =>
      rw [hnegative] at hsign
      have hcases : sign = [] ∨ sign = ['+'] := by simpa [signs] using hsign
      rcases hcases with rfl | rfl
      · exact readSign_of_readUnsigned? hbody
      · rfl
  rw [read?_eq, hread, hbody]

/-- **A word is read as a numeral before a percent sign exactly if it is written so.** -/
theorem read?_eq_some_iff_written : read? w = some (n, ['%']) ↔ Written n ['%'] w :=
  ⟨written_of_read?, read?_of_written⟩

instance : Decidable (Written n ['%'] w) := decidable_of_iff _ read?_eq_some_iff_written

end

/-! ### Percentages that were written out -/

/-- The digits behind the point of a number of units, of which ten to the power `places` make one. -/
def fractionDigits (places n : Nat) : Text := (Nat.toDigits 10 (n % 10 ^ places)).leftpad places '0'

/-- The digits behind the point are digits. -/
theorem isDigit_of_mem_fractionDigits {places n : Nat} {c : Char}
    (hc : c ∈ fractionDigits places n) : c.isDigit = true := by
  rw [fractionDigits, List.leftpad, List.mem_append] at hc
  rcases hc with hc | hc
  · rw [List.eq_of_mem_replicate hc]
    decide
  · exact Marker.isDigit_of_mem_digits hc

/-- There are as many digits behind the point as places. -/
theorem length_fractionDigits {places : Nat} (h : 0 < places) (n : Nat) :
    (fractionDigits places n).length = places := by
  have hlt : n % 10 ^ places < 10 ^ places := Nat.mod_lt _ (Nat.pow_pos (by decide))
  have hle := (Nat.length_toDigits_le_iff (by decide : 1 < 10) h).mpr hlt
  rw [fractionDigits, List.leftpad, List.length_append, List.length_replicate]
  omega

/-- The digits before and behind the point are those of the number. -/
theorem digits_append_fractionDigits {places : Nat} (h : 0 < places) (n : Nat) :
    Nat.ofDigitChars 10 (Nat.toDigits 10 (n / 10 ^ places) ++ fractionDigits places n) 0 = n := by
  have hfraction : Nat.ofDigitChars 10 (fractionDigits places n) 0 = n % 10 ^ places := by
    rw [fractionDigits, List.leftpad, Nat.ofDigitChars_append, Nat.ofDigitChars_replicate_zero,
      Nat.mul_zero, Nat.ofDigitChars_ten_toDigits]
  rw [Nat.ofDigitChars_append, Nat.ofDigitChars_ten_toDigits, Nat.ofDigitChars_eq_ofDigitChars_zero,
    length_fractionDigits h, hfraction, Nat.div_add_mod]

/-- The numeral of a whole number of units, of which ten to the power `places` make one. -/
def ofScaled (places : Nat) (n : Int) : Numeral where
  negative := decide (n < 0)
  whole := Nat.toDigits 10 (n.natAbs / 10 ^ places)
  fraction := if places = 0 then [] else fractionDigits places n.natAbs

/-- A scaled number has its places. -/
theorem places_ofScaled (places : Nat) (n : Int) : (ofScaled places n).places = places := by
  rw [Numeral.places, ofScaled]
  split
  next hzero => rw [hzero, List.length_nil]
  next hplaces => exact length_fractionDigits (Nat.pos_of_ne_zero hplaces) _

/-- The digits of a scaled number are those of the number. -/
theorem digits_ofScaled (places : Nat) (n : Int) : (ofScaled places n).digits = n.natAbs := by
  rw [digits, ofScaled]
  split
  next hzero => rw [hzero, List.append_nil, Nat.pow_zero, Nat.div_one, Nat.ofDigitChars_ten_toDigits]
  next hplaces => exact digits_append_fractionDigits (Nat.pos_of_ne_zero hplaces) _

/-- A scaled number is the number. -/
theorem scaled_ofScaled (places : Nat) (n : Int) : (ofScaled places n).scaled = n := by
  have hnegative : (ofScaled places n).negative = decide (n < 0) := rfl
  rw [scaled, digits_ofScaled, hnegative]
  by_cases hneg : n < 0
  · rw [if_pos (decide_eq_true hneg)]
    omega
  · rw [if_neg (by simpa using hneg)]
    omega

/-- A percentage is written out as its numeral, without a plus sign. -/
theorem render_eq (places : Nat) (n : Int) :
    Percentage.render places n
      = (if n < 0 then ['-'] else []) ++ ((ofScaled places n).body ++ ['%']) := by
  unfold Percentage.render
  simp only [Nat.pow_eq]
  split
  next hzero => simp [hzero, ofScaled, body]
  next hplaces => simp [ofScaled, body, hplaces, fractionDigits]

/-- A rendered percentage is written as its numeral. -/
theorem written_render (places : Nat) (n : Int) :
    Written (ofScaled places n) ['%'] (Percentage.render places n) := by
  refine ⟨fun c => Marker.isDigit_of_mem_digits, ?_, .inl Nat.toDigits_ne_nil, ?_⟩
  · intro c hc
    rw [ofScaled] at hc
    split at hc
    · cases hc
    · exact isDigit_of_mem_fractionDigits hc
  · refine ⟨if n < 0 then ['-'] else [], ?_, render_eq places n⟩
    by_cases hneg : n < 0 <;> simp [ofScaled, signs, hneg]

/-- **A percentage that was written out is read as the same number**, with as many places. -/
theorem read?_render (places : Nat) (n : Int) :
    ∃ m, read? (Percentage.render places n) = some (m, ['%']) ∧ m.places = places ∧ m.scaled = n :=
  ⟨ofScaled places n, read?_of_written (written_render places n), places_ofScaled places n,
    scaled_ofScaled places n⟩

end Numeral

namespace Percentage

/-! ### Complements -/

/-- A percentage has a complement as long as all numbers on the way can be held. -/
theorem complement?_eq_some_iff {w c : Text} :
    complement? w = some c ↔ ∃ n, Numeral.read? w = some (n, ['%']) ∧
      100 * 10 ^ n.places ≤ limit ∧ n.digits ≤ limit ∧
      ((100 * 10 ^ n.places : Nat) : Int) - n.scaled ≤ limit ∧
      c = render n.places ((100 * 10 ^ n.places : Nat) - n.scaled) := by
  constructor
  · intro h
    unfold complement? at h
    split at h
    next n hn =>
      simp only at h
      split at h
      next hlimits =>
        cases h
        exact ⟨n, hn, hlimits.1, hlimits.2.1, hlimits.2.2, rfl⟩
      next => cases h
    next => cases h
  · rintro ⟨n, hn, hhundred, hdigits, hdiff, rfl⟩
    rw [complement?, hn]
    exact if_pos ⟨hhundred, hdigits, hdiff⟩

/-- The digits of a numeral do not depend on its sign. -/
theorem natAbs_scaled (n : Numeral) : n.scaled.natAbs = n.digits := by
  rw [Numeral.scaled]
  split <;> omega

/-- The complement of a rendered percentage is the rendered difference to a hundred. -/
theorem complement?_render {places : Nat} {n : Int} (hhundred : 100 * 10 ^ places ≤ limit)
    (hn : n.natAbs ≤ limit) (hdiff : ((100 * 10 ^ places : Nat) : Int) - n ≤ limit) :
    complement? (render places n) = some (render places ((100 * 10 ^ places : Nat) - n)) := by
  obtain ⟨m, hm, rfl, rfl⟩ := Numeral.read?_render places n
  rw [natAbs_scaled] at hn
  exact complement?_eq_some_iff.mpr ⟨m, hm, hhundred, hn, hdiff, rfl⟩

/-- What is missing to a hundred has the number itself as its complement, written out. -/
theorem complement?_render_complement {n : Numeral} (hhundred : 100 * 10 ^ n.places ≤ limit)
    (hdigits : n.digits ≤ limit) (hdiff : ((100 * 10 ^ n.places : Nat) : Int) - n.scaled ≤ limit) :
    complement? (render n.places ((100 * 10 ^ n.places : Nat) - n.scaled))
      = some (render n.places n.scaled) := by
  have habs := natAbs_scaled n
  have hback : ((100 * 10 ^ n.places : Nat) : Int) - ((100 * 10 ^ n.places : Nat) - n.scaled)
      = n.scaled := by omega
  rw [complement?_render hhundred (by omega) (by omega), hback]

/-- **The complement of a complement has that complement again.** Only the spelling of the percentage may
change on the way back. -/
theorem complement?_complement? {w c : Text} (h : complement? w = some c) :
    ∃ d, complement? c = some d ∧ complement? d = some c := by
  obtain ⟨n, -, hhundred, hdigits, hdiff, rfl⟩ := complement?_eq_some_iff.mp h
  have habs := natAbs_scaled n
  refine ⟨render n.places n.scaled, complement?_render_complement hhundred hdigits hdiff, ?_⟩
  exact complement?_render hhundred (by omega) hdiff

/-- A complement is a percentage. -/
theorem read?_complement {w c : Text} (h : complement? w = some c) :
    ∃ q, Quantity.read? c = some q := by
  obtain ⟨n, -, -, -, -, rfl⟩ := complement?_eq_some_iff.mp h
  obtain ⟨m, hm, -, -⟩ := Numeral.read?_render n.places ((100 * 10 ^ n.places : Nat) - n.scaled)
  rw [Quantity.read?, hm]
  exact ⟨_, rfl⟩

end Percentage

/-! ### Negation -/

namespace Words

variable {w : Text}

/-- A number without its sign. -/
def unsigned (w : Text) : Text := (Numeral.readSign w).2

/-- Without its sign a numeral is not negative. -/
theorem readSign_unsigned {n : Numeral} {rest : Text} (h : Numeral.read? w = some (n, rest)) :
    Numeral.readSign (unsigned w) = (false, unsigned w) :=
  Numeral.readSign_of_readUnsigned? h

/-- Negating exchanges a minus for nothing, and everything else for a minus. -/
theorem negate_eq (w : Text) :
    negate w = if (Numeral.readSign w).1 then unsigned w else '-' :: unsigned w := by
  cases w with
  | nil => rfl
  | cons c t =>
    by_cases hminus : c = '-'
    · subst hminus
      rfl
    by_cases hplus : c = '+'
    · subst hplus
      rfl
    · simp [negate, unsigned, Numeral.readSign, hminus, hplus]

/-- Negating a numeral changes its sign only. -/
theorem readSign_negate {n : Numeral} {rest : Text} (h : Numeral.read? w = some (n, rest)) :
    Numeral.readSign (negate w) = (!(Numeral.readSign w).1, unsigned w) := by
  rw [negate_eq]
  cases hsign : (Numeral.readSign w).1 with
  | true => exact readSign_unsigned h
  | false => rfl

/-- **A negated quantity is the same but for its sign.** -/
theorem read?_negate {n : Numeral} {rest : Text} (h : Numeral.read? w = some (n, rest)) :
    Numeral.read? (negate w) = some ({ n with negative := !(Numeral.readSign w).1 }, rest) := by
  rw [Numeral.read?_eq, readSign_negate h]
  exact Numeral.readUnsigned?_sign h _

/-- A third negation undoes the second. -/
theorem negate_negate_negate {n : Numeral} {rest : Text}
    (h : Numeral.read? w = some (n, rest)) : negate (negate (negate w)) = negate w := by
  have hfirst := readSign_negate h
  have hsecond := readSign_negate (read?_negate h)
  have hsign : (Numeral.readSign (negate (negate w))).1 = (Numeral.readSign w).1 := by
    rw [hsecond, hfirst, Bool.not_not]
  have hunsigned : unsigned (negate (negate w)) = unsigned w := by
    rw [unsigned, hsecond, unsigned, hfirst]
  rw [negate_eq (negate (negate w)), hsign, hunsigned, ← negate_eq]

end Words

/-- A quantity can be negated, and is zero if its negation is. -/
theorem Quantity.read?_negate {w : Text} {q : Quantity} (h : Quantity.read? w = some q) :
    ∃ q', Quantity.read? (Words.negate w) = some q' ∧ q'.numeral.isZero = q.numeral.isZero := by
  unfold Quantity.read? at h
  split at h
  · cases h
  next n rest hn =>
    have hneg := Words.read?_negate hn
    split at h
    next hrest =>
      cases h
      exact ⟨⟨{ n with negative := !(Numeral.readSign w).1 }, .percent⟩,
        by rw [Quantity.read?, hneg]; exact if_pos hrest, rfl⟩
    next hrest =>
      split at h
      next hletters =>
        cases h
        refine ⟨⟨{ n with negative := !(Numeral.readSign w).1 }, .unit rest⟩, ?_, rfl⟩
        rw [Quantity.read?, hneg]
        simp only [if_neg hrest, if_pos hletters]
      next => cases h

end BidiSheet
