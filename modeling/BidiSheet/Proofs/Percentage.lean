import BidiSheet.Proofs.Number
import Mathlib.Algebra.Field.Rat
import Mathlib.Tactic.FieldSimp
import Mathlib.Tactic.NormNum

/-!
# Complements are exact

The complement of a percentage is the exact difference to a hundred, written with the same places
(`Percentage.complement?_exact`). Of all the words for one number with so many places a single one is
canonical (`Percentage.Canonical`), namely the one that is written out (`Percentage.canonical_render`,
`Percentage.eq_render_of_canonical`), so taking the complement twice settles the spelling of a percentage and
nothing else.

The numbers on the way are held in 128 bits. `Percentage.heldComplement` computes with such numbers one by
one, and keeps apart the steps that ask whether their result fits and the steps that do not: of the latter
none ever fails (`Percentage.heldComplement_eq`).
-/

namespace BidiSheet

/-! ### Digits and what they stand for -/

namespace Numeral

/-- A digit is one of ten. -/
theorem exists_digitChar {c : Char} (h : c.isDigit = true) : ∃ d < 10, c = Nat.digitChar d := by
  have hbounds : 48 ≤ c.toNat ∧ c.toNat ≤ 57 := by
    simpa [Char.isDigit, UInt32.le_iff_toNat_le] using h
  have hlt : c.toNat - 48 < 10 := by omega
  refine ⟨c.toNat - 48, hlt, Char.toNat_inj.mp ?_⟩
  rw [Nat.toNat_digitChar_of_lt_ten hlt]
  omega

/-- Digits behind a number that is not zero are digits of the number that they make together. -/
theorem toDigits_append {ds : Text} (hds : ∀ c ∈ ds, c.isDigit = true) {n : Nat} (hn : 0 < n) :
    Nat.toDigits 10 n ++ ds = Nat.toDigits 10 (Nat.ofDigitChars 10 ds n) := by
  induction ds generalizing n with
  | nil => rw [List.append_nil, Nat.ofDigitChars_nil]
  | cons c ds ih =>
    rw [List.forall_mem_cons] at hds
    obtain ⟨d, hd, rfl⟩ := exists_digitChar hds.1
    have hnext := Nat.toDigits_append_toDigits (by decide : 1 < 10) hn hd
    rw [Nat.toDigits_of_lt_base hd] at hnext
    calc Nat.toDigits 10 n ++ Nat.digitChar d :: ds
        = (Nat.toDigits 10 n ++ [Nat.digitChar d]) ++ ds := by rw [List.append_assoc, List.singleton_append]
      _ = Nat.toDigits 10 (10 * n + d) ++ ds := by rw [hnext]
      _ = Nat.toDigits 10 (Nat.ofDigitChars 10 ds (10 * n + d)) := ih hds.2 (by omega)
      _ = Nat.toDigits 10 (Nat.ofDigitChars 10 (Nat.digitChar d :: ds) n) := by
        rw [Nat.ofDigitChars_cons_digitChar_of_lt_ten hd]

/-- No zero stands in front of another digit. -/
def IsTrim (ds : Text) : Prop := ds.head? = some '0' → ds = ['0']

instance (ds : Text) : Decidable (IsTrim ds) := inferInstanceAs (Decidable (_ → _))

/-- Digits without a zero in front are those with which their number is written. -/
theorem toDigits_ofDigitChars {ds : Text} (hds : ∀ c ∈ ds, c.isDigit = true) (hne : ds ≠ [])
    (htrim : IsTrim ds) : Nat.toDigits 10 (Nat.ofDigitChars 10 ds 0) = ds := by
  obtain ⟨c, ds, rfl⟩ := List.exists_cons_of_ne_nil hne
  rw [List.forall_mem_cons] at hds
  obtain ⟨d, hd, rfl⟩ := exists_digitChar hds.1
  rcases Nat.eq_zero_or_pos d with rfl | hpos
  · rw [htrim rfl]
    rfl
  · rw [Nat.ofDigitChars_cons_digitChar_of_lt_ten hd, Nat.mul_zero, Nat.zero_add,
      ← toDigits_append hds.2 hpos, Nat.toDigits_of_lt_base hd, List.singleton_append]

/-- A written number has no needless zero in front. -/
theorem isTrim_toDigits (n : Nat) : IsTrim (Nat.toDigits 10 n) := by
  intro hhead
  induction n using Nat.strongRecOn with
  | ind n ih =>
    rcases Nat.lt_or_ge n 10 with hn | hn
    · rw [Nat.toDigits_of_lt_base hn] at hhead ⊢
      rw [List.head?_cons, Option.some.injEq] at hhead
      rw [hhead]
    · -- the digits in front would be a zero, and the number less than ten
      rw [Nat.toDigits_of_base_le (by decide) hn,
        List.head?_append_of_ne_nil _ Nat.toDigits_ne_nil] at hhead
      have hfront := ih (n / 10) (by omega) hhead
      have hzero : n / 10 = Nat.ofDigitChars 10 ['0'] 0 := by
        rw [← hfront, Nat.ofDigitChars_ten_toDigits]
      have hvalue : Nat.ofDigitChars 10 ['0'] 0 = 0 := rfl
      omega

/-- Digits are their number, written with zeros in front up to their length. -/
theorem leftpad_toDigits_ofDigitChars {ds : Text} (hds : ∀ c ∈ ds, c.isDigit = true) (hne : ds ≠ []) :
    (Nat.toDigits 10 (Nat.ofDigitChars 10 ds 0)).leftpad ds.length '0' = ds := by
  induction ds with
  | nil => exact absurd rfl hne
  | cons c ds ih =>
    by_cases htrim : IsTrim (c :: ds)
    · rw [toDigits_ofDigitChars hds hne htrim, List.leftpad, Nat.sub_self]
      rfl
    · obtain ⟨hhead, htail⟩ := Classical.not_imp.mp htrim
      rw [List.head?_cons, Option.some.injEq] at hhead
      subst hhead
      have hrest : ds ≠ [] := by
        rintro rfl
        exact htail rfl
      rw [List.forall_mem_cons] at hds
      have hpad := ih hds.2 hrest
      have hlength := congrArg List.length hpad
      rw [List.length_leftpad] at hlength
      have hzero : Nat.ofDigitChars 10 ('0' :: ds) 0 = Nat.ofDigitChars 10 ds 0 := rfl
      rw [hzero, List.length_cons, List.leftpad, Nat.sub_add_comm (by omega), List.replicate_succ,
        List.cons_append]
      exact congrArg ('0' :: ·) hpad

/-- Digits are less than the power of ten with as many zeros. -/
theorem ofDigitChars_lt {ds : Text} (hds : ∀ c ∈ ds, c.isDigit = true) :
    Nat.ofDigitChars 10 ds 0 < 10 ^ ds.length := by
  by_cases hne : ds = []
  · rw [hne]
    decide
  · apply (Nat.length_toDigits_le_iff (by decide) (List.length_pos_iff.mpr hne)).mp
    have hlength := congrArg List.length (leftpad_toDigits_ofDigitChars hds hne)
    rw [List.length_leftpad] at hlength
    omega

/-- The digits of a numeral are those before and those behind the point. -/
theorem digits_eq (n : Numeral) :
    n.digits = 10 ^ n.places * Nat.ofDigitChars 10 n.whole 0 + Nat.ofDigitChars 10 n.fraction 0 := by
  rw [digits, Nat.ofDigitChars_append, Nat.ofDigitChars_eq_ofDigitChars_zero, places]

variable {n : Numeral} {rest t : Text}

/-- The digits before the point are the whole part. -/
theorem Written.digits_div (h : Written n rest t) :
    n.digits / 10 ^ n.places = Nat.ofDigitChars 10 n.whole 0 := by
  have hlt := ofDigitChars_lt h.fraction
  rw [digits_eq, Nat.mul_add_div (Nat.pow_pos (by decide)), places, Nat.div_eq_of_lt hlt, Nat.add_zero]

/-- The digits behind the point are the remainder. -/
theorem Written.digits_mod (h : Written n rest t) :
    n.digits % 10 ^ n.places = Nat.ofDigitChars 10 n.fraction 0 := by
  have hlt := ofDigitChars_lt h.fraction
  rw [digits_eq, Nat.mul_add_mod, places, Nat.mod_eq_of_lt hlt]

/-- A numeral with a whole part begins with it. -/
theorem head?_body (h : n.whole ≠ []) (t : Text) : (n.body ++ t).head? = n.whole.head? := by
  rw [body, List.append_assoc, List.head?_append_of_ne_nil _ h]

/-- The number for which a numeral stands. -/
def value (n : Numeral) : ℚ := n.scaled / 10 ^ n.places

/-- A scaled number has the value of the fraction. -/
theorem value_ofScaled (places : Nat) (n : Int) : (ofScaled places n).value = n / 10 ^ places := by
  rw [value, scaled_ofScaled, places_ofScaled]

end Numeral

namespace Percentage

open Numeral (ofScaled Written)

/-! ### Canonical percentages -/

/-- A percentage without a plus sign, with exactly the digits in front of the point that are needed, and
without a minus sign if it is zero. -/
@[mk_iff]
structure Canonical (n : Numeral) (w : Text) : Prop extends Written n ['%'] w where
  no_plus : w.head? ≠ some '+'
  whole_ne_nil : n.whole ≠ []
  no_leading_zero : Numeral.IsTrim n.whole
  no_negative_zero : n.negative = true → n.digits ≠ 0

instance (n : Numeral) (w : Text) : Decidable (Canonical n w) := decidable_of_iff _ (canonical_iff n w).symm

/-- **What is written out is canonical.** -/
theorem canonical_render (places : Nat) (n : Int) :
    Canonical (ofScaled places n) (render places n) where
  toWritten := Numeral.written_render places n
  no_plus := by
    rw [Numeral.render_eq]
    split
    next => exact fun hplus => absurd (Option.some.inj hplus) (by decide)
    next =>
      rw [List.nil_append, Numeral.head?_body Nat.toDigits_ne_nil]
      intro hplus
      have hdigit := (Numeral.written_render places n).whole '+' (List.mem_of_head? hplus)
      exact absurd hdigit (by decide)
  whole_ne_nil := Nat.toDigits_ne_nil
  no_leading_zero := Numeral.isTrim_toDigits _
  no_negative_zero := by
    intro hnegative
    have hneg : n < 0 := of_decide_eq_true hnegative
    rw [Numeral.digits_ofScaled]
    omega

/-- The sign of a canonical percentage is that of its number. -/
theorem Canonical.scaled_neg_iff {n : Numeral} {w : Text} (h : Canonical n w) :
    n.scaled < 0 ↔ n.negative = true := by
  have hzero := h.no_negative_zero
  rw [Numeral.scaled]
  cases hnegative : n.negative with
  | true =>
    have hne := hzero hnegative
    simp only [if_true, iff_true]
    omega
  | false =>
    simp only [Bool.false_eq_true, if_false, iff_false]
    omega

/-- The numeral of a canonical percentage is determined by its number and its places. -/
theorem Canonical.ofScaled_scaled {n : Numeral} {w : Text} (h : Canonical n w) :
    ofScaled n.places n.scaled = n := by
  have hnegative : decide (n.scaled < 0) = n.negative := by
    rw [Bool.eq_iff_iff, decide_eq_true_eq, h.scaled_neg_iff]
  have hwhole : Nat.toDigits 10 (n.digits / 10 ^ n.places) = n.whole := by
    rw [h.digits_div, Numeral.toDigits_ofDigitChars h.whole h.whole_ne_nil h.no_leading_zero]
  have hfraction : (if n.places = 0 then [] else Numeral.fractionDigits n.places n.digits) = n.fraction := by
    split
    next hplaces => exact (List.length_eq_zero_iff.mp hplaces).symm
    next hplaces =>
      have hne : n.fraction ≠ [] := fun hnil => hplaces (List.length_eq_zero_iff.mpr hnil)
      rw [Numeral.fractionDigits, h.digits_mod]
      exact Numeral.leftpad_toDigits_ofDigitChars h.fraction hne
  rw [ofScaled, natAbs_scaled, hnegative, hwhole, hfraction]

/-- **The canonical percentage for a number is the one that is written out.** -/
theorem eq_render_of_canonical {n : Numeral} {w : Text} (h : Canonical n w) :
    w = render n.places n.scaled := by
  obtain ⟨sign, hsign, hw⟩ := h.text
  have hminus : sign = if n.scaled < 0 then ['-'] else [] := by
    rw [Numeral.signs] at hsign
    split at hsign
    next hnegative =>
      rw [if_pos (h.scaled_neg_iff.mpr hnegative), List.mem_singleton.mp hsign]
    next hnegative =>
      rw [if_neg fun hneg => hnegative (h.scaled_neg_iff.mp hneg)]
      have hcases : sign = [] ∨ sign = ['+'] := by simpa using hsign
      refine hcases.resolve_right fun hplus => h.no_plus ?_
      rw [hw, hplus]
      rfl
  rw [Numeral.render_eq, h.ofScaled_scaled, ← hminus, hw]

/-- The difference to a hundred, taken in units of the last place, is exact. -/
theorem value_complement (n : Numeral) :
    (ofScaled n.places ((100 * 10 ^ n.places : Nat) - n.scaled)).value = 100 - n.value := by
  rw [Numeral.value_ofScaled, Numeral.value]
  have hne : (10 : ℚ) ^ n.places ≠ 0 := pow_ne_zero _ (by norm_num)
  push_cast
  field_simp

/-! ### Numbers of 128 bits -/

/-- Why a computation with numbers of limited size ends without a result. -/
inductive Halt where
  /-- A step that asks whether its result fits has found that it does not. -/
  | refused
  /-- The result of a step that does not ask does not fit, or does not exist. -/
  | overflow
  deriving DecidableEq

/-- The numbers that 128 bits with a sign can hold. -/
def IsHeld (n : Int) : Prop := -2 ^ 127 ≤ n ∧ n < 2 ^ 127

instance (n : Int) : Decidable (IsHeld n) := inferInstanceAs (Decidable (_ ∧ _))

/-- The result of a step, if it fits. -/
def keep {α : Type} (halt : Halt) (fits : α → Prop) [DecidablePred fits] (a : α) : Except Halt α :=
  if fits a then .ok a else .error halt

/-- The digits of a numeral with its sign. That the negated digits are held is not asked. -/
def heldScaled (n : Numeral) : Except Halt Int := do
  let digits ← keep .refused IsHeld n.digits
  if n.negative then keep .overflow IsHeld (-digits) else return digits

/-- Writes a percentage out as `render` does, one number after the other, and asks for none of them whether
it fits. -/
def heldRender (places : Nat) (scale n : Int) : Except Halt Text := do
  let sign := if n < 0 then ['-'] else []
  let size ← keep .overflow (· < 2 ^ 128) n.natAbs
  let unit ← keep .overflow (· < 2 ^ 128) scale.natAbs
  if places = 0 then
    return sign ++ Nat.toDigits 10 size ++ ['%']
  else
    let divisor ← keep .overflow (0 < ·) unit
    return sign ++ Nat.toDigits 10 (size / divisor) ++ ['.'] ++
      (Nat.toDigits 10 (size % divisor)).leftpad places '0' ++ ['%']

/-- Takes the complement of a percentage as `complement?` does, one number after the other. -/
def heldComplement (w : Text) : Except Halt Text :=
  match Numeral.read? w with
  | some (n, ['%']) => do
    let places ← keep .refused (· < 2 ^ 32) n.places
    let scale ← keep .refused IsHeld (10 ^ places : Nat)
    let scaled ← heldScaled n
    let hundred ← keep .refused IsHeld (100 * scale)
    let rest ← keep .refused IsHeld (hundred - scaled)
    heldRender places scale rest
  | _ => .error .refused

/-- What fits into a machine number. -/
theorem isHeld_iff {n : Int} : IsHeld n ↔ -(limit : Int) - 1 ≤ n ∧ n ≤ limit := by
  have hlimit : limit = 2 ^ 127 - 1 := rfl
  rw [IsHeld]
  omega

section

variable {α β : Type} {fits : α → Prop} [DecidablePred fits] {a : α}

/-- A result that fits is passed on. -/
theorem keep_bind (h : fits a) (halt : Halt) (f : α → Except Halt β) : (keep halt fits a >>= f) = f a := by
  rw [keep, if_pos h]
  rfl

/-- A computation that begins with a step that asks is refused, if what follows is refused where the result
fits. -/
theorem keep_bind_refused {f : α → Except Halt β} (h : fits a → f a = .error .refused) :
    (keep .refused fits a >>= f) = .error .refused := by
  by_cases hfits : fits a
  · rw [keep_bind hfits]
    exact h hfits
  · rw [keep, if_neg hfits]
    rfl

end

/-- A numeral that fits is held. -/
theorem heldScaled_bind {α : Type} {n : Numeral} (h : n.digits ≤ limit) (f : Int → Except Halt α) :
    (heldScaled n >>= f) = f n.scaled := by
  rw [heldScaled, keep_bind (isHeld_iff.mpr (by omega)), Numeral.scaled]
  split
  · exact keep_bind (isHeld_iff.mpr (by omega)) _ f
  · rfl

/-- Where what fits is refused, all is. -/
theorem heldScaled_bind_refused {α : Type} {n : Numeral} {f : Int → Except Halt α}
    (h : n.digits ≤ limit → f n.scaled = .error .refused) :
    (heldScaled n >>= f) = .error .refused := by
  by_cases hdigits : n.digits ≤ limit
  · rw [heldScaled_bind hdigits]
    exact h hdigits
  · have hnot : ¬ IsHeld n.digits := by
      rw [isHeld_iff]
      omega
    rw [heldScaled, keep, if_neg hnot]
    rfl

/-- A percentage that fits is rendered. -/
theorem heldRender_eq {places : Nat} {n : Int} (hscale : IsHeld (10 ^ places : Nat)) (hn : IsHeld n) :
    heldRender places (10 ^ places : Nat) n = .ok (render places n) := by
  rw [IsHeld] at hscale hn
  rw [heldRender, keep_bind (by omega), keep_bind (by omega), Int.natAbs_natCast,
    keep_bind (Nat.pow_pos (by decide)), render]
  split <;> rfl

/-- A hundred has the places of a percentage exactly if there are not more than 36. -/
theorem hundred_le_limit_iff (places : Nat) : 100 * 10 ^ places ≤ limit ↔ places ≤ 36 := by
  have hlimit : limit = 2 ^ 127 - 1 := rfl
  constructor
  · intro h
    by_contra hplaces
    have hpow : 10 ^ 37 ≤ 10 ^ places := Nat.pow_le_pow_right (by decide) (by omega)
    omega
  · intro hplaces
    have hpow : 10 ^ places ≤ 10 ^ 36 := Nat.pow_le_pow_right (by decide) hplaces
    omega

/-- **In 128 bits the complement is the same, and is refused where there is none**: no step fails that does
not ask. -/
theorem heldComplement_eq (w : Text) :
    heldComplement w = (complement? w).elim (.error .refused) .ok := by
  cases hc : complement? w with
  | some c =>
    obtain ⟨n, hn, hhundred, hdigits, hdiff, rfl⟩ := complement?_eq_some_iff.mp hc
    have hplaces := (hundred_le_limit_iff _).mp hhundred
    have habs := natAbs_scaled n
    have hcast : ((100 * 10 ^ n.places : Nat) : Int) = 100 * (10 ^ n.places : Nat) := Nat.cast_mul _ _
    rw [hcast] at hdiff ⊢
    have hscale : IsHeld (10 ^ n.places : Nat) := isHeld_iff.mpr (by omega)
    have hheld : IsHeld (100 * (10 ^ n.places : Nat)) := isHeld_iff.mpr (by omega)
    have hrest : IsHeld (100 * (10 ^ n.places : Nat) - n.scaled) := isHeld_iff.mpr (by omega)
    simp only [heldComplement, hn]
    rw [keep_bind (by omega), keep_bind hscale, heldScaled_bind hdigits, keep_bind hheld,
      keep_bind hrest, heldRender_eq hscale hrest]
    rfl
  | none =>
    rw [heldComplement]
    split
    next n hn =>
      apply keep_bind_refused
      intro hplaces
      apply keep_bind_refused
      intro hscale
      apply heldScaled_bind_refused
      intro hdigits
      apply keep_bind_refused
      intro hhundred
      apply keep_bind_refused
      intro hrest
      -- no step is left to refuse
      rw [isHeld_iff] at hhundred hrest
      have hsome := complement?_eq_some_iff.mpr ⟨n, hn, by omega, hdigits, by omega, rfl⟩
      rw [hc] at hsome
      cases hsome
    next => rfl

/-! ### Complements of percentages -/

/-- A word has a complement exactly if it is a percentage of at most 36 places and all numbers fit. -/
theorem exists_complement?_iff {w : Text} :
    (∃ m, complement? w = some m) ↔ ∃ n, Written n ['%'] w ∧ n.places ≤ 36 ∧ n.digits ≤ 2 ^ 127 - 1 ∧
      ((100 * 10 ^ n.places : Nat) : Int) - n.scaled ≤ 2 ^ 127 - 1 := by
  have hlimit : limit = 2 ^ 127 - 1 := rfl
  constructor
  · rintro ⟨m, hm⟩
    obtain ⟨n, hn, hhundred, hdigits, hdiff, -⟩ := complement?_eq_some_iff.mp hm
    refine ⟨n, Numeral.written_of_read? hn, (hundred_le_limit_iff _).mp hhundred, hlimit ▸ hdigits, ?_⟩
    omega
  · rintro ⟨n, hn, hplaces, hdigits, hdiff⟩
    have hhundred := (hundred_le_limit_iff _).mpr hplaces
    exact ⟨_, complement?_eq_some_iff.mpr
      ⟨n, Numeral.read?_of_written hn, hhundred, hlimit ▸ hdigits, by omega, rfl⟩⟩

/-- The complement of a percentage, and the complement of that, are written out from the number of the
percentage. -/
theorem complement?_of_written {n : Numeral} {w m : Text} (hn : Written n ['%'] w) (hm : complement? w = some m) :
    m = render n.places ((100 * 10 ^ n.places : Nat) - n.scaled) ∧
      complement? m = some (render n.places n.scaled) := by
  obtain ⟨n', hn', hhundred, hdigits, hdiff, rfl⟩ := complement?_eq_some_iff.mp hm
  rw [Numeral.read?_of_written hn, Option.some.injEq, Prod.mk.injEq] at hn'
  obtain ⟨rfl, -⟩ := hn'
  exact ⟨rfl, complement?_render_complement hhundred hdigits hdiff⟩

/-- **Complements are exact, and they lead back.** A word has a complement exactly if it is a percentage with
at most 36 places whose digits and whose difference to a hundred are held in 128 bits. The complement is the
canonical word for the difference, with the same places, and its own complement is the canonical word for the
percentage, which is the percentage itself if that is canonical. Computing with numbers of 128 bits gives the
same, and every number on the way that does not fit is noticed. -/
theorem complement?_exact (w : Text) :
    ((∃ m, complement? w = some m) ↔ ∃ n, Written n ['%'] w ∧ n.places ≤ 36 ∧ n.digits ≤ 2 ^ 127 - 1 ∧
      ((100 * 10 ^ n.places : Nat) : Int) - n.scaled ≤ 2 ^ 127 - 1) ∧
    (∀ n m, Written n ['%'] w → complement? w = some m →
      Quantity.read? w = some ⟨n, .percent⟩ ∧
      (∃ n', Canonical n' m ∧ n'.value = 100 - n.value ∧ n'.places = n.places) ∧
      ∃ c, complement? m = some c ∧
        (∃ n', Canonical n' c ∧ n'.value = n.value ∧ n'.places = n.places) ∧
        (Canonical n w → c = w)) ∧
    heldComplement w = (complement? w).elim (.error .refused) .ok := by
  refine ⟨exists_complement?_iff, ?_, heldComplement_eq w⟩
  intro n m hn hm
  obtain ⟨rfl, hback⟩ := complement?_of_written hn hm
  refine ⟨?_, ?_, render n.places n.scaled, hback, ?_, ?_⟩
  · rw [Quantity.read?, Numeral.read?_of_written hn]
    rfl
  · exact ⟨_, canonical_render _ _, value_complement n, Numeral.places_ofScaled _ _⟩
  · exact ⟨_, canonical_render _ _, Numeral.value_ofScaled _ _, Numeral.places_ofScaled _ _⟩
  · intro hcanonical
    exact (eq_render_of_canonical hcanonical).symm

/-- A percentage with a plus sign and zeros in front, the greatest number that is held, and a number that is
held while its difference to a hundred is not. -/
theorem complement?_exact_at_limits :
    let plain := "+007.50%".toList
    let n : Numeral := ⟨false, "007".toList, "50".toList⟩
    let m := "92.50%".toList
    let greatest := "170141183460469231731687303715884105727%".toList
    let g : Numeral := ⟨false, "170141183460469231731687303715884105727".toList, []⟩
    let least := "-170141183460469231731687303715884105627%".toList
    let beyond := "-170141183460469231731687303715884105628%".toList
    (Written n ['%'] plain ∧ complement? plain = some m ∧ Quantity.read? plain = some ⟨n, .percent⟩ ∧
      (∃ n', Canonical n' m ∧ n'.value = 100 - n.value ∧ n'.places = n.places) ∧
      ∃ c, complement? m = some c ∧ ∃ n', Canonical n' c ∧ n'.value = n.value ∧ n'.places = n.places) ∧
    (Canonical g greatest ∧ complement? greatest = some least ∧ complement? least = some greatest) ∧
    (¬ ∃ m, complement? beyond = some m) ∧ heldComplement beyond = .error .refused := by
  intro plain n m greatest g least beyond
  have hplain : Written n ['%'] plain := by decide +kernel
  have hm : complement? plain = some m := by decide +kernel
  obtain ⟨hpercent, hexact, c, hc, hback, -⟩ := (complement?_exact plain).2.1 n m hplain hm
  have hgreatest : Canonical g greatest := by decide +kernel
  have hleast : complement? greatest = some least := by decide +kernel
  obtain ⟨-, -, c', hc', -, hsame⟩ := (complement?_exact greatest).2.1 g least hgreatest.toWritten hleast
  have hbeyond : complement? beyond = none := by decide +kernel
  refine ⟨⟨hplain, hm, hpercent, hexact, c, hc, hback⟩, ⟨hgreatest, hleast, ?_⟩, ?_, ?_⟩
  · rw [hc', hsame hgreatest]
  · rw [hbeyond]
    rintro ⟨m, hsome⟩
    cases hsome
  · rw [(complement?_exact beyond).2.2, hbeyond]
    rfl

end Percentage

end BidiSheet
