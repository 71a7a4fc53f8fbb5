import BidiSheet.Marker
import Mathlib.Data.List.TakeWhile

/-!
# Reading markers back

A marker that was written is read back with its number, whatever stands behind it
(`Marker.read?_text`), and no two numbers have the same marker (`Marker.text_injective`). The rest are
the facts about the characters of a marker that the readers of masked texts rely on: digits between
two control characters, and nothing else.
-/

namespace BidiSheet

namespace Marker

/-! ### The characters of a marker -/

/-- A character that is no control character opens no marker. -/
theorem ne_opener_of_not_isControl {c : Char} (h : isControl c = false) : c ≠ opener := by
  rintro rfl
  exact absurd h (by decide)

/-- The digits of a marker's number are digits. -/
theorem isDigit_of_mem_digits {id : Nat} {c : Char} (h : c ∈ Nat.toDigits 10 id) :
    c.isDigit = true :=
  Nat.isDigit_of_mem_toDigits (by decide) (by decide) h

/-- A marker in front of a text, character by character. -/
theorem text_append (id : Nat) (t : Text) :
    text id ++ t = opener :: (Nat.toDigits 10 id ++ closer :: t) := by
  simp [text]

/-- The length of a marker. -/
theorem length_text (id : Nat) : (text id).length = (Nat.toDigits 10 id).length + 2 := by
  simp [text]

/-- The characters of a marker are its two delimiters and digits. -/
theorem mem_text {id : Nat} {c : Char} (h : c ∈ text id) :
    c = opener ∨ c = closer ∨ c.isDigit = true := by
  simp only [text, List.mem_cons, List.mem_append, List.not_mem_nil, or_false] at h
  rcases h with h | h | h
  · exact .inl h
  · exact .inr (.inr (isDigit_of_mem_digits h))
  · exact .inr (.inl h)

/-! ### Reading -/

section

variable {ds : Text} (hds : ∀ c ∈ ds, c.isDigit = true)
include hds

/-- The digits of a marker end at its closing character. -/
theorem takeWhile_digits (t : Text) : (ds ++ closer :: t).takeWhile Char.isDigit = ds := by
  rw [List.takeWhile_append_of_pos hds, List.takeWhile_cons_of_neg (by decide), List.append_nil]

/-- Behind the digits of a marker comes what closes it. -/
theorem dropWhile_digits (t : Text) :
    (ds ++ closer :: t).dropWhile Char.isDigit = closer :: t := by
  rw [List.dropWhile_append_of_pos hds, List.dropWhile_cons_of_neg (by decide)]

/-- A marker is read whatever stands behind it, with however many digits it is written. -/
theorem read?_mark (hne : ds ≠ []) (hlt : Nat.ofDigitChars 10 ds 0 < bound) (t : Text) :
    read? (opener :: (ds ++ closer :: t)) = some ⟨Nat.ofDigitChars 10 ds 0, ds.length⟩ := by
  have hnot : ¬ bound ≤ Nat.ofDigitChars 10 ds 0 := Nat.not_le.mpr hlt
  simp only [read?, read, takeWhile_digits hds, dropWhile_digits hds, List.head?_cons]
  simp [hne, hnot, Except.toOption]

end

/-- Only markers are read. -/
theorem exists_of_read? {t : Text} {found : Found} (h : read? t = some found) :
    ∃ ds rest, t = opener :: (ds ++ closer :: rest) ∧ (∀ c ∈ ds, c.isDigit = true) ∧ ds ≠ [] ∧
      Nat.ofDigitChars 10 ds 0 < bound ∧ found = ⟨Nat.ofDigitChars 10 ds 0, ds.length⟩ := by
  cases t with
  | nil => cases h
  | cons c cs =>
    simp only [read?, read, ne_eq] at h
    split at h
    · cases h
    next hc =>
      split at h
      · cases h
      next hne =>
        split at h
        · cases h
        next hcloser =>
          split at h
          · cases h
          next hbound =>
            obtain ⟨rest, hrest⟩ : ∃ rest, cs.dropWhile Char.isDigit = closer :: rest :=
              List.head?_eq_some_iff.mp (not_not.mp hcloser)
            refine ⟨cs.takeWhile Char.isDigit, rest, ?_, fun d => List.mem_takeWhile_imp, hne,
              Nat.not_le.mp hbound, (Option.some.inj h).symm⟩
            rw [not_not.mp hc, ← hrest, List.takeWhile_append_dropWhile]

/-- **A marker that was written is read back**, whatever stands behind it. -/
theorem read?_text {id : Nat} (h : id < bound) (t : Text) :
    read? (opener :: (Nat.toDigits 10 id ++ closer :: t))
      = some ⟨id, (Nat.toDigits 10 id).length⟩ := by
  have hid : Nat.ofDigitChars 10 (Nat.toDigits 10 id) 0 = id := Nat.ofDigitChars_ten_toDigits
  have hread := read?_mark (fun c => isDigit_of_mem_digits) Nat.toDigits_ne_nil (by rwa [hid]) t
  rwa [hid] at hread

/-- What stands behind a marker is what is left once its characters are dropped. -/
theorem drop_digits (ds t : Text) : (ds ++ closer :: t).drop (ds.length + 1) = t := by
  rw [← List.drop_drop, List.drop_left, List.drop_one, List.tail_cons]

/-- No two numbers have the same marker, even with texts behind them. -/
theorem text_injective {i j : Nat} {s t : Text}
    (h : opener :: (Nat.toDigits 10 i ++ closer :: s) = opener :: (Nat.toDigits 10 j ++ closer :: t)) :
    i = j ∧ s = t := by
  have htail := (List.cons.inj h).2
  have hdigits : Nat.toDigits 10 i = Nat.toDigits 10 j := by
    rw [← takeWhile_digits (fun c => isDigit_of_mem_digits) s, htail,
      takeWhile_digits (fun c => isDigit_of_mem_digits)]
  have hij : i = j := by
    rw [← Nat.ofDigitChars_ten_toDigits (n := i), hdigits, Nat.ofDigitChars_ten_toDigits]
  refine ⟨hij, ?_⟩
  rw [hdigits] at htail
  exact (List.cons.inj (List.append_cancel_left htail)).2

end Marker

end BidiSheet
