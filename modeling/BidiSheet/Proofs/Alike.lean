import BidiSheet.Masked
import BidiSheet.Proofs.Marker
import Mathlib.Logic.Relator

/-!
# Texts that are alike but for the numbers of their markers

What is done to a masked text must not depend on how its markers are numbered. `Alike ρ s t` says that
`s` and `t` are the same but for their markers, and that `ρ` relates each marker's number in `s` to the
number in the same place of `t`. All markers of alike texts are well formed, and neither text has
another control character.

* `Alike.eq_iff`: alike texts are equal in the same cases, if `ρ` is one to one.
* `AlikeCut`: two texts cut in the same place. Each reader of masked texts has a lemma that says that it
  cuts alike texts in the same place.
-/

namespace BidiSheet

open Marker (opener closer isControl)

/-- `s` and `t` are the same but for the numbers of their markers, which `ρ` relates. -/
inductive Alike (ρ : Nat → Nat → Prop) : Text → Text → Prop where
  | nil : Alike ρ [] []
  | plain {c : Char} {s t : Text} (hc : isControl c = false) (h : Alike ρ s t) :
      Alike ρ (c :: s) (c :: t)
  | mark {i j : Nat} {s t : Text} (hi : i < Marker.bound) (hj : j < Marker.bound) (hij : ρ i j)
      (h : Alike ρ s t) :
      Alike ρ (opener :: (Nat.toDigits 10 i ++ closer :: s))
        (opener :: (Nat.toDigits 10 j ++ closer :: t))

/-- A text without control characters. -/
def Plain (t : Text) : Prop := ∀ c ∈ t, isControl c = false

/-- Texts without control characters can be put together. -/
theorem Plain.append {s t : Text} (hs : Plain s) (ht : Plain t) : Plain (s ++ t) := by
  intro c hc
  rcases List.mem_append.mp hc with h | h
  · exact hs c h
  · exact ht c h

/-- A character that is no control character may be put in front. -/
theorem Plain.cons {c : Char} {t : Text} (hc : isControl c = false) (ht : Plain t) :
    Plain (c :: t) := by
  intro d hd
  rcases List.mem_cons.mp hd with rfl | hd
  · exact hc
  · exact ht d hd

/-- A part of a text without control characters has none. -/
theorem Plain.of_sublist {s t : Text} (h : s.Sublist t) (ht : Plain t) : Plain s :=
  fun c hc => ht c (h.subset hc)

namespace Alike

variable {ρ : Nat → Nat → Prop} {s s' t t' : Text}

/-! ### Building alike texts -/

/-- A text without control characters is like itself. -/
theorem of_plain (h : Plain s) : Alike ρ s s := by
  induction s with
  | nil => exact .nil
  | cons c s ih =>
    exact .plain (h c List.mem_cons_self) (ih fun d hd => h d (List.mem_cons_of_mem c hd))

/-- Texts that are alike can be put together. -/
theorem append (h : Alike ρ s t) (h' : Alike ρ s' t') : Alike ρ (s ++ s') (t ++ t') := by
  induction h with
  | nil => exact h'
  | plain hc _ ih => exact .plain hc ih
  | mark hi hj hij _ ih =>
    simp only [List.cons_append, List.append_assoc]
    exact .mark hi hj hij ih

/-- Texts that are alike stay so where more numbers are related. -/
theorem mono {σ : Nat → Nat → Prop} (hσ : ∀ i j, ρ i j → σ i j) (h : Alike ρ s t) :
    Alike σ s t := by
  induction h with
  | nil => exact .nil
  | plain hc _ ih => exact .plain hc ih
  | mark hi hj hij _ ih => exact .mark hi hj (hσ _ _ hij) ih

/-! ### Taking alike texts apart -/

/-- Alike texts begin with the same character. -/
theorem head? (h : Alike ρ s t) : s.head? = t.head? := by
  cases h <;> rfl

/-- Texts that are alike are both empty or neither is. -/
theorem eq_nil_iff (h : Alike ρ s t) : s = [] ↔ t = [] := by
  cases h <;> simp

/-- The rest of alike texts behind a character that opens no marker. -/
theorem of_cons {c : Char} (hc : c ≠ opener) (h : Alike ρ (c :: s) t) :
    ∃ t', t = c :: t' ∧ Alike ρ s t' := by
  cases h with
  | plain _ h => exact ⟨_, rfl, h⟩
  | mark => exact absurd rfl hc

/-- Either there is no marker, and the texts are the same, or both have one. -/
theorem eq_or_mem (h : Alike ρ s t) : (s = t ∧ Plain s) ∨ (opener ∈ s ∧ opener ∈ t) := by
  induction h with
  | nil => exact .inl ⟨rfl, fun _ hc => absurd hc List.not_mem_nil⟩
  | plain hc _ ih =>
    rcases ih with ⟨rfl, hp⟩ | ⟨hs, ht⟩
    · exact .inl ⟨rfl, hp.cons hc⟩
    · exact .inr ⟨List.mem_cons_of_mem _ hs, List.mem_cons_of_mem _ ht⟩
  | mark => exact .inr ⟨List.mem_cons_self, List.mem_cons_self⟩

/-- Where `ρ` is one to one, alike texts are equal in the same cases. -/
theorem eq_iff (hρ : Relator.BiUnique ρ) (h : Alike ρ s t) (h' : Alike ρ s' t') :
    s = s' ↔ t = t' := by
  induction h generalizing s' t' with
  | nil => rw [eq_comm, h'.eq_nil_iff, eq_comm]
  | @plain c s t hc h ih =>
    cases h' with
    | nil => simp
    | plain _ h' => simp [ih h']
    | mark =>
      have hne := Marker.ne_opener_of_not_isControl hc
      simp [hne]
  | @mark i j s t _ _ hij h ih =>
    cases h' with
    | nil => simp
    | plain hc _ =>
      have hne := (Marker.ne_opener_of_not_isControl hc).symm
      simp [hne]
    | @mark i' j' s' t' _ _ hij' h' =>
      constructor
      · intro he
        obtain ⟨rfl, hs⟩ := Marker.text_injective he
        rw [hρ.2 hij hij', (ih h').mp hs]
      · intro he
        obtain ⟨rfl, ht⟩ := Marker.text_injective he
        rw [hρ.1 hij hij', (ih h').mpr ht]

/-! ### Front and back of alike texts -/

section while_

variable {p : Char → Bool}

/-- What a reader of plain characters takes from alike texts is the same. -/
theorem takeWhile_eq (hp : p opener = false) (h : Alike ρ s t) :
    s.takeWhile p = t.takeWhile p := by
  induction h with
  | nil => rfl
  | @plain c s t hc h ih => simp only [List.takeWhile_cons, ih]
  | mark => simp [hp]

/-- What a reader of plain characters leaves of alike texts is alike. -/
theorem dropWhile (hp : p opener = false) (h : Alike ρ s t) :
    Alike ρ (s.dropWhile p) (t.dropWhile p) := by
  induction h with
  | nil => exact .nil
  | @plain c s t hc h ih =>
    by_cases hpc : p c = true
    · rwa [List.dropWhile_cons_of_pos hpc, List.dropWhile_cons_of_pos hpc]
    · rw [List.dropWhile_cons_of_neg hpc, List.dropWhile_cons_of_neg hpc]
      exact .plain hc h
  | mark hi hj hij h =>
    rw [List.dropWhile_cons_of_neg (by simp [hp]), List.dropWhile_cons_of_neg (by simp [hp])]
    exact .mark hi hj hij h

/-- What a reader of plain characters takes has no control characters. -/
theorem plain_takeWhile (hp : p opener = false) (h : Alike ρ s t) : Plain (s.takeWhile p) := by
  induction h with
  | nil => simp [Plain]
  | @plain c s t hc h ih =>
    by_cases hpc : p c = true
    · rw [List.takeWhile_cons_of_pos hpc]
      exact ih.cons hc
    · rw [List.takeWhile_cons_of_neg hpc]
      simp [Plain]
  | mark => simp [hp, Plain]

end while_

end Alike

/-! ### Cutting alike texts in the same place -/

/-- Two texts, cut behind their first `n` and `m` characters, have alike fronts and alike backs. -/
structure AlikeCut (ρ : Nat → Nat → Prop) (n m : Nat) (s t : Text) : Prop where
  front : Alike ρ (s.take n) (t.take m)
  back : Alike ρ (s.drop n) (t.drop m)

namespace AlikeCut

variable {ρ : Nat → Nat → Prop} {n m : Nat} {s t : Text}

/-- A cut at the beginning. -/
theorem zero (h : Alike ρ s t) : AlikeCut ρ 0 0 s t := ⟨.nil, h⟩

/-- A cut behind one more character. -/
theorem plain {c : Char} (hc : isControl c = false) (h : AlikeCut ρ n m s t) :
    AlikeCut ρ (n + 1) (m + 1) (c :: s) (c :: t) :=
  ⟨.plain hc h.front, h.back⟩

/-- The front of a text that begins with a marker. -/
theorem take_mark (i n : Nat) (s : Text) :
    (opener :: (Nat.toDigits 10 i ++ closer :: s)).take ((Nat.toDigits 10 i).length + 2 + n)
      = opener :: (Nat.toDigits 10 i ++ closer :: s.take n) := by
  have hlen : (Nat.toDigits 10 i).length + 2 + n = ((Nat.toDigits 10 i).length + (n + 1)) + 1 := by
    omega
  rw [hlen, List.take_succ_cons, List.take_length_add_append, List.take_succ_cons]

/-- The rest of a text that begins with a marker. -/
theorem drop_mark (i n : Nat) (s : Text) :
    (opener :: (Nat.toDigits 10 i ++ closer :: s)).drop ((Nat.toDigits 10 i).length + 2 + n)
      = s.drop n := by
  have hlen : (Nat.toDigits 10 i).length + 2 + n = ((Nat.toDigits 10 i).length + (n + 1)) + 1 := by
    omega
  rw [hlen, List.drop_succ_cons, List.drop_length_add_append, List.drop_succ_cons]

/-- A cut behind one more marker. -/
theorem mark {i j : Nat} (hi : i < Marker.bound) (hj : j < Marker.bound) (hij : ρ i j)
    (h : AlikeCut ρ n m s t) :
    AlikeCut ρ ((Nat.toDigits 10 i).length + 2 + n) ((Nat.toDigits 10 j).length + 2 + m)
      (opener :: (Nat.toDigits 10 i ++ closer :: s))
      (opener :: (Nat.toDigits 10 j ++ closer :: t)) := by
  constructor
  · rw [take_mark, take_mark]
    exact .mark hi hj hij h.front
  · rw [drop_mark, drop_mark]
    exact h.back

end AlikeCut

end BidiSheet
