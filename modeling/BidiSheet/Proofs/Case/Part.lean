import BidiSheet.Text.Case
import Mathlib

/-!
# The case of a part

A part of a word is capital, capitalised or neither, and only its letters tell which: digits and other
characters have no case. A part that is written in the case of its counterpart is itself in that case
(`Counterparts.of_recasePart`), and so serves as a model for the way back. A part that was written in one
way returns (`Counterparts.recasePart_recasePart`), and any other stays as it is from the first exchange on
(`Counterparts.recasePart_thrice`). A part with a single letter cannot be told to be capitalised rather than
capital, and has a counterpart with a single letter.
-/

namespace BidiSheet

/-- The ways in which a part may be written. -/
inductive LetterCase where
  | small
  | capitalised
  | capital
  deriving DecidableEq

namespace LetterCase

/-- The way in which the letters of a part are written. -/
def of (t : Text) : LetterCase :=
  if t.all Char.isUpper then .capital else if t.head?.any Char.isUpper then .capitalised else .small

/-- A part of small letters, written in some way. -/
def write : LetterCase → Text → Text
  | .small, t => t
  | .capitalised, t => capitalise t
  | .capital, t => upper t

end LetterCase

/-- Whether a part consists of letters. -/
def isLetters (t : Text) : Bool := t ≠ [] && t.all Char.isAlpha

/-- Whether a part consists of small letters. -/
def isSmall (t : Text) : Bool := t ≠ [] && t.all Char.isLower

/-- Whether all letters of a part are small, or all are capital, or only the first is capital. -/
def isUniform (t : Text) : Bool := t = lower t || t = upper t || t = capitalise (lower t)

/-- A text of letters alone. -/
theorem isLetters_iff {t : Text} : isLetters t = true ↔ t ≠ [] ∧ ∀ c ∈ t, c.isAlpha = true := by
  simp [isLetters]

/-- A text of small letters alone. -/
theorem isSmall_iff {t : Text} : isSmall t = true ↔ t ≠ [] ∧ ∀ c ∈ t, c.isLower = true := by
  simp [isSmall]

/-- The three cases in which a text can be uniform. -/
theorem isUniform_iff {t : Text} :
    isUniform t = true ↔ t = lower t ∨ t = upper t ∨ t = capitalise (lower t) := by
  simp [isUniform, or_assoc]

/-- Small letters are letters. -/
theorem isAlpha_of_isLower {c : Char} (h : c.isLower = true) : c.isAlpha = true := by
  simp [Char.isAlpha, h]

/-- A text of small letters is one of letters. -/
theorem isLetters_of_isSmall {t : Text} (h : isSmall t = true) : isLetters t = true := by
  rw [isSmall_iff] at h
  exact isLetters_iff.mpr ⟨h.1, fun c hc => isAlpha_of_isLower (h.2 c hc)⟩

/-- A text in whatever case is one of letters if it is so in small ones. -/
theorem isLetters_of_lower {s m : Text} (hm : lower m = s) (hs : isSmall s = true) :
    isLetters m = true := by
  subst hm
  rw [isSmall_iff] at hs
  refine isLetters_iff.mpr ⟨?_, ?_⟩
  · rintro rfl
    exact hs.1 rfl
  · intro c hc
    rw [← Char.isLower_toLower_eq_isAlpha]
    exact hs.2 _ (List.mem_map_of_mem hc)

/-- Letters are made small once. -/
theorem lower_lower (t : Text) : lower (lower t) = lower t := by
  rw [lower, lower, List.map_map]
  exact List.map_congr_left fun c _ => Char.toLower_toLower_eq_toLower c

/-- Capitals do not depend on the case before. -/
theorem upper_lower (t : Text) : upper (lower t) = upper t := by
  rw [lower, upper, upper, List.map_map]
  exact List.map_congr_left fun c _ => Char.toUpper_toLower_eq_toUpper c

/-! ### Letters among other characters -/

/-- The letters of a part. -/
def letters (t : Text) : Text := t.filter Char.isAlpha

/-- Whether a part begins with a letter. -/
def beginsWithLetter (t : Text) : Bool := t.head?.any Char.isAlpha

section

variable {t : Text}

/-- A text that begins with a letter has one. -/
theorem exists_cons_of_beginsWithLetter (h : beginsWithLetter t = true) :
    ∃ c u, t = c :: u ∧ c.isAlpha = true := by
  cases t with
  | nil => cases h
  | cons c u => exact ⟨c, u, rfl, h⟩

/-- Whether a text begins with a letter does not depend on its case. -/
theorem beginsWithLetter_lower (t : Text) : beginsWithLetter (lower t) = beginsWithLetter t := by
  cases t with
  | nil => rfl
  | cons c u => exact Char.isAlpha_toLower_eq_isAlpha c

/-- A letter in front is the first of the letters. -/
theorem letters_cons {c : Char} (hc : c.isAlpha = true) (u : Text) :
    letters (c :: u) = c :: letters u :=
  List.filter_cons_of_pos hc

/-- Changing the case of a text changes the case of its letters. -/
theorem letters_map {f : Char → Char} (hf : ∀ c, (f c).isAlpha = c.isAlpha) (t : Text) :
    letters (t.map f) = (letters t).map f := by
  have hcomp : Char.isAlpha ∘ f = Char.isAlpha := funext hf
  rw [letters, List.filter_map, hcomp, letters]

/-- A text has as many letters in small ones. -/
theorem length_letters_lower (t : Text) : (letters (lower t)).length = (letters t).length := by
  rw [lower, letters_map Char.isAlpha_toLower_eq_isAlpha, List.length_map]

/-- A part that begins with a letter has one. -/
theorem length_letters_pos (h : beginsWithLetter t = true) : 0 < (letters t).length := by
  obtain ⟨c, u, rfl, hc⟩ := exists_cons_of_beginsWithLetter h
  rw [letters_cons hc]
  exact Nat.succ_pos _

/-- The letters of a part that is written small are small. -/
theorem isSmall_letters (hbegins : beginsWithLetter t = true) (hsmall : lower t = t) :
    isSmall (letters t) = true := by
  refine isSmall_iff.mpr ⟨?_, ?_⟩
  · obtain ⟨c, u, rfl, hc⟩ := exists_cons_of_beginsWithLetter hbegins
    rw [letters_cons hc]
    exact List.cons_ne_nil _ _
  · intro c hc
    obtain ⟨hmem, halpha⟩ := List.mem_filter.mp hc
    rw [← hsmall] at hmem
    obtain ⟨d, -, rfl⟩ := List.mem_map.mp hmem
    rw [Char.isLower_toLower_eq_isAlpha]
    rwa [Char.isAlpha_toLower_eq_isAlpha] at halpha

/-- A part with no letter but its first is capital as soon as it is capitalised. -/
theorem upper_eq_capitalise (hbegins : beginsWithLetter t = true) (hone : (letters t).length = 1) :
    upper t = capitalise t := by
  obtain ⟨c, u, rfl, hc⟩ := exists_cons_of_beginsWithLetter hbegins
  rw [letters_cons hc, List.length_cons, Nat.add_eq_right, List.length_eq_zero_iff] at hone
  have hid : ∀ d ∈ u, d.toUpper = id d := by
    intro d hd
    have hd' : ¬ d.isAlpha = true := List.filter_eq_nil_iff.mp hone d hd
    exact Char.toUpper_eq_of_not_isLower (mt isAlpha_of_isLower hd')
  show c.toUpper :: u.map Char.toUpper = c.toUpper :: u
  rw [List.map_congr_left hid, List.map_id]

end

/-! ### Writing a part -/

namespace LetterCase

variable {t : Text}

/-- Whatever case a text is written in, its letters are the same. -/
theorem lower_write (π : LetterCase) (t : Text) : lower (π.write t) = lower t := by
  cases π with
  | small => rfl
  | capitalised =>
    cases t with
    | nil => rfl
    | cons c u =>
      show c.toUpper.toLower :: lower u = c.toLower :: lower u
      rw [Char.toLower_toUpper_eq_toLower]
  | capital =>
    show (t.map Char.toUpper).map Char.toLower = t.map Char.toLower
    rw [List.map_map]
    exact List.map_congr_left fun c _ => Char.toLower_toUpper_eq_toLower c

/-- The letters of a written text are the written letters. -/
theorem letters_write (π : LetterCase) (h : beginsWithLetter t = true) :
    letters (π.write t) = π.write (letters t) := by
  cases π with
  | small => rfl
  | capitalised =>
    obtain ⟨c, u, rfl, hc⟩ := exists_cons_of_beginsWithLetter h
    have hupper : c.toUpper.isAlpha = true := by rwa [Char.isAlpha_toUpper_eq_isAlpha]
    rw [letters_cons hc]
    exact letters_cons hupper u
  | capital => exact letters_map Char.isAlpha_toUpper_eq_isAlpha t

/-- A single letter is not taken for a capitalised word. -/
theorem length_ne_one (h : of t = .capitalised) : t.length ≠ 1 := by
  intro hlen
  obtain ⟨c, rfl⟩ := List.length_eq_one_iff.mp hlen
  rcases hc : c.isUpper with _ | _ <;> simp [of, hc] at h

/-- Letters are written in the way in which they were written down. -/
theorem of_write {π : LetterCase} (ht : isSmall t = true) (hlen : π = .capitalised → t.length ≠ 1) :
    of (π.write t) = π := by
  rw [isSmall_iff] at ht
  obtain ⟨hne, hlower⟩ := ht
  obtain ⟨c, t, rfl⟩ := List.exists_cons_of_ne_nil hne
  have hc : c.isLower = true := hlower c List.mem_cons_self
  cases π with
  | small => simp [of, write, Char.not_isUpper_of_isLower hc]
  | capitalised =>
    cases t with
    | nil => exact absurd rfl (hlen rfl)
    | cons d t =>
      have hd : d.isLower = true := hlower d (List.mem_cons_of_mem c List.mem_cons_self)
      simp [of, write, capitalise, Char.not_isUpper_of_isLower hd, isAlpha_of_isLower hc]
  | capital =>
    have hall : (upper (c :: t)).all Char.isUpper = true := by
      rw [List.all_eq_true]
      intro d hd
      obtain ⟨e, he, rfl⟩ := List.mem_map.mp hd
      rw [Char.isUpper_toUpper_eq_isAlpha]
      exact isAlpha_of_isLower (hlower e he)
    rw [of, write, if_pos hall]

/-- The letters of a part are written in the way in which the part was written down. -/
theorem of_letters_write {π : LetterCase} (hbegins : beginsWithLetter t = true) (hsmall : lower t = t)
    (hlen : π = .capitalised → (letters t).length ≠ 1) : of (letters (π.write t)) = π := by
  rw [letters_write π hbegins]
  exact of_write (isSmall_letters hbegins hsmall) hlen

/-- A part that is written in one way is so in its own case. A single letter that is capital counts as such,
and not as capitalised. -/
theorem write_of_letters (hbegins : beginsWithLetter t = true) (h : isUniform t = true) :
    (of (letters t)).write (lower t) = t := by
  have hbegins' : beginsWithLetter (lower t) = true := by rwa [beginsWithLetter_lower]
  obtain ⟨π, hwrite, hlen⟩ : ∃ π : LetterCase, t = π.write (lower t) ∧
      (π = .capitalised → (letters (lower t)).length ≠ 1) := by
    rcases isUniform_iff.mp h with hsmall | hcapital | hcapitalised
    · exact ⟨.small, hsmall, fun hπ => absurd hπ (by decide)⟩
    · exact ⟨.capital, hcapital.trans (upper_lower t).symm, fun hπ => absurd hπ (by decide)⟩
    · -- a single letter is written as a capital, although it is capitalised as well
      by_cases hone : (letters (lower t)).length = 1
      · have hcapital := hcapitalised.trans (upper_eq_capitalise hbegins' hone).symm
        exact ⟨.capital, hcapital, fun hπ => absurd hπ (by decide)⟩
      · exact ⟨.capitalised, hcapitalised, fun _ => hone⟩
  have hof : of (letters t) = π :=
    (congrArg (fun u => of (letters u)) hwrite).trans (of_letters_write hbegins' (lower_lower t) hlen)
  rw [hof, ← hwrite]

end LetterCase

/-! ### Writing a part in the case of another -/

/-- The case of a part that begins with a letter is that of its letters. -/
theorem recasePart_eq_write {m : Text} (h : beginsWithLetter m = true) (word : Text) :
    recasePart word m = (LetterCase.of (letters m)).write word := by
  obtain ⟨c, u, rfl, hc⟩ := exists_cons_of_beginsWithLetter h
  have hne : letters (c :: u) ≠ [] := by
    rw [letters_cons hc]
    exact List.cons_ne_nil _ _
  -- the first letter is the first character, so it does not matter in which of the two a capital is sought
  have hhead : (letters (c :: u)).head? = (c :: u).head? := by
    rw [letters_cons hc]
    rfl
  have hcases : recasePart word (c :: u) =
      if letters (c :: u) = [] then word
      else if (letters (c :: u)).all Char.isUpper then upper word
      else if (c :: u).head?.any Char.isUpper then capitalise word else word := rfl
  rw [hcases, if_neg hne, LetterCase.of, hhead]
  split
  · rfl
  · split <;> rfl

/-- A part in any case is the same part. -/
theorem lower_recasePart (word model : Text) : lower (recasePart word model) = lower word := by
  obtain ⟨π, hπ⟩ : ∃ π : LetterCase, recasePart word model = π.write word := by
    unfold recasePart
    simp only
    split
    · exact ⟨.small, rfl⟩
    split
    · exact ⟨.capital, rfl⟩
    split
    · exact ⟨.capitalised, rfl⟩
    · exact ⟨.small, rfl⟩
  rw [hπ, LetterCase.lower_write]

/-! ### Counterparts -/

/-- Parts that may be written in each other's case. Both are in small letters and begin with a letter, and
either both have a single letter or both have several. -/
structure Counterparts (s t : Text) : Prop where
  small_left : lower s = s
  small_right : lower t = t
  begins_left : beginsWithLetter s = true
  begins_right : beginsWithLetter t = true
  single_or_several :
    (letters s).length = 1 ∧ (letters t).length = 1 ∨ 2 ≤ (letters s).length ∧ 2 ≤ (letters t).length

instance (s t : Text) : Decidable (Counterparts s t) :=
  decidable_of_iff (lower s = s ∧ lower t = t ∧ beginsWithLetter s = true ∧ beginsWithLetter t = true ∧
      ((letters s).length = 1 ∧ (letters t).length = 1 ∨ 2 ≤ (letters s).length ∧ 2 ≤ (letters t).length))
    ⟨fun ⟨hs, ht, hs', ht', h⟩ => ⟨hs, ht, hs', ht', h⟩, fun ⟨hs, ht, hs', ht', h⟩ => ⟨hs, ht, hs', ht', h⟩⟩

namespace Counterparts

variable {s t m : Text}

theorem symm (h : Counterparts s t) : Counterparts t s :=
  ⟨h.small_right, h.small_left, h.begins_right, h.begins_left,
    h.single_or_several.imp And.symm And.symm⟩

/-- A text in whatever case begins with a letter if its counterpart does. -/
theorem begins_of_lower (h : Counterparts s t) (hm : lower m = s) : beginsWithLetter m = true := by
  rw [← beginsWithLetter_lower, hm]
  exact h.begins_left

/-- A counterpart is written in the case of the text. -/
theorem recasePart_eq (h : Counterparts s t) (hm : lower m = s) :
    recasePart t m = (LetterCase.of (letters m)).write t :=
  recasePart_eq_write (h.begins_of_lower hm) t

/-- The case of a text does not change the letters of its counterpart. -/
theorem lower_recasePart (h : Counterparts s t) (m : Text) : lower (recasePart t m) = t := by
  rw [BidiSheet.lower_recasePart, h.small_right]

/-- A part that is written in the case of its counterpart is in that case. -/
theorem of_recasePart (h : Counterparts s t) (hm : lower m = s) :
    LetterCase.of (letters (recasePart t m)) = LetterCase.of (letters m) := by
  rw [h.recasePart_eq hm]
  refine LetterCase.of_letters_write h.begins_right h.small_right ?_
  intro hcase hone
  have hm1 : (letters m).length = 1 := by
    rw [← length_letters_lower, hm]
    have := h.single_or_several
    omega
  exact LetterCase.length_ne_one hcase hm1

/-- On the way back, a part is written in the case that it had. -/
theorem recasePart_back (h : Counterparts s t) (hm : lower m = s) :
    recasePart s (recasePart t m) = (LetterCase.of (letters m)).write s := by
  rw [h.symm.recasePart_eq (h.lower_recasePart m), h.of_recasePart hm]

/-- **A part that is written in one way returns** when it is exchanged to and fro. -/
theorem recasePart_recasePart (h : Counterparts s t) (hm : lower m = s) (huniform : isUniform m = true) :
    recasePart s (recasePart t m) = m := by
  rw [h.recasePart_back hm, ← hm]
  exact LetterCase.write_of_letters (h.begins_of_lower hm) huniform

-- Several letters would not return from a single one, which keeps no trace of the small letters behind it.
example : recasePart "ab".toList (recasePart "c".toList "Ab".toList) = "AB".toList := by decide

/-- **The case of a part is kept** when the part is exchanged to and fro. -/
theorem recasePart_thrice (h : Counterparts s t) (hm : lower m = s) :
    recasePart t (recasePart s (recasePart t m)) = recasePart t m := by
  rw [h.symm.recasePart_back (h.lower_recasePart m), h.of_recasePart hm, h.recasePart_eq hm]

end Counterparts

end BidiSheet
