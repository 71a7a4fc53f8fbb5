import BidiSheet.Value.Action
import BidiSheet.Proofs.Alike
import Mathlib

/-!
# Quiet words

The words that a rule puts in place of others are keywords and quantities. They consist of ASCII
letters and digits, signs, points and percent signs, and no reader of a stylesheet reacts to any of
these characters. Such words are called *quiet*.

A word that is exchanged for another spelling is quiet, and so is its new spelling
(`Vocabulary.quiet_of_lookup`, `Percentage.quiet_of_complement?`, `Quantity.quiet_of_read?`,
`Words.quiet_negate`). So a word with a marker in it is never exchanged, and none of the actions on words
depends on how markers are numbered (`Words.alike_map_swap`, …, `Words.alike_offset`).
-/

namespace BidiSheet

open Marker (opener closer isControl)

/-- The characters of keywords and quantities. -/
def isQuiet (c : Char) : Bool := c.isAlphanum || c = '-' || c = '+' || c = '.' || c = '%'

/-- A text of which every character is quiet. -/
def Quiet (t : Text) : Prop := ∀ c ∈ t, isQuiet c = true

/-! ### Quiet characters -/

/-- Digits are quiet. -/
theorem isQuiet_of_isDigit {c : Char} (h : c.isDigit = true) : isQuiet c = true := by
  simp [isQuiet, Char.isAlphanum, h]

/-- Letters are quiet. -/
theorem isQuiet_of_isAlpha {c : Char} (h : c.isAlpha = true) : isQuiet c = true := by
  simp [isQuiet, Char.isAlphanum, h]

/-- No particular character that is not quiet is among the quiet ones. -/
theorem ne_of_isQuiet {c d : Char} (h : isQuiet c = true) (hd : isQuiet d = false) : c ≠ d := by
  rintro rfl
  rw [h] at hd
  cases hd

/-- A quiet character delimits no marker. -/
theorem not_isControl_of_isQuiet {c : Char} (h : isQuiet c = true) : isControl c = false := by
  have h1 : c ≠ opener := ne_of_isQuiet h (by decide)
  have h2 : c ≠ closer := ne_of_isQuiet h (by decide)
  simp [isControl, h1, h2]

/-- A quiet character is quiet as a capital. -/
theorem isQuiet_toUpper {c : Char} (h : isQuiet c = true) : isQuiet c.toUpper = true := by
  by_cases hc : c.isLower = true
  · apply isQuiet_of_isAlpha
    rw [Char.isAlpha_toUpper_eq_isAlpha]
    simp [Char.isAlpha, hc]
  · rwa [Char.toUpper_eq_of_not_isLower hc]

/-- Whether a character is quiet does not depend on its case. -/
theorem isQuiet_of_toLower {c : Char} (h : isQuiet c.toLower = true) : isQuiet c = true := by
  by_cases hc : c.isUpper = true
  · exact isQuiet_of_isAlpha (by simp [Char.isAlpha, hc])
  · rwa [Char.toLower_eq_of_not_isUpper hc] at h

namespace Quiet

variable {s t : Text}

theorem nil : Quiet [] := fun _ h => absurd h List.not_mem_nil

/-- A quiet character may be put before a quiet text. -/
theorem cons {c : Char} (hc : isQuiet c = true) (ht : Quiet t) : Quiet (c :: t) := by
  intro d hd
  rcases List.mem_cons.mp hd with rfl | hd
  · exact hc
  · exact ht d hd

/-- Quiet texts can be put together. -/
theorem append (hs : Quiet s) (ht : Quiet t) : Quiet (s ++ t) := by
  intro c hc
  rcases List.mem_append.mp hc with h | h
  · exact hs c h
  · exact ht c h

/-- What is left of a quiet text is quiet. -/
theorem tail {c : Char} (h : Quiet (c :: t)) : Quiet t :=
  fun d hd => h d (List.mem_cons_of_mem c hd)

/-- A quiet text has no control characters. -/
theorem plain (h : Quiet t) : Plain t := fun c hc => not_isControl_of_isQuiet (h c hc)

/-- There is no marker in a quiet word. -/
theorem opener_not_mem (h : Quiet t) : opener ∉ t :=
  fun hm => absurd (h opener hm) (by decide)

/-- Whether a text is quiet does not depend on its case. -/
theorem of_lower (h : Quiet (lower t)) : Quiet t :=
  fun c hc => isQuiet_of_toLower (h c.toLower (List.mem_map_of_mem hc))

/-- A quiet text is quiet in capitals. -/
theorem upper (h : Quiet t) : Quiet (BidiSheet.upper t) := by
  intro c hc
  obtain ⟨d, hd, rfl⟩ := List.mem_map.mp hc
  exact isQuiet_toUpper (h d hd)

/-- A quiet text is quiet with a capital in front. -/
theorem capitalise (h : Quiet t) : Quiet (BidiSheet.capitalise t) := by
  cases t with
  | nil => exact h
  | cons c t => exact .cons (isQuiet_toUpper (h c List.mem_cons_self)) h.tail

/-- A quiet part is quiet in the case of another. -/
theorem recasePart (h : Quiet t) (model : Text) : Quiet (BidiSheet.recasePart t model) := by
  unfold BidiSheet.recasePart
  simp only
  split
  · exact h
  split
  · exact h.upper
  split
  · exact h.capitalise
  · exact h

/-- Quiet parts, joined by hyphens, are quiet. -/
theorem intercalate {ts : List Text} (h : ∀ t ∈ ts, Quiet t) : Quiet (['-'].intercalate ts) := by
  induction ts with
  | nil => exact nil
  | cons t ts ih =>
    have ht : Quiet t := h t List.mem_cons_self
    have hts : ∀ u ∈ ts, Quiet u := fun u hu => h u (List.mem_cons_of_mem t hu)
    cases ts with
    | nil => rwa [List.intercalate_singleton]
    | cons u us =>
      rw [List.intercalate_cons_cons]
      exact (ht.append (nil.cons (by decide))).append (ih hts)

end Quiet

/-- A character of a part is a character of what the parts are joined to. -/
theorem mem_intercalate_of_mem {c : Char} {t : Text} {ts : List Text} (ht : t ∈ ts) (hc : c ∈ t) :
    c ∈ ['-'].intercalate ts := by
  induction ts with
  | nil => exact absurd ht List.not_mem_nil
  | cons u us ih =>
    cases us with
    | nil =>
      rw [List.intercalate_singleton]
      rwa [List.mem_singleton.mp ht] at hc
    | cons v vs =>
      rw [List.intercalate_cons_cons, List.mem_append, List.mem_append]
      rcases List.mem_cons.mp ht with rfl | ht
      · exact .inl (.inl hc)
      · exact .inr (ih ht)

/-- A character of a hyphenated part is a character of the word. -/
theorem mem_of_mem_parts {word part : Text} {c : Char} (hpart : part ∈ parts word) (hc : c ∈ part) :
    c ∈ word := by
  have hmem := mem_intercalate_of_mem hpart hc
  rwa [parts, List.intercalate_splitOn] at hmem

/-- The hyphenated parts of a quiet word are quiet. -/
theorem Quiet.parts {word part : Text} (h : Quiet word) (hpart : part ∈ parts word) :
    Quiet part :=
  fun c hc => h c (mem_of_mem_parts hpart hc)

/-- A quiet word is quiet in the case of another. -/
theorem Quiet.recase {word : Text} (h : Quiet word) (model : Text) :
    Quiet (BidiSheet.recase word model) := by
  unfold BidiSheet.recase
  split
  · apply Quiet.intercalate
    intro t ht
    obtain ⟨i, hi, rfl⟩ := List.mem_iff_getElem.mp ht
    rw [List.getElem_zipWith]
    exact (h.parts (List.getElem_mem _)).recasePart _
  · exact h.recasePart model

/-! ### Keywords -/

namespace Vocabulary

variable {v : Vocabulary} {w w' : Text}

/-- The letters, digits and hyphens of keywords are quiet. -/
theorem quiet_of_isKeyword (h : isKeyword w = true) : Quiet w := by
  intro c hc
  have hkey := List.all_eq_true.mp h c hc
  simp only [Bool.or_eq_true, decide_eq_true_eq] at hkey
  obtain (hlower | hdigit) | rfl := hkey
  · exact isQuiet_of_isAlpha (by simp [Char.isAlpha, hlower])
  · exact isQuiet_of_isDigit hdigit
  · decide

/-- All words of a vocabulary are quiet. -/
theorem quiet_pairs (v : Vocabulary) : ∀ p ∈ v.pairs, Quiet p.1 ∧ Quiet p.2 := by
  intro p hp
  obtain ⟨h₁, h₂⟩ := v.keywords p hp
  exact ⟨quiet_of_isKeyword h₁, quiet_of_isKeyword h₂⟩

/-- A word and its partner are the two words of a pair. -/
theorem mem_pairs_of_partner (h : v.partner w = some w') :
    (w, w') ∈ v.pairs ∨ (w', w) ∈ v.pairs := by
  unfold partner at h
  obtain ⟨⟨a, b⟩, hp, hab⟩ := List.exists_of_findSome?_eq_some h
  simp only at hab
  split at hab
  next hw =>
    cases hab
    rw [hw]
    exact .inl hp
  split at hab
  next hw =>
    cases hab
    rw [hw]
    exact .inr hp
  · simp at hab

/-- A word that has a partner is a keyword. -/
theorem isKeyword_of_partner (h : v.partner w = some w') : isKeyword w = true := by
  rcases mem_pairs_of_partner h with hp | hp
  · exact (v.keywords _ hp).1
  · exact (v.keywords _ hp).2

/-- A word that has a partner is quiet, and so is the partner. -/
theorem quiet_of_partner (h : v.partner w = some w') : Quiet w ∧ Quiet w' := by
  rcases mem_pairs_of_partner h with hp | hp
  · exact v.quiet_pairs _ hp
  · exact (v.quiet_pairs _ hp).symm

/-- A word that has a partner is quiet, and so is the partner in the word's case. -/
theorem quiet_of_lookup (h : v.lookup w = some w') : Quiet w ∧ Quiet w' := by
  unfold lookup at h
  obtain ⟨p, hp, rfl⟩ := Option.map_eq_some_iff.mp h
  obtain ⟨hw, hp'⟩ := quiet_of_partner hp
  exact ⟨hw.of_lower, hp'.recase w⟩

/-- A word with a marker in it has no partner. -/
theorem swap_of_mem (h : opener ∈ w) : v.swap w = w := by
  unfold swap
  cases hl : v.lookup w with
  | none => rfl
  | some w' => exact absurd h (quiet_of_lookup hl).1.opener_not_mem

/-- A word stays as it is, or is exchanged for a quiet word. -/
theorem swap_eq_or_quiet (v : Vocabulary) (w : Text) :
    v.swap w = w ∨ Quiet w ∧ Quiet (v.swap w) := by
  unfold swap
  cases hl : v.lookup w with
  | none => exact .inl rfl
  | some w' => exact .inr (quiet_of_lookup hl)

end Vocabulary

/-! ### Quantities -/

/-- Digits in front of a text are quiet. -/
theorem quiet_takeWhile_isDigit (t : Text) : Quiet (t.takeWhile Char.isDigit) :=
  fun _ hc => isQuiet_of_isDigit (List.mem_takeWhile_imp hc)

/-- A written number is quiet. -/
theorem quiet_toDigits (n : Nat) : Quiet (Nat.toDigits 10 n) :=
  fun _ hc => isQuiet_of_isDigit (Marker.isDigit_of_mem_digits hc)

namespace Numeral

/-- What is read as a sign is quiet. -/
theorem readSign_eq (t : Text) : ∃ sign, Quiet sign ∧ t = sign ++ (readSign t).2 := by
  unfold readSign
  split
  · exact ⟨['-'], .cons (by decide) .nil, rfl⟩
  · exact ⟨['+'], .cons (by decide) .nil, rfl⟩
  · exact ⟨[], .nil, rfl⟩

/-- What is read as a point with digits is quiet. -/
theorem readFraction_eq (t : Text) :
    ∃ fraction, Quiet fraction ∧ t = fraction ++ (readFraction t).2 := by
  unfold readFraction
  split
  next u =>
    split
    · exact ⟨[], .nil, rfl⟩
    · refine ⟨'.' :: u.takeWhile Char.isDigit, .cons (by decide) (quiet_takeWhile_isDigit u), ?_⟩
      rw [List.cons_append, List.takeWhile_append_dropWhile]
  · exact ⟨[], .nil, rfl⟩

/-- What is read as a numeral is quiet. -/
theorem quiet_of_read? {t rest : Text} {n : Numeral} (h : read? t = some (n, rest)) :
    ∃ number, Quiet number ∧ t = number ++ rest := by
  obtain ⟨sign, hsign, ht⟩ := readSign_eq t
  obtain ⟨fraction, hfraction, hu⟩ := readFraction_eq ((readSign t).2.dropWhile Char.isDigit)
  unfold read? at h
  simp only at h
  split at h
  · simp at h
  · cases h
    refine ⟨sign ++ ((readSign t).2.takeWhile Char.isDigit ++ fraction), ?_, ?_⟩
    · exact hsign.append ((quiet_takeWhile_isDigit _).append hfraction)
    · rw [List.append_assoc, List.append_assoc, ← hu, List.takeWhile_append_dropWhile, ← ht]

end Numeral

/-- Quantities are quiet. -/
theorem Quantity.quiet_of_read? {w : Text} {q : Quantity} (h : Quantity.read? w = some q) :
    Quiet w := by
  unfold Quantity.read? at h
  split at h
  · simp at h
  next n rest hn =>
    obtain ⟨number, hnumber, rfl⟩ := Numeral.quiet_of_read? hn
    split at h
    next hrest =>
      rw [hrest]
      exact hnumber.append (.cons (by decide) .nil)
    split at h
    next hrest =>
      exact hnumber.append fun c hc => isQuiet_of_isAlpha (List.all_eq_true.mp hrest c hc)
    · simp at h

namespace Percentage

/-- A percentage that is written out is quiet. -/
theorem quiet_render (places : Nat) (n : Int) : Quiet (render places n) := by
  have hsign : Quiet (if n < 0 then ['-'] else []) := by
    split
    · exact .cons (by decide) .nil
    · exact .nil
  have hpercent : Quiet ['%'] := .cons (by decide) .nil
  unfold render
  simp only
  split
  · exact (hsign.append (quiet_toDigits _)).append hpercent
  · have hpad : Quiet ((Nat.toDigits 10 (n.natAbs % 10 ^ places)).leftpad places '0') := by
      intro c hc
      rw [List.leftpad, List.mem_append] at hc
      rcases hc with hc | hc
      · rw [List.eq_of_mem_replicate hc]
        decide
      · exact quiet_toDigits _ c hc
    exact (((hsign.append (quiet_toDigits _)).append (.cons (by decide) .nil)).append hpad).append
      hpercent

/-- A word that has a complement is quiet, and so is the complement. -/
theorem quiet_of_complement? {w w' : Text} (h : complement? w = some w') : Quiet w ∧ Quiet w' := by
  unfold complement? at h
  split at h
  next n hn =>
    simp only at h
    split at h
    · cases h
      obtain ⟨number, hnumber, rfl⟩ := Numeral.quiet_of_read? hn
      exact ⟨hnumber.append (.cons (by decide) .nil), quiet_render _ _⟩
    · simp at h
  · simp at h

end Percentage

/-! ### Actions on words -/

namespace Words

variable {ρ : Nat → Nat → Prop} {w w' : Text} {ws ws' : List Text}

/-- A quiet quantity is quiet with the other sign. -/
theorem quiet_negate (h : Quiet w) : Quiet (negate w) := by
  unfold negate
  split
  · exact h.tail
  · exact h.tail.cons (by decide)
  · exact h.cons (by decide)

/-- A word with a marker in it is no quantity. -/
theorem quantity_of_mem (h : opener ∈ w) : Quantity.read? w = none := by
  cases hq : Quantity.read? w with
  | none => rfl
  | some q => exact absurd h (Quantity.quiet_of_read? hq).opener_not_mem

/-- No percentage has a marker in it. -/
theorem complement_of_mem (h : opener ∈ w) : Percentage.complement? w = none := by
  cases hc : Percentage.complement? w with
  | none => rfl
  | some c => exact absurd h (Percentage.quiet_of_complement? hc).1.opener_not_mem

/-- The words that are part of a position are quiet. -/
theorem quiet_of_isPosition (h : isPosition w = true) : Quiet w := by
  unfold isPosition at h
  rcases Bool.or_eq_true_iff.mp h with hk | hq
  · have hall : ["left".toList, "right".toList, "center".toList, "top".toList, "bottom".toList].all
        (fun t => t.all isQuiet) = true := by decide
    have hlower := List.all_eq_true.mp hall _ (List.contains_iff_mem.mp hk)
    exact Quiet.of_lower (List.all_eq_true.mp hlower)
  · obtain ⟨q, hq⟩ := Option.isSome_iff_exists.mp hq
    exact Quantity.quiet_of_read? hq

/-- A vocabulary does the same with words that differ in the numbers of their markers. -/
theorem alike_swap (v : Vocabulary) (h : Alike ρ w w') : Alike ρ (v.swap w) (v.swap w') := by
  rcases h.eq_or_mem with ⟨rfl, hp⟩ | ⟨hw, hw'⟩
  · rcases v.swap_eq_or_quiet w with hs | hs
    · rwa [hs]
    · exact .of_plain hs.2.plain
  · rwa [Vocabulary.swap_of_mem hw, Vocabulary.swap_of_mem hw']

/-- What takes the place of the first word of a position. -/
theorem alike_complement (h : Alike ρ w w') :
    Alike ρ ((Percentage.complement? w).getD (Vocabulary.side.swap w))
      ((Percentage.complement? w').getD (Vocabulary.side.swap w')) := by
  rcases h.eq_or_mem with ⟨rfl, -⟩ | ⟨hw, hw'⟩
  · cases hc : Percentage.complement? w with
    | none => exact alike_swap .side h
    | some c => exact .of_plain (Percentage.quiet_of_complement? hc).2.plain
  · rw [complement_of_mem hw, complement_of_mem hw']
    exact alike_swap .side h

/-- Lists of words that are alike have swaps that are alike. -/
theorem alike_map_swap (v : Vocabulary) (h : List.Forall₂ (Alike ρ) ws ws') :
    List.Forall₂ (Alike ρ) (ws.map v.swap) (ws'.map v.swap) := by
  induction h with
  | nil => exact .nil
  | cons hw _ ih => exact .cons (alike_swap v hw) ih

/-- Boxes that are alike are alike from the other side. -/
theorem alike_box (h : List.Forall₂ (Alike ρ) ws ws') :
    List.Forall₂ (Alike ρ) (box ws) (box ws') := by
  rcases h with _ | ⟨ha, _ | ⟨hb, _ | ⟨hc, _ | ⟨hd, _ | ⟨he, h⟩⟩⟩⟩⟩
  · exact .nil
  · exact .cons ha .nil
  · exact .cons ha (.cons hb .nil)
  · exact .cons ha (.cons hb (.cons hc .nil))
  · exact .cons ha (.cons hd (.cons hc (.cons hb .nil)))
  · exact .cons ha (.cons hb (.cons hc (.cons hd (.cons he h))))

/-- Corners that are alike are alike from the other side. -/
theorem alike_corners (h : List.Forall₂ (Alike ρ) ws ws') :
    List.Forall₂ (Alike ρ) (corners ws) (corners ws') := by
  rcases h with _ | ⟨ha, _ | ⟨hb, _ | ⟨hc, _ | ⟨hd, _ | ⟨he, h⟩⟩⟩⟩⟩
  · exact .nil
  · exact .cons ha .nil
  · exact .cons hb (.cons ha .nil)
  · exact .cons hb (.cons ha (.cons (hb.append (.plain (by decide) hc)) .nil))
  · exact .cons hb (.cons ha (.cons hd (.cons hc .nil)))
  · exact .cons ha (.cons hb (.cons hc (.cons hd (.cons he h))))

/-- Positions that are alike are alike from the other side. -/
theorem alike_position (h : List.Forall₂ (Alike ρ) ws ws') :
    List.Forall₂ (Alike ρ) (position ws) (position ws') := by
  induction h with
  | nil => exact .nil
  | @cons w w' ws ws' hw h ih =>
    have hiff : isPosition w = isPosition w' := by
      rcases hw.eq_or_mem with ⟨rfl, -⟩ | ⟨hm, hm'⟩
      · rfl
      · have h1 : isPosition w = false := by
          by_contra hp
          exact (quiet_of_isPosition (by simpa using hp)).opener_not_mem hm
        have h2 : isPosition w' = false := by
          by_contra hp
          exact (quiet_of_isPosition (by simpa using hp)).opener_not_mem hm'
        rw [h1, h2]
    rw [position, position, ← hiff]
    split
    · exact .cons (alike_complement hw) (alike_map_swap .side h)
    · exact .cons hw ih

/-- Offsets that are alike are alike from the other side. -/
theorem alike_offset (h : List.Forall₂ (Alike ρ) ws ws') :
    List.Forall₂ (Alike ρ) (offset ws) (offset ws') := by
  induction h with
  | nil => exact .nil
  | @cons w w' ws ws' hw h ih =>
    rw [offset, offset]
    rcases hw.eq_or_mem with ⟨rfl, -⟩ | ⟨hm, hm'⟩
    · cases hq : Quantity.read? w with
      | none => exact .cons hw ih
      | some q =>
        simp only
        split
        · exact .cons hw h
        · exact .cons (.of_plain (quiet_negate (Quantity.quiet_of_read? hq)).plain) h
    · rw [quantity_of_mem hm, quantity_of_mem hm']
      exact .cons hw ih

end Words

end BidiSheet
