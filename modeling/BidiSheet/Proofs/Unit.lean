import BidiSheet.Proofs.Extent
import Mathlib.Data.List.Infix

/-!
# Units

Rules, blocks and the targets of no-flip comments are read in units: a string, a comment, a backslash with
the letter after it, or else a single letter. This module says so without the scanners: a grammar tells
which texts are units and how a text is cut into them (`CutsInto`).

* `cutsInto_iff`: a text is cut into units in exactly one way.
* `CutsInto.append`, `CutsInto.left`: complete units do not depend on what follows them.
-/

namespace BidiSheet

open HasSign (sign)

namespace Extent

variable {α : Type} [HasSign α]

/-! ### The grammar of units -/

/-- What stands in a string after its opening quote, as far as it is not closed. A backslash takes the
letter after it along. -/
inductive Quoted (quote : Sign) : List α → Prop where
  | nil : Quoted quote []
  | escape {c : α} (hc : sign c = .backslash) (d : α) {s : List α} (hs : Quoted quote s) :
      Quoted quote (c :: d :: s)
  | letter {c : α} (hb : sign c ≠ .backslash) (hq : sign c ≠ quote) {s : List α}
      (hs : Quoted quote s) : Quoted quote (c :: s)

/-- Somewhere in a text a star stands before a slash. -/
def EndsComment (s : List α) : Prop := ∃ c d, [c, d] <:+: s ∧ sign c = .star ∧ sign d = .slash

/-- A unit of several letters that is complete: a string up to its closing quote, a comment up to the first
star before a slash, or an escaped letter. -/
inductive Closed : List α → Prop where
  | string {c d : α} {s : List α} (hc : (sign c).isQuote = true) (hs : Quoted (sign c) s)
      (hd : sign d = sign c) : Closed (c :: (s ++ [d]))
  | comment {a b c d : α} {s : List α} (ha : sign a = .slash) (hb : sign b = .star)
      (hs : ¬ EndsComment (s ++ [c])) (hc : sign c = .star) (hd : sign d = .slash) :
      Closed (a :: b :: (s ++ [c, d]))
  | escape {c : α} (hc : sign c = .backslash) (d : α) : Closed [c, d]

/-- A unit that the end of the input cuts off. -/
inductive Unclosed : List α → Prop where
  | string {c : α} {s : List α} (hc : (sign c).isQuote = true) (hs : Quoted (sign c) s) :
      Unclosed (c :: s)
  | stringEscape {c b : α} {s : List α} (hc : (sign c).isQuote = true) (hs : Quoted (sign c) s)
      (hb : sign b = .backslash) : Unclosed (c :: (s ++ [b]))
  | comment {a b : α} {s : List α} (ha : sign a = .slash) (hb : sign b = .star)
      (hs : ¬ EndsComment s) : Unclosed (a :: b :: s)
  | escape {c : α} (hc : sign c = .backslash) : Unclosed [c]

/-- A text is cut into units. -/
inductive CutsInto : List α → List (List α) → Prop where
  | nil : CutsInto [] []
  | letter {c : α} {t : List α} {us : List (List α)} (hq : (sign c).isQuote = false)
      (hb : sign c ≠ .backslash) (hc : opensComment c t = false) (h : CutsInto t us) :
      CutsInto (c :: t) ([c] :: us)
  | closed {u t : List α} {us : List (List α)} (hu : Closed u) (h : CutsInto t us) :
      CutsInto (u ++ t) (u :: us)
  | unclosed {u : List α} (hu : Unclosed u) : CutsInto u [u]

/-! ### Strings and comments -/

section strings

variable {quote : Sign} {s : List α}

/-- A quoted string is read whole. -/
theorem string_of_quoted (h : Quoted quote s) : string quote s = s.length := by
  induction h with
  | nil => rw [string.eq_def]; rfl
  | escape hc d _ ih => rw [string_escape hc, ih, List.length_cons, List.length_cons]
  | letter hb hq _ ih => rw [string_other hb hq, ih, List.length_cons]

/-- Behind what stands in a string, the string goes on. -/
theorem string_quoted_append (h : Quoted quote s) (t : List α) :
    string quote (s ++ t) = s.length + string quote t := by
  induction h with
  | nil => rw [List.nil_append, List.length_nil, Nat.zero_add]
  | escape hc d _ ih =>
    rw [List.cons_append, List.cons_append, string_escape hc, ih, List.length_cons, List.length_cons]
    omega
  | letter hb hq _ ih =>
    rw [List.cons_append, string_other hb hq, ih, List.length_cons]
    omega

/-- A string is closed, or it reaches to the end of the input, where a backslash may stand alone. -/
theorem quoted_cases (quote : Sign) (cs : List α) :
    (∃ s d t, cs = s ++ d :: t ∧ Quoted quote s ∧ sign d = quote) ∨
      Quoted quote cs ∨ ∃ s b, cs = s ++ [b] ∧ Quoted quote s ∧ sign b = .backslash := by
  fun_induction string quote cs with
  | case1 => exact .inr (.inl .nil)
  | case2 c hc => exact .inr (.inr ⟨[], c, rfl, .nil, hc⟩)
  | case3 c hc d ds ih =>
    rcases ih with ⟨s, e, t, rfl, hs, he⟩ | hs | ⟨s, b, rfl, hs, hb⟩
    · exact .inl ⟨c :: d :: s, e, t, rfl, .escape hc d hs, he⟩
    · exact .inr (.inl (.escape hc d hs))
    · exact .inr (.inr ⟨c :: d :: s, b, rfl, .escape hc d hs, hb⟩)
  | case4 c cs _ hq => exact .inl ⟨[], c, cs, rfl, .nil, hq⟩
  | case5 c cs hb hq ih =>
    rcases ih with ⟨s, e, t, rfl, hs, he⟩ | hs | ⟨s, b, rfl, hs, hb'⟩
    · exact .inl ⟨c :: s, e, t, rfl, .letter hb hq hs, he⟩
    · exact .inr (.inl (.letter hb hq hs))
    · exact .inr (.inr ⟨c :: s, b, rfl, .letter hb hq hs, hb'⟩)

end strings

section comments

theorem not_endsComment_nil : ¬ EndsComment ([] : List α) := by
  rintro ⟨c, d, h, -⟩
  exact absurd (List.infix_nil.mp h) (List.cons_ne_nil _ _)

/-- One letter ends no comment. -/
theorem not_endsComment_singleton (c : α) : ¬ EndsComment [c] := by
  rintro ⟨a, b, h, -⟩
  have hlen := h.length_le
  simp at hlen

/-- A comment ends with its first two letters or later. -/
theorem endsComment_cons_cons {c d : α} {s : List α} :
    EndsComment (c :: d :: s) ↔ (sign c = .star ∧ sign d = .slash) ∨ EndsComment (d :: s) := by
  constructor
  · rintro ⟨a, b, h, ha, hb⟩
    rcases List.infix_cons_iff.mp h with h | h
    · obtain ⟨r, hr⟩ := h
      cases hr
      exact .inl ⟨ha, hb⟩
    · exact .inr ⟨a, b, h, ha, hb⟩
  · rintro (⟨hc, hd⟩ | ⟨a, b, h, ha, hb⟩)
    · exact ⟨c, d, ⟨[], s, rfl⟩, hc, hd⟩
    · exact ⟨a, b, List.infix_cons h, ha, hb⟩

/-- A comment without an end is read whole. -/
theorem comment_of_not_endsComment {s : List α} (h : ¬ EndsComment s) : comment s = s.length := by
  fun_induction comment s with
  | case1 => rfl
  | case2 => rfl
  | case3 c d cs he => exact absurd (endsComment_cons_cons.mpr (.inl he)) h
  | case4 c d cs _ ih =>
    rw [ih fun hends => h (endsComment_cons_cons.mpr (.inr hends))]
    rfl

/-- A comment ends with the first star before a slash. -/
theorem comment_of_first {s : List α} {c d : α} (h : ¬ EndsComment (s ++ [c])) (hc : sign c = .star)
    (hd : sign d = .slash) (t : List α) : comment (s ++ c :: d :: t) = s.length + 2 := by
  induction s with
  | nil => rw [List.nil_append, comment, if_pos ⟨hc, hd⟩]; rfl
  | cons a s ih =>
    obtain ⟨b, r, hr⟩ : ∃ b r, s ++ [c] = b :: r := List.exists_cons_of_ne_nil (by simp)
    have hb : s ++ c :: d :: t = b :: (r ++ d :: t) := by
      rw [← List.cons_append, ← hr, List.append_assoc]
      rfl
    rw [List.cons_append, hr, endsComment_cons_cons, not_or] at h
    rw [List.cons_append, hb, comment, if_neg h.1, ← hb, ih (hr ▸ h.2), List.length_cons]

/-- A comment is closed, or it reaches to the end of the input. -/
theorem comment_cases (cs : List α) :
    (∃ s c d t, cs = s ++ c :: d :: t ∧ ¬ EndsComment (s ++ [c]) ∧ sign c = .star ∧ sign d = .slash) ∨
      ¬ EndsComment cs := by
  fun_induction comment cs with
  | case1 => exact .inr not_endsComment_nil
  | case2 c => exact .inr (not_endsComment_singleton c)
  | case3 c d cs he => exact .inl ⟨[], c, d, cs, rfl, not_endsComment_singleton c, he⟩
  | case4 a b cs hne ih =>
    rcases ih with ⟨s, c, d, t, hs, hfirst, hcd⟩ | hends
    · refine .inl ⟨a :: s, c, d, t, by rw [hs]; rfl, ?_, hcd⟩
      cases s with
      | nil =>
        obtain ⟨rfl, -⟩ := List.cons.inj hs
        rw [List.singleton_append, endsComment_cons_cons]
        rintro (he | he)
        · exact hne he
        · exact not_endsComment_singleton b he
      | cons b' s =>
        obtain ⟨rfl, -⟩ := List.cons.inj hs
        rw [List.cons_append, List.cons_append, endsComment_cons_cons]
        rintro (he | he)
        · exact hne he
        · exact hfirst he
    · exact .inr fun he => (endsComment_cons_cons.mp he).elim hne hends

end comments

/-! ### The scanner of units -/

section units

variable {c : α}

/-- A slash is no quote. -/
theorem isQuote_of_slash {s : Sign} (h : s = .slash) : s.isQuote = false := by
  rw [h]
  rfl

/-- A quote begins a string. -/
theorem unit_string (hc : (sign c).isQuote = true) (cs : List α) : unit c cs = string (sign c) cs := by
  rw [unit, if_pos hc]

/-- A slash and a star begin a comment. -/
theorem unit_comment (hc : sign c = .slash) {d : α} (hd : sign d = .star) (cs : List α) :
    unit c (d :: cs) = comment cs + 1 := by
  have hopens : opensComment c (d :: cs) = true := by simp [opensComment, hc, hd]
  rw [unit, if_neg (by simp [isQuote_of_slash hc]), if_pos hopens, List.tail_cons]

/-- A backslash takes one letter along, if there is one. -/
theorem unit_escape (hc : sign c = .backslash) (cs : List α) : unit c cs = min 1 cs.length := by
  rw [unit, if_neg (by simp [hc, Sign.isQuote]), if_neg (by simp [opensComment, hc]), if_pos hc]

/-- Any other letter is a unit of its own. -/
theorem unit_letter (hq : (sign c).isQuote = false) (hb : sign c ≠ .backslash) {cs : List α}
    (hc : opensComment c cs = false) : unit c cs = 0 := by
  rw [unit, if_neg (by simp [hq]), if_neg (by simp [hc]), if_neg hb]

/-- A letter that opens neither a string nor a comment nor an escape is a unit of its own. -/
theorem unit_eq_zero (hq : (sign c).isQuote = false) (hb : sign c ≠ .backslash) (hs : sign c ≠ .slash)
    (cs : List α) : unit c cs = 0 :=
  unit_letter hq hb (by simp [opensComment, hs])

/-- A quote is no backslash. -/
theorem isQuote_ne_backslash {s : Sign} (h : s.isQuote = true) : s ≠ .backslash := by
  rintro rfl
  cases h

/-- A closed unit ends where it does whatever follows. -/
theorem unit_of_closed {u : List α} (h : Closed (c :: u)) (t : List α) :
    unit c (u ++ t) = u.length := by
  cases h with
  | @string _ d s hc hs hd =>
    have hb : sign d ≠ .backslash := hd ▸ isQuote_ne_backslash hc
    rw [unit_string hc, List.append_assoc, string_quoted_append hs, List.singleton_append,
      string_quote hb hd, List.length_append, List.length_singleton]
  | @comment _ b e d s ha hb hs he hd =>
    have hassoc : s ++ [e, d] ++ t = s ++ e :: d :: t := by simp
    rw [List.cons_append, unit_comment ha hb, hassoc, comment_of_first hs he hd]
    simp
  | escape hc d => simp [unit_escape hc]

/-- An unclosed unit takes all there is. -/
theorem unit_of_unclosed {u : List α} (h : Unclosed (c :: u)) : unit c u = u.length := by
  cases h with
  | string hc hs => rw [unit_string hc, string_of_quoted hs]
  | @stringEscape _ b s hc hs hb =>
    have hlast : string (sign c) [b] = 1 := by
      rw [string.eq_def]
      simp [hb]
    rw [unit_string hc, string_quoted_append hs, hlast, List.length_append, List.length_singleton]
  | comment ha hb hs => rw [unit_comment ha hb, comment_of_not_endsComment hs, List.length_cons]
  | escape hc => rw [unit_escape hc]; rfl

/-- What the scanner reads at the front of a text is a unit of the grammar. -/
theorem unit_cases (c : α) (cs : List α) :
    ((sign c).isQuote = false ∧ sign c ≠ .backslash ∧ opensComment c cs = false) ∨
      (∃ u t, cs = u ++ t ∧ Closed (c :: u)) ∨ Unclosed (c :: cs) := by
  by_cases hq : (sign c).isQuote = true
  · rcases quoted_cases (sign c) cs with ⟨s, d, t, rfl, hs, hd⟩ | hs | ⟨s, b, rfl, hs, hb⟩
    · exact .inr (.inl ⟨s ++ [d], t, by simp, .string hq hs hd⟩)
    · exact .inr (.inr (.string hq hs))
    · exact .inr (.inr (.stringEscape hq hs hb))
  by_cases hb : sign c = .backslash
  · cases cs with
    | nil => exact .inr (.inr (.escape hb))
    | cons d t => exact .inr (.inl ⟨[d], t, rfl, .escape hb d⟩)
  by_cases ho : opensComment c cs = true
  · cases cs with
    | nil => simp [opensComment] at ho
    | cons b cs =>
      obtain ⟨hslash, hstar⟩ : sign c = .slash ∧ sign b = .star := by simpa [opensComment] using ho
      rcases comment_cases cs with ⟨s, e, d, t, rfl, hs, he, hd⟩ | hs
      · exact .inr (.inl ⟨b :: (s ++ [e, d]), t, by simp, .comment hslash hstar hs he hd⟩)
      · exact .inr (.inr (.comment hslash hstar hs))
  · exact .inl ⟨by simpa using hq, hb, by simpa using ho⟩

theorem Closed.ne_nil {u : List α} (h : Closed u) : u ≠ [] := by
  cases h <;> exact List.cons_ne_nil _ _

/-- A unit of several letters is complete if the scanner goes no further, whatever follows. -/
theorem closed_cons_iff {u : List α} : Closed (c :: u) ↔ u ≠ [] ∧ unit c (u ++ [c]) = u.length := by
  constructor
  · intro h
    refine ⟨?_, unit_of_closed h [c]⟩
    rintro rfl
    generalize hv : ([] : List α) = v at h
    cases h with
    | string => simp at hv
    | comment => cases hv
    | escape => cases hv
  · rintro ⟨hne, hunit⟩
    rcases unit_cases c (u ++ [c]) with ⟨hq, hb, hc⟩ | ⟨v, t, hv, hclosed⟩ | hunclosed
    · rw [unit_letter hq hb hc] at hunit
      exact absurd (List.length_eq_zero_iff.mp hunit.symm) hne
    · rw [hv, unit_of_closed hclosed] at hunit
      obtain ⟨rfl, -⟩ := List.append_inj hv hunit.symm
      exact hclosed
    · rw [unit_of_unclosed hunclosed, List.length_append, List.length_singleton] at hunit
      omega

instance decidableClosed : ∀ u : List α, Decidable (Closed u)
  | [] => .isFalse fun h => h.ne_nil rfl
  | _ :: u =>
    have : Decidable (u = []) := decidable_of_iff (u.isEmpty = true) List.isEmpty_iff
    decidable_of_iff _ closed_cons_iff.symm

theorem Unclosed.ne_nil {u : List α} (h : Unclosed u) : u ≠ [] := by
  cases h <;> exact List.cons_ne_nil _ _

/-- Nothing is cut into nothing. -/
theorem cutsInto_nil_iff {us : List (List α)} : CutsInto ([] : List α) us ↔ us = [] := by
  constructor
  · intro h
    generalize ht : ([] : List α) = t at h
    cases h with
    | nil => rfl
    | letter => cases ht
    | closed hu => exact absurd (List.append_eq_nil_iff.mp ht.symm).1 hu.ne_nil
    | unclosed hu => exact absurd ht.symm hu.ne_nil
  · rintro rfl
    exact .nil

/-- **The scanner cuts off the first unit of a text.** -/
theorem cutsInto_cons_iff {cs : List α} {us : List (List α)} :
    CutsInto (c :: cs) us ↔
      ∃ vs, us = (c :: cs.take (unit c cs)) :: vs ∧ CutsInto (cs.drop (unit c cs)) vs := by
  constructor
  · intro h
    generalize ht : c :: cs = t at h
    cases h with
    | nil => cases ht
    | @letter d t us hq hb hc h =>
      cases ht
      rw [unit_letter hq hb hc]
      exact ⟨us, rfl, h⟩
    | @closed u t us hu h =>
      obtain ⟨d, u, rfl⟩ := List.exists_cons_of_ne_nil hu.ne_nil
      rw [List.cons_append] at ht
      obtain ⟨rfl, rfl⟩ := List.cons.inj ht
      rw [unit_of_closed hu, List.take_left, List.drop_left]
      exact ⟨us, rfl, h⟩
    | unclosed hu =>
      cases ht
      rw [unit_of_unclosed hu, List.take_length, List.drop_length]
      exact ⟨[], rfl, .nil⟩
  · rintro ⟨vs, rfl, h⟩
    rcases unit_cases c cs with ⟨hq, hb, hc⟩ | ⟨u, t, rfl, hu⟩ | hu
    · rw [unit_letter hq hb hc] at h ⊢
      exact .letter hq hb hc h
    · rw [unit_of_closed hu, List.drop_left] at h
      rw [unit_of_closed hu, List.take_left, ← List.cons_append]
      exact .closed hu h
    · rw [unit_of_unclosed hu, List.drop_length] at h
      rw [unit_of_unclosed hu, List.take_length, cutsInto_nil_iff.mp h]
      exact .unclosed hu

/-- The units of a text. -/
def units : List α → List (List α)
  | [] => []
  | c :: cs => (c :: cs.take (unit c cs)) :: units (cs.drop (unit c cs))
termination_by t => t.length
decreasing_by exact length_drop_lt c cs _

/-- **A text is cut into units in exactly one way**, and these can be computed. -/
theorem cutsInto_iff {t : List α} {us : List (List α)} : CutsInto t us ↔ us = units t := by
  fun_induction units t generalizing us with
  | case1 => exact cutsInto_nil_iff
  | case2 c cs ih =>
    rw [cutsInto_cons_iff]
    simp only [ih, exists_eq_right]

/-- Every text is cut into its units. -/
theorem cutsInto_units (t : List α) : CutsInto t (units t) := cutsInto_iff.mpr rfl

instance decidableCutsInto [DecidableEq α] (t : List α) (us : List (List α)) : Decidable (CutsInto t us) :=
  decidable_of_iff (us = units t) cutsInto_iff.symm

end units

/-! ### Cutting a text in two -/

section cutting

/-- A comment that does not open in a longer text does not open in its front. -/
theorem opensComment_of_append {c : α} {s t : List α} (h : opensComment c (s ++ t) = false) :
    opensComment c s = false := by
  cases s with
  | nil => simp [opensComment]
  | cons => exact h

/-- No unit is both closed and unclosed. -/
theorem Closed.not_unclosed {u : List α} (h : Closed u) : ¬ Unclosed u := by
  intro hu
  cases h with
  | @string c d s hc hs hd =>
    have hb : sign d ≠ .backslash := hd ▸ isQuote_ne_backslash hc
    generalize ht : s ++ [d] = t at hu
    cases hu with
    | string _ hq =>
      have hlong := string_quoted_append hq [d]
      rw [← ht, List.append_assoc, string_quoted_append hs, List.singleton_append, string_quote hb hd,
        ← hd, List.length_append, List.length_singleton] at hlong
      have hpos := string_pos (sign d) d []
      omega
    | stringEscape _ _ hb' =>
      obtain ⟨-, rfl⟩ := List.append_singleton_inj.mp ht
      exact hb hb'
    | comment ha => rw [isQuote_of_slash ha] at hc; cases hc
    | escape => simp at ht
  | @comment a b c d s ha hb hs hc hd =>
    generalize ht : b :: (s ++ [c, d]) = t at hu
    cases hu with
    | string hq => rw [isQuote_of_slash ha] at hq; cases hq
    | stringEscape hq => rw [isQuote_of_slash ha] at hq; cases hq
    | comment _ _ hne =>
      obtain ⟨-, rfl⟩ := List.cons.inj ht
      exact hne ⟨c, d, (List.suffix_append s [c, d]).isInfix, hc, hd⟩
    | escape hb => rw [ha] at hb; cases hb
  | escape hc d =>
    generalize ht : [d] = t at hu
    cases hu with
    | string hq => exact isQuote_ne_backslash hq hc
    | stringEscape hq => exact isQuote_ne_backslash hq hc
    | comment ha => rw [ha] at hc; cases hc
    | escape => cases ht

/-- A single letter is closed, unless it is a quote or a backslash. -/
theorem not_unclosed_letter {c : α} (hq : (sign c).isQuote = false) (hb : sign c ≠ .backslash) :
    ¬ Unclosed [c] := by
  intro hu
  generalize ht : ([] : List α) = t at hu
  cases hu with
  | string hq' => rw [hq] at hq'; cases hq'
  | stringEscape => simp at ht
  | comment => cases ht
  | escape hb' => exact hb hb'

/-- The letter that completes a unit of several letters. -/
theorem Closed.last {u : List α} (h : Closed u) :
    EndsIn (fun s => s.isQuote = true ∨ s = .slash) u ∨ ∃ c d, u = [c, d] ∧ sign c = .backslash := by
  cases h with
  | @string c d s hc hs hd => exact .inl ⟨c :: s, d, rfl, .inl (hd ▸ hc)⟩
  | @comment a b c d s ha hb hs hc hd => exact .inl ⟨a :: b :: (s ++ [c]), d, by simp, .inr hd⟩
  | @escape c hc d => exact .inr ⟨c, d, rfl, hc⟩

variable {s t : List α} {us vs ws : List (List α)}

/-- The units, one after the other, are the text. -/
theorem CutsInto.flatten_eq (h : CutsInto t us) : us.flatten = t := by
  induction h with
  | nil => rfl
  | letter _ _ _ _ ih => rw [List.flatten_cons, ih]; rfl
  | closed _ _ ih => rw [List.flatten_cons, ih]
  | unclosed => rw [List.flatten_cons, List.flatten_nil, List.append_nil]

/-- Complete units are the same whatever follows, if no comment opens where the two texts meet. -/
theorem CutsInto.append (h : CutsInto s us) (hus : ∀ u ∈ us, ¬ Unclosed u)
    (hseam : ∀ c, s.getLast? = some c → opensComment c t = false) (ht : CutsInto t vs) :
    CutsInto (s ++ t) (us ++ vs) := by
  induction h with
  | nil => exact ht
  | @letter c s us hq hb hc _ ih =>
    refine .letter hq hb ?_ (ih (fun u hu => hus u (List.mem_cons_of_mem _ hu)) fun d hd => hseam d ?_)
    · cases s with
      | nil => exact hseam c rfl
      | cons => exact hc
    · simp [List.getLast?_cons, hd]
  | @closed u s us hu _ ih =>
    rw [List.append_assoc]
    refine .closed hu (ih (fun u hu => hus u (List.mem_cons_of_mem _ hu)) fun d hd => hseam d ?_)
    simp [List.getLast?_append, hd]
  | unclosed hu => exact absurd hu (hus _ (List.mem_singleton.mpr rfl))

/-- The units before a unit are complete, and are the units of the text that they make up. -/
theorem CutsInto.left (h : CutsInto t (vs ++ ws)) (hws : ws ≠ []) :
    CutsInto vs.flatten vs ∧ ∀ v ∈ vs, ¬ Unclosed v := by
  induction vs generalizing t with
  | nil => exact ⟨.nil, fun v hv => absurd hv List.not_mem_nil⟩
  | cons v vs ih =>
    rw [List.cons_append] at h
    generalize hus : v :: (vs ++ ws) = us at h
    cases h with
    | nil => cases hus
    | @letter c t us hq hb hc h =>
      obtain ⟨rfl, rfl⟩ := List.cons.inj hus
      obtain ⟨hcut, hall⟩ := ih h
      rw [← h.flatten_eq, List.flatten_append] at hc
      exact ⟨.letter hq hb (opensComment_of_append hc) hcut,
        List.forall_mem_cons.mpr ⟨not_unclosed_letter hq hb, hall⟩⟩
    | @closed u t us hu h =>
      obtain ⟨rfl, rfl⟩ := List.cons.inj hus
      obtain ⟨hcut, hall⟩ := ih h
      exact ⟨.closed hu hcut, List.forall_mem_cons.mpr ⟨hu.not_unclosed, hall⟩⟩
    | unclosed =>
      obtain ⟨-, hnil⟩ := List.cons.inj hus
      exact absurd (List.append_eq_nil_iff.mp hnil).2 hws

/-- If the last unit is a letter that opens nothing, then all units are complete. -/
theorem CutsInto.not_unclosed {d : α} (h : CutsInto t (vs ++ [[d]])) (hq : (sign d).isQuote = false)
    (hb : sign d ≠ .backslash) : ∀ u ∈ vs ++ [[d]], ¬ Unclosed u := by
  refine List.forall_mem_append.mpr ⟨(h.left (List.cons_ne_nil _ _)).2, fun u hu => ?_⟩
  rw [List.mem_singleton.mp hu]
  exact not_unclosed_letter hq hb

end cutting

end Extent

end BidiSheet
