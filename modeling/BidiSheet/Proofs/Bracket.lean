import BidiSheet.Declaration
import BidiSheet.Proofs.Alike

/-!
# Round brackets

Words and values both end at the first of certain characters outside round brackets: a word at a blank, a
comma, a slash or a marker, a value at an exclamation mark. So their lengths are two cases of one function,
`outerLength`, and what is said here holds of both.

* `outerLength_append_eq_iff`: where a stretch of a text ends does not depend on what comes behind the
  character that ends it.
* `alikeCut_outerLength`: the stretches of alike texts end in the same place.
* `isClosed`, `isSheltered`: all brackets of a text are closed; no exclamation mark is outside of them.
-/

namespace BidiSheet

open Marker (opener closer isControl)

/-! ### Depth -/

/-- Only brackets change the depth. -/
theorem nest_of_ne {c : Char} (h1 : c ≠ '(') (h2 : c ≠ ')') (depth : Nat) : nest depth c = depth := by
  simp [nest, h1, h2]

/-- A deeper place stays deeper. -/
theorem nest_le_nest {d d' : Nat} (h : d ≤ d') (c : Char) : nest d c ≤ nest d' c := by
  unfold nest
  split
  · omega
  split <;> omega

/-- Text without brackets leaves the depth as it is. -/
theorem foldl_nest_of_ne {u : Text} (hu : ∀ c ∈ u, c ≠ '(' ∧ c ≠ ')') (depth : Nat) :
    u.foldl nest depth = depth := by
  induction u with
  | nil => rfl
  | cons c u ih =>
    obtain ⟨h1, h2⟩ := hu c List.mem_cons_self
    rw [List.foldl_cons, nest_of_ne h1 h2, ih fun d hd => hu d (List.mem_cons_of_mem c hd)]

/-- No character of a marker is a bracket. -/
theorem ne_bracket_of_mem_text {i : Nat} {c : Char} (h : c ∈ Marker.text i) : c ≠ '(' ∧ c ≠ ')' := by
  rcases Marker.mem_text h with rfl | rfl | hd
  · decide
  · decide
  · constructor
    · rintro rfl
      exact absurd hd (by decide)
    · rintro rfl
      exact absurd hd (by decide)

/-! ### Stretches that end outside brackets -/

/-- The number of characters before the first one outside brackets at which `stop` holds, with `depth`
brackets open. -/
def outerLength (stop : Char → Bool) (depth : Nat) : Text → Nat
  | [] => 0
  | c :: cs => if depth = 0 ∧ stop c then 0 else outerLength stop (nest depth c) cs + 1

/-- A word reaches up to the first end of a word outside brackets. -/
theorem Value.wordLength_eq (depth : Nat) (t : Text) :
    wordLength depth t = outerLength endsWord depth t := by
  induction t generalizing depth with
  | nil => rfl
  | cons c t ih => rw [wordLength, outerLength, ih]

/-- A value reaches up to the first exclamation mark outside brackets. -/
theorem Declaration.valueLength_eq (depth : Nat) (t : Text) :
    valueLength depth t = outerLength (· = '!') depth t := by
  induction t generalizing depth with
  | nil => rfl
  | cons c t ih =>
    rw [valueLength, outerLength, ih]
    simp only [decide_eq_true_eq, and_comm]

section

variable {stop : Char → Bool} {depth : Nat} {u v : Text}

/-- A stretch that goes on to the end of a text goes on behind it, with the brackets that are open
there. -/
theorem outerLength_append_of_eq (h : outerLength stop depth u = u.length) (v : Text) :
    outerLength stop depth (u ++ v) = u.length + outerLength stop (u.foldl nest depth) v := by
  induction u generalizing depth with
  | nil => simp
  | cons c u ih =>
    rw [outerLength] at h
    split at h
    · cases h
    next hc =>
      rw [List.length_cons, Nat.add_right_cancel_iff] at h
      rw [List.cons_append, outerLength, if_neg hc, ih h, List.length_cons, List.foldl_cons]
      omega

/-- What is outside brackets is looked for within the text. -/
theorem outerLength_le (stop : Char → Bool) (depth : Nat) (t : Text) :
    outerLength stop depth t ≤ t.length := by
  induction t generalizing depth with
  | nil => exact Nat.le_refl 0
  | cons c t ih =>
    rw [outerLength]
    split
    · exact Nat.zero_le _
    · exact Nat.succ_le_succ (ih _)

/-- A stretch that reaches the end of `u` would reach it too if nothing followed. -/
theorem outerLength_of_append (h : u.length ≤ outerLength stop depth (u ++ v)) :
    outerLength stop depth u = u.length := by
  induction u generalizing depth with
  | nil => rfl
  | cons c u ih =>
    rw [List.cons_append, outerLength] at h
    rw [outerLength]
    split at h
    · cases h
    next hc =>
      rw [List.length_cons, Nat.add_le_add_iff_right] at h
      rw [if_neg hc, ih h, List.length_cons]

/-- Nothing is taken where the text ends or something stops it at once. -/
theorem outerLength_eq_zero_iff :
    outerLength stop depth v = 0 ↔ v = [] ∨ depth = 0 ∧ v.head?.any stop = true := by
  cases v with
  | nil => simp [outerLength]
  | cons c v =>
    rw [outerLength]
    split
    next hc => simp [hc]
    next hc => simpa using hc

/-- **A stretch ends at the end of the text, or with its brackets closed before a character that ends
it.** -/
theorem outerLength_append_eq_iff :
    outerLength stop depth (u ++ v) = u.length ↔ outerLength stop depth u = u.length ∧
      (v = [] ∨ u.foldl nest depth = 0 ∧ v.head?.any stop = true) := by
  rw [← outerLength_eq_zero_iff]
  constructor
  · intro h
    have hu := outerLength_of_append (Nat.le_of_eq h.symm)
    rw [outerLength_append_of_eq hu] at h
    exact ⟨hu, by omega⟩
  · rintro ⟨hu, hv⟩
    rw [outerLength_append_of_eq hu, hv, Nat.add_zero]

/-- A stretch takes two texts, one after the other, if it takes each of them. -/
theorem outerLength_append_eq_length_iff :
    outerLength stop depth (u ++ v) = (u ++ v).length ↔ outerLength stop depth u = u.length ∧
      outerLength stop (u.foldl nest depth) v = v.length := by
  rw [List.length_append]
  constructor
  · intro h
    have hu : outerLength stop depth u = u.length := outerLength_of_append (v := v) (by omega)
    rw [outerLength_append_of_eq hu] at h
    exact ⟨hu, by omega⟩
  · rintro ⟨hu, hv⟩
    rw [outerLength_append_of_eq hu, hv]

/-- Within more brackets, a stretch goes on where it did. -/
theorem outerLength_of_le {depth' : Nat} (hle : depth ≤ depth')
    (h : outerLength stop depth u = u.length) : outerLength stop depth' u = u.length := by
  induction u generalizing depth depth' with
  | nil => rfl
  | cons c u ih =>
    rw [outerLength] at h
    split at h
    · cases h
    next hc =>
      have hc' : ¬(depth' = 0 ∧ stop c = true) := fun h => hc ⟨by omega, h.2⟩
      rw [List.length_cons, Nat.add_right_cancel_iff] at h
      rw [outerLength, if_neg hc', ih (nest_le_nest hle c) h, List.length_cons]

/-- A stretch goes on over characters that neither end it nor are brackets. -/
theorem outerLength_append (hu : ∀ c ∈ u, c ≠ '(' ∧ c ≠ ')')
    (hstop : ∀ c ∈ u, ¬(depth = 0 ∧ stop c = true)) (t : Text) :
    outerLength stop depth (u ++ t) = u.length + outerLength stop depth t := by
  induction u with
  | nil => simp
  | cons c u ih =>
    obtain ⟨h1, h2⟩ := hu c List.mem_cons_self
    have hrest := ih (fun d hd => hu d (List.mem_cons_of_mem c hd))
      fun d hd => hstop d (List.mem_cons_of_mem c hd)
    rw [List.cons_append, outerLength, if_neg (hstop c List.mem_cons_self), nest_of_ne h1 h2, hrest,
      List.length_cons]
    omega

end

/-- **Stretches of alike texts end in the same place**, if nothing inside a marker ends them. -/
theorem alikeCut_outerLength {ρ : Nat → Nat → Prop} {s t : Text} {stop : Char → Bool}
    (hdigit : ∀ c : Char, c.isDigit = true → stop c = false) (hcloser : stop closer = false)
    (h : Alike ρ s t) (depth : Nat) :
    AlikeCut ρ (outerLength stop depth s) (outerLength stop depth t) s t := by
  induction h generalizing depth with
  | nil => exact .zero .nil
  | @plain c s t hc h ih =>
    rw [outerLength, outerLength]
    split
    · exact .zero (.plain hc h)
    · exact .plain hc (ih _)
  | @mark i j s t hi hj hij h ih =>
    by_cases hstop : depth = 0 ∧ stop opener = true
    · rw [outerLength, outerLength, if_pos hstop, if_pos hstop]
      exact .zero (.mark hi hj hij h)
    · -- the whole marker belongs to the stretch
      have hmark : ∀ (k : Nat) (r : Text),
          outerLength stop depth (opener :: (Nat.toDigits 10 k ++ closer :: r))
            = (Nat.toDigits 10 k).length + 2 + outerLength stop depth r := by
        intro k r
        rw [← Marker.text_append, outerLength_append (fun c => ne_bracket_of_mem_text),
          Marker.length_text]
        intro c hc
        rcases Marker.mem_text hc with rfl | rfl | hd
        · exact hstop
        · simp [hcloser]
        · simp [hdigit c hd]
      rw [hmark, hmark]
      exact .mark hi hj hij (ih depth)

/-! ### Closed brackets and sheltered exclamation marks -/

/-- Whether all brackets of a text are closed. -/
def isClosed (t : Text) : Bool := t.foldl nest 0 = 0

/-- A text is closed if it leaves no bracket open. -/
theorem isClosed_iff {t : Text} : isClosed t = true ↔ t.foldl nest 0 = 0 := decide_eq_true_iff

/-- A text without brackets is closed. -/
theorem isClosed_of_ne {t : Text} (h : ∀ c ∈ t, c ≠ '(' ∧ c ≠ ')') : isClosed t = true :=
  isClosed_iff.mpr (foldl_nest_of_ne h 0)

/-- Behind a text with closed brackets, brackets are closed as if they stood alone. -/
theorem isClosed_append {s : Text} (hs : isClosed s = true) (t : Text) :
    isClosed (s ++ t) = isClosed t := by
  rw [isClosed, isClosed, List.foldl_append, isClosed_iff.mp hs]

/-- Whether no exclamation mark of a text is outside brackets. -/
def isSheltered (t : Text) : Bool := outerLength (· = '!') 0 t = t.length

/-- A text is sheltered if no exclamation mark stands outside brackets. -/
theorem isSheltered_iff {t : Text} :
    isSheltered t = true ↔ outerLength (· = '!') 0 t = t.length := decide_eq_true_iff

/-- Sheltered texts can be put together. -/
theorem isSheltered_append {s t : Text} (hs : isSheltered s = true) (ht : isSheltered t = true) :
    isSheltered (s ++ t) = true := by
  rw [isSheltered_iff, outerLength_append_eq_length_iff]
  exact ⟨isSheltered_iff.mp hs, outerLength_of_le (Nat.zero_le _) (isSheltered_iff.mp ht)⟩

/-- The front of a sheltered text is sheltered. -/
theorem isSheltered_left {s t : Text} (h : isSheltered (s ++ t) = true) : isSheltered s = true := by
  rw [isSheltered_iff, outerLength_append_eq_length_iff] at h
  exact isSheltered_iff.mpr h.1

/-- Behind a text with closed brackets, exclamation marks are sheltered only by what follows. -/
theorem isSheltered_right {s t : Text} (hs : isClosed s = true) (h : isSheltered (s ++ t) = true) :
    isSheltered t = true := by
  rw [isSheltered_iff, outerLength_append_eq_length_iff, isClosed_iff.mp hs] at h
  exact isSheltered_iff.mpr h.2

/-- A text without exclamation marks is sheltered. -/
theorem isSheltered_of_not_mem {t : Text} (h : '!' ∉ t) : isSheltered t = true := by
  have hall : ∀ (depth : Nat) (t : Text), '!' ∉ t → outerLength (· = '!') depth t = t.length := by
    intro depth t ht
    induction t generalizing depth with
    | nil => rfl
    | cons c t ih =>
      have hc : c ≠ '!' := fun hc => ht (hc ▸ List.mem_cons_self)
      rw [outerLength, if_neg (by simp [hc]), ih _ fun hm => ht (List.mem_cons_of_mem c hm),
        List.length_cons]
  exact isSheltered_iff.mpr (hall 0 t h)

end BidiSheet
