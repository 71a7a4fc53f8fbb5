import BidiSheet.Extent
import Mathlib.Data.List.Basic
import Mathlib.Tactic.Tauto

/-!
# Extents depend on what they cover

A construct that ends before its input does ends there whatever stands behind it: what is read of
`u ++ v` is `u`, with something left, so what is read of `u ++ r` is `u` again (`string_congr`,
`comment_congr`, `url_congr`, `block_congr`). Two readers look one letter further. A declaration may end
before the brace that closes its block, and then that brace has to be there (`rule_congr`). And whether a
no-flip comment guards anything at all is decided behind the blanks and comments that follow it
(`target_congr`, `target_eq_zero_iff`).
-/

namespace BidiSheet

open HasSign (sign)

namespace Extent

/-! ### One construct behind another -/

section

variable {α : Type}

/-- A text of which the first `n` letters are read falls into these and the rest. -/
theorem exists_split {u : List α} {n : Nat} (h : n ≤ u.length) :
    ∃ u₁ u₂, u = u₁ ++ u₂ ∧ u₁.length = n :=
  ⟨u.take n, u.drop n, (List.take_append_drop n u).symm, List.length_take_of_le h⟩

/-- Two constructs that are read one after the other take the first and the second part of a text. -/
theorem exists_seq {f g : List α → Nat} {u v : List α}
    (h : g (u ++ v) + f ((u ++ v).drop (g (u ++ v))) = u.length) :
    ∃ u₁ u₂, u = u₁ ++ u₂ ∧ g (u₁ ++ (u₂ ++ v)) = u₁.length ∧ f (u₂ ++ v) = u₂.length := by
  obtain ⟨u₁, u₂, rfl, hlen⟩ := exists_split (n := g (u ++ v)) (u := u) (by omega)
  rw [List.append_assoc] at hlen h
  rw [← hlen, List.drop_left, List.length_append] at h
  exact ⟨u₁, u₂, rfl, hlen.symm, by omega⟩

/-- If both of two constructs that are read one after the other end where they do whatever follows, then
so do they together. -/
theorem seq_congr {f g : List α → Nat} {u v r : List α}
    (hg : ∀ u₁ u₂, u = u₁ ++ u₂ → g (u₁ ++ (u₂ ++ v)) = u₁.length →
      f (u₂ ++ v) = u₂.length → g (u₁ ++ (u₂ ++ r)) = u₁.length)
    (hf : ∀ u₁ u₂, u = u₁ ++ u₂ → f (u₂ ++ v) = u₂.length → f (u₂ ++ r) = u₂.length)
    (h : g (u ++ v) + f ((u ++ v).drop (g (u ++ v))) = u.length) :
    g (u ++ r) + f ((u ++ r).drop (g (u ++ r))) = u.length := by
  obtain ⟨u₁, u₂, rfl, hfirst, hrest⟩ := exists_seq h
  have hfirst' := hg u₁ u₂ rfl hfirst hrest
  rw [List.append_assoc, hfirst', List.drop_left, hf u₁ u₂ rfl hrest, List.length_append]

/-- The first letter is the same where there is one before the rest. -/
theorem head?_append_eq {u v r : List α} (h : u = [] → v.head? = r.head?) :
    (u ++ v).head? = (u ++ r).head? := by
  cases u with
  | nil => exact h rfl
  | cons c u => rfl

end

variable {α : Type} [HasSign α]

/-! ### Letter by letter -/

section letters

variable {quote : Sign} {inner : Nat} {c : α}

/-- A backslash takes the next letter along. -/
theorem string_escape (h : sign c = .backslash) (d : α) (ds : List α) :
    string quote (c :: d :: ds) = string quote ds + 2 := by
  rw [string.eq_def]
  simp [h]

/-- The quote that opened a string closes it. -/
theorem string_quote (hb : sign c ≠ .backslash) (hq : sign c = quote) (cs : List α) :
    string quote (c :: cs) = 1 := by
  subst hq
  rw [string.eq_def]
  simp [hb]

/-- Any other letter belongs to the string. -/
theorem string_other (hb : sign c ≠ .backslash) (hq : sign c ≠ quote) (cs : List α) :
    string quote (c :: cs) = string quote cs + 1 := by
  rw [string.eq_def]
  simp [hb, hq]

/-- An opening brace opens one more block. -/
theorem block_open (h : sign c = .openBrace) (cs : List α) :
    block inner (c :: cs) = block (inner + 1) cs + 1 := by
  rw [block.eq_def]
  simp [h]

/-- The last closing brace ends the block. -/
theorem block_close_last (h : sign c = .closeBrace) (cs : List α) : block 0 (c :: cs) = 1 := by
  rw [block.eq_def]
  simp [h]

/-- A closing brace ends an inner block. -/
theorem block_close (h : sign c = .closeBrace) (cs : List α) :
    block (inner + 1) (c :: cs) = block inner cs + 1 := by
  rw [block.eq_def]
  simp [h]

/-- Between braces a block is read in units. -/
theorem block_unit (ho : sign c ≠ .openBrace) (hc : sign c ≠ .closeBrace) (cs : List α) :
    block inner (c :: cs) = unit c cs + block inner (cs.drop (unit c cs)) + 1 := by
  rw [block.eq_def]
  simp [ho, hc]

end letters

/-! ### Something is read of what is there -/

/-- A string takes at least one letter if there is one. -/
theorem string_pos (quote : Sign) (c : α) (cs : List α) : 0 < string quote (c :: cs) := by
  by_cases hb : sign c = .backslash
  · cases cs with
    | nil =>
      rw [string.eq_def]
      simp [hb]
    | cons d ds =>
      rw [string_escape hb]
      omega
  · by_cases hq : sign c = quote
    · rw [string_quote hb hq]
      omega
    · rw [string_other hb hq]
      omega

/-- A comment takes at least one letter if there is one. -/
theorem comment_pos (c : α) (cs : List α) : 0 < comment (c :: cs) := by
  cases cs with
  | nil => exact Nat.one_pos
  | cons d cs =>
    rw [comment]
    split <;> omega

/-- A url takes at least one letter if there is one. -/
theorem url_pos (c : α) (cs : List α) : 0 < url (c :: cs) := by
  rw [url]
  split
  · omega
  split
  · omega
  split <;> omega

/-- A block takes at least one letter if there is one. -/
theorem block_pos (inner : Nat) (c : α) (cs : List α) : 0 < block inner (c :: cs) := by
  by_cases ho : sign c = .openBrace
  · rw [block_open ho]
    omega
  by_cases hc : sign c = .closeBrace
  · cases inner with
    | zero =>
      rw [block_close_last hc]
      omega
    | succ inner =>
      rw [block_close hc]
      omega
  · rw [block_unit ho hc]
    omega

/-- Nothing is read of a declaration only where the brace that closes its block stands. -/
theorem rule_pos {depth : Nat} {c : α} (h : sign c ≠ .closeBrace) (cs : List α) :
    0 < rule depth (c :: cs) := by
  rw [rule]
  split
  · omega
  · omega
  · omega
  · omega
  · split <;> omega
  next hc => exact absurd hc h
  · omega
  · omega

/-! ### Strings and comments -/

/-- A string that is closed before the end of the input is closed there whatever follows. -/
theorem string_congr {quote : Sign} {v : List α} (hv : v ≠ []) (r : List α) :
    ∀ {u : List α}, string quote (u ++ v) = u.length → string quote (u ++ r) = u.length
  | [], h => by
    obtain ⟨c, v, rfl⟩ := List.exists_cons_of_ne_nil hv
    exact absurd h (Nat.ne_of_gt (string_pos quote c v))
  | [c], h => by
    by_cases hb : sign c = .backslash
    · -- the backslash takes along a letter that is still to come
      obtain ⟨d, v, rfl⟩ := List.exists_cons_of_ne_nil hv
      rw [List.singleton_append, string_escape hb, List.length_singleton] at h
      omega
    · by_cases hq : sign c = quote
      · exact string_quote hb hq r
      · rw [List.singleton_append, string_other hb hq, List.length_singleton] at h
        obtain ⟨d, v, rfl⟩ := List.exists_cons_of_ne_nil hv
        have hpos := string_pos quote d v
        omega
  | c :: d :: u, h => by
    rw [List.cons_append, List.cons_append] at h ⊢
    by_cases hb : sign c = .backslash
    · rw [string_escape hb, List.length_cons, List.length_cons, Nat.add_right_cancel_iff] at h ⊢
      exact string_congr hv r h
    · by_cases hq : sign c = quote
      · rw [string_quote hb hq] at h ⊢
        exact h
      · rw [string_other hb hq, List.length_cons, Nat.add_right_cancel_iff] at h ⊢
        exact string_congr hv r (u := d :: u) h

/-- A comment ends where it does whatever follows. -/
theorem comment_congr {v : List α} (hv : v ≠ []) (r : List α) :
    ∀ {u : List α}, comment (u ++ v) = u.length → comment (u ++ r) = u.length
  | [], h => by
    obtain ⟨c, v, rfl⟩ := List.exists_cons_of_ne_nil hv
    exact absurd h (Nat.ne_of_gt (comment_pos c v))
  | [c], h => by
    -- a comment does not end with a single letter before the end of the input
    obtain ⟨d, v, rfl⟩ := List.exists_cons_of_ne_nil hv
    have hpos := comment_pos d v
    rw [List.singleton_append, comment, List.length_singleton] at h
    split at h <;> omega
  | c :: d :: u, h => by
    rw [List.cons_append, List.cons_append, comment] at h ⊢
    by_cases he : sign c = .star ∧ sign d = .slash
    · rw [if_pos he] at h ⊢
      exact h
    · rw [if_neg he, List.length_cons, Nat.add_right_cancel_iff] at h ⊢
      exact comment_congr hv r (u := d :: u) h

/-! ### Urls -/

/-- A url ends where it does whatever follows. -/
theorem url_congr {v : List α} (hv : v ≠ []) (r : List α) :
    ∀ {u : List α}, url (u ++ v) = u.length → url (u ++ r) = u.length
  | [], h => by
    obtain ⟨c, v, rfl⟩ := List.exists_cons_of_ne_nil hv
    exact absurd h (Nat.ne_of_gt (url_pos c v))
  | c :: u, h => by
    rw [List.cons_append, url] at h ⊢
    by_cases hc : sign c = .closeRound
    · rw [if_pos hc] at h ⊢
      exact h
    rw [if_neg hc] at h ⊢
    by_cases hq : (sign c).isQuote = true
    · rw [if_pos hq, List.length_cons, Nat.add_right_cancel_iff] at h ⊢
      refine seq_congr (fun u₁ u₂ _ hs _ => ?_) (fun u₁ u₂ hu => ?_) h
      · exact string_congr (List.append_ne_nil_of_right_ne_nil u₂ hv) _ hs
      · exact url_congr hv r
    rw [if_neg hq] at h ⊢
    by_cases hb : sign c = .backslash
    · rw [if_pos hb] at h ⊢
      cases u with
      | nil =>
        obtain ⟨d, v, rfl⟩ := List.exists_cons_of_ne_nil hv
        simp at h
      | cons d u =>
        simp only [List.cons_append, List.length_cons, List.drop_succ_cons, List.drop_zero] at h ⊢
        have hrest : url (u ++ v) = u.length := by omega
        have := url_congr hv r hrest
        omega
    · rw [if_neg hb, List.length_cons, Nat.add_right_cancel_iff] at h ⊢
      exact url_congr hv r h
termination_by u => u.length
decreasing_by all_goals grind

/-! ### Units -/

/-- Whether a comment opens depends on the first letter alone. -/
theorem opensComment_congr {cs ds : List α} (h : cs.head? = ds.head?) (c : α) :
    opensComment c cs = opensComment c ds := by
  rw [opensComment, opensComment, h]

/-- A unit ends where it does whatever follows, if that makes no comment of its first letter. -/
theorem unit_congr {c : α} {u v r : List α} (hv : v ≠ [])
    (hopens : opensComment c (u ++ v) = opensComment c (u ++ r))
    (h : unit c (u ++ v) = u.length) : unit c (u ++ r) = u.length := by
  unfold unit at h ⊢
  rw [← hopens]
  split at h
  next hq =>
    rw [if_pos hq]
    exact string_congr hv r h
  next hq =>
    rw [if_neg hq]
    split at h
    next hc =>
      rw [if_pos hc]
      cases u with
      | nil => simp at h
      | cons d u =>
        simp only [List.cons_append, List.tail_cons, List.length_cons,
          Nat.add_right_cancel_iff] at h ⊢
        exact comment_congr hv r h
    next hc =>
      rw [if_neg hc]
      split at h
      next hb =>
        rw [if_pos hb]
        have hpos : 0 < v.length := List.length_pos_iff.mpr hv
        rw [List.length_append] at h ⊢
        omega
      next hb =>
        rw [if_neg hb]
        exact h

/-! ### Blocks -/

/-- A block ends where it does whatever follows. -/
theorem block_congr {v : List α} (hv : v ≠ []) (r : List α) :
    ∀ {inner : Nat} {u : List α}, block inner (u ++ v) = u.length → block inner (u ++ r) = u.length
  | inner, [], h => by
    obtain ⟨c, v, rfl⟩ := List.exists_cons_of_ne_nil hv
    exact absurd h (Nat.ne_of_gt (block_pos inner c v))
  | inner, c :: u, h => by
    rw [List.cons_append] at h ⊢
    by_cases ho : sign c = .openBrace
    · rw [block_open ho, List.length_cons, Nat.add_right_cancel_iff] at h ⊢
      exact block_congr hv r h
    by_cases hc : sign c = .closeBrace
    · cases inner with
      | zero =>
        rw [block_close_last hc] at h ⊢
        exact h
      | succ inner =>
        rw [block_close hc, List.length_cons, Nat.add_right_cancel_iff] at h ⊢
        exact block_congr hv r h
    rw [block_unit ho hc, List.length_cons, Nat.add_right_cancel_iff] at h ⊢
    refine seq_congr (fun u₁ u₂ _ hs hrest => ?_) (fun u₁ u₂ hu => ?_) h
    · apply unit_congr (List.append_ne_nil_of_right_ne_nil u₂ hv) _ hs
      apply opensComment_congr
      apply head?_append_eq
      intro _
      -- the rest of the block is not empty, so its first letter is not behind the block
      apply head?_append_eq
      rintro rfl
      obtain ⟨d, v, rfl⟩ := List.exists_cons_of_ne_nil hv
      exact absurd hrest (Nat.ne_of_gt (block_pos inner d v))
    · exact block_congr hv r
termination_by _ u => u.length
decreasing_by all_goals grind

/-! ### Declarations and rules -/

/-- Whether a text begins with the brace that closes a block. -/
def startsClosed (cs : List α) : Bool := cs.head?.any (sign · = .closeBrace)

/-- The signs that a declaration reacts to other than by reading a unit. -/
def isRuleSign (s : Sign) : Bool :=
  s = .openRound || s = .openSquare || s = .closeRound || s = .closeSquare || s = .semicolon ||
    s = .closeBrace || s = .openBrace

/-- A letter without meaning for rules begins a unit. -/
theorem rule_unit {depth : Nat} {c : α} (h : isRuleSign (sign c) = false) (cs : List α) :
    rule depth (c :: cs) = unit c cs + rule depth (cs.drop (unit c cs)) + 1 := by
  rw [rule]
  split <;> simp_all [isRuleSign]

/-- An opening bracket shelters semicolons and braces. -/
theorem rule_open {depth : Nat} {c : α} (h : sign c = .openRound ∨ sign c = .openSquare)
    (cs : List α) : rule depth (c :: cs) = rule (depth + 1) cs + 1 := by
  rw [rule]
  rcases h with h | h <;> simp [h]

/-- A closing bracket ends the shelter of one bracket. -/
theorem rule_close {depth : Nat} {c : α} (h : sign c = .closeRound ∨ sign c = .closeSquare)
    (cs : List α) : rule depth (c :: cs) = rule (depth - 1) cs + 1 := by
  rw [rule]
  rcases h with h | h <;> simp [h]

/-- A semicolon outside brackets ends a declaration. -/
theorem rule_semicolon {c : α} (h : sign c = .semicolon) (cs : List α) : rule 0 (c :: cs) = 1 := by
  rw [rule]
  simp [h]

/-- Within brackets neither a semicolon nor a closing brace ends anything. -/
theorem rule_inside {depth : Nat} (hdepth : depth ≠ 0) {c : α}
    (h : sign c = .semicolon ∨ sign c = .closeBrace) (cs : List α) :
    rule depth (c :: cs) = rule depth cs + 1 := by
  rw [rule]
  rcases h with h | h <;> simp [h, hdepth]

/-- An opening brace makes a rule of what is read, which ends with its block. -/
theorem rule_block {depth : Nat} {c : α} (h : sign c = .openBrace) (cs : List α) :
    rule depth (c :: cs) = block 0 cs + 1 := by
  rw [rule]
  simp [h]

/-- What a declaration makes of a letter that it does not read as a unit. -/
theorem sign_cases {c : α} (h : isRuleSign (sign c) = true) :
    (sign c = .openRound ∨ sign c = .openSquare) ∨ (sign c = .closeRound ∨ sign c = .closeSquare) ∨
      (sign c = .semicolon ∨ sign c = .closeBrace) ∨ sign c = .openBrace := by
  simp only [isRuleSign, Bool.or_eq_true, decide_eq_true_eq] at h
  tauto

/-- A closing brace makes no comment of the letter before it. -/
theorem not_opensComment_of_startsClosed {cs : List α} (h : startsClosed cs = true) (c : α) :
    opensComment c cs = false := by
  unfold startsClosed at h
  cases cs with
  | nil => simp [opensComment]
  | cons d ds =>
    have hd : sign d = .closeBrace := by simpa using h
    simp [opensComment, hd]

/-- A declaration of which nothing is left stands before the brace that closes its block, outside
brackets. -/
theorem startsClosed_of_rule_eq_zero {depth : Nat} {v : List α} (hv : v ≠ [])
    (h : rule depth v = 0) : startsClosed v = true ∧ depth = 0 := by
  obtain ⟨c, cs, rfl⟩ := List.exists_cons_of_ne_nil hv
  by_cases hc : sign c = .closeBrace
  · refine ⟨by simp [startsClosed, hc], ?_⟩
    by_contra hdepth
    rw [rule] at h
    simp [hc, hdepth] at h
  · exact absurd h (Nat.ne_of_gt (rule_pos hc cs))

/-- Nothing is read where the block closes. -/
theorem rule_of_startsClosed {cs : List α} (h : startsClosed cs = true) : rule 0 cs = 0 := by
  cases cs with
  | nil => rw [rule]
  | cons c cs =>
    have hc : sign c = .closeBrace := by simpa [startsClosed] using h
    rw [rule]
    simp [hc]

/-- A declaration or rule that ends before the end of the input ends there whatever follows, but for the
brace that may have ended it. -/
theorem rule_congr {v r : List α} (hv : v ≠ [])
    (hr : startsClosed v = true → startsClosed r = true) :
    ∀ {depth : Nat} {u : List α}, rule depth (u ++ v) = u.length → rule depth (u ++ r) = u.length
  | depth, [], h => by
    obtain ⟨hclosed, rfl⟩ := startsClosed_of_rule_eq_zero hv h
    exact rule_of_startsClosed (hr hclosed)
  | depth, c :: u, h => by
    by_cases hs : isRuleSign (sign c) = false
    · rw [List.cons_append, rule_unit hs, List.length_cons, Nat.add_right_cancel_iff] at h ⊢
      refine seq_congr (fun u₁ u₂ _ hunit hrest => ?_) (fun u₁ u₂ hu => ?_) h
      · apply unit_congr (List.append_ne_nil_of_right_ne_nil u₂ hv) _ hunit
        by_cases hempty : u₁ = [] ∧ u₂ = []
        · -- the unit is the last letter before the closing brace
          obtain ⟨rfl, rfl⟩ := hempty
          have hclosed := (startsClosed_of_rule_eq_zero hv hrest).1
          exact (not_opensComment_of_startsClosed hclosed c).trans
            (not_opensComment_of_startsClosed (hr hclosed) c).symm
        · apply opensComment_congr
          apply head?_append_eq
          intro h₁
          apply head?_append_eq
          intro h₂
          exact absurd ⟨h₁, h₂⟩ hempty
      · exact rule_congr hv hr
    · rw [Bool.not_eq_false] at hs
      rw [List.cons_append] at h ⊢
      rcases sign_cases hs with hs | hs | hs | hs
      · rw [rule_open hs, List.length_cons, Nat.add_right_cancel_iff] at h ⊢
        exact rule_congr hv hr h
      · rw [rule_close hs, List.length_cons, Nat.add_right_cancel_iff] at h ⊢
        exact rule_congr hv hr h
      · by_cases hdepth : depth = 0
        · subst hdepth
          rcases hs with hs | hs
          · rw [rule_semicolon hs] at h ⊢
            exact h
          · have hclosed : startsClosed (c :: (u ++ v)) = true := by simp [startsClosed, hs]
            rw [rule_of_startsClosed hclosed] at h
            exact absurd h (by simp)
        · rw [rule_inside hdepth hs, List.length_cons, Nat.add_right_cancel_iff] at h ⊢
          exact rule_congr hv hr h
      · rw [rule_block hs, List.length_cons, Nat.add_right_cancel_iff] at h ⊢
        exact block_congr hv r h
termination_by _ u => u.length
decreasing_by all_goals grind

/-! ### The target of a no-flip comment -/

/-- Trivia may begin with a blank. -/
theorem trivia_blank {c : α} (h : sign c = .blank) (cs : List α) :
    trivia (c :: cs) = trivia cs + 1 := by
  rw [trivia, if_pos h]

/-- Trivia may begin with a comment. -/
theorem trivia_comment {c : α} {cs : List α} (h : opensComment c cs = true) :
    trivia (c :: cs)
      = (comment cs.tail + 1) + trivia (cs.drop (comment cs.tail + 1)) + 1 := by
  have hslash : sign c = .slash := by
    simp only [opensComment, Bool.and_eq_true, decide_eq_true_eq] at h
    exact h.1
  rw [trivia, if_neg (by simp [hslash]), if_pos h]

/-- Trivia end where neither a blank nor a comment comes. -/
theorem trivia_stop {c : α} {cs : List α} (hb : sign c ≠ .blank)
    (hc : opensComment c cs = false) : trivia (c :: cs) = 0 := by
  rw [trivia, if_neg hb, if_neg (by simp [hc])]

/-- Where there are no trivia there is neither a blank nor a comment. -/
theorem of_trivia_eq_zero {c : α} {cs : List α} (h : trivia (c :: cs) = 0) :
    sign c ≠ .blank ∧ opensComment c cs = false := by
  constructor
  · intro hb
    rw [trivia_blank hb] at h
    omega
  · by_contra hc
    rw [trivia_comment (by simpa using hc)] at h
    omega

/-- Behind blanks and comments there are no more of them. -/
theorem trivia_drop_trivia (cs : List α) : trivia (cs.drop (trivia cs)) = 0 := by
  fun_induction trivia cs with
  | case1 => rw [List.drop_nil, trivia]
  | case2 c cs _ ih => rwa [List.drop_succ_cons]
  | case3 c cs _ _ ih => rwa [List.drop_succ_cons, ← List.drop_drop]
  | case4 c cs hb hc =>
    rw [List.drop_zero]
    exact trivia_stop hb (by simpa using hc)

/-- Trivia end where they do, if what follows is none. -/
theorem trivia_congr {v r : List α} (hv : v ≠ []) (hr : trivia r = 0) :
    ∀ {u : List α}, trivia (u ++ v) = u.length → trivia (u ++ r) = u.length
  | [], _ => hr
  | c :: u, h => by
    rw [List.cons_append] at h ⊢
    by_cases hb : sign c = .blank
    · rw [trivia_blank hb, List.length_cons, Nat.add_right_cancel_iff] at h ⊢
      exact trivia_congr hv hr h
    by_cases hc : opensComment c (u ++ v) = true
    · rw [trivia_comment hc, List.length_cons, Nat.add_right_cancel_iff] at h
      have hu : u ≠ [] := by
        rintro rfl
        simp at h
      have hc' : opensComment c (u ++ r) = true := by
        rw [← hc]
        apply opensComment_congr
        apply head?_append_eq
        exact fun h => absurd h hu
      rw [trivia_comment hc', List.length_cons, Nat.add_right_cancel_iff]
      refine seq_congr (g := fun cs => comment cs.tail + 1) (f := trivia)
        (fun u₁ u₂ _ hs _ => ?_) (fun u₁ u₂ hu => ?_) h
      · cases u₁ with
        | nil => simp at hs
        | cons d u₁ =>
          simp only [List.cons_append, List.tail_cons, List.length_cons,
            Nat.add_right_cancel_iff] at hs ⊢
          exact comment_congr (List.append_ne_nil_of_right_ne_nil u₂ hv) _ hs
      · exact trivia_congr hv hr
    · rw [trivia_stop hb (by simpa using hc)] at h
      exact absurd h (by simp)
termination_by u => u.length
decreasing_by all_goals grind

/-- A no-flip comment guards nothing exactly where nothing more follows in its block. -/
theorem target_eq_zero_iff {cs : List α} :
    target cs = 0 ↔ cs.drop (trivia cs) = [] ∨ startsClosed (cs.drop (trivia cs)) = true := by
  unfold target
  split
  next hd => simp [hd]
  next c ds hd =>
    rw [hd]
    split
    next hc => simp [startsClosed, hc]
    next hc =>
      have hpos : 0 < rule 0 (c :: ds) := rule_pos hc ds
      simp [startsClosed, hc]
      omega

/-- A target is what stands behind the trivia, together with them. -/
theorem target_eq {cs : List α} (h : target cs ≠ 0) :
    target cs = trivia cs + rule 0 (cs.drop (trivia cs)) := by
  have hne : cs.drop (trivia cs) ≠ [] := fun hd => h (target_eq_zero_iff.mpr (.inl hd))
  have hclosed : ¬ startsClosed (cs.drop (trivia cs)) = true :=
    fun hc => h (target_eq_zero_iff.mpr (.inr hc))
  unfold target
  split
  next hd => exact absurd hd hne
  next c ds hd =>
    rw [hd] at hclosed ⊢
    rw [if_neg (by simpa [startsClosed] using hclosed)]

/-- What a no-flip comment guards ends where it does whatever follows, but for the brace that may have
ended it. -/
theorem target_congr {u v r : List α} (hu : u ≠ []) (hv : v ≠ [])
    (hr : startsClosed v = true → startsClosed r = true) (h : target (u ++ v) = u.length) :
    target (u ++ r) = u.length := by
  have hlen : u.length ≠ 0 := fun hl => hu (List.length_eq_zero_iff.mp hl)
  have hsum : target (u ++ v) = trivia (u ++ v) + rule 0 ((u ++ v).drop (trivia (u ++ v))) :=
    target_eq (by omega)
  obtain ⟨u₁, u₂, rfl, hl⟩ := exists_split (n := trivia (u ++ v)) (u := u) (by omega)
  have hdrop : ∀ w, (u₁ ++ u₂ ++ w).drop u₁.length = u₂ ++ w := by
    intro w
    rw [List.append_assoc, List.drop_left]
  rw [← hl, hdrop, h, List.length_append, Nat.add_left_cancel_iff] at hsum
  -- the declaration begins with a letter before the rest
  have hu₂ : u₂ ≠ [] := by
    rintro rfl
    have hclosed := (startsClosed_of_rule_eq_zero hv hsum.symm).1
    have hzero : target (u₁ ++ [] ++ v) = 0 := by
      rw [target_eq_zero_iff, ← hl, hdrop]
      exact .inr hclosed
    omega
  obtain ⟨c, u₂, rfl⟩ := List.exists_cons_of_ne_nil hu₂
  have hclosed : sign c ≠ .closeBrace := by
    intro hc
    have hzero : target (u₁ ++ (c :: u₂) ++ v) = 0 := by
      rw [target_eq_zero_iff, ← hl, hdrop]
      exact .inr (by simp [startsClosed, hc])
    omega
  have hstop : trivia (c :: (u₂ ++ v)) = 0 := by
    have hd := trivia_drop_trivia (u₁ ++ (c :: u₂) ++ v)
    rwa [← hl, hdrop] at hd
  obtain ⟨hblank, hcomment⟩ := of_trivia_eq_zero hstop
  have hcomment' : opensComment c (u₂ ++ r) = false := by
    cases u₂ with
    | cons d u₂ => exact (opensComment_congr rfl c).trans hcomment
    | nil =>
      by_contra hc
      -- a slash before the closing brace opens no comment
      have hslash : sign c = .slash := by
        simp only [Bool.not_eq_false, opensComment, Bool.and_eq_true, decide_eq_true_eq] at hc
        exact hc.1
      have hrule : rule 0 (c :: v) = 1 := hsum.symm
      rw [rule_unit (by simp [isRuleSign, hslash])] at hrule
      have hunit : unit c v = 0 := by omega
      have hzero : rule 0 v = 0 := by
        rw [hunit, List.drop_zero] at hrule
        omega
      have hv' := (startsClosed_of_rule_eq_zero hv hzero).1
      exact hc (not_opensComment_of_startsClosed (hr hv') c)
  have htrivia : trivia (u₁ ++ (c :: u₂) ++ r) = u₁.length := by
    rw [List.append_assoc] at hl ⊢
    exact trivia_congr (List.append_ne_nil_of_right_ne_nil _ hv) (trivia_stop hblank hcomment') hl.symm
  have hne : target (u₁ ++ (c :: u₂) ++ r) ≠ 0 := by
    rw [Ne, target_eq_zero_iff, htrivia, hdrop]
    simp [startsClosed, hclosed]
  rw [target_eq hne, htrivia, hdrop, rule_congr hv hr hsum.symm, List.length_append]

/-! ### The last letter -/

/-- The last letter of a text has a sign of some sort. -/
def EndsIn (p : Sign → Prop) (u : List α) : Prop := ∃ w d, u = w ++ [d] ∧ p (sign d)

/-- What stands before does not matter to the last letter. -/
theorem EndsIn.append {p : Sign → Prop} {u : List α} (h : EndsIn p u) (w : List α) :
    EndsIn p (w ++ u) := by
  obtain ⟨v, d, rfl, hd⟩ := h
  exact ⟨w ++ v, d, (List.append_assoc w v [d]).symm, hd⟩

/-- One more letter in front does not change the last one. -/
theorem EndsIn.cons {p : Sign → Prop} {u : List α} (h : EndsIn p u) (c : α) : EndsIn p (c :: u) :=
  h.append [c]

/-- A string that is closed before the end of the input ends in its quote. -/
theorem endsIn_of_string {quote : Sign} {v : List α} (hv : v ≠ []) :
    ∀ {u : List α}, string quote (u ++ v) = u.length → EndsIn (· = quote) u
  | [], h => by
    obtain ⟨c, v, rfl⟩ := List.exists_cons_of_ne_nil hv
    exact absurd h (Nat.ne_of_gt (string_pos quote c v))
  | [c], h => by
    by_cases hb : sign c = .backslash
    · obtain ⟨d, v, rfl⟩ := List.exists_cons_of_ne_nil hv
      rw [List.singleton_append, string_escape hb, List.length_singleton] at h
      omega
    · by_cases hq : sign c = quote
      · exact ⟨[], c, rfl, hq⟩
      · rw [List.singleton_append, string_other hb hq, List.length_singleton] at h
        obtain ⟨d, v, rfl⟩ := List.exists_cons_of_ne_nil hv
        have hpos := string_pos quote d v
        omega
  | c :: d :: u, h => by
    rw [List.cons_append, List.cons_append] at h
    by_cases hb : sign c = .backslash
    · rw [string_escape hb, List.length_cons, List.length_cons, Nat.add_right_cancel_iff] at h
      exact ((endsIn_of_string hv h).cons d).cons c
    · by_cases hq : sign c = quote
      · rw [string_quote hb hq] at h
        simp at h
      · rw [string_other hb hq, List.length_cons, Nat.add_right_cancel_iff] at h
        exact (endsIn_of_string hv (u := d :: u) h).cons c

/-- A comment that is closed before the end of the input ends in a slash. -/
theorem endsIn_of_comment {v : List α} (hv : v ≠ []) :
    ∀ {u : List α}, comment (u ++ v) = u.length → EndsIn (· = .slash) u
  | [], h => by
    obtain ⟨c, v, rfl⟩ := List.exists_cons_of_ne_nil hv
    exact absurd h (Nat.ne_of_gt (comment_pos c v))
  | [c], h => by
    obtain ⟨d, v, rfl⟩ := List.exists_cons_of_ne_nil hv
    have hpos := comment_pos d v
    rw [List.singleton_append, comment, List.length_singleton] at h
    split at h <;> omega
  | c :: d :: u, h => by
    rw [List.cons_append, List.cons_append, comment] at h
    by_cases he : sign c = .star ∧ sign d = .slash
    · rw [if_pos he, List.length_cons, List.length_cons] at h
      have hu : u = [] := List.length_eq_zero_iff.mp (by omega)
      exact ⟨[c], d, by rw [hu]; rfl, he.2⟩
    · rw [if_neg he, List.length_cons, Nat.add_right_cancel_iff] at h
      exact (endsIn_of_comment hv (u := d :: u) h).cons c

/-- A url that is closed before the end of the input ends in a closing bracket. -/
theorem endsIn_of_url {v : List α} (hv : v ≠ []) :
    ∀ {u : List α}, url (u ++ v) = u.length → EndsIn (· = .closeRound) u
  | [], h => by
    obtain ⟨c, v, rfl⟩ := List.exists_cons_of_ne_nil hv
    exact absurd h (Nat.ne_of_gt (url_pos c v))
  | c :: u, h => by
    rw [List.cons_append, url] at h
    by_cases hc : sign c = .closeRound
    · rw [if_pos hc, List.length_cons] at h
      have hu : u = [] := List.length_eq_zero_iff.mp (by omega)
      exact ⟨[], c, by rw [hu]; rfl, hc⟩
    rw [if_neg hc] at h
    apply EndsIn.cons
    by_cases hq : (sign c).isQuote = true
    · rw [if_pos hq, List.length_cons, Nat.add_right_cancel_iff] at h
      obtain ⟨u₁, u₂, rfl, -, hrest⟩ := exists_seq h
      exact (endsIn_of_url hv hrest).append u₁
    rw [if_neg hq] at h
    by_cases hb : sign c = .backslash
    · rw [if_pos hb] at h
      cases u with
      | nil =>
        obtain ⟨d, v, rfl⟩ := List.exists_cons_of_ne_nil hv
        simp at h
      | cons d u =>
        simp only [List.cons_append, List.length_cons, List.drop_succ_cons, List.drop_zero] at h
        have hrest : url (u ++ v) = u.length := by omega
        exact (endsIn_of_url hv hrest).cons d
    · rw [if_neg hb, List.length_cons, Nat.add_right_cancel_iff] at h
      exact endsIn_of_url hv h
termination_by u => u.length
decreasing_by all_goals grind

/-- A block that ends before its input does ends in a closing brace. -/
theorem endsIn_of_block {v : List α} (hv : v ≠ []) :
    ∀ {inner : Nat} {u : List α}, block inner (u ++ v) = u.length → EndsIn (· = .closeBrace) u
  | inner, [], h => by
    obtain ⟨c, v, rfl⟩ := List.exists_cons_of_ne_nil hv
    exact absurd h (Nat.ne_of_gt (block_pos inner c v))
  | inner, c :: u, h => by
    rw [List.cons_append] at h
    by_cases ho : sign c = .openBrace
    · rw [block_open ho, List.length_cons, Nat.add_right_cancel_iff] at h
      exact (endsIn_of_block hv h).cons c
    by_cases hc : sign c = .closeBrace
    · cases inner with
      | zero =>
        rw [block_close_last hc, List.length_cons] at h
        have hu : u = [] := List.length_eq_zero_iff.mp (by omega)
        exact ⟨[], c, by rw [hu]; rfl, hc⟩
      | succ inner =>
        rw [block_close hc, List.length_cons, Nat.add_right_cancel_iff] at h
        exact (endsIn_of_block hv h).cons c
    rw [block_unit ho hc, List.length_cons, Nat.add_right_cancel_iff] at h
    obtain ⟨u₁, u₂, rfl, -, hrest⟩ := exists_seq h
    exact ((endsIn_of_block hv hrest).append u₁).cons c
termination_by _ u => u.length
decreasing_by all_goals grind

/-- The sign at which a declaration or a rule may end. -/
def isRuleEnd (s : Sign) : Prop := s = .semicolon ∨ s = .closeBrace

/-- A declaration or rule that ends neither at the end of the input nor before a closing brace ends in a
semicolon or in a brace of its own. -/
theorem endsIn_of_rule {v : List α} (hv : v ≠ []) (hclosed : startsClosed v = false) :
    ∀ {depth : Nat} {u : List α}, rule depth (u ++ v) = u.length → EndsIn isRuleEnd u
  | depth, [], h => by
    have hstart := (startsClosed_of_rule_eq_zero hv h).1
    rw [hclosed] at hstart
    cases hstart
  | depth, c :: u, h => by
    by_cases hs : isRuleSign (sign c) = false
    · rw [List.cons_append, rule_unit hs, List.length_cons, Nat.add_right_cancel_iff] at h
      obtain ⟨u₁, u₂, rfl, -, hrest⟩ := exists_seq h
      exact ((endsIn_of_rule hv hclosed hrest).append u₁).cons c
    · rw [Bool.not_eq_false] at hs
      rw [List.cons_append] at h
      rcases sign_cases hs with hs | hs | hs | hs
      · rw [rule_open hs, List.length_cons, Nat.add_right_cancel_iff] at h
        exact (endsIn_of_rule hv hclosed h).cons c
      · rw [rule_close hs, List.length_cons, Nat.add_right_cancel_iff] at h
        exact (endsIn_of_rule hv hclosed h).cons c
      · by_cases hdepth : depth = 0
        · subst hdepth
          rcases hs with hs | hs
          · rw [rule_semicolon hs, List.length_cons] at h
            have hu : u = [] := List.length_eq_zero_iff.mp (by omega)
            exact ⟨[], c, by rw [hu]; rfl, .inl hs⟩
          · have hstart : startsClosed (c :: (u ++ v)) = true := by simp [startsClosed, hs]
            rw [rule_of_startsClosed hstart] at h
            cases h
        · rw [rule_inside hdepth hs, List.length_cons, Nat.add_right_cancel_iff] at h
          exact (endsIn_of_rule hv hclosed h).cons c
      · rw [rule_block hs, List.length_cons, Nat.add_right_cancel_iff] at h
        obtain ⟨w, d, rfl, hd⟩ := endsIn_of_block hv h
        exact ⟨c :: w, d, rfl, .inr hd⟩
termination_by _ u => u.length
decreasing_by all_goals grind

/-- What a no-flip comment guards ends likewise. -/
theorem endsIn_of_target {u v : List α} (hu : u ≠ []) (hv : v ≠ [])
    (hclosed : startsClosed v = false) (h : target (u ++ v) = u.length) : EndsIn isRuleEnd u := by
  have hlen : u.length ≠ 0 := fun hl => hu (List.length_eq_zero_iff.mp hl)
  rw [target_eq (by omega)] at h
  obtain ⟨u₁, u₂, rfl, -, hrest⟩ := exists_seq h
  exact (endsIn_of_rule hv hclosed hrest).append u₁

end Extent

end BidiSheet
