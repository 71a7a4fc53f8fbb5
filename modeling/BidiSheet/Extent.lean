import BidiSheet.Sign
import BidiSheet.Text

/-!
# Extents

How far a comment, a string, a url, a rule or a block reaches: the number of letters that it takes from
the front of the input. A construct that is never closed reaches to the end of the input.

Rules and blocks are read in *units*: a string, a comment, a backslash together with the letter after
it, or else a single letter. Brackets and braces count only where they are units of their own.

* `string_le`, `comment_le`, …, `target_le`: nothing reaches beyond the end of the input.
-/

namespace BidiSheet

open HasSign (sign)

namespace Extent

variable {α : Type} [HasSign α]

/-- The number of letters of a string after its opening quote, which has the sign `quote`. A backslash
takes the letter after it along, whatever it is. -/
def string (quote : Sign) : List α → Nat
  | [] => 0
  | c :: cs =>
    if sign c = .backslash then
      match cs with
      | [] => 1
      | _ :: ds => string quote ds + 2
    else if sign c = quote then 1
    else string quote cs + 1

/-- The number of letters of a comment after its opening slash and star. -/
def comment : List α → Nat
  | [] => 0
  | [_] => 1
  | c :: d :: cs => if sign c = .star ∧ sign d = .slash then 2 else comment (d :: cs) + 1

/-- Whether a comment opens at the letter `c` before `cs`. -/
def opensComment (c : α) (cs : List α) : Bool :=
  sign c = .slash && cs.head?.any (sign · = .star)

/-- The number of letters of a unit after its first letter `c`. -/
def unit (c : α) (cs : List α) : Nat :=
  if (sign c).isQuote then string (sign c) cs
  else if opensComment c cs then comment cs.tail + 1
  else if sign c = .backslash then min 1 cs.length
  else 0

/-! ### Bounds -/

/-- A string does not reach beyond the input. -/
theorem string_le (quote : Sign) (cs : List α) : string quote cs ≤ cs.length := by
  fun_induction string quote cs with
  | case1 => exact Nat.le_refl 0
  | case2 => exact Nat.le_refl 1
  | case3 c _ d ds ih => exact Nat.add_le_add_right ih 2
  | case4 c cs => exact Nat.le_add_left 1 cs.length
  | case5 c cs _ _ ih => exact Nat.add_le_add_right ih 1

/-- A comment does not reach beyond the input. -/
theorem comment_le (cs : List α) : comment cs ≤ cs.length := by
  fun_induction comment cs with
  | case1 => exact Nat.le_refl 0
  | case2 => exact Nat.le_refl 1
  | case3 c d cs => exact Nat.le_add_left 2 cs.length
  | case4 c d cs _ ih => exact Nat.add_le_add_right ih 1

/-- Where a comment opens there is a letter for its star. -/
theorem length_pos_of_opensComment {c : α} {cs : List α} (h : opensComment c cs = true) :
    cs.tail.length + 1 = cs.length := by
  cases cs with
  | nil => simp [opensComment] at h
  | cons d ds => rfl

/-- A comment that opens does not reach beyond the input, its star included. -/
theorem comment_tail_le {c : α} {cs : List α} (h : opensComment c cs = true) :
    comment cs.tail + 1 ≤ cs.length := by
  rw [← length_pos_of_opensComment h]
  exact Nat.add_le_add_right (comment_le cs.tail) 1

/-- A unit does not reach beyond the input. -/
theorem unit_le (c : α) (cs : List α) : unit c cs ≤ cs.length := by
  unfold unit
  split
  · exact string_le _ cs
  split
  · next h => exact comment_tail_le h
  split
  · exact Nat.min_le_right 1 cs.length
  · exact Nat.zero_le _

/-! ### Urls -/

/-- The number of letters of a url after its opening bracket. A quoted stretch and an escaped letter
hide a closing bracket. -/
def url : List α → Nat
  | [] => 0
  | c :: cs =>
    if sign c = .closeRound then 1
    else if (sign c).isQuote then string (sign c) cs + url (cs.drop (string (sign c) cs)) + 1
    else if sign c = .backslash then min 1 cs.length + url (cs.drop 1) + 1
    else url cs + 1
termination_by cs => cs.length
decreasing_by
  · exact length_drop_lt c cs _
  · exact length_drop_lt c cs 1
  · exact Nat.lt_succ_self _

/-- A url does not reach beyond the input. -/
theorem url_le (cs : List α) : url cs ≤ cs.length := by
  fun_induction url cs with
  | case1 => exact Nat.le_refl 0
  | case2 c cs => exact Nat.le_add_left 1 cs.length
  | case3 c cs _ _ ih => exact Nat.add_le_add_right (skip_le (string_le _ cs) ih) 1
  | case4 c cs _ _ _ ih =>
    rw [List.length_drop] at ih
    rw [List.length_cons]
    omega
  | case5 c cs _ _ _ ih => exact Nat.add_le_add_right ih 1

/-! ### Rules and blocks -/

/-- The number of letters of a block after its opening brace, or after as much of it as leaves `inner`
blocks open within it. -/
def block (inner : Nat) : List α → Nat
  | [] => 0
  | c :: cs =>
    if sign c = .openBrace then block (inner + 1) cs + 1
    else if sign c = .closeBrace then
      match inner with
      | 0 => 1
      | n + 1 => block n cs + 1
    else unit c cs + block inner (cs.drop (unit c cs)) + 1
termination_by cs => cs.length
decreasing_by
  · exact Nat.lt_succ_self _
  · exact Nat.lt_succ_self _
  · exact length_drop_lt c cs _

/-- A block does not reach beyond the input. -/
theorem block_le (inner : Nat) (cs : List α) : block inner cs ≤ cs.length := by
  fun_induction block inner cs with
  | case1 => exact Nat.le_refl 0
  | case2 _ c cs _ ih => exact Nat.add_le_add_right ih 1
  | case3 c cs => exact Nat.le_add_left 1 cs.length
  | case4 c cs _ _ _ ih => exact Nat.add_le_add_right ih 1
  | case5 _ c cs _ _ ih => exact Nat.add_le_add_right (skip_le (unit_le c cs) ih) 1

/-- The number of letters of a declaration or a rule, or of the rest of it with `depth` brackets open. A
semicolon outside brackets ends it and belongs to it; a closing brace outside brackets ends it and does
not. An opening brace, at any depth, makes it a rule, which reaches to the end of its block. -/
def rule (depth : Nat) : List α → Nat
  | [] => 0
  | c :: cs =>
    match sign c with
    | .openRound | .openSquare => rule (depth + 1) cs + 1
    | .closeRound | .closeSquare => rule (depth - 1) cs + 1
    | .semicolon => if depth = 0 then 1 else rule depth cs + 1
    | .closeBrace => if depth = 0 then 0 else rule depth cs + 1
    | .openBrace => block 0 cs + 1
    | _ => unit c cs + rule depth (cs.drop (unit c cs)) + 1
termination_by cs => cs.length
decreasing_by
  all_goals first
    | exact Nat.lt_succ_self _
    | exact length_drop_lt c cs _

/-- A rule does not reach beyond the input. -/
theorem rule_le (depth : Nat) (cs : List α) : rule depth cs ≤ cs.length := by
  fun_induction rule depth cs with
  | case1 => exact Nat.le_refl 0
  | case2 _ c cs _ ih => exact Nat.add_le_add_right ih 1
  | case3 _ c cs _ ih => exact Nat.add_le_add_right ih 1
  | case4 _ c cs _ ih => exact Nat.add_le_add_right ih 1
  | case5 _ c cs _ ih => exact Nat.add_le_add_right ih 1
  | case6 c cs => exact Nat.le_add_left 1 cs.length
  | case7 _ c cs _ _ ih => exact Nat.add_le_add_right ih 1
  | case8 c cs => exact Nat.zero_le _
  | case9 _ c cs _ _ ih => exact Nat.add_le_add_right ih 1
  | case10 _ c cs => exact Nat.add_le_add_right (block_le 0 cs) 1
  | case11 _ c cs _ _ _ _ _ _ _ ih => exact Nat.add_le_add_right (skip_le (unit_le c cs) ih) 1

/-! ### The target of a no-flip comment -/

/-- The number of letters of the blanks and comments at the front. -/
def trivia : List α → Nat
  | [] => 0
  | c :: cs =>
    if sign c = .blank then trivia cs + 1
    else if opensComment c cs then
      comment cs.tail + 1 + trivia (cs.drop (comment cs.tail + 1)) + 1
    else 0
termination_by cs => cs.length
decreasing_by
  · exact Nat.lt_succ_self _
  · exact length_drop_lt c cs _

/-- Trivia do not reach beyond the input. -/
theorem trivia_le (cs : List α) : trivia cs ≤ cs.length := by
  fun_induction trivia cs with
  | case1 => exact Nat.le_refl 0
  | case2 c cs _ ih => exact Nat.add_le_add_right ih 1
  | case3 c cs _ h ih => exact Nat.add_le_add_right (skip_le (comment_tail_le h) ih) 1
  | case4 => exact Nat.zero_le _

/-- The number of letters that a no-flip comment guards, from its end on: none if nothing more follows
in the block, and otherwise all up to the end of the declaration or rule that follows. -/
def target (cs : List α) : Nat :=
  match cs.drop (trivia cs) with
  | [] => 0
  | c :: ds => if sign c = .closeBrace then 0 else trivia cs + rule 0 (c :: ds)

/-- A target does not reach beyond the input. -/
theorem target_le (cs : List α) : target cs ≤ cs.length := by
  unfold target
  split
  · exact Nat.zero_le _
  next c ds h =>
    split
    · exact Nat.zero_le _
    · exact skip_le (trivia_le cs) (h ▸ rule_le 0 (c :: ds))

end Extent

end BidiSheet
