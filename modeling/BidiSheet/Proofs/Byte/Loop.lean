import BidiSheet.Proofs.Byte.Extent

/-!
# Scanners as loops over bytes

A scanner can be written as a loop that moves an offset through the bytes of a text. It looks at single bytes. It steps
over a backslash and the byte behind it at once, and that byte may be the first of several bytes of a character, or be
missing. Nothing in the form of such a loop says that it ends, that it ends between two characters, or that it counts no
closing brace too many. So the answers of loops are partial: a loop is the repetition of its turn (`PFun.fix`), which
has no answer if it never ends, or if a count would fall below zero.

* `Loop.comment_eq`, `Loop.string_eq`, …: each loop has an answer, and it leaves unread what its extent leaves of the
  bytes.
-/

namespace BidiSheet

open HasSign (sign)

namespace Loop

/-! ### Turns -/

section

variable {α σ : Type}

/-- The loop ends with an answer. -/
def stop (answer : α) : Part (α ⊕ σ) := .some (.inl answer)

/-- The loop goes on from another state. -/
def go (state : σ) : Part (α ⊕ σ) := .some (.inr state)

variable {turn : σ → Part (α ⊕ σ)} {state state' : σ} {answer : α}

/-- A loop whose turn ends it has that answer. -/
theorem fix_of_stop (h : turn state = stop answer) : PFun.fix turn state = .some answer :=
  Part.eq_some_iff.mpr (PFun.fix_stop (Part.eq_some_iff.mp h))

/-- A loop whose turn goes on has the answer that it has from there. -/
theorem fix_of_go (h : turn state = go state') : PFun.fix turn state = PFun.fix turn state' :=
  PFun.fix_fwd_eq (Part.eq_some_iff.mp h)

end

/-! ### Loops -/

variable (bs : List UInt8)

/-- The sign of the byte at an offset, if there is one. -/
def look (i : Nat) : Option Sign := bs[i]?.map sign

/-- Whether a comment opens at an offset. -/
def opensComment (i : Nat) : Bool := look bs i = some .slash && look bs (i + 1) = some .star

/-- A turn in a comment, which ends with a star and a slash. -/
def commentTurn (i : Nat) : Part (Nat ⊕ Nat) :=
  if i + 1 < bs.length then
    if look bs i = some .star ∧ look bs (i + 1) = some .slash then stop (i + 2) else go (i + 1)
  else stop bs.length

/-- The end of the comment that opens at `start`. -/
def comment (start : Nat) : Part Nat := PFun.fix (commentTurn bs) (start + 2)

/-- A turn in a string, which ends with its quote. -/
def stringTurn (quote : Sign) (i : Nat) : Part (Nat ⊕ Nat) :=
  match look bs i with
  | none => stop bs.length
  | some s =>
    if s = .backslash then go (i + 2)
    else if s = quote then stop (i + 1)
    else go (i + 1)

/-- The end of the string whose quote stands at `start`. -/
def string (start : Nat) : Part Nat :=
  match look bs start with
  | none => .none
  | some quote => PFun.fix (stringTurn bs quote) (start + 1)

/-- A turn in a url, which ends with a closing bracket. -/
def urlTurn (i : Nat) : Part (Nat ⊕ Nat) :=
  match look bs i with
  | none => stop bs.length
  | some s =>
    if s = .closeRound then stop (i + 1)
    else if s.isQuote then (string bs i).bind go
    else if s = .backslash then go (i + 2)
    else go (i + 1)

/-- The end of the url that begins at `start`. -/
def url (start : Nat) : Part Nat := PFun.fix (urlTurn bs) (start + 4)

/-- The offset behind the string, the comment, the escape or the byte at an offset. -/
def unit (i : Nat) : Part Nat :=
  if (look bs i).any Sign.isQuote then string bs i
  else if opensComment bs i then comment bs i
  else if look bs i = some .backslash then .some (i + 2)
  else .some (i + 1)

/-- Where the loops of blocks and rules are: an offset, and the number of blocks or brackets that are open there. -/
structure Cursor where
  depth : Nat
  pos : Nat

/-- A turn in a block, which ends where all its braces are closed. -/
def blockTurn : Cursor → Part (Nat ⊕ Cursor)
  | ⟨depth, i⟩ =>
    match look bs i with
    | none => stop bs.length
    | some .openBrace => go ⟨depth + 1, i + 1⟩
    | some .closeBrace =>
      match depth with
      | 0 => .none
      | inner + 1 => if inner = 0 then stop (i + 1) else go ⟨inner, i + 1⟩
    | some _ => (unit bs i).bind fun j => go ⟨depth, j⟩

/-- The end of the block whose brace stands at `start`. -/
def block (start : Nat) : Part Nat := PFun.fix (blockTurn bs) ⟨0, start⟩

/-- A turn in a declaration or rule. -/
def ruleTurn : Cursor → Part (Nat ⊕ Cursor)
  | ⟨depth, i⟩ =>
    match look bs i with
    | none => stop bs.length
    | some .openRound | some .openSquare => go ⟨depth + 1, i + 1⟩
    | some .closeRound | some .closeSquare => go ⟨depth - 1, i + 1⟩
    | some .semicolon => if depth = 0 then stop (i + 1) else go ⟨depth, i + 1⟩
    | some .closeBrace => if depth = 0 then stop i else go ⟨depth, i + 1⟩
    | some .openBrace => (block bs i).bind stop
    | some _ => (unit bs i).bind fun j => go ⟨depth, j⟩

/-- The end of the declaration or rule that begins at `start`. -/
def rule (start : Nat) : Part Nat := PFun.fix (ruleTurn bs) ⟨0, start⟩

/-- A turn in blanks and comments. -/
def triviaTurn (i : Nat) : Part (Nat ⊕ Nat) :=
  if look bs i = some .blank then go (i + 1)
  else if opensComment bs i then (comment bs i).bind go
  else stop i

/-- The offset behind the blanks and comments at `start`. -/
def trivia (start : Nat) : Part Nat := PFun.fix (triviaTurn bs) start

/-- The end of what a no-flip comment guards that ends at `start`. -/
def target (start : Nat) : Part Nat :=
  (trivia bs start).bind fun i =>
    if look bs i = none ∨ look bs i = some .closeBrace then .some start else rule bs i

/-! ### What a loop leaves unread -/

variable {bs} {i : Nat} {c : UInt8} {cs rest : List UInt8}

/-- The offset at which a rest of the bytes begins. -/
def offset (bs rest : List UInt8) : Nat := bs.length - rest.length

/-- A rest of the bytes begins at its offset. -/
theorem drop_offset (h : rest <:+ bs) : bs.drop (offset bs rest) = rest :=
  (List.suffix_iff_eq_drop.mp h).symm

/-- The offset of what is left at a place is that place. -/
theorem offset_of_drop (h : bs.drop i = cs) (hi : i ≤ bs.length) : offset bs cs = i := by
  rw [offset, ← h, List.length_drop]
  omega

/-- What is left behind a place is a rest of the bytes. -/
theorem suffix_of_drop (h : bs.drop i = cs) (n : Nat) : cs.drop n <:+ bs := by
  rw [← h]
  exact (List.drop_suffix _ _).trans (List.drop_suffix _ _)

/-- One byte further the rest is shorter by its first byte. -/
theorem drop_succ (h : bs.drop i = c :: cs) : bs.drop (i + 1) = cs := by
  rw [List.drop_add_one_eq_tail_drop, h, List.tail_cons]

/-- Further on more is left out of the rest. -/
theorem drop_add (h : bs.drop i = c :: cs) (n : Nat) : bs.drop (i + 1 + n) = cs.drop n := by
  rw [← List.drop_drop, drop_succ h]

/-- Where a byte is left the end is not reached. -/
theorem lt_length (h : bs.drop i = c :: cs) : i < bs.length := by
  by_contra hlt
  rw [List.drop_eq_nil_of_le (Nat.not_lt.mp hlt)] at h
  cases h

/-- Behind the first byte of a rest the offset is one further. -/
theorem offset_succ (h : bs.drop i = c :: cs) : offset bs cs = i + 1 :=
  offset_of_drop (drop_succ h) (lt_length h)

/-- What is left of the bytes begins with the byte at the offset. -/
theorem getElem?_of_drop (h : bs.drop i = c :: cs) : bs[i]? = some c := by
  rw [← List.head?_drop, h, List.head?_cons]

/-- What is seen at an offset is the sign of the first byte that is left. -/
theorem look_eq (i : Nat) : look bs i = (bs.drop i).head?.map sign := by
  rw [look, List.head?_drop]

theorem look_nil (h : bs.drop i = []) : look bs i = none := by
  rw [look_eq, h]
  rfl

/-- The first byte that is left is seen. -/
theorem look_cons (h : bs.drop i = c :: cs) : look bs i = some (sign c) := by
  rw [look_eq, h]
  rfl

/-- Whether a comment opens is seen from the bytes that are left. -/
theorem opensComment_cons (h : bs.drop i = c :: cs) : opensComment bs i = Extent.opensComment c cs := by
  rw [opensComment, look_cons h, look_eq, drop_succ h, Extent.opensComment]
  cases cs <;> simp

/-! ### Comments, strings and urls -/

/-- The loop of comments ends where the extent of a comment does. -/
theorem fix_commentTurn (h : bs.drop i = cs) :
    PFun.fix (commentTurn bs) i = .some (offset bs (cs.drop (Extent.comment cs))) := by
  fun_induction Extent.comment cs generalizing i with
  | case1 =>
    have hle : bs.length ≤ i := List.drop_eq_nil_iff.mp h
    exact fix_of_stop (if_neg (by omega))
  | case2 c =>
    have hle : bs.length ≤ i + 1 := List.drop_eq_nil_iff.mp (drop_succ h)
    exact fix_of_stop (if_neg (by omega))
  | case3 c d cs hend =>
    have hnext := drop_succ h
    have hturn : commentTurn bs i = stop (i + 2) := by
      rw [commentTurn, if_pos (lt_length hnext), look_cons h, look_cons hnext, hend.1, hend.2, if_pos ⟨rfl, rfl⟩]
    rw [fix_of_stop hturn]
    exact congrArg Part.some (offset_succ hnext).symm
  | case4 c d cs hgo ih =>
    have hnext := drop_succ h
    have hturn : commentTurn bs i = go (i + 1) := by
      rw [commentTurn, if_pos (lt_length hnext), look_cons h, look_cons hnext, if_neg (by simpa using hgo)]
    rw [fix_of_go hturn, ih hnext, List.drop_succ_cons]

/-- A comment ends where its extent does behind its first two bytes. -/
theorem comment_eq {d : UInt8} (h : bs.drop i = c :: d :: cs) :
    comment bs i = .some (offset bs (cs.drop (Extent.comment cs))) :=
  fix_commentTurn (drop_succ (drop_succ h))

/-- The loop of strings ends where the extent of a string does. -/
theorem fix_stringTurn {quote : Sign} (h : bs.drop i = cs) :
    PFun.fix (stringTurn bs quote) i = .some (offset bs (cs.drop (Extent.string quote cs))) := by
  fun_induction Extent.string quote cs generalizing i with
  | case1 =>
    have hturn : stringTurn bs quote i = stop bs.length := by rw [stringTurn, look_nil h]
    exact fix_of_stop hturn
  | case2 c hc =>
    -- the backslash is the last byte, and the loop steps past the end
    have hturn : stringTurn bs quote i = go (i + 2) := by simp [stringTurn, look_cons h, hc]
    have hlast : stringTurn bs quote (i + 2) = stop bs.length := by rw [stringTurn, look_nil (drop_add h 1)]
    rw [fix_of_go hturn]
    exact fix_of_stop hlast
  | case3 c hc d ds ih =>
    have hturn : stringTurn bs quote i = go (i + 2) := by simp [stringTurn, look_cons h, hc]
    rw [fix_of_go hturn, ih (drop_add h 1)]
    rfl
  | case4 c cs hb hc =>
    have hturn : stringTurn bs quote i = stop (i + 1) := by
      simp only [stringTurn, look_cons h, if_neg hb, if_pos hc]
    rw [fix_of_stop hturn]
    exact congrArg Part.some (offset_succ h).symm
  | case5 c cs hb hc ih =>
    have hturn : stringTurn bs quote i = go (i + 1) := by
      simp only [stringTurn, look_cons h, if_neg hb, if_neg hc]
    rw [fix_of_go hturn, ih (drop_succ h), List.drop_succ_cons]

/-- A string ends where its extent does behind its quote. -/
theorem string_eq (h : bs.drop i = c :: cs) :
    string bs i = .some (offset bs (cs.drop (Extent.string (sign c) cs))) := by
  rw [string, look_cons h]
  exact fix_stringTurn (drop_succ h)

/-- A backslash at the end has no letter to take along. -/
theorem drop_escape (cs : List UInt8) : cs.drop (min 1 cs.length) = cs.drop 1 := by
  cases cs with
  | nil => rfl
  | cons d ds => rw [List.length_cons, Nat.min_eq_left (Nat.le_add_left 1 _)]

/-- The loop of urls ends where the extent of a url does. -/
theorem fix_urlTurn (h : bs.drop i = cs) :
    PFun.fix (urlTurn bs) i = .some (offset bs (cs.drop (Extent.url cs))) := by
  fun_induction Extent.url cs generalizing i with
  | case1 =>
    have hturn : urlTurn bs i = stop bs.length := by rw [urlTurn, look_nil h]
    exact fix_of_stop hturn
  | case2 c cs hc =>
    have hturn : urlTurn bs i = stop (i + 1) := by simp only [urlTurn, look_cons h, if_pos hc]
    rw [fix_of_stop hturn]
    exact congrArg Part.some (offset_succ h).symm
  | case3 c cs hc hq ih =>
    have hturn : urlTurn bs i = go (offset bs (cs.drop (Extent.string (sign c) cs))) := by
      simp only [urlTurn, look_cons h, if_neg hc, if_pos hq, string_eq h, Part.bind_some]
    rw [fix_of_go hturn, ih (drop_offset (suffix_of_drop (drop_succ h) _)), List.drop_succ_cons, List.drop_drop]
  | case4 c cs hc hq hb ih =>
    have hturn : urlTurn bs i = go (i + 2) := by
      simp only [urlTurn, look_cons h, if_neg hc, if_neg hq, if_pos hb]
    rw [fix_of_go hturn, ih (drop_add h 1), List.drop_succ_cons, ← List.drop_drop, drop_escape]
  | case5 c cs hc hq hb ih =>
    have hturn : urlTurn bs i = go (i + 1) := by
      simp only [urlTurn, look_cons h, if_neg hc, if_neg hq, if_neg hb]
    rw [fix_of_go hturn, ih (drop_succ h), List.drop_succ_cons]

/-! ### Blocks and rules -/

/-- A loop goes on behind the unit. -/
theorem unit_eq (h : bs.drop i = c :: cs) :
    ∃ j, unit bs i = .some j ∧ bs.drop j = cs.drop (Extent.unit c cs) := by
  unfold unit Extent.unit
  rw [look_cons h, opensComment_cons h, Option.any_some]
  by_cases hq : (sign c).isQuote = true
  · rw [if_pos hq, if_pos hq]
    exact ⟨_, string_eq h, drop_offset (suffix_of_drop (drop_succ h) _)⟩
  rw [if_neg hq, if_neg hq]
  by_cases ho : Extent.opensComment c cs = true
  · rw [if_pos ho, if_pos ho]
    cases cs with
    | nil => simp [Extent.opensComment] at ho
    | cons d ds => exact ⟨_, comment_eq h, drop_offset (suffix_of_drop (drop_succ (drop_succ h)) _)⟩
  rw [if_neg ho, if_neg ho]
  by_cases hb : sign c = .backslash
  · rw [if_pos (by rw [hb]), if_pos hb]
    exact ⟨i + 2, rfl, (drop_add h 1).trans (drop_escape cs).symm⟩
  · rw [if_neg (by simpa using hb), if_neg hb]
    exact ⟨i + 1, rfl, drop_succ h⟩

/-- Within a block at least one block is open, so no brace closes more blocks than are open. -/
theorem fix_blockTurn {inner : Nat} (h : bs.drop i = cs) :
    PFun.fix (blockTurn bs) ⟨inner + 1, i⟩ = .some (offset bs (cs.drop (Extent.block inner cs))) := by
  fun_induction Extent.block inner cs generalizing i with
  | case1 inner =>
    have hturn : blockTurn bs ⟨inner + 1, i⟩ = stop bs.length := by rw [blockTurn, look_nil h]
    exact fix_of_stop hturn
  | case2 inner c cs hc ih =>
    have hturn : blockTurn bs ⟨inner + 1, i⟩ = go ⟨inner + 1 + 1, i + 1⟩ := by rw [blockTurn, look_cons h, hc]
    rw [fix_of_go hturn, ih (drop_succ h), List.drop_succ_cons]
  | case3 c cs ho hc =>
    have hturn : blockTurn bs ⟨0 + 1, i⟩ = stop (i + 1) := by simp [blockTurn, look_cons h, hc]
    rw [fix_of_stop hturn]
    exact congrArg Part.some (offset_succ h).symm
  | case4 c cs ho hc inner ih =>
    have hturn : blockTurn bs ⟨inner + 1 + 1, i⟩ = go ⟨inner + 1, i + 1⟩ := by simp [blockTurn, look_cons h, hc]
    rw [fix_of_go hturn, ih (drop_succ h), List.drop_succ_cons]
  | case5 inner c cs ho hc ih =>
    obtain ⟨j, hj, hrest⟩ := unit_eq h
    have hturn : blockTurn bs ⟨inner + 1, i⟩ = go ⟨inner + 1, j⟩ := by
      rw [blockTurn, look_cons h]
      split
      next heq => cases heq
      next heq => exact absurd (Option.some.inj heq) ho
      next heq => exact absurd (Option.some.inj heq) hc
      next => rw [hj, Part.bind_some]
    rw [fix_of_go hturn, ih hrest, List.drop_succ_cons, List.drop_drop]

/-- A block ends where its extent does behind its brace. -/
theorem block_eq (h : bs.drop i = c :: cs) (hc : sign c = .openBrace) :
    block bs i = .some (offset bs (cs.drop (Extent.block 0 cs))) := by
  have hturn : blockTurn bs ⟨0, i⟩ = go ⟨0 + 1, i + 1⟩ := by rw [blockTurn, look_cons h, hc]
  rw [block, fix_of_go hturn, fix_blockTurn (drop_succ h)]

/-- A byte without meaning for rules begins a unit. -/
theorem ruleTurn_unit (h : bs.drop i = c :: cs) (hs : Extent.isRuleSign (sign c) = false) (depth : Nat) :
    ruleTurn bs ⟨depth, i⟩ = (unit bs i).bind fun j => go ⟨depth, j⟩ := by
  rw [ruleTurn, look_cons h]
  split <;> simp_all [Extent.isRuleSign]

/-- The loop of rules ends where the extent of a rule does. -/
theorem fix_ruleTurn (h : bs.drop i = cs) (depth : Nat) :
    PFun.fix (ruleTurn bs) ⟨depth, i⟩ = .some (offset bs (cs.drop (Extent.rule depth cs))) := by
  fun_induction Extent.rule depth cs generalizing i with
  | case1 depth =>
    have hturn : ruleTurn bs ⟨depth, i⟩ = stop bs.length := by rw [ruleTurn, look_nil h]
    exact fix_of_stop hturn
  | case2 depth c cs hc ih | case3 depth c cs hc ih =>
    have hturn : ruleTurn bs ⟨depth, i⟩ = go ⟨depth + 1, i + 1⟩ := by rw [ruleTurn, look_cons h, hc]
    rw [fix_of_go hturn, ih (drop_succ h), List.drop_succ_cons]
  | case4 depth c cs hc ih | case5 depth c cs hc ih =>
    have hturn : ruleTurn bs ⟨depth, i⟩ = go ⟨depth - 1, i + 1⟩ := by rw [ruleTurn, look_cons h, hc]
    rw [fix_of_go hturn, ih (drop_succ h), List.drop_succ_cons]
  | case6 c cs hc =>
    have hturn : ruleTurn bs ⟨0, i⟩ = stop (i + 1) := by simp [ruleTurn, look_cons h, hc]
    rw [fix_of_stop hturn]
    exact congrArg Part.some (offset_succ h).symm
  | case7 depth c cs hc hdepth ih | case9 depth c cs hc hdepth ih =>
    have hturn : ruleTurn bs ⟨depth, i⟩ = go ⟨depth, i + 1⟩ := by simp [ruleTurn, look_cons h, hc, hdepth]
    rw [fix_of_go hturn, ih (drop_succ h), List.drop_succ_cons]
  | case8 c cs hc =>
    have hturn : ruleTurn bs ⟨0, i⟩ = stop i := by simp [ruleTurn, look_cons h, hc]
    rw [fix_of_stop hturn, List.drop_zero, offset_of_drop h (Nat.le_of_lt (lt_length h))]
  | case10 depth c cs hc =>
    have hturn : ruleTurn bs ⟨depth, i⟩ = stop (offset bs (cs.drop (Extent.block 0 cs))) := by
      simp only [ruleTurn, look_cons h, hc, block_eq h hc, Part.bind_some]
    rw [fix_of_stop hturn, List.drop_succ_cons]
  | case11 depth c cs h1 h2 h3 h4 h5 h6 h7 ih =>
    obtain ⟨j, hj, hrest⟩ := unit_eq h
    have hturn : ruleTurn bs ⟨depth, i⟩ = go ⟨depth, j⟩ := by
      rw [ruleTurn_unit h (by simp_all [Extent.isRuleSign]), hj, Part.bind_some]
    rw [fix_of_go hturn, ih hrest, List.drop_succ_cons, List.drop_drop]

/-- A rule ends where its extent does. -/
theorem rule_eq (h : bs.drop i = cs) : rule bs i = .some (offset bs (cs.drop (Extent.rule 0 cs))) :=
  fix_ruleTurn h 0

/-! ### Targets -/

/-- The loop of trivia ends where their extent does. -/
theorem trivia_eq (h : bs.drop i = cs) (hi : i ≤ bs.length) :
    trivia bs i = .some (offset bs (cs.drop (Extent.trivia cs))) := by
  unfold trivia
  fun_induction Extent.trivia cs generalizing i with
  | case1 =>
    have hturn : triviaTurn bs i = stop i := by simp [triviaTurn, opensComment, look_nil h]
    rw [fix_of_stop hturn, List.drop_zero, offset_of_drop h hi]
  | case2 c cs hc ih =>
    have hturn : triviaTurn bs i = go (i + 1) := by rw [triviaTurn, look_cons h, hc, if_pos rfl]
    rw [fix_of_go hturn, ih (drop_succ h) (lt_length h), List.drop_succ_cons]
  | case3 c cs hc ho ih =>
    cases cs with
    | nil => simp [Extent.opensComment] at ho
    | cons d ds =>
      have hturn : triviaTurn bs i = go (offset bs (ds.drop (Extent.comment ds))) := by
        rw [triviaTurn, if_neg (by simpa [look_cons h] using hc), opensComment_cons h, if_pos ho, comment_eq h,
          Part.bind_some]
      have hrest := drop_offset (suffix_of_drop (drop_succ (drop_succ h)) (Extent.comment ds))
      rw [fix_of_go hturn, ih hrest (Nat.sub_le _ _), List.drop_drop]
      rfl
  | case4 c cs hc ho =>
    have hturn : triviaTurn bs i = stop i := by
      rw [triviaTurn, if_neg (by simpa [look_cons h] using hc), opensComment_cons h, if_neg ho]
    rw [fix_of_stop hturn, List.drop_zero, offset_of_drop h hi]

/-- The target of a no-flip comment ends where its extent does. -/
theorem target_eq (h : bs.drop i = cs) (hi : i ≤ bs.length) :
    target bs i = .some (offset bs (cs.drop (Extent.target cs))) := by
  have hdrop := drop_offset (suffix_of_drop h (Extent.trivia cs))
  rw [target, trivia_eq h hi, Part.bind_some, Extent.target]
  cases hrest : cs.drop (Extent.trivia cs) with
  | nil =>
    rw [hrest] at hdrop
    rw [look_nil hdrop, if_pos (.inl rfl)]
    exact congrArg Part.some (offset_of_drop h hi).symm
  | cons c ds =>
    rw [hrest] at hdrop
    by_cases hc : sign c = .closeBrace
    · rw [look_cons hdrop, if_pos (.inr (congrArg some hc))]
      simp only [if_pos hc]
      exact congrArg Part.some (offset_of_drop h hi).symm
    · rw [look_cons hdrop, if_neg (by simpa using hc), rule_eq hdrop]
      simp only [if_neg hc]
      rw [← List.drop_drop, hrest]

end Loop

end BidiSheet
