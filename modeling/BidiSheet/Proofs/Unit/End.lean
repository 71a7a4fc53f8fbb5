import BidiSheet.Proofs.Unit

/-!
# Where constructs end

With a text cut into units, where a block, a rule or the target of a no-flip comment ends is a matter of the
list of units alone: of the brackets that are open before a unit, and of braces that are counted
(`BlockEnds`, `RuleEnds`, `Guards`).

* `blockEnds_iff`, `ruleEnds_iff`, `guards_iff`: the scanners find the one place where the units say that the
  construct ends.
-/

namespace BidiSheet

open HasSign (sign)

namespace Extent

variable {α : Type} [HasSign α]

/-! ### Endings -/

/-- Whether a unit is a single letter with the sign `s`. -/
def isSign (s : Sign) : List α → Bool
  | [c] => sign c = s
  | _ => false

/-- No more braces are closed than are opened, with `inner` of them open at the beginning, and so the brace
before them stays open. -/
def Pending (inner : Nat) (us : List (List α)) : Prop :=
  ∀ vs, vs <+: us → vs.countP (isSign .closeBrace) ≤ vs.countP (isSign .openBrace) + inner

instance decidablePending (inner : Nat) (us : List (List α)) : Decidable (Pending inner us) :=
  decidable_of_iff (∀ vs ∈ us.inits, vs.countP (isSign .closeBrace) ≤ vs.countP (isSign .openBrace) + inner)
    (by simp only [List.mem_inits, Pending])

/-- Where a block ends, by its units after the opening brace: behind the closing brace that balances it,
or else at the end of the input. `inner` more blocks are open within it at the beginning. -/
inductive BlockEnds (inner : Nat) : List (List α) → Nat → Prop where
  | never {us : List (List α)} (h : Pending inner us) : BlockEnds inner us us.flatten.length
  | balanced {vs ws : List (List α)} {u : List α} (h : Pending inner vs)
      (hcount : vs.countP (isSign .closeBrace) = vs.countP (isSign .openBrace) + inner)
      (hu : isSign .closeBrace u = true) : BlockEnds inner (vs ++ u :: ws) (vs.flatten.length + 1)

/-- The number of open brackets after a unit. A closing bracket outside all brackets is ignored. -/
def bracketsAfter (depth : Nat) (u : List α) : Nat :=
  if isSign .openRound u || isSign .openSquare u then depth + 1
  else if isSign .closeRound u || isSign .closeSquare u then depth - 1
  else depth

/-- Whether a declaration ends, or a block opens, at a unit with `depth` brackets open before it. -/
def halts (depth : Nat) (u : List α) : Bool :=
  isSign .openBrace u || decide (depth = 0) && (isSign .semicolon u || isSign .closeBrace u)

/-- At none of its units a declaration ends or a block opens, with `depth` brackets open at the beginning. -/
def Calm (depth : Nat) (us : List (List α)) : Prop :=
  ∀ vs u ws, us = vs ++ u :: ws → halts (vs.foldl bracketsAfter depth) u = false

/-- Where a declaration or rule ends, behind the units before `u`, once it comes to `u`: behind a semicolon,
before a closing brace, or where the block that `u` opens ends. -/
inductive EndsAt (u : List α) (ws : List (List α)) : Nat → Prop where
  | semicolon (h : isSign .semicolon u = true) : EndsAt u ws 1
  | closeBrace (h : isSign .closeBrace u = true) : EndsAt u ws 0
  | openBrace {n : Nat} (h : isSign .openBrace u = true) (hblock : BlockEnds 0 ws n) :
      EndsAt u ws (n + 1)

/-- Where a declaration or rule ends, by its units, with `depth` brackets open at the beginning. -/
inductive RuleEnds (depth : Nat) : List (List α) → Nat → Prop where
  | never {us : List (List α)} (h : Calm depth us) : RuleEnds depth us us.flatten.length
  | first {vs ws : List (List α)} {u : List α} {n : Nat} (h : Calm depth vs)
      (hu : halts (vs.foldl bracketsAfter depth) u = true) (hend : EndsAt u ws n) :
      RuleEnds depth (vs ++ u :: ws) (vs.flatten.length + n)

/-- Whether a unit is a blank or a comment. -/
def isTrivia : List α → Bool
  | [] => false
  | [c] => sign c = .blank
  | c :: d :: _ => sign c = .slash && sign d = .star

/-- Whether nothing more follows in a block. -/
def isOver (us : List (List α)) : Bool := us.head?.all (isSign .closeBrace)

/-- How far a no-flip comment guards, by the units that follow it: no further if only blanks and comments
follow in the block, and otherwise up to the end of the declaration or rule behind them. -/
inductive Guards (us : List (List α)) : Nat → Prop where
  | nothing (h : isOver (us.dropWhile isTrivia) = true) : Guards us 0
  | rule {n : Nat} (h : isOver (us.dropWhile isTrivia) = false)
      (hrule : RuleEnds 0 (us.dropWhile isTrivia) n) :
      Guards us ((us.takeWhile isTrivia).flatten.length + n)

/-! ### Blocks -/

section signs

variable {c : α} {s : Sign}

/-- A single letter is its own sign. -/
theorem isSign_singleton (h : sign c = s) : isSign s [c] = true := by
  rw [isSign, decide_eq_true h]

/-- A unit that begins with another sign is not this one. -/
theorem isSign_of_ne (h : sign c ≠ s) (u : List α) : isSign s (c :: u) = false := by
  cases u with
  | nil => rw [isSign, decide_eq_false h]
  | cons => rfl

/-- A unit is one sign only. -/
theorem isSign_eq_false {s' : Sign} {u : List α} (h : isSign s u = true) (hne : s ≠ s') :
    isSign s' u = false := by
  match u, h with
  | [c], h =>
    have hc : sign c = s := by simpa [isSign] using h
    exact isSign_of_ne (hc ▸ hne) []

/-- A sign is a single letter. -/
theorem exists_of_isSign {u : List α} (h : isSign s u = true) : ∃ c, u = [c] ∧ sign c = s := by
  match u, h with
  | [c], h => exact ⟨c, rfl, by simpa [isSign] using h⟩

end signs

theorem pending_nil (inner : Nat) : Pending inner ([] : List (List α)) := by
  intro vs hvs
  rw [List.prefix_nil.mp hvs]
  exact Nat.zero_le _

/-- How many blocks are open within a block after a unit. -/
def Steps (inner : Nat) (u : List α) (inner' : Nat) : Prop :=
  inner' + (if isSign .closeBrace u then 1 else 0) = inner + (if isSign .openBrace u then 1 else 0)

section block

variable {inner inner' : Nat} {u : List α} {us : List (List α)} {n : Nat}

/-- A block stays open exactly if it does behind the first step. -/
theorem pending_cons_iff (h : Steps inner u inner') : Pending inner (u :: us) ↔ Pending inner' us := by
  unfold Steps at h
  constructor
  · intro hp vs hvs
    have hle := hp (u :: vs) (List.cons_prefix_cons.mpr ⟨rfl, hvs⟩)
    rw [List.countP_cons, List.countP_cons] at hle
    omega
  · intro hp vs hvs
    cases vs with
    | nil => exact Nat.zero_le _
    | cons v vs =>
      obtain ⟨rfl, hprefix⟩ := List.cons_prefix_cons.mp hvs
      have hle := hp vs hprefix
      rw [List.countP_cons, List.countP_cons]
      omega

/-- A block without units ends at once. -/
theorem blockEnds_nil_iff : BlockEnds inner ([] : List (List α)) n ↔ n = 0 := by
  constructor
  · intro h
    generalize hus : ([] : List (List α)) = us at h
    cases h with
    | never => rw [← hus]; rfl
    | balanced => exact absurd hus.symm (by simp)
  · rintro rfl
    exact .never (pending_nil inner)

/-- A unit that does not close the block is followed by the rest of the block. -/
theorem blockEnds_cons_iff (h : Steps inner u inner') :
    BlockEnds inner (u :: us) n ↔ ∃ m, BlockEnds inner' us m ∧ n = m + u.length := by
  constructor
  · intro hends
    generalize hus : u :: us = ws at hends
    cases hends with
    | never hp =>
      rw [← hus] at hp
      rw [← hus, List.flatten_cons, List.length_append, Nat.add_comm]
      exact ⟨_, .never ((pending_cons_iff h).mp hp), rfl⟩
    | @balanced vs ws v hp hcount hv =>
      cases vs with
      | nil =>
        -- then the unit itself would close the block
        obtain ⟨rfl, -⟩ := List.cons.inj hus
        have hzero : inner = 0 := by simpa using hcount.symm
        rw [Steps, if_pos hv, isSign_eq_false hv (by decide), hzero] at h
        simp at h
      | cons v' vs =>
        obtain ⟨rfl, rfl⟩ := List.cons.inj hus
        refine ⟨_, .balanced ((pending_cons_iff h).mp hp) ?_ hv, ?_⟩
        · unfold Steps at h
          rw [List.countP_cons, List.countP_cons] at hcount
          omega
        · rw [List.flatten_cons, List.length_append]
          omega
  · rintro ⟨m, hends, rfl⟩
    cases hends with
    | never hp =>
      have hnever : BlockEnds inner (u :: us) (u :: us).flatten.length := .never ((pending_cons_iff h).mpr hp)
      rwa [List.flatten_cons, List.length_append, Nat.add_comm] at hnever
    | @balanced vs ws v hp hcount hv =>
      have hcount' : (u :: vs).countP (isSign .closeBrace)
          = (u :: vs).countP (isSign .openBrace) + inner := by
        unfold Steps at h
        rw [List.countP_cons, List.countP_cons]
        omega
      have hbalanced : BlockEnds inner (u :: vs ++ v :: ws) ((u :: vs).flatten.length + 1) :=
        .balanced ((pending_cons_iff h).mpr hp) hcount' hv
      rw [List.flatten_cons, List.length_append] at hbalanced
      rw [show vs.flatten.length + 1 + u.length = u.length + vs.flatten.length + 1 by omega]
      exact hbalanced

/-- The last closing brace ends a block. -/
theorem blockEnds_close_iff (hu : isSign .closeBrace u = true) : BlockEnds 0 (u :: us) n ↔ n = 1 := by
  constructor
  · intro hends
    have hone : ¬ Pending 0 [u] := by
      intro hp
      have hle := hp [u] (List.prefix_refl _)
      rw [List.countP_singleton, List.countP_singleton, if_pos hu,
        isSign_eq_false hu (by decide)] at hle
      simp at hle
    generalize hus : u :: us = ws at hends
    cases hends with
    | never hp =>
      rw [← hus] at hp
      exact absurd (fun vs hvs => hp vs (hvs.trans ⟨us, rfl⟩)) hone
    | @balanced vs ws v hp hcount hv =>
      cases vs with
      | nil => rfl
      | cons v' vs =>
        obtain ⟨rfl, -⟩ := List.cons.inj hus
        exact absurd (fun xs hxs => hp xs (hxs.trans ⟨vs, rfl⟩)) hone
  · rintro rfl
    exact BlockEnds.balanced (pending_nil 0) rfl hu

end block

/-- **The scanner of blocks stops where the units say that the block ends.** -/
theorem blockEnds_iff {inner : Nat} {t : List α} {us : List (List α)} {n : Nat} (h : CutsInto t us) :
    BlockEnds inner us n ↔ n = block inner t := by
  fun_induction block inner t generalizing us n with
  | case1 inner =>
    rw [cutsInto_nil_iff.mp h]
    exact blockEnds_nil_iff
  | case2 inner c cs hc ih =>
    obtain ⟨vs, rfl, hvs⟩ := cutsInto_cons_iff.mp h
    rw [unit_eq_zero (by simp [hc, Sign.isQuote]) (by simp [hc]) (by simp [hc])] at hvs ⊢
    have hstep : Steps inner [c] (inner + 1) := by
      simp [Steps, isSign, hc]
    rw [List.take_zero, blockEnds_cons_iff hstep]
    simp [ih hvs]
  | case3 c cs ho hc =>
    obtain ⟨vs, rfl, hvs⟩ := cutsInto_cons_iff.mp h
    rw [unit_eq_zero (by simp [hc, Sign.isQuote]) (by simp [hc]) (by simp [hc])]
    exact blockEnds_close_iff (isSign_singleton hc)
  | case4 c cs ho hc inner ih =>
    obtain ⟨vs, rfl, hvs⟩ := cutsInto_cons_iff.mp h
    rw [unit_eq_zero (by simp [hc, Sign.isQuote]) (by simp [hc]) (by simp [hc])] at hvs ⊢
    have hstep : Steps (inner + 1) [c] inner := by
      simp [Steps, isSign, hc]
    rw [List.take_zero, blockEnds_cons_iff hstep]
    simp [ih hvs]
  | case5 inner c cs ho hc ih =>
    obtain ⟨vs, rfl, hvs⟩ := cutsInto_cons_iff.mp h
    have hstep : Steps inner (c :: cs.take (unit c cs)) inner := by
      simp [Steps, isSign_of_ne ho, isSign_of_ne hc]
    rw [blockEnds_cons_iff hstep]
    simp only [ih hvs, List.length_cons, List.length_take_of_le (unit_le c cs), exists_eq_left]
    omega

/-! ### Declarations and rules -/

section rule

variable {depth : Nat} {u : List α} {us : List (List α)} {n : Nat}

theorem calm_nil (depth : Nat) : Calm depth ([] : List (List α)) := by
  intro vs u ws h
  simp at h

/-- Units are calm if none of them halts at its own depth. -/
theorem calm_cons_iff :
    Calm depth (u :: us) ↔ halts depth u = false ∧ Calm (bracketsAfter depth u) us := by
  constructor
  · intro h
    refine ⟨h [] u us rfl, fun vs v ws hus => ?_⟩
    exact h (u :: vs) v ws (by rw [hus]; rfl)
  · rintro ⟨hu, h⟩ vs v ws hus
    cases vs with
    | nil =>
      obtain ⟨rfl, -⟩ := List.cons.inj hus
      exact hu
    | cons v' vs =>
      obtain ⟨rfl, htail⟩ := List.cons.inj hus
      exact h vs v ws htail

/-- Calm units may follow calm units, at the depth that they leave. -/
theorem calm_append_iff {vs : List (List α)} :
    Calm depth (us ++ vs) ↔ Calm depth us ∧ Calm (us.foldl bracketsAfter depth) vs := by
  induction us generalizing depth with
  | nil => simp [calm_nil]
  | cons u us ih => rw [List.cons_append, calm_cons_iff, calm_cons_iff, ih, and_assoc, List.foldl_cons]

instance decidableCalm : ∀ (depth : Nat) (us : List (List α)), Decidable (Calm depth us)
  | depth, [] => .isTrue (calm_nil depth)
  | depth, u :: us =>
    have := decidableCalm (bracketsAfter depth u) us
    decidable_of_iff _ calm_cons_iff.symm

/-- A rule without units ends at once. -/
theorem ruleEnds_nil_iff : RuleEnds depth ([] : List (List α)) n ↔ n = 0 := by
  constructor
  · intro h
    generalize hus : ([] : List (List α)) = us at h
    cases h with
    | never => rw [← hus]; rfl
    | first => exact absurd hus.symm (by simp)
  · rintro rfl
    exact .never (calm_nil depth)

/-- A unit at which a declaration neither ends nor becomes a rule is followed by the rest of it. -/
theorem ruleEnds_cons_iff (h : halts depth u = false) :
    RuleEnds depth (u :: us) n ↔ ∃ m, RuleEnds (bracketsAfter depth u) us m ∧ n = m + u.length := by
  constructor
  · intro hends
    generalize hus : u :: us = ws at hends
    cases hends with
    | never hcalm =>
      rw [← hus] at hcalm
      rw [← hus, List.flatten_cons, List.length_append, Nat.add_comm]
      exact ⟨_, .never (calm_cons_iff.mp hcalm).2, rfl⟩
    | @first vs ws v n hcalm hv hend =>
      cases vs with
      | nil =>
        obtain ⟨rfl, -⟩ := List.cons.inj hus
        rw [List.foldl_nil, h] at hv
        cases hv
      | cons v' vs =>
        obtain ⟨rfl, rfl⟩ := List.cons.inj hus
        refine ⟨_, .first (calm_cons_iff.mp hcalm).2 hv hend, ?_⟩
        rw [List.flatten_cons, List.length_append]
        omega
  · rintro ⟨m, hends, rfl⟩
    cases hends with
    | never hcalm =>
      have hnever := RuleEnds.never (calm_cons_iff.mpr ⟨h, hcalm⟩)
      rwa [List.flatten_cons, List.length_append, Nat.add_comm] at hnever
    | @first vs ws v n hcalm hv hend =>
      have hfirst := RuleEnds.first (calm_cons_iff.mpr ⟨h, hcalm⟩) hv hend
      rw [List.flatten_cons, List.length_append] at hfirst
      rw [show vs.flatten.length + n + u.length = u.length + vs.flatten.length + n by omega]
      exact hfirst

/-- The first unit that halts ends a rule. -/
theorem ruleEnds_halt_iff (h : halts depth u = true) :
    RuleEnds depth (u :: us) n ↔ EndsAt u us n := by
  constructor
  · intro hends
    generalize hus : u :: us = ws at hends
    cases hends with
    | never hcalm =>
      rw [← hus, calm_cons_iff, h] at hcalm
      cases hcalm.1
    | @first vs ws v n hcalm hv hend =>
      cases vs with
      | nil =>
        obtain ⟨rfl, rfl⟩ := List.cons.inj hus
        rwa [List.flatten_nil, List.length_nil, Nat.zero_add]
      | cons v' vs =>
        obtain ⟨rfl, -⟩ := List.cons.inj hus
        rw [calm_cons_iff, h] at hcalm
        cases hcalm.1
  · intro hend
    have hfirst : RuleEnds depth ([] ++ u :: us) (([] : List (List α)).flatten.length + n) :=
      .first (calm_nil depth) h hend
    rwa [List.flatten_nil, List.length_nil, Nat.zero_add] at hfirst

end rule

section endsAt

variable {c : α} {us : List (List α)} {n : Nat}

/-- A semicolon ends a rule and belongs to it. -/
theorem endsAt_semicolon_iff (h : sign c = .semicolon) : EndsAt [c] us n ↔ n = 1 := by
  have hsign := isSign_singleton h
  constructor
  · intro hend
    cases hend with
    | semicolon => rfl
    | closeBrace h' => rw [isSign_eq_false hsign (by decide)] at h'; cases h'
    | openBrace h' => rw [isSign_eq_false hsign (by decide)] at h'; cases h'
  · rintro rfl
    exact .semicolon hsign

/-- A closing brace ends a rule and does not belong to it. -/
theorem endsAt_closeBrace_iff (h : sign c = .closeBrace) : EndsAt [c] us n ↔ n = 0 := by
  have hsign := isSign_singleton h
  constructor
  · intro hend
    cases hend with
    | semicolon h' => rw [isSign_eq_false hsign (by decide)] at h'; cases h'
    | closeBrace => rfl
    | openBrace h' => rw [isSign_eq_false hsign (by decide)] at h'; cases h'
  · rintro rfl
    exact .closeBrace hsign

/-- An opening brace ends a rule with its block. -/
theorem endsAt_openBrace_iff (h : sign c = .openBrace) :
    EndsAt [c] us n ↔ ∃ m, BlockEnds 0 us m ∧ n = m + 1 := by
  have hsign := isSign_singleton h
  constructor
  · intro hend
    cases hend with
    | semicolon h' => rw [isSign_eq_false hsign (by decide)] at h'; cases h'
    | closeBrace h' => rw [isSign_eq_false hsign (by decide)] at h'; cases h'
    | openBrace _ hblock => exact ⟨_, hblock, rfl⟩
  · rintro ⟨m, hblock, rfl⟩
    exact .openBrace hsign hblock

end endsAt

/-- A unit that a declaration does not react to leaves the brackets as they are. -/
theorem idle_of_not_isRuleSign {c : α} (h : isRuleSign (sign c) = false) (depth : Nat) (u : List α) :
    halts depth (c :: u) = false ∧ bracketsAfter depth (c :: u) = depth := by
  have hne : ∀ s, isRuleSign s = true → isSign s (c :: u) = false := by
    intro s hs
    refine isSign_of_ne ?_ u
    rintro rfl
    rw [h] at hs
    cases hs
  constructor
  · rw [halts, hne .openBrace rfl, hne .semicolon rfl, hne .closeBrace rfl]
    simp
  · rw [bracketsAfter, hne .openRound rfl, hne .openSquare rfl, hne .closeRound rfl,
      hne .closeSquare rfl]
    rfl

/-- A letter with a meaning for rules is a unit of its own. -/
theorem unit_of_isRuleSign {c : α} (h : isRuleSign (sign c) = true) (cs : List α) : unit c cs = 0 := by
  refine unit_eq_zero ?_ ?_ ?_ cs <;>
  · revert h
    cases sign c <;> decide

/-- **The scanner of rules stops where the units say that the declaration or rule ends.** -/
theorem ruleEnds_iff : ∀ {depth : Nat} {t : List α} {us : List (List α)} {n : Nat}, CutsInto t us →
    (RuleEnds depth us n ↔ n = rule depth t)
  | depth, [], us, n, h => by
    rw [cutsInto_nil_iff.mp h, rule]
    exact ruleEnds_nil_iff
  | depth, c :: cs, us, n, h => by
    obtain ⟨vs, rfl, hvs⟩ := cutsInto_cons_iff.mp h
    by_cases hs : isRuleSign (sign c) = false
    · obtain ⟨hhalts, hbrackets⟩ := idle_of_not_isRuleSign hs depth (cs.take (unit c cs))
      rw [ruleEnds_cons_iff hhalts, hbrackets, rule_unit hs]
      simp only [ruleEnds_iff hvs, List.length_cons, List.length_take_of_le (unit_le c cs),
        exists_eq_left]
      omega
    rw [Bool.not_eq_false] at hs
    rw [unit_of_isRuleSign hs, List.drop_zero] at hvs
    rw [unit_of_isRuleSign hs, List.take_zero]
    -- past the letter `c`, with other brackets open
    have hpast : halts depth [c] = false → ∀ depth', bracketsAfter depth [c] = depth' →
        (RuleEnds depth ([c] :: vs) n ↔ n = rule depth' cs + 1) := by
      rintro hhalts _ rfl
      rw [ruleEnds_cons_iff hhalts]
      simp only [ruleEnds_iff hvs, List.length_singleton, exists_eq_left]
    rcases sign_cases hs with hs | hs | hs | hs
    · rw [rule_open hs]
      rcases hs with hs | hs <;>
        exact hpast (by simp [halts, isSign, hs]) _ (by simp [bracketsAfter, isSign, hs])
    · rw [rule_close hs]
      rcases hs with hs | hs <;>
        exact hpast (by simp [halts, isSign, hs]) _ (by simp [bracketsAfter, isSign, hs])
    · by_cases hdepth : depth = 0
      · subst hdepth
        rcases hs with hs | hs
        · rw [rule_semicolon hs, ruleEnds_halt_iff (by simp [halts, isSign, hs]),
            endsAt_semicolon_iff hs]
        · rw [rule_of_startsClosed (by simp [startsClosed, hs]),
            ruleEnds_halt_iff (by simp [halts, isSign, hs]), endsAt_closeBrace_iff hs]
      · rw [rule_inside hdepth hs]
        rcases hs with hs | hs <;>
          exact hpast (by simp [halts, isSign, hs, hdepth]) _ (by simp [bracketsAfter, isSign, hs])
    · rw [rule_block hs, ruleEnds_halt_iff (by simp [halts, isSign, hs]), endsAt_openBrace_iff hs]
      simp only [blockEnds_iff hvs, exists_eq_left]
termination_by _ t => t.length
decreasing_by
  · exact length_drop_lt c cs _
  · exact Nat.lt_succ_self _

/-! ### Targets -/

/-- The scanner of blanks and comments skips the units that are blanks and comments. -/
theorem cutsInto_drop_trivia {t : List α} {us : List (List α)} (h : CutsInto t us) :
    (us.takeWhile isTrivia).flatten.length = trivia t ∧
      CutsInto (t.drop (trivia t)) (us.dropWhile isTrivia) := by
  fun_induction trivia t generalizing us with
  | case1 =>
    rw [cutsInto_nil_iff.mp h]
    exact ⟨rfl, .nil⟩
  | case2 c cs hc ih =>
    obtain ⟨vs, rfl, hvs⟩ := cutsInto_cons_iff.mp h
    rw [unit_eq_zero (by simp [hc, Sign.isQuote]) (by simp [hc]) (by simp [hc])] at hvs ⊢
    have htrivia : isTrivia [c] = true := by simp [isTrivia, hc]
    obtain ⟨hlen, hrest⟩ := ih hvs
    rw [List.take_zero, List.takeWhile_cons_of_pos htrivia, List.dropWhile_cons_of_pos htrivia,
      List.flatten_cons, List.length_append, hlen, List.length_singleton, List.drop_succ_cons]
    exact ⟨Nat.add_comm _ _, hrest⟩
  | case3 c cs hb hc ih =>
    obtain ⟨vs, rfl, hvs⟩ := cutsInto_cons_iff.mp h
    cases cs with
    | nil => simp [opensComment] at hc
    | cons d ds =>
      obtain ⟨hslash, hstar⟩ : sign c = .slash ∧ sign d = .star := by simpa [opensComment] using hc
      rw [unit_comment hslash hstar] at hvs ⊢
      have htrivia : isTrivia (c :: (d :: ds).take (comment ds + 1)) = true := by
        simp [isTrivia, hslash, hstar]
      obtain ⟨hlen, hrest⟩ := ih hvs
      rw [List.takeWhile_cons_of_pos htrivia, List.dropWhile_cons_of_pos htrivia, List.flatten_cons,
        List.length_append, hlen]
      simp only [List.tail_cons, List.take_succ_cons, List.length_cons,
        List.length_take_of_le (comment_le ds), List.drop_succ_cons] at hrest ⊢
      refine ⟨by omega, ?_⟩
      rw [List.drop_drop] at hrest
      rwa [show comment ds + 1 + trivia (List.drop (comment ds) ds)
        = comment ds + trivia (List.drop (comment ds) ds) + 1 by omega, List.drop_succ_cons]
  | case4 c cs hb hc =>
    obtain ⟨vs, rfl, hvs⟩ := cutsInto_cons_iff.mp h
    have htrivia : ¬ isTrivia (c :: cs.take (unit c cs)) = true := by
      intro htrivia
      cases cs with
      | nil => simp [isTrivia, hb] at htrivia
      | cons d ds =>
        cases hunit : unit c (d :: ds) with
        | zero => simp [hunit, isTrivia, hb] at htrivia
        | succ k =>
          rw [hunit] at htrivia
          exact hc (by simpa [isTrivia, opensComment] using htrivia)
    rw [List.takeWhile_cons_of_neg htrivia, List.dropWhile_cons_of_neg htrivia]
    exact ⟨rfl, h⟩

/-- Whether a block is over is seen from its first unit. -/
theorem isOver_iff {t : List α} {us : List (List α)} (h : CutsInto t us) :
    isOver us = true ↔ t = [] ∨ startsClosed t = true := by
  cases t with
  | nil =>
    rw [cutsInto_nil_iff.mp h]
    simp [isOver]
  | cons c cs =>
    obtain ⟨vs, rfl, hvs⟩ := cutsInto_cons_iff.mp h
    by_cases hc : sign c = .closeBrace
    · rw [unit_of_isRuleSign (by simp [hc, isRuleSign])]
      simp [isOver, isSign, startsClosed, hc]
    · simp [isOver, isSign_of_ne hc, startsClosed, hc]

/-- **The scanner of targets stops where the units say that the target ends.** -/
theorem guards_iff {t : List α} {us : List (List α)} {n : Nat} (h : CutsInto t us) :
    Guards us n ↔ n = target t := by
  obtain ⟨hlen, hrest⟩ := cutsInto_drop_trivia h
  have hover : isOver (us.dropWhile isTrivia) = true ↔ target t = 0 := by
    rw [isOver_iff hrest, target_eq_zero_iff]
  constructor
  · intro hguards
    cases hguards with
    | nothing hnothing => exact (hover.mp hnothing).symm
    | rule hsome hrule =>
      rw [target_eq fun hzero => by simp [hover.mpr hzero] at hsome, hlen,
        (ruleEnds_iff hrest).mp hrule]
  · rintro rfl
    by_cases hzero : target t = 0
    · rw [hzero]
      exact .nothing (hover.mpr hzero)
    · have hsome : isOver (us.dropWhile isTrivia) = false := by
        simpa using fun hnothing => hzero (hover.mp hnothing)
      have hrule := Guards.rule hsome ((ruleEnds_iff hrest).mpr rfl)
      rwa [hlen, ← target_eq hzero] at hrule

end Extent

end BidiSheet
