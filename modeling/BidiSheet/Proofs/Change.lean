import BidiSheet.Proofs.Reflected

/-!
# What is changed looks different

Replacements are queued word by word, and a declaration counts as changed if one is queued. The count would
be wrong if the words could change and the text stay the same. They cannot (`Action.onValue_eq_of_render_eq`),
for two reasons.

* A word that is restyled has no brackets, and so has what takes its place. Both end at the first character
  that ends a word, which is in the same place if the texts are the same (`Tokens.eq_of_restyling`).
* Words `a` and `b` that are exchanged around `m` would have to satisfy `a ++ m ++ b = b ++ m ++ a`. Then one
  of them begins with the other, and would have been cut there when it was read (`Unbroken.eq_of_exchange`).
  All brackets are closed there, even if `b` is the last word of the value and lacks a bracket.

So the declarations that are counted are the segments that come out different, and nothing but declarations
does (`reflectText_changes`).
-/

namespace BidiSheet

open Marker (opener)
open Tokens (words source assign mapWords mapGroups mapBefore)
open Value (Reads EndsWord)

/-! ### Words that are exchanged -/

/-- More brackets open before a text mean no fewer behind it. -/
theorem foldl_nest_le {d d' : Nat} (h : d ≤ d') (u : Text) : u.foldl nest d ≤ u.foldl nest d' := by
  induction u generalizing d d' with
  | nil => exact h
  | cons c u ih => exact ih (nest_le_nest h c)

/-- Nothing in a text ends a word, except perhaps its first character. -/
def Unbroken : Text → Prop
  | [] => False
  | c :: cs => outerLength Value.endsWord (nest 0 c) cs = cs.length

namespace Unbroken

variable {a b m s : Text}

theorem ne_nil (h : Unbroken a) : a ≠ [] := by
  rintro rfl
  exact h

/-- An unbroken text does not go on behind closed brackets with a character that ends a word. -/
theorem not_endsWord (h : Unbroken (a ++ s)) (ha : a ≠ []) (hclosed : isClosed a = true) :
    s.head?.any Value.endsWord = false := by
  cases a with
  | nil => exact absurd rfl ha
  | cons c cs =>
    obtain ⟨-, hs⟩ := outerLength_append_eq_length_iff.mp h
    rw [← List.foldl_cons, isClosed_iff.mp hclosed] at hs
    rw [← Bool.not_eq_true]
    intro hhead
    rw [outerLength_eq_zero_iff.mpr (.inr ⟨rfl, hhead⟩), eq_comm, List.length_eq_zero_iff] at hs
    rw [hs] at hhead
    cases hhead

/-- **Words that change places leave the text as it is only if they are the same.** -/
theorem eq_of_exchange (ha : Unbroken a) (hb : Unbroken b) (hclosed : isClosed a = true)
    (hm : isClosed m = true) (hends : (m ++ b).head?.any Value.endsWord = true)
    (h : b ++ (m ++ a) = a ++ (m ++ b)) : a = b := by
  -- the longer word goes on where the shorter one ends, with what follows the first word
  have hne : m ++ b ≠ [] := List.append_ne_nil_of_right_ne_nil m hb.ne_nil
  rcases List.append_eq_append_iff.mp h with ⟨s, hlong, hrest⟩ | ⟨s, hlong, hrest⟩
  · cases s with
    | nil => rw [hlong, List.append_nil]
    | cons c s =>
      have hbclosed : isClosed b = true := by
        have hfold : (m ++ a).foldl nest 0 = 0 := by
          rw [← isClosed_iff, isClosed_append hm, hclosed]
        rw [hrest, ← List.append_assoc, List.foldl_append] at hfold
        have hle := foldl_nest_le (Nat.zero_le ((c :: s ++ m).foldl nest 0)) b
        exact isClosed_iff.mpr (by omega)
      have hhead : (m ++ b).head? = some c := by
        rw [hlong, ← List.append_assoc] at hrest
        rw [← List.head?_append_of_ne_nil _ hne, hrest]
        rfl
      rw [hlong] at ha
      have hcut := ha.not_endsWord hb.ne_nil hbclosed
      rw [hhead] at hends
      exact absurd (hends.symm.trans hcut) Bool.noConfusion
  · cases s with
    | nil => rw [hlong, List.append_nil]
    | cons c s =>
      rw [hlong] at hb
      have hcut := hb.not_endsWord ha.ne_nil hclosed
      rw [hrest] at hends
      exact absurd (hends.symm.trans hcut) Bool.noConfusion

end Unbroken

/-- Texts that are the same up to two words that have changed places. -/
theorem exchange_inj {a b m x y : Text} (h : b ++ (m ++ (a ++ x)) = a ++ (m ++ (b ++ y))) :
    b ++ (m ++ a) = a ++ (m ++ b) ∧ x = y := by
  simp only [← List.append_assoc] at h ⊢
  apply List.append_inj h
  simp only [List.length_append]
  omega

namespace Quiet

variable {w v x y : Text}

/-- A quiet word has no end inside. -/
theorem endsWord_of_mem (h : Quiet w) {c : Char} (hc : c ∈ w) : Value.endsWord c = false := by
  have hne : ∀ d, isQuiet d = false → c ≠ d := fun d hd => ne_of_isQuiet (h c hc) hd
  simp [Value.endsWord, h.isBlank_of_mem hc, hne ',' rfl, hne '/' rfl, hne opener rfl]

/-- A quiet word ends at the first character that ends a word. -/
theorem takeWhile_append (h : Quiet w) (hx : EndsWord x) :
    (w ++ x).takeWhile (fun c => !Value.endsWord c) = w := by
  have hw : ∀ c ∈ w, (!Value.endsWord c) = true := fun c hc => by rw [h.endsWord_of_mem hc]; rfl
  have hx' : x.takeWhile (fun c => !Value.endsWord c) = [] := by
    rcases hx with rfl | hhead
    · rfl
    · cases x with
      | nil => rfl
      | cons c x => rw [List.takeWhile_cons_of_neg (by simpa using hhead)]
  rw [List.takeWhile_append_of_pos hw, hx', List.append_nil]

/-- Quiet words are told apart in front of what ends a word. -/
theorem eq_of_append_eq (hw : Quiet w) (hv : Quiet v) (hx : EndsWord x) (hy : EndsWord y)
    (h : w ++ x = v ++ y) : w = v := by
  rw [← hw.takeWhile_append hx, h, hv.takeWhile_append hy]

end Quiet

/-! ### The first word of some tokens -/

namespace Tokens

variable {tail : Text} {ts us vs : List Token}

/-- The last tokens of those that read, read. -/
theorem reads_of_append (h : Reads tail (ts ++ vs)) : Reads tail vs := by
  induction ts with
  | nil => exact h
  | cons t ts ih =>
    cases h with
    | cons _ _ _ rest => exact ih rest

theorem source_ne_nil (h : Reads tail (ts ++ vs)) (hne : ts ≠ []) : source ts ≠ [] := by
  cases ts with
  | nil => exact absurd rfl hne
  | cons t ts =>
    cases h with
    | cons => simp

/-- The first word of some tokens, with the text before it and the tokens behind it. Behind those the
tokens `vs` may follow. -/
structure Opening (tail : Text) (vs ts : List Token) (front w : Text) (rest : List Token) : Prop where
  reads : Reads tail (rest ++ vs)
  unbroken : Unbroken w
  closed_front : isClosed front = true
  source : source ts = front ++ (w ++ source rest)
  render (x : Text) (xs : List Text) : (assign ts (x :: xs)).flatMap Token.render
    = front ++ (x ++ (assign rest xs).flatMap Token.render)
  ends : rest ≠ [] → isClosed w = true ∧ (Tokens.source rest).head?.any Value.endsWord = true

/-- The first word of some tokens has tokens without words before it. -/
theorem exists_opening {w : Text} {ws : List Text} (h : Reads tail (ts ++ vs)) (hw : words ts = w :: ws) :
    ∃ front rest, Opening tail vs ts front w rest ∧ words rest = ws := by
  induction ts with
  | nil => cases hw
  | cons t ts ih =>
    rw [List.cons_append] at h
    cases h with
    | @cons gap cs kind c _ hgap hc h rest =>
      have hgapClosed := Value.isClosed_of_blank hgap
      by_cases hkind : kind = .word
      · subst hkind
        rw [words_word rfl] at hw
        obtain ⟨rfl, rfl⟩ := List.cons.inj hw
        obtain ⟨-, -, hlen, hends⟩ := Value.endsWord_of_tokenAt h
        refine ⟨gap, ts, ⟨rest, ?_, hgapClosed, ?_, ?_, ?_⟩, rfl⟩
        · rwa [Value.wordLength_eq] at hlen
        · rw [source_cons, List.append_assoc]
        · intro x xs
          rw [assign, if_pos (by simp [Token.isWord]), List.flatMap_cons, Token.render, Token.gap_queue,
            Token.rendered_queue rfl, List.append_assoc]
        · intro hne
          have hsource := source_ne_nil rest hne
          rw [source_append, List.append_assoc] at hends
          rcases hends with hnil | ⟨hclosed, hhead⟩
          · exact absurd (List.append_eq_nil_iff.mp hnil).1 hsource
          · rw [List.head?_append_of_ne_nil _ hsource] at hhead
            exact ⟨hclosed, hhead⟩
      · rw [words_other hkind] at hw
        obtain ⟨front, rest', hopening, hrest⟩ := ih rest hw
        have hclosed : isClosed (c :: cs) = true := by
          rcases Value.isClosed_or_last h with hclosed | hnil
          · exact hclosed
          · obtain ⟨hnil, -⟩ := rest.eq_nil hnil
            rw [(List.append_eq_nil_iff.mp hnil).1] at hw
            cases hw
        refine ⟨gap ++ (c :: cs) ++ front, rest', ⟨hopening.reads, hopening.unbroken, ?_, ?_, ?_,
          hopening.ends⟩, hrest⟩
        · rw [List.append_assoc, isClosed_append hgapClosed, isClosed_append hclosed,
            hopening.closed_front]
        · rw [source_cons, hopening.source]
          simp only [List.append_assoc]
        · intro x xs
          rw [assign, if_neg (by simpa [Token.isWord] using hkind), List.flatMap_cons, hopening.render]
          simp only [Token.render, Token.rendered, Option.getD_none, List.append_assoc]

variable {front front' a b : Text} {rest rest' : List Token}

/-- A word before another word is closed, and ends where it does. -/
theorem Opening.next (h : Opening tail vs ts front a rest) (h' : Opening tail vs rest front' b rest') :
    isClosed a = true ∧ ∀ x, (front' ++ (b ++ x)).head?.any Value.endsWord = true := by
  have hne : front' ++ b ≠ [] := List.append_ne_nil_of_right_ne_nil _ h'.unbroken.ne_nil
  have hrest : rest ≠ [] := by
    rintro rfl
    exact h'.unbroken.ne_nil (List.append_eq_nil_iff.mp (List.append_eq_nil_iff.mp h'.source.symm).2).1
  obtain ⟨hclosed, hhead⟩ := h.ends hrest
  refine ⟨hclosed, fun x => ?_⟩
  rw [h'.source, ← List.append_assoc, List.head?_append_of_ne_nil _ hne] at hhead
  rwa [← List.append_assoc, List.head?_append_of_ne_nil _ hne]

/-- Neighbouring words that change places are the same if the text is. -/
theorem Opening.eq_of_exchange (h : Opening tail vs ts front a rest)
    (h' : Opening tail vs rest front' b rest') (heq : b ++ (front' ++ a) = a ++ (front' ++ b)) : a = b := by
  obtain ⟨hclosed, hends⟩ := h.next h'
  have hends := hends []
  rw [List.append_nil] at hends
  exact h.unbroken.eq_of_exchange h'.unbroken hclosed h'.closed_front hends heq

/-! ### Words that are moved -/

/-- Words that are turned into themselves leave the tokens as they are. -/
theorem assign_words (ts : List Token) : assign ts (words ts) = ts := by
  induction ts with
  | nil => rw [assign]
  | cons t ts ih =>
    by_cases ht : t.kind = .word
    · rw [words_word ht, assign, if_pos (by simp [Token.isWord, ht]), ih, Token.queue, if_pos rfl]
    · rw [words_other ht]
      cases hws : words ts with
      | nil => rw [assign]; simp
      | cons w ws => rw [assign, if_neg (by simp [Token.isWord, ht]), ← hws, ih]

/-- A function that leaves the words alone leaves the tokens alone. -/
theorem mapWords_of_eq {f : List Text → List Text} (h : f (words ts) = words ts) :
    mapWords f ts = ts := by
  rw [mapWords, h, assign_words]

/-- **The sides of a box change places only if the text changes.** -/
theorem mapWords_box_eq_of_render_eq (h : Reads tail ts)
    (heq : (mapWords Words.box ts).flatMap Token.render = source ts) : mapWords Words.box ts = ts := by
  rw [← List.append_nil ts] at h
  apply mapWords_of_eq
  rw [mapWords] at heq
  unfold Words.box at heq ⊢
  split
  next top right bottom left hwords =>
    obtain ⟨m₁, r₁, h₁, hwords₁⟩ := exists_opening h hwords
    obtain ⟨m₂, r₂, h₂, hwords₂⟩ := exists_opening h₁.reads hwords₁
    obtain ⟨m₃, r₃, h₃, hwords₃⟩ := exists_opening h₂.reads hwords₂
    obtain ⟨m₄, r₄, h₄, -⟩ := exists_opening h₃.reads hwords₃
    rw [hwords] at heq
    simp only [h₁.render, h₂.render, h₃.render, h₄.render, h₁.source, h₂.source, h₃.source, h₄.source,
      List.append_cancel_left_eq] at heq
    -- the bottom stands between the sides, with all that is before and behind it
    obtain ⟨hclosed, hends⟩ := h₂.next h₃
    have hmiddle : isClosed (m₃ ++ (bottom ++ m₄)) = true := by
      rw [isClosed_append h₃.closed_front, isClosed_append (h₃.next h₄).1, h₄.closed_front]
    have hsides := (exchange_inj (m := m₃ ++ (bottom ++ m₄)) (by simpa only [List.append_assoc] using heq)).1
    have hsame : right = left := h₂.unbroken.eq_of_exchange h₄.unbroken hclosed hmiddle
      (by simpa only [List.append_assoc] using hends (m₄ ++ left)) hsides
    rw [hwords, hsame]
  · rfl

/-- Tokens that read are rendered as they are. -/
theorem render_of_reads (h : Reads tail (ts ++ vs)) : ts.flatMap Token.render = source ts := by
  induction ts with
  | nil => rfl
  | cons t ts ih =>
    rw [List.cons_append] at h
    cases h with
    | cons _ _ _ rest =>
      rw [List.flatMap_cons, ih rest]
      rfl

theorem render_assign_nil (h : Reads tail (ts ++ vs)) :
    (assign ts []).flatMap Token.render = source ts := by
  have hnil : assign ts [] = ts := by cases ts <;> simp [assign]
  rw [hnil, render_of_reads h]

/-- **Corners change places only if the text changes**, and the text never gets shorter. -/
theorem mapWords_corners_eq_of_render_eq (h : Reads tail (ts ++ vs)) :
    (source ts).length ≤ ((mapWords Words.corners ts).flatMap Token.render).length ∧
      ((mapWords Words.corners ts).flatMap Token.render = source ts → mapWords Words.corners ts = ts) := by
  suffices hwords : (source ts).length
      ≤ ((assign ts (Words.corners (words ts))).flatMap Token.render).length ∧
      ((assign ts (Words.corners (words ts))).flatMap Token.render = source ts →
        Words.corners (words ts) = words ts) from
    ⟨hwords.1, fun heq => mapWords_of_eq (hwords.2 heq)⟩
  unfold Words.corners
  split
  next a b hwords =>
    obtain ⟨m₁, r₁, h₁, hwords₁⟩ := exists_opening h hwords
    obtain ⟨m₂, r₂, h₂, -⟩ := exists_opening h₁.reads hwords₁
    simp only [h₁.render, h₂.render, h₁.source, h₂.source, render_assign_nil h₂.reads,
      List.append_cancel_left_eq]
    refine ⟨?_, fun heq => ?_⟩
    · simp only [List.length_append]
      omega
    · rw [hwords, h₁.eq_of_exchange h₂ (exchange_inj heq).1]
  next a b c hwords =>
    -- a corner is added
    obtain ⟨m₁, r₁, h₁, hwords₁⟩ := exists_opening h hwords
    obtain ⟨m₂, r₂, h₂, hwords₂⟩ := exists_opening h₁.reads hwords₁
    obtain ⟨m₃, r₃, h₃, -⟩ := exists_opening h₂.reads hwords₂
    simp only [h₁.render, h₂.render, h₃.render, h₁.source, h₂.source, h₃.source,
      render_assign_nil h₃.reads]
    refine ⟨?_, fun heq => ?_⟩
    · simp only [List.length_append, List.length_cons]
      omega
    · have hlen := congrArg List.length heq
      simp only [List.length_append, List.length_cons] at hlen
      omega
  next a b c d hwords =>
    obtain ⟨m₁, r₁, h₁, hwords₁⟩ := exists_opening h hwords
    obtain ⟨m₂, r₂, h₂, hwords₂⟩ := exists_opening h₁.reads hwords₁
    obtain ⟨m₃, r₃, h₃, hwords₃⟩ := exists_opening h₂.reads hwords₂
    obtain ⟨m₄, r₄, h₄, -⟩ := exists_opening h₃.reads hwords₃
    simp only [h₁.render, h₂.render, h₃.render, h₄.render, h₁.source, h₂.source, h₃.source, h₄.source,
      render_assign_nil h₄.reads, List.append_cancel_left_eq]
    refine ⟨?_, fun heq => ?_⟩
    · simp only [List.length_append]
      omega
    · obtain ⟨hpair, hrest⟩ := exchange_inj heq
      obtain ⟨hpair', -⟩ := exchange_inj (List.append_cancel_left hrest)
      rw [hwords, h₁.eq_of_exchange h₂ hpair, h₃.eq_of_exchange h₄ hpair']
  · rw [assign_words, render_of_reads h]
    exact ⟨Nat.le_refl _, fun _ => rfl⟩

/-- The same for the corners of each group, since no group gets shorter. -/
theorem mapGroups_corners_eq_of_render_eq (h : Reads tail ts) :
    (source ts).length ≤ ((mapGroups .slash (mapWords Words.corners) ts).flatMap Token.render).length ∧
      ((mapGroups .slash (mapWords Words.corners) ts).flatMap Token.render = source ts →
        mapGroups .slash (mapWords Words.corners) ts = ts) := by
  induction ts using induction_groups .slash with
  | free group hgroup =>
    rw [mapGroups_free hgroup]
    rw [← List.append_nil group] at h
    exact mapWords_corners_eq_of_render_eq h
  | split group t ts hgroup ht ih =>
    obtain ⟨hgroupLe, hgroupEq⟩ := mapWords_corners_eq_of_render_eq h
    have hslash : t.render = t.gap ++ t.text ∧ Reads tail ts := by
      have hrest := reads_of_append h
      cases hrest with
      | cons _ _ _ rest => exact ⟨rfl, rest⟩
    obtain ⟨hle, heq⟩ := ih hslash.2
    rw [mapGroups_split hgroup ht, List.flatMap_append, List.flatMap_cons, source_append, source_cons,
      hslash.1]
    refine ⟨?_, fun hrender => ?_⟩
    · simp only [List.length_append]
      omega
    · have hlen := congrArg List.length hrender
      simp only [List.length_append] at hlen
      obtain ⟨hfirst, hrest⟩ := List.append_inj hrender (by omega)
      rw [hgroupEq hfirst, heq (List.append_cancel_left hrest)]

/-! ### Words that are restyled -/

/-- What restyling may do to a token. -/
def Restyling (t u : Token) : Prop :=
  u = t ∨ t.kind = .word ∧ ∃ w, Words.Restyled t.text w ∧ w ≠ t.text ∧ u = { t with queued := some w }

/-- Queueing restyled words restyles the tokens. -/
theorem forall₂_restyling_assign {ws : List Text}
    (h : List.Forall₂ (fun w w' => w' = w ∨ Words.Restyled w w') (words ts) ws) :
    List.Forall₂ Restyling ts (assign ts ws) := by
  induction ts generalizing ws with
  | nil =>
    rw [assign]
    exact .nil
  | cons t ts ih =>
    by_cases ht : t.kind = .word
    · rw [words_word ht] at h
      cases h with
      | @cons _ w _ ws hw hws =>
        rw [assign, if_pos (by simp [Token.isWord, ht]), Token.queue]
        refine .cons ?_ (ih hws)
        split
        · exact .inl rfl
        next hne => exact .inr ⟨ht, w, hw.resolve_left hne, hne, rfl⟩
    · rw [words_other ht] at h
      cases ws with
      | nil =>
        rw [assign]
        · exact List.forall₂_same.mpr fun _ _ => .inl rfl
        · simp
      | cons w ws =>
        rw [assign, if_neg (by simp [Token.isWord, ht])]
        exact .cons (.inl rfl) (ih h)

variable {kind : TokenKind} {F : List Token → List Token}

/-- Restyling each group restyles the whole. -/
theorem forall₂_restyling_mapGroups (hF : ∀ us, List.Forall₂ Restyling us (F us)) (ts : List Token) :
    List.Forall₂ Restyling ts (mapGroups kind F ts) := by
  induction ts using induction_groups kind with
  | free group hgroup =>
    rw [mapGroups_free hgroup]
    exact hF group
  | split group t ts hgroup ht ih =>
    rw [mapGroups_split hgroup ht]
    exact List.rel_append (hF group) (.cons (.inl rfl) ih)

/-- Restyling what stands before the first divider restyles the whole. -/
theorem forall₂_restyling_mapBefore (hF : ∀ us, List.Forall₂ Restyling us (F us)) (ts : List Token) :
    List.Forall₂ Restyling ts (mapBefore kind F ts) := by
  have happend := List.rel_append (hF (ts.takeWhile (·.kind ≠ kind)))
    (List.forall₂_same.mpr fun t (_ : t ∈ ts.dropWhile (·.kind ≠ kind)) => (.inl rfl : Restyling t t))
  simp only [List.takeWhile_append_dropWhile] at happend
  exact happend

/-- Where a word ends, it ends before restyled tokens. -/
theorem endsWord_of_restyling (h : Reads tail ts) (hrestyling : List.Forall₂ Restyling ts us)
    (hends : EndsWord (source ts ++ tail)) : EndsWord (us.flatMap Token.render ++ tail) := by
  cases hrestyling with
  | nil => exact hends
  | @cons t u ts us hu _ =>
    cases h with
    | @cons gap cs kind c _ hgap _ _ rest =>
      rcases hu with rfl | ⟨-, w, ⟨hquiet, -⟩, -, rfl⟩
      · cases gap <;> exact .inr (by simpa [EndsWord, Token.render, Token.rendered] using hends)
      · cases gap with
        | cons d gap => exact .inr (by simp [Token.render, Value.endsWord, hgap d List.mem_cons_self])
        | nil =>
          -- a word that stands right behind a word is not quiet
          have hc : Value.endsWord c = true := by simpa [EndsWord] using hends
          exact absurd (hquiet.endsWord_of_mem List.mem_cons_self) (by simp [hc])

/-- **Tokens that are restyled are the same if their text is.** -/
theorem eq_of_restyling (h : Reads tail ts) (hrestyling : List.Forall₂ Restyling ts us)
    (heq : us.flatMap Token.render ++ tail = source ts ++ tail) : us = ts := by
  induction h generalizing us with
  | nil =>
    cases hrestyling
    rfl
  | @cons gap cs kind c ts hgap hc h rest ih =>
    cases hrestyling with
    | @cons _ u _ us hu hus =>
      rw [List.flatMap_cons, source_cons, List.append_assoc, List.append_assoc, List.append_assoc] at heq
      rcases hu with rfl | ⟨rfl, w, ⟨hquiet, hquiet', -⟩, hne, rfl⟩
      · rw [Token.render, List.append_assoc] at heq
        rw [ih hus (List.append_cancel_left (List.append_cancel_left heq))]
      · rw [Token.render, List.append_assoc] at heq
        have hends : EndsWord (source ts ++ tail) := Value.endsWord_behind h
        exact absurd (hquiet'.eq_of_append_eq hquiet (endsWord_of_restyling rest hus hends) hends
          (List.append_cancel_left heq)) hne

end Tokens

/-! ### Values and declarations -/

/-- **What an action makes of a value is written as before only if the action has queued nothing.** -/
theorem Action.onValue_eq_of_render_eq (action : Action) {x : Text}
    (h : (action.onValue (Value.read x)).render = x) : action.onValue (Value.read x) = Value.read x := by
  have hreads := Value.reads_read x
  have heq : (action.onValue (Value.read x)).tokens.flatMap Token.render ++ (Value.read x).tail
      = source (Value.read x).tokens ++ (Value.read x).tail := by
    rw [Value.source_tokens_read, ← action.tail_onValue]
    exact h
  have hcancel := List.append_cancel_right heq
  generalize Value.read x = v at hreads heq hcancel
  cases action with
  | rename vocabulary => rfl
  | swap vocabulary =>
    exact congrArg (Value.mk · v.tail)
      (Tokens.eq_of_restyling hreads
        (Tokens.forall₂_restyling_assign (Words.forall₂_map_swap vocabulary _)) heq)
  | box =>
    simp only [onValue, Value.swapSides] at hcancel ⊢
    split at hcancel
    next hbox =>
      rw [if_pos hbox]
      exact congrArg (Value.mk · v.tail) (Tokens.mapWords_box_eq_of_render_eq hreads hcancel)
    next hbox => rw [if_neg hbox]
  | corners =>
    simp only [onValue, Value.swapCorners] at hcancel ⊢
    split at hcancel
    next hcorners =>
      rw [if_pos hcorners]
      exact congrArg (Value.mk · v.tail) ((Tokens.mapGroups_corners_eq_of_render_eq hreads).2 hcancel)
    next hcorners => rw [if_neg hcorners]
  | position =>
    exact congrArg (Value.mk · v.tail) (Tokens.eq_of_restyling hreads
      (Tokens.forall₂_restyling_mapGroups (Tokens.forall₂_restyling_mapBefore fun us =>
        Tokens.forall₂_restyling_assign (Words.forall₂_position _)) _) heq)
  | offset =>
    exact congrArg (Value.mk · v.tail) (Tokens.eq_of_restyling hreads
      (Tokens.forall₂_restyling_mapGroups (fun us =>
        Tokens.forall₂_restyling_assign (Words.forall₂_offset _)) _) heq)

/-- **An action reports a change exactly if the text of the value changes.** -/
theorem Action.reported_iff {action : Action} (hr : ∀ v, action ≠ .rename v) (x : Text) :
    (action.admits (action.onValue (Value.read x)) && (action.onValue (Value.read x)).isChanged) = true ↔
      (action.onValue (Value.read x)).render ≠ x := by
  refine ⟨fun h heq => ?_, fun h => ?_⟩
  · rw [action.onValue_eq_of_render_eq heq, Value.not_isChanged_read, Bool.and_false] at h
    exact Bool.false_ne_true h
  · by_contra hno
    exact h (Declaration.render_onValue_of_not_reported hr hno)

/-- No word is its own partner. -/
theorem Vocabulary.lookup_ne {v : Vocabulary} {w w' : Text} (h : v.lookup w = some w') : w' ≠ w := by
  obtain ⟨p, hp, rfl⟩ := Option.map_eq_some_iff.mp h
  obtain ⟨-, hparts⟩ := isPair_of_partner hp
  intro heq
  have hself : p = lower w := by rw [← lower_recase hparts w, heq]
  rw [hself] at hp
  exact partner_ne_self _ hp

namespace Declaration

variable {d d' : Declaration}

/-- **A rule that answers something changes the text of the declaration.** -/
theorem text_ne_of_underRule? {rule : Rule} (h : d.underRule? rule = some d') : d'.text ≠ d.text := by
  by_cases hr : ∃ v, rule.action = .rename v
  · obtain ⟨v, hv⟩ := hr
    rw [underRule?_rename d hv] at h
    obtain ⟨base, hbase, rfl⟩ := Option.map_eq_some_iff.mp h
    simpa [text, name] using Vocabulary.lookup_ne hbase
  · rw [underRule?_of_ne d fun v hv => hr ⟨v, hv⟩] at h
    split at h
    next hchanged =>
      cases h
      have hne := (Action.reported_iff (fun v hv => hr ⟨v, hv⟩) d.value).mp hchanged
      simpa [text, name] using hne
    · cases h

/-- The text that takes the place of a segment, if the segment is a declaration and a rule changes it. -/
def replacement? (table : Table) (body : Text) : Option Text :=
  (read? body).bind fun d => (d.reflect? table).map fun r => r.2.text

variable {body r : Text} {table : Table}

/-- A replacement of a body is another text. -/
theorem replacement?_ne (h : replacement? table body = some r) : r ≠ body := by
  obtain ⟨d, hd, h⟩ := Option.bind_eq_some_iff.mp h
  obtain ⟨⟨rule, d'⟩, hreflect, rfl⟩ := Option.map_eq_some_iff.mp h
  unfold reflect? at hreflect
  split at hreflect
  · cases hreflect
  · obtain ⟨e, he, heq⟩ := Option.map_eq_some_iff.mp hreflect
    cases heq
    rw [← text_read hd]
    exact text_ne_of_underRule? he

end Declaration

/-! ### Segments -/

namespace Verdict

/-- A verdict on a segment, in terms of what takes its place. -/
theorem ofBody_spec (table : Table) (body : Text) :
    (ofBody table body).textOf body = (Declaration.replacement? table body).getD body ∧
      (ofBody table body).isChange = (Declaration.replacement? table body).isSome := by
  unfold ofBody Declaration.replacement?
  cases Declaration.read? body with
  | none => exact ⟨rfl, rfl⟩
  | some d =>
    simp only [Option.bind_some]
    cases d.reflect? table <;> exact ⟨rfl, rfl⟩

end Verdict

/-- A body is exchanged for its replacement if it has one. -/
theorem reflectBody_eq (table : Table) (body : Text) :
    reflectBody table body = (Declaration.replacement? table body).getD body := by
  rw [← textOf_ofBody, (Verdict.ofBody_spec table body).1]

namespace Segments

/-- There is no delimiter in what may be a declaration. -/
theorem Cut.of_mem_bodies {ss : Segments} (h : ss.Cut) {body : Text} (hbody : body ∈ ss.bodies) :
    ∀ c ∈ body, isDelimiter c = false := by
  rcases mem_bodies hbody with ⟨s, hs, rfl⟩ | rfl
  · exact h.body s hs
  · exact h.tail

/-- The texts between the delimiters, and the text behind the last of them. -/
def texts (ss : Segments) : List Text := ss.closed.map Segment.body ++ [ss.tail]

/-- **The segments that are counted as changed are those whose text is another.** -/
theorem isChange_iff_of_mem_verdicts {table : Table} {ss : Segments} {body : Text} {v : Verdict}
    (h : (body, v) ∈ ss.verdicts table) : v.isChange = true ↔ body ≠ v.textOf body := by
  have hbody : ∀ body, (Verdict.ofBody table body).isChange = true ↔
      body ≠ (Verdict.ofBody table body).textOf body := by
    intro body
    rw [(Verdict.ofBody_spec table body).1, (Verdict.ofBody_spec table body).2]
    cases hr : Declaration.replacement? table body with
    | none => simp
    | some r => simpa using (Declaration.replacement?_ne hr).symm
  have hother : Verdict.other.isChange = true ↔ body ≠ Verdict.other.textOf body := by
    simp [Verdict.isChange, Verdict.textOf]
  rw [verdicts, List.mem_append, List.mem_singleton] at h
  rcases h with h | h
  · obtain ⟨s, -, hs⟩ := List.mem_map.mp h
    cases hs
    unfold Segment.verdict
    split
    · exact hother
    · exact hbody _
  · cases h
    unfold tailVerdict
    split
    · exact hbody _
    · exact hother

/-- Each segment is reflected into what its verdict says. -/
theorem zip_texts_reflect (table : Table) (ss : Segments) :
    ss.texts.zip (ss.reflect table).texts = (ss.verdicts table).map fun v => (v.1, v.2.textOf v.1) := by
  have hfst : ss.texts = (ss.verdicts table).map Prod.fst := by
    rw [texts, verdicts, List.map_append, List.map_map]
    rfl
  have hsnd : (ss.reflect table).texts = (ss.verdicts table).map fun v => v.2.textOf v.1 := by
    rw [texts, reflect, verdicts, List.map_append, List.map_map, List.map_map]
    rfl
  rw [hfst, hsnd, List.zip_map']

/-- The changes are counted where a text becomes another one. -/
theorem count_isChange (table : Table) (ss : Segments) :
    ss.count Verdict.isChange table
      = (ss.texts.zip (ss.reflect table).texts).countP fun p => p.1 ≠ p.2 := by
  rw [zip_texts_reflect, List.countP_map, ← countP_verdicts]
  refine List.countP_congr fun v hv => ?_
  simpa using isChange_iff_of_mem_verdicts hv

/-- The declarations are counted where a body reads as one. -/
theorem count_isDeclaration (table : Table) (ss : Segments) :
    ss.count Verdict.isDeclaration table
      = ss.bodies.countP fun body => (Declaration.read? body).isSome := by
  rw [count, bodies, List.countP_append, List.countP_map, List.countP_filter]
  congr 1
  · refine List.countP_congr fun s _ => ?_
    unfold Segment.verdict
    by_cases hs : s.closer = openBrace
    · simp [hs, Verdict.isDeclaration]
    · simp [hs, Verdict.isDeclaration_ofBody]
  · unfold tailVerdict
    split
    · simp [Verdict.isDeclaration_ofBody]
    · rfl

end Segments

/-- **Reflecting changes nothing but declarations, and counts what it changes.** The reflected text has the
same delimiters. What an opening brace closes stays as it is, and so does the end of the text outside all
blocks; any other segment stays or is replaced by the reflected declaration, which is another text and has
no delimiter. Declarations are counted as such, and substitutions are the segments that are not the same. -/
theorem reflectText_changes (table : Table) (t : Text) :
    let ss := Segments.read t
    let ss' := Segments.read (reflectText table t).text
    ss'.closed.map Segment.closer = ss.closed.map Segment.closer ∧
    List.Forall₂ (fun s s' => s'.body =
      if s.closer = openBrace then s.body else (Declaration.replacement? table s.body).getD s.body)
      ss.closed ss'.closed ∧
    (ss'.tail = if ss.depth = 0 ∧ ss.hasBrace = true then ss.tail
      else (Declaration.replacement? table ss.tail).getD ss.tail) ∧
    (∀ body ∈ ss.bodies, ∀ r, Declaration.replacement? table body = some r →
      r ≠ body ∧ ∀ c ∈ r, isDelimiter c = false) ∧
    (reflectText table t).declarations
      = (ss.bodies.countP fun body => (Declaration.read? body).isSome) ∧
    (reflectText table t).substitutions = (ss.texts.zip ss'.texts).countP fun p => p.1 ≠ p.2 := by
  intro ss ss'
  have hread : ss' = ss.reflect table := Segments.read_reflect table t
  have hcut : ss.Cut := Segments.cut_read t
  rw [hread]
  refine ⟨Segments.closers_reflect table ss, ?_, ?_, ?_, ?_, ?_⟩
  · refine List.forall₂_map_right_iff.mpr (List.forall₂_same.mpr fun s _ => ?_)
    rw [Segment.body_reflect, reflectBody_eq]
  · rw [Segments.tail_reflect, reflectBody_eq, Segments.tailMayDeclare]
    by_cases hdepth : ss.depth = 0 <;> cases ss.hasBrace <;> simp [hdepth, Nat.pos_of_ne_zero]
  · intro body hbody r hr
    have hreflect : reflectBody table body = r := by rw [reflectBody_eq, hr, Option.getD_some]
    exact ⟨Declaration.replacement?_ne hr,
      hreflect ▸ not_isDelimiter_reflectBody (hcut.of_mem_bodies hbody)⟩
  · rw [declarations_reflectText, Segments.count_isDeclaration]
  · rw [substitutions_reflectText, Segments.count_isChange]

end BidiSheet
