import BidiSheet.Proofs.Fourfold
import BidiSheet.Proofs.Layer
import BidiSheet.Proofs.Unclosed

/-!
# Reading a changed value again

An action queues texts in the places of words. If the value that it leaves is written out and read again, the tokens are
found where they were: each is what has been written in its place (`Token.settled`), behind the blanks that were there
before. So an action can be followed by another one as if the tokens had been changed in place.

There is one exception. Three corners become four, since the corner that they leave out is no longer the same as the one
across, and the third word is written as two (`Tokens.SplitsThird`).

* `Tokens.Settles`: what is queued, what is read again, and the tokens that both come from.
* `Action.settles`: every action settles, unless it splits a word.
* `Action.tokens_reread`: what is read again, group by group.
-/

namespace BidiSheet

open Marker (AllWhole)
open Tokens (words lay layWords assign mapWords mapGroups mapBefore isFree frame)
open Words (alone)

namespace Token

/-- The token that stands in the place of a token when its replacement has been written out. -/
def settled (t : Token) : Token := ⟨t.gap, t.kind, t.rendered, none⟩

/-- A token without its replacement. -/
def unqueued (t : Token) : Token := { t with queued := none }

variable {t : Token}

/-- A token without a replacement is settled. -/
theorem settled_of_fresh (h : t.queued = none) : t.settled = t := by
  rw [settled, rendered_of_fresh h, ← h]

/-- A replacement settles as the text of its token. -/
theorem settled_queue (h : t.queued = none) (w : Text) : (t.queue w).settled = { t with text := w } := by
  rw [settled, gap_queue, kind_queue, rendered_queue h, ← h]

/-- A token without a replacement has none to lose. -/
theorem unqueued_of_fresh (h : t.queued = none) : t.unqueued = t := by
  rw [unqueued, ← h]

/-- But for its replacement a token stays as it was. -/
theorem unqueued_queue (t : Token) (w : Text) : (t.queue w).unqueued = t.unqueued := by
  rw [unqueued, gap_queue, kind_queue, text_queue, unqueued]

end Token

namespace Tokens

variable {ts us laid : List Token} {kind : TokenKind} {F G : List Token → List Token}

/-! ### Tokens that settle -/

/-- Tokens that are queued on `ts` are found as `laid` when they are read again, and what is around the words is as it
was. -/
structure Settles (ts queued laid : List Token) : Prop where
  map_settled : queued.map Token.settled = laid
  frame_eq : frame laid = frame ts

/-- Tokens without replacements are settled. -/
theorem map_settled_of_fresh (h : ∀ t ∈ ts, t.queued = none) : ts.map Token.settled = ts := by
  rw [List.map_congr_left fun t ht => Token.settled_of_fresh (h t ht), List.map_id']

/-- Tokens without replacements settle as they are. -/
theorem settles_refl (h : ∀ t ∈ ts, t.queued = none) : Settles ts ts ts := ⟨map_settled_of_fresh h, rfl⟩

/-- Tokens settle part by part. -/
theorem Settles.append {ts' us' laid' : List Token} (h : Settles ts us laid) (h' : Settles ts' us' laid') :
    Settles (ts ++ ts') (us ++ us') (laid ++ laid') where
  map_settled := by rw [List.map_append, h.map_settled, h'.map_settled]
  frame_eq := by
    have hframe := h.frame_eq
    have hframe' := h'.frame_eq
    unfold frame at hframe hframe' ⊢
    rw [List.map_append, hframe, hframe', List.map_append]

/-- Words that are queued one for one are found as words that are laid one for one. -/
theorem map_settled_assign (hfresh : ∀ t ∈ ts, t.queued = none) (ws : List Text) :
    (assign ts ws).map Token.settled = lay ts (alone ws) := by
  induction ts generalizing ws with
  | nil => rw [assign, lay_nil, List.map_nil]
  | cons t ts ih =>
    have ht := hfresh t List.mem_cons_self
    have hts : ∀ u ∈ ts, u.queued = none := fun u hu => hfresh u (List.mem_cons_of_mem t hu)
    by_cases hword : t.kind = .word
    · cases ws with
      | nil =>
        have hnone : assign (t :: ts) [] = t :: ts := by simp [assign]
        rw [hnone, map_settled_of_fresh hfresh]
        exact (lay_no_words _).symm
      | cons w ws =>
        rw [assign_word hword, List.map_cons, ih hts, Token.settled_queue ht, lay_alone_cons hword]
    · rw [assign_other hword, List.map_cons, ih hts, Token.settled_of_fresh ht, lay_other hword]

/-- Words that are queued one for one settle as words that are laid. -/
theorem settles_mapWords (hfresh : ∀ t ∈ ts, t.queued = none) (f : List Text → List Text) :
    Settles ts (mapWords f ts) (layWords (fun ws => alone (f ws)) ts) :=
  ⟨map_settled_assign hfresh _, frame_lay _ _⟩

/-- Tokens settle if those of each group do. -/
theorem settles_mapGroups (hfresh : ∀ t ∈ ts, t.queued = none)
    (h : ∀ group ∈ ts.splitOnP (fun t => t.kind = kind), (∀ t ∈ group, t.queued = none) →
      Settles group (F group) (G group)) :
    Settles ts (mapGroups kind F ts) (mapGroups kind G ts) := by
  induction ts using induction_groups kind with
  | free group hgroup =>
    rw [splitOnP_free hgroup] at h
    rw [mapGroups_free hgroup, mapGroups_free hgroup]
    exact h group List.mem_cons_self hfresh
  | split group t ts hgroup ht ih =>
    rw [splitOnP_split hgroup ht] at h
    rw [mapGroups_split hgroup ht, mapGroups_split hgroup ht]
    have hfirst : ∀ u ∈ group, u.queued = none := fun u hu => hfresh u (List.mem_append_left _ hu)
    have hrest : ∀ u ∈ t :: ts, u.queued = none := fun u hu => hfresh u (List.mem_append_right _ hu)
    have hts : ∀ u ∈ ts, u.queued = none := fun u hu => hrest u (List.mem_cons_of_mem t hu)
    have hmark : Settles [t] [t] [t] := by
      apply settles_refl
      intro u hu
      rw [List.mem_singleton.mp hu]
      exact hrest t List.mem_cons_self
    exact (h group List.mem_cons_self hfirst).append
      (hmark.append (ih hts fun group' hgroup' => h group' (List.mem_cons_of_mem _ hgroup')))

/-- What settles before the first divider settles in the whole. -/
theorem settles_mapBefore (hfresh : ∀ t ∈ ts, t.queued = none)
    (h : ∀ us : List Token, (∀ t ∈ us, t.queued = none) → Settles us (F us) (G us)) :
    Settles ts (mapBefore kind F ts) (mapBefore kind G ts) := by
  have hbefore := h (ts.takeWhile (·.kind ≠ kind)) fun t ht => hfresh t ((List.takeWhile_prefix _).subset ht)
  have hbehind : ∀ t ∈ ts.dropWhile (·.kind ≠ kind), t.queued = none := fun t ht =>
    hfresh t ((List.dropWhile_suffix _).subset ht)
  have happend := hbefore.append (settles_refl hbehind)
  rwa [List.takeWhile_append_dropWhile] at happend

/-! ### Words that are split -/

/-- The tokens that are no words. -/
def others (ts : List Token) : List Token := ts.filter fun t => !t.isWord

/-- Nothing but words is revised. -/
theorem Revised.others_eq {Q : Text → List Text → Prop} (h : Revised Q ts us) : others us = others ts := by
  unfold others
  induction h with
  | nil => rfl
  | same t rest ih => rw [List.filter_cons, ih, List.filter_cons]
  | @word t ts us w ws hword h rest ih =>
    have hspaced : (ws.map Token.spaced).filter (fun t => !t.isWord) = [] := by
      rw [List.filter_eq_nil_iff]
      intro u hu
      obtain ⟨v, -, rfl⟩ := List.mem_map.mp hu
      exact Bool.false_ne_true
    rw [List.filter_cons_of_neg (by simp [Token.isWord, hword]), List.filter_append, hspaced, List.nil_append, ih,
      List.filter_cons_of_neg (by simp [Token.isWord, hword])]

/-- The words of tokens do not depend on what is queued. -/
theorem words_map_unqueued (ts : List Token) : words (ts.map Token.unqueued) = words ts := by
  rw [words, List.filter_map, List.map_map]
  rfl

/-- What is queued is no word of the value yet. -/
theorem words_assign (ts : List Token) (ws : List Text) : words (assign ts ws) = words ts := by
  rw [← words_map_unqueued, map_assign Token.unqueued_queue, words_map_unqueued]

/-- Words are queued part by part, if the first part has as many as its tokens. -/
theorem assign_append {ws : List Text} (h : ws.length = (words ts).length) (us : List Token) (vs : List Text) :
    assign (ts ++ us) (ws ++ vs) = assign ts ws ++ assign us vs := by
  induction ts generalizing ws with
  | nil =>
    rw [List.length_eq_zero_iff.mp h]
    rfl
  | cons t ts ih =>
    by_cases ht : t.kind = .word
    · rw [words_word ht] at h
      cases ws with
      | nil => cases h
      | cons w ws =>
        rw [List.cons_append, List.cons_append, assign_word ht, ih (Nat.succ.inj h), assign_word ht, List.cons_append]
    · rw [words_other ht] at h
      rw [List.cons_append, assign_other ht, ih h, assign_other ht, List.cons_append]

/-- Words are laid part by part, if the first part has as many as its tokens. -/
theorem lay_append {wss : List (List Text)} (h : wss.length = (words ts).length) (us : List Token)
    (vss : List (List Text)) : lay (ts ++ us) (wss ++ vss) = lay ts wss ++ lay us vss := by
  induction ts generalizing wss with
  | nil =>
    rw [List.length_eq_zero_iff.mp h, lay_nil]
    rfl
  | cons t ts ih =>
    by_cases ht : t.kind = .word
    · rw [words_word ht] at h
      cases wss with
      | nil => cases h
      | cons ws wss =>
        rw [List.cons_append, List.cons_append, lay_word ht, ih (Nat.succ.inj h), lay_word ht, List.append_assoc]
    · rw [words_other ht] at h
      rw [List.cons_append, lay_other ht, ih h, lay_other ht, List.cons_append]

/-- The third word of a group is found as two words: the second word of the group, and itself behind one blank. -/
def SplitsThird (group group' : List Token) : Prop :=
  ∃ us t vs a b, group = us ++ t :: vs ∧ words us = [a, b] ∧ t.kind = .word ∧ words vs = [] ∧
    t.queued = some (b ++ ' ' :: t.text) ∧
    group' = us.map Token.settled ++
      ⟨t.gap, .word, b, none⟩ :: Token.spaced t.text :: vs.map Token.settled

/-- Of three corners the third one is split. -/
theorem splitsThird_corners (hfresh : ∀ t ∈ ts, t.queued = none) (h : (words ts).length = 3) :
    SplitsThird (mapWords Words.corners ts) (layWords Words.cornerWords ts) := by
  obtain ⟨a, b, c, habc⟩ := List.length_eq_three.mp h
  obtain ⟨us, t, vs, rfl, ht, rfl, hus, hvs⟩ := exists_of_words [a, b] habc
  have hfront : ∀ u ∈ us, u.queued = none := fun u hu => hfresh u (List.mem_append_left _ hu)
  have hback : ∀ u ∈ t :: vs, u.queued = none := fun u hu => hfresh u (List.mem_append_right _ hu)
  have htfresh := hback t List.mem_cons_self
  have hvfresh : ∀ u ∈ vs, u.queued = none := fun u hu => hback u (List.mem_cons_of_mem t hu)
  have htwo : [b, a].length = (words us).length := by rw [hus]; rfl
  -- the queued text is longer than the word, so it is no text of its own
  have hqueue : t.queue (b ++ ' ' :: t.text) = { t with queued := some (b ++ ' ' :: t.text) } := by
    have hne : b ++ ' ' :: t.text ≠ t.text := by
      intro heq
      have hlen := congrArg List.length heq
      rw [List.length_append, List.length_cons] at hlen
      omega
    rw [Token.queue, if_neg hne]
  have hnone : assign vs [] = vs := by cases vs <;> simp [assign]
  refine ⟨assign us [b, a], t.queue (b ++ ' ' :: t.text), vs, a, b, ?_, ?_, ?_, hvs, ?_, ?_⟩
  · rw [mapWords, habc]
    show assign (us ++ t :: vs) ([b, a] ++ [b ++ ' ' :: t.text]) = _
    rw [assign_append htwo, assign_word ht, hnone]
  · rw [words_assign, hus]
  · rw [Token.kind_queue, ht]
  · rw [hqueue]
  · rw [layWords, habc]
    show lay (us ++ t :: vs) (alone [b, a] ++ [[b, t.text]]) = _
    have hlay : t.lay [b, t.text] = [⟨t.gap, .word, b, none⟩, Token.spaced t.text] := by
      rw [Token.lay, ht, htfresh]
      rfl
    rw [lay_append (by rw [Words.length_alone, htwo]), lay_word ht, lay_no_words, hlay, map_settled_assign hfront,
      map_settled_of_fresh hvfresh, Token.gap_queue, Token.text_queue]
    rfl

/-- The words of settled tokens are their renderings. -/
theorem words_map_settled (ts : List Token) :
    words (ts.map Token.settled) = (ts.filter Token.isWord).map Token.rendered := by
  rw [words, List.filter_map, List.map_map]
  rfl

/-- Settling leaves dividers where they are. -/
theorem splitOnP_map_settled (kind : TokenKind) (ts : List Token) :
    (ts.map Token.settled).splitOnP (fun t => t.kind = kind)
      = (ts.splitOnP fun t => t.kind = kind).map (·.map Token.settled) := by
  have hfree : ∀ {group : List Token}, isFree kind group = true → isFree kind (group.map Token.settled) = true := by
    intro group hgroup
    rwa [isFree, List.all_map]
  induction ts using induction_groups kind with
  | free group hgroup => rw [splitOnP_free (hfree hgroup), splitOnP_free hgroup, List.map_singleton]
  | split group t ts hgroup ht ih =>
    rw [List.map_append, List.map_cons, splitOnP_split (hfree hgroup) (by exact ht), ih, splitOnP_split hgroup ht,
      List.map_cons]

end Tokens

namespace Action

/-- Whether an action writes a word of a group as two. -/
def Splits (action : Action) (v : Value) (group : List Token) : Prop :=
  action = .corners ∧ v.has .comma = false ∧ (words group).length = 3

/-- **Each action settles**, unless it splits a word. -/
theorem settles (action : Action) {v : Value} (hfresh : ∀ t ∈ v.tokens, t.queued = none)
    (h : ∀ group ∈ v.groups, ¬ action.Splits v group) :
    Tokens.Settles v.tokens (action.onValue v).tokens (action.revise v).tokens := by
  cases action with
  | rename vocabulary => exact Tokens.settles_refl hfresh
  | swap vocabulary => exact Tokens.settles_mapWords hfresh _
  | box =>
    rw [onValue, Value.swapSides, revise]
    split
    · exact Tokens.settles_mapWords hfresh _
    · exact Tokens.settles_refl hfresh
  | corners =>
    rw [onValue, Value.swapCorners, revise]
    split
    next hcorners =>
      have hcomma : v.has .comma = false := by simpa [Value.isCorners] using hcorners
      refine Tokens.settles_mapGroups hfresh fun group hmem hgroup => ?_
      have hlen : (words group).length ≠ 3 := fun hlen => h group hmem ⟨rfl, hcomma, hlen⟩
      rw [layWords, Words.cornerWords_of_length_ne hlen]
      exact Tokens.settles_mapWords hgroup _
    · exact Tokens.settles_refl hfresh
  | position =>
    refine Tokens.settles_mapGroups hfresh fun group _ hgroup => ?_
    exact Tokens.settles_mapBefore hgroup fun us hus => Tokens.settles_mapWords hus _
  | offset => exact Tokens.settles_mapGroups hfresh fun group _ hgroup => Tokens.settles_mapWords hgroup _

/-- An action leaves tokens alone that are no words. -/
theorem others_revise (action : Action) (v : Value) :
    Tokens.others (action.revise v).tokens = Tokens.others v.tokens := by
  cases h : action.isMove with
  | false => exact (revised_of_restyles h v).others_eq
  | true => exact (revised_of_moves h v).others_eq

/-- Corners are queued group by group. -/
theorem groups_onValue_corners {v : Value} (h : v.isCorners = true) :
    (corners.onValue v).groups = v.groups.map (mapWords Words.corners) := by
  rw [onValue, Value.swapCorners, if_pos h]
  apply Tokens.splitOnP_mapGroups
  intro us hus
  have hkinds := Tokens.map_mapWords Token.kind_queue Words.corners us
  have hall : ∀ ts : List Token, isFree .slash ts = (ts.map Token.kind).all fun k => k ≠ .slash := by
    intro ts
    rw [List.all_map]
    rfl
  rwa [hall, hkinds, ← hall]

/-- **The tokens of a changed value are found where they were** when it is written out and read again, if its markers
are whole, and its brackets closed where words are moved. The blanks and all that is no word are the same, and the words
are those that were queued, or else those that were there. Only the third word of three corners becomes two. -/
theorem tokens_reread (action : Action) {x : Text} (hwhole : AllWhole x)
    (hclosed : action.isMove = true → isClosed x = true) :
    let v := Value.read x
    let w := action.onValue v
    let v' := Value.read w.render
    w.tokens.map Token.unqueued = v.tokens ∧
    v'.tail = v.tail ∧ Tokens.others v'.tokens = Tokens.others v.tokens ∧
    ((∀ group ∈ v.groups, ¬ action.Splits v group) →
      frame v'.tokens = frame v.tokens ∧
      words v'.tokens = (w.tokens.filter Token.isWord).map Token.rendered) ∧
    List.Forall₂ (fun group group' =>
      (action.Splits v group → Tokens.SplitsThird group group') ∧
      (¬ action.Splits v group → group' = group.map Token.settled)) w.groups v'.groups := by
  intro v w v'
  have hfresh : ∀ t ∈ v.tokens, t.queued = none := fun t => Value.queued_of_mem_read
  have hread : v' = action.revise v :=
    Value.read_render_onValue action (Value.isMarked_of_allWhole hwhole) hclosed
  refine ⟨?_, ?_, ?_, ?_, ?_⟩
  · rw [map_onValue Token.unqueued_queue, List.map_congr_left fun t ht => Token.unqueued_of_fresh (hfresh t ht),
      List.map_id']
  · rw [hread, tail_revise]
  · rw [hread, others_revise]
  · intro hno
    have hsettles := settles action hfresh hno
    rw [hread]
    refine ⟨hsettles.frame_eq, ?_⟩
    rw [← hsettles.map_settled, Tokens.words_map_settled]
  · rw [hread]
    by_cases hcase : action = .corners ∧ v.has .comma = false
    · obtain ⟨rfl, hcomma⟩ := hcase
      have hcorners : v.isCorners = true := by rw [Value.isCorners, hcomma]; rfl
      rw [groups_revise_corners hcorners, groups_onValue_corners hcorners, List.forall₂_map_left_iff,
        List.forall₂_map_right_iff, List.forall₂_same]
      intro group hgroup
      have hfresh' : ∀ t ∈ group, t.queued = none := fun t ht => hfresh t (Tokens.subset_of_mem_splitOnP hgroup ht)
      have hwords : words (mapWords Words.corners group) = words group := Tokens.words_assign group _
      refine ⟨fun h => ?_, fun h => ?_⟩
      · exact Tokens.splitsThird_corners hfresh' (by rw [← hwords, h.2.2])
      · have hlen : (words group).length ≠ 3 := fun hlen => h ⟨rfl, hcomma, by rw [hwords, hlen]⟩
        rw [layWords, Words.cornerWords_of_length_ne hlen]
        exact (Tokens.map_settled_assign hfresh' _).symm
    · have hno : ∀ group, ¬ action.Splits v group := fun group h => hcase ⟨h.1, h.2.1⟩
      have hgroups : (action.revise v).groups = w.groups.map (·.map Token.settled) := by
        rw [Value.groups, ← (settles action hfresh fun group _ => hno group).map_settled, Tokens.splitOnP_map_settled]
        rfl
      rw [hgroups, List.forall₂_map_right_iff, List.forall₂_same]
      intro group _
      exact ⟨fun h => absurd h (hno group), fun _ => rfl⟩

/-- Three corners with brackets and markers between them, a group without words and a group of two: the third corner is
found as two words. Four sides that touch a marker are found one for one. -/
theorem tokens_reread_radii :
    let x := " 1px f(a / b)\x021\x03 3px\x0204\x03/\x022\x03 /4px  5px ".toList
    let v := Value.read x
    let w := corners.onValue v
    let v' := Value.read w.render
    let y := "1px\x021\x03 f(a, b)  3px 4px\x0202\x03 ".toList
    let box' := Value.read (box.onValue (Value.read y)).render
    (AllWhole x ∧ isClosed x = true ∧
      w.tokens.map Token.unqueued = v.tokens ∧
      v'.tail = v.tail ∧ Tokens.others v'.tokens = Tokens.others v.tokens ∧
      List.Forall₂ (fun group group' =>
        (corners.Splits v group → Tokens.SplitsThird group group') ∧
        (¬ corners.Splits v group → group' = group.map Token.settled)) w.groups v'.groups) ∧
    v.groups.map (fun group => (words group).length) = [3, 0, 2] ∧
    v'.groups.map words = [["f(a / b)".toList, "1px".toList, "f(a / b)".toList, "3px".toList], [],
      ["5px".toList, "4px".toList]] ∧
    (AllWhole y ∧ isClosed y = true ∧ frame box'.tokens = frame (Value.read y).tokens) ∧
    words box'.tokens = ["1px".toList, "4px".toList, "3px".toList, "f(a, b)".toList] := by
  intro x v w v' y box'
  have hx : AllWhole x ∧ isClosed x = true := by decide +kernel
  have hy : AllWhole y ∧ isClosed y = true := by decide +kernel
  obtain ⟨hsame, htail, hothers, -, hgroups⟩ := tokens_reread corners hx.1 fun _ => hx.2
  obtain ⟨-, -, -, hframe, -⟩ := tokens_reread box hy.1 fun _ => hy.2
  have hno : ∀ group ∈ (Value.read y).groups, ¬ box.Splits (Value.read y) group := by
    rintro group - ⟨hbox, -⟩
    cases hbox
  exact ⟨⟨hx.1, hx.2, hsame, htail, hothers, hgroups⟩, by decide +kernel, by decide +kernel,
    ⟨hy.1, hy.2, (hframe hno).1⟩, by decide +kernel⟩

end Action

end BidiSheet
