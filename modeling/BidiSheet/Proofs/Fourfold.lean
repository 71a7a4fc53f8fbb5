import BidiSheet.Proofs.Change
import BidiSheet.Proofs.Whole

/-!
# Four sides and four corners

One to four words give the four sides of a box, or its four corners, clockwise: those that are missing are
the same as those across (`clockwise`). What the words mean is the box they give. So an action on boxes is
right if the box that is read from its text is the other box seen from the other side, whatever words it is
written with.

* `swapSides_reflects`: the right and the left side are exchanged, all else in the value stays where it is,
  and exchanging them again gives back the text.
* `swapCorners_reflects`: in each group of radii the left and the right corners are exchanged. Three words
  become four, since the corner that they leave out is no longer the same as the one across.
-/

namespace BidiSheet

open Marker (AllWhole)
open Tokens (words isMarked layWords lay mapGroups)
open Words (alone)

/-! ### Boxes -/

/-- Four things from one to four words, clockwise. -/
def clockwise {β : Type} (f : Text → Text → Text → Text → β) : List Text → Option β
  | [a] => some (f a a a a)
  | [a, b] => some (f a b a b)
  | [a, b, c] => some (f a b c b)
  | [a, b, c, d] => some (f a b c d)
  | _ => none

/-- Between one and four words have a meaning. -/
theorem isSome_clockwise {β : Type} (f : Text → Text → Text → Text → β) (ws : List Text) :
    (clockwise f ws).isSome = true ↔ 1 ≤ ws.length ∧ ws.length ≤ 4 := by
  rcases ws with _ | ⟨a, _ | ⟨b, _ | ⟨c, _ | ⟨d, _ | ⟨e, ws⟩⟩⟩⟩⟩ <;> simp [clockwise]

/-- The sides of a box. -/
structure Sides where
  top : Text
  right : Text
  bottom : Text
  left : Text
  deriving DecidableEq, Repr

namespace Sides

/-- The sides that some words give, from the top clockwise. -/
def ofWords? : List Text → Option Sides := clockwise mk

/-- The sides of a box that is seen from the other side. -/
def reflect (s : Sides) : Sides := { s with right := s.left, left := s.right }

/-- The sides of a reflected box are those of the box, reflected. -/
theorem ofWords?_box (ws : List Text) : ofWords? (Words.box ws) = (ofWords? ws).map reflect := by
  rcases ws with _ | ⟨a, _ | ⟨b, _ | ⟨c, _ | ⟨d, _ | ⟨e, ws⟩⟩⟩⟩⟩ <;> rfl

end Sides

/-- The corners of a box. -/
structure Corners where
  topLeft : Text
  topRight : Text
  bottomRight : Text
  bottomLeft : Text
  deriving DecidableEq, Repr

namespace Corners

/-- The corners that some words give, from the top left clockwise. -/
def ofWords? : List Text → Option Corners := clockwise mk

/-- The corners of a box that is seen from the other side. -/
def reflect (c : Corners) : Corners := ⟨c.topRight, c.topLeft, c.bottomLeft, c.bottomRight⟩

/-- The corners of a reflected list are those of the list, reflected. -/
theorem ofWords?_cornerWords (ws : List Text) :
    ofWords? (Words.cornerWords ws).flatten = (ofWords? ws).map reflect := by
  rcases ws with _ | ⟨a, _ | ⟨b, _ | ⟨c, _ | ⟨d, _ | ⟨e, ws⟩⟩⟩⟩⟩
  case cons.cons.cons.cons.cons =>
    rw [Words.cornerWords_of_length_ne (by simp), Words.flatten_alone]
    rfl
  all_goals rfl

end Corners

/-! ### What stands around the words -/

/-- A token without its word. Tokens of other kinds are whole. -/
def Token.bare (t : Token) : Token := if t.isWord then { t with text := [] } else t

namespace Tokens

/-- Tokens without their words: the blanks, and the tokens of other kinds in their places. -/
def frame (ts : List Token) : List Token := ts.map Token.bare

/-- The frame of tokens has each of them without its text. -/
theorem frame_cons (t : Token) (ts : List Token) : frame (t :: ts) = t.bare :: frame ts := rfl

/-- Words that are laid one for one leave all else where it is. -/
theorem frame_lay (ts : List Token) (ws : List Text) : frame (lay ts (alone ws)) = frame ts := by
  induction ts generalizing ws with
  | nil => rw [lay_nil]
  | cons t ts ih =>
    by_cases ht : t.kind = .word
    · cases ws with
      | nil => exact congrArg frame (lay_no_words _)
      | cons w ws =>
        have hbare : Token.bare { t with text := w } = t.bare := by simp [Token.bare, Token.isWord, ht]
        rw [lay_alone_cons ht, frame_cons, hbare, ih, frame_cons]
    · rw [lay_other ht, frame_cons, ih, frame_cons]

end Tokens

/-! ### Sides -/

/-- A value that is no box, or has other than four words, stays as it is. -/
theorem onValue_box_of_not {v : Value} (h : v.isBox = false ∨ (words v.tokens).length ≠ 4) :
    Action.box.onValue v = v := by
  show v.swapSides = v
  rw [Value.swapSides]
  split
  next hbox =>
    have hlen : (words v.tokens).length ≠ 4 := h.resolve_left (by simp [hbox])
    have hsame : Words.box (words v.tokens) = words v.tokens := by
      unfold Words.box
      split
      next hwords =>
        rw [hwords] at hlen
        exact absurd rfl hlen
      · rfl
    rw [Value.mapTokens, Tokens.mapWords_of_eq hsame]
  · rfl

/-- A box is revised as one group of words. -/
theorem revise_box {v : Value} (h : v.isBox = true) :
    Action.box.revise v = ⟨lay v.tokens (alone (Words.box (words v.tokens))), v.tail⟩ := by
  rw [Action.revise, if_pos h]
  rfl

/-- The words of a revised box. -/
theorem words_revise_box {v : Value} (h : v.isBox = true) :
    words (Action.box.revise v).tokens = Words.box (words v.tokens) := by
  rw [revise_box h, Tokens.words_lay (by rw [Words.length_alone, Words.length_box]), Words.flatten_alone]

/-- Exchanging the sides twice lays the words that were there at first. -/
theorem revise_revise_box (v : Value) : Action.box.revise (Action.box.revise v) = v := by
  cases h : v.isBox with
  | false => simp [Action.revise, h]
  | true =>
    rw [revise_box (by rw [Action.isBox_revise, h]), words_revise_box h, Words.box_box, revise_box h,
      Tokens.lay_lay (Words.length_box _), Tokens.lay_words]

/-- **The right and the left side are exchanged** in a value that gives the sides of a box, if its markers are
whole and its brackets closed. All other values stay as they are. -/
theorem swapSides_reflects (x : Text) :
    let v := Value.read x
    let y := (Action.box.onValue v).render
    let v' := Value.read y
    (AllWhole x → isClosed x = true → v.has .comma = false → v.has .slash = false →
      1 ≤ (words v.tokens).length → (words v.tokens).length ≤ 4 →
      (∃ sides, Sides.ofWords? (words v.tokens) = some sides ∧
        Sides.ofWords? (words v'.tokens) = some sides.reflect) ∧
      Tokens.frame v'.tokens = Tokens.frame v.tokens ∧ v'.tail = v.tail ∧
      (Action.box.onValue v').render = x) ∧
    (v.has .comma = true ∨ v.has .slash = true ∨ words v.tokens = [] ∨ 4 < (words v.tokens).length →
      y = x) := by
  intro v y v'
  refine ⟨?_, ?_⟩
  · intro hwhole hclosed hcomma hslash hone hfour
    have hbox : v.isBox = true := by rw [Value.isBox, hcomma, hslash]; rfl
    have hread : v' = Action.box.revise v :=
      Value.read_render_onValue .box (Value.isMarked_of_allWhole hwhole) fun _ => hclosed
    obtain ⟨sides, hsides⟩ :=
      Option.isSome_iff_exists.mp ((isSome_clockwise Sides.mk _).mpr ⟨hone, hfour⟩)
    refine ⟨⟨sides, hsides, ?_⟩, ?_, ?_, ?_⟩
    · rw [hread, words_revise_box hbox, Sides.ofWords?_box]
      exact congrArg (Option.map Sides.reflect) hsides
    · rw [hread, revise_box hbox, Tokens.frame_lay]
    · rw [hread, Action.tail_revise]
    · have htext : (Action.box.onValue v').render = Tokens.source (Action.box.revise v').tokens ++ v'.tail :=
        Action.render_onValue_read .box y
      rw [htext, hread, revise_revise_box, Action.tail_revise]
      exact Value.source_tokens_read x
  · intro h
    have hstays : v.isBox = false ∨ (words v.tokens).length ≠ 4 := by
      rcases h with hcomma | hslash | hnone | hmany
      · exact .inl (by rw [Value.isBox, hcomma]; rfl)
      · exact .inl (by rw [Value.isBox, hslash, Bool.not_true, Bool.and_false])
      · exact .inr (by rw [hnone]; exact Nat.zero_ne_add_one 3)
      · exact .inr (Nat.ne_of_gt hmany)
    show (Action.box.onValue v).render = x
    rw [onValue_box_of_not hstays, Value.render_read]

/-- A side in brackets and a side that touches two markers change places, one marker with a leading zero. A
list of sides stays as it is. -/
theorem swapSides_reflects_markers :
    let x := "1px\x021\x03 f(a, b)  3px\x0202\x034px\x023\x03 ".toList
    let v := Value.read x
    let v' := Value.read (Action.box.onValue v).render
    let list := "1px 2px 3px, 4px".toList
    (AllWhole x ∧ isClosed x = true ∧ v.has .comma = false ∧ v.has .slash = false ∧
      1 ≤ (words v.tokens).length ∧ (words v.tokens).length ≤ 4 ∧
      (∃ sides, Sides.ofWords? (words v.tokens) = some sides ∧
        Sides.ofWords? (words v'.tokens) = some sides.reflect) ∧
      Tokens.frame v'.tokens = Tokens.frame v.tokens ∧ v'.tail = v.tail ∧
      (Action.box.onValue v').render = x) ∧
    (Action.box.onValue v).render = "1px\x021\x03 4px  3px\x0202\x03f(a, b)\x023\x03 ".toList ∧
    (Value.read list).has .comma = true ∧ (Action.box.onValue (Value.read list)).render = list := by
  intro x v v' list
  refine ⟨⟨?whole, ?closed, ?comma, ?slash, ?one, ?four,
    (swapSides_reflects x).1 ?whole ?closed ?comma ?slash ?one ?four⟩, ?text, ?list,
    (swapSides_reflects list).2 (.inl ?list)⟩
  all_goals decide +kernel

/-! ### Corners -/

/-- Corners are revised in groups between slashes. -/
theorem revise_corners {v : Value} (h : v.isCorners = true) :
    Action.corners.revise v = ⟨mapGroups .slash (layWords Words.cornerWords) v.tokens, v.tail⟩ := by
  rw [Action.revise, if_pos h]
  rfl

/-- The groups of tokens between the slashes of a value. -/
def Value.groups (v : Value) : List (List Token) := v.tokens.splitOnP fun t => t.kind = .slash

/-- Each group of corners is exchanged on its own. -/
theorem groups_revise_corners {v : Value} (h : v.isCorners = true) :
    (Action.corners.revise v).groups = v.groups.map (layWords Words.cornerWords) := by
  rw [revise_corners h]
  apply Tokens.splitOnP_mapGroups
  intro us hus
  rw [(Action.revised_words Words.spells_corners Words.subset_cornerWords
    (List.Subset.refl us)).isFree (by decide), hus]

/-- Tokens that give no corners stay as they are. -/
theorem layWords_cornerWords_of_not {group : List Token}
    (h : (words group).length = 0 ∨ 4 < (words group).length) :
    layWords Words.cornerWords group = group := by
  have hsame : Words.corners (words group) = words group := by
    unfold Words.corners
    split
    next hwords => rw [hwords] at h; simp at h
    next hwords => rw [hwords] at h; simp at h
    next hwords => rw [hwords] at h; simp at h
    · rfl
  rw [layWords, Words.cornerWords_of_length_ne (by omega), hsame, Tokens.lay_words]

/-- **The left and the right corners are exchanged** in each group of radii, if the markers of the value are
whole and its brackets closed. A group that gives no corners stays as it is, and so does a value with a comma.
The action reports a change exactly if the text changes. -/
theorem swapCorners_reflects (x : Text) :
    let v := Value.read x
    let w := Action.corners.onValue v
    let v' := Value.read w.render
    let reported := Action.corners.admits w && w.isChanged
    (AllWhole x → isClosed x = true → v.has .comma = false →
      List.Forall₂ (fun group group' =>
        (1 ≤ (words group).length ∧ (words group).length ≤ 4 →
          ∃ corners, Corners.ofWords? (words group) = some corners ∧
            Corners.ofWords? (words group') = some corners.reflect) ∧
        ((words group).length = 0 ∨ 4 < (words group).length → group' = group)) v.groups v'.groups) ∧
    (reported = true ↔ w.render ≠ x) ∧
    (v.has .comma = true → w.render = x) := by
  intro v w v' reported
  refine ⟨?_, Action.reported_iff (by simp) x, ?_⟩
  · intro hwhole hclosed hcomma
    have hcorners : v.isCorners = true := by rw [Value.isCorners, hcomma]; rfl
    have hread : v' = Action.corners.revise v :=
      Value.read_render_onValue .corners (Value.isMarked_of_allWhole hwhole) fun _ => hclosed
    rw [hread, groups_revise_corners hcorners, List.forall₂_map_right_iff, List.forall₂_same]
    intro group _
    refine ⟨fun hfour => ?_, layWords_cornerWords_of_not⟩
    obtain ⟨corners, hcorners⟩ := Option.isSome_iff_exists.mp ((isSome_clockwise Corners.mk _).mpr hfour)
    refine ⟨corners, hcorners, ?_⟩
    rw [Tokens.words_layWords Words.spells_corners, Corners.ofWords?_cornerWords]
    exact congrArg (Option.map Corners.reflect) hcorners
  · intro hcomma
    have hno : v.isCorners = false := by rw [Value.isCorners, hcomma]; rfl
    show (Value.swapCorners v).render = x
    rw [Value.swapCorners, hno, if_neg Bool.false_ne_true, Value.render_read]

/-- Three radii with a slash inside brackets, a group without words, and five radii. A list of radii stays as
it is. -/
theorem swapCorners_reflects_radii :
    let x := "1px f(a / b)\x021\x03 3px/\x0202\x03 / 1 2 3 4 5".toList
    let v := Value.read x
    let v' := Value.read (Action.corners.onValue v).render
    let list := "1px 2px, 3px".toList
    (AllWhole x ∧ isClosed x = true ∧ v.has .comma = false ∧
      List.Forall₂ (fun group group' =>
        (1 ≤ (words group).length ∧ (words group).length ≤ 4 →
          ∃ corners, Corners.ofWords? (words group) = some corners ∧
            Corners.ofWords? (words group') = some corners.reflect) ∧
        ((words group).length = 0 ∨ 4 < (words group).length → group' = group)) v.groups v'.groups) ∧
    v.groups.map (fun group => (words group).length) = [3, 0, 5] ∧
    (Action.corners.onValue v).render = "f(a / b) 1px\x021\x03 f(a / b) 3px/\x0202\x03 / 1 2 3 4 5".toList ∧
    (Value.read list).has .comma = true ∧ (Action.corners.onValue (Value.read list)).render = list := by
  intro x v v' list
  refine ⟨⟨?whole, ?closed, ?comma, (swapCorners_reflects x).1 ?whole ?closed ?comma⟩, ?counts, ?text, ?list,
    (swapCorners_reflects list).2.2 ?list⟩
  all_goals decide +kernel

end BidiSheet
