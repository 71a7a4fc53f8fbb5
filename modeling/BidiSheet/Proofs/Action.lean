import BidiSheet.Proofs.Token
import BidiSheet.Proofs.Words

/-!
# Actions as changes of the tokens

An action queues new texts on the word tokens of a value, and rendering writes them out. The same can be
said without the queue: the action *revises* the tokens, and the value is written out from the revised
tokens (`Action.render_onValue`). Most words become one word. Only of three corners the third one becomes
two words, since the second corner has to be written once more.

* `Action.Restyles`, `Action.Moves`: how the words that an action puts into a value are related to those
  that were there (`Action.revised_of_restyles`, `Action.revised_of_moves`).
* `Action.revise_revise_revise`: revising three times is revising once.
-/

namespace BidiSheet

/-! ### Words in the place of words -/

namespace Words

/-- Words with single blanks between them. -/
def join (ws : List Text) : Text := [' '].intercalate ws

/-- A single word stands for itself. -/
@[simp] theorem join_singleton (w : Text) : join [w] = w := List.intercalate_singleton

/-- Between two words stands one blank. -/
theorem join_cons_cons (w v : Text) (ws : List Text) :
    join (w :: v :: ws) = w ++ ' ' :: join (v :: ws) := by
  simp [join, List.intercalate_cons_cons]

/-- Each word on its own. -/
def alone (ws : List Text) : List (List Text) := ws.map fun w => [w]

/-- No word is lost when each stands on its own. -/
@[simp] theorem length_alone (ws : List Text) : (alone ws).length = ws.length := List.length_map _

/-- Words that stand alone are, one after the other, the words themselves. -/
@[simp] theorem flatten_alone (ws : List Text) : (alone ws).flatten = ws := by
  induction ws with
  | nil => rfl
  | cons w ws ih => exact congrArg (w :: ·) ih

/-- The corners that take the place of each corner. -/
def cornerWords : List Text → List (List Text)
  | [a, b, c] => [[b], [a], [b, c]]
  | ws => alone (corners ws)

/-- `g` says which words each of the new words of `f` consists of. -/
structure Spells (f : List Text → List Text) (g : List Text → List (List Text)) : Prop where
  map_join (ws : List Text) : (g ws).map join = f ws
  length_eq (ws : List Text) : (g ws).length = ws.length
  ne_nil (ws : List Text) : ∀ l ∈ g ws, l ≠ []

/-- Where as many words come out as went in, each of them takes the place of one. -/
theorem spells_alone {f : List Text → List Text} (h : ∀ ws, (f ws).length = ws.length) :
    Spells f fun ws => alone (f ws) where
  map_join ws := by
    rw [alone, List.map_map]
    simp [Function.comp_def]
  length_eq ws := by rw [length_alone, h]
  ne_nil ws := by
    intro l hl
    obtain ⟨w, -, rfl⟩ := List.mem_map.mp hl
    exact List.cons_ne_nil w []

/-- Corners are exchanged for as many corners. -/
theorem length_corners (ws : List Text) : (corners ws).length = ws.length := by
  unfold corners
  split <;> rfl

/-- Sides are exchanged for as many sides. -/
theorem length_box (ws : List Text) : (box ws).length = ws.length := by
  unfold box
  split <;> rfl

/-- A position keeps its number of words. -/
theorem length_position (ws : List Text) : (position ws).length = ws.length := by
  induction ws with
  | nil => rfl
  | cons w ws ih =>
    rw [position]
    split
    · simp
    · rw [List.length_cons, ih, List.length_cons]

/-- An offset keeps its number of words. -/
theorem length_offset (ws : List Text) : (offset ws).length = ws.length := by
  induction ws with
  | nil => rfl
  | cons w ws ih =>
    rw [offset]
    split
    · rw [List.length_cons, ih, List.length_cons]
    · split <;> rfl

/-- Exchanging the sides of a box twice changes nothing. -/
theorem box_box (ws : List Text) : box (box ws) = ws := by
  rcases ws with _ | ⟨a, _ | ⟨b, _ | ⟨c, _ | ⟨d, _ | ⟨e, ws⟩⟩⟩⟩⟩ <;> rfl

/-- Exchanging corners twice changes nothing, unless there are three of them. -/
theorem corners_corners {ws : List Text} (h : ws.length ≠ 3) : corners (corners ws) = ws := by
  rcases ws with _ | ⟨a, _ | ⟨b, _ | ⟨c, _ | ⟨d, _ | ⟨e, ws⟩⟩⟩⟩⟩
  case cons.cons.cons.nil => exact absurd rfl h
  all_goals rfl

/-- A vocabulary exchanges words one by one. -/
theorem forall₂_map_swap (v : Vocabulary) (ws : List Text) :
    List.Forall₂ (fun w w' => w' = w ∨ Restyled w w') ws (ws.map v.swap) := by
  rw [List.forall₂_map_right_iff, List.forall₂_same]
  exact fun w _ => swap_eq_or_restyled v w

/-- A position is reflected word by word. -/
theorem forall₂_position (ws : List Text) :
    List.Forall₂ (fun w w' => w' = w ∨ Restyled w w') ws (position ws) := by
  induction ws with
  | nil => exact .nil
  | cons w ws ih =>
    cases h : isPosition w with
    | false =>
      rw [position_of_not_isPosition h]
      exact .cons (.inl rfl) ih
    | true =>
      rw [position_of_isPosition h]
      exact .cons (opposite_eq_or_restyled w) (forall₂_map_swap .side ws)

/-- An offset is negated word by word. -/
theorem forall₂_offset (ws : List Text) :
    List.Forall₂ (fun w w' => w' = w ∨ Restyled w w') ws (offset ws) := by
  have hrefl : ∀ vs : List Text,
      List.Forall₂ (fun w w' => w' = w ∨ Restyled w w') vs vs :=
    fun vs => List.forall₂_same.mpr fun _ _ => .inl rfl
  induction ws with
  | nil => exact .nil
  | cons w ws ih =>
    cases h : Quantity.read? w with
    | none =>
      rw [offset_of_read?_eq_none h]
      exact .cons (.inl rfl) ih
    | some q =>
      cases hzero : q.numeral.isZero with
      | true =>
        rw [offset_of_isZero h hzero]
        exact hrefl _
      | false =>
        rw [offset_of_not_isZero h hzero]
        exact .cons (.inr (restyled_negate h)) (hrefl ws)

/-- A function that makes no words of its own makes none where each stands alone. -/
theorem subset_alone {f : List Text → List Text} (h : ∀ ws, f ws ⊆ ws) (ws : List Text) :
    ∀ l ∈ alone (f ws), l ⊆ ws := by
  intro l hl
  obtain ⟨w, hw, rfl⟩ := List.mem_map.mp hl
  simpa using h ws hw

/-- The sides of a reflected box are those of the box. -/
theorem subset_box (ws : List Text) : ∀ l ∈ alone (box ws), l ⊆ ws := by
  apply subset_alone
  intro ws
  unfold box
  split
  · simp
  · exact List.Subset.refl ws

/-- Only of three corners one becomes two words. -/
theorem cornerWords_of_length_ne {ws : List Text} (h : ws.length ≠ 3) :
    cornerWords ws = alone (corners ws) := by
  unfold cornerWords
  split
  · exact absurd rfl h
  · rfl

/-- The corners of a reflected list are those of the list. -/
theorem subset_cornerWords (ws : List Text) : ∀ l ∈ cornerWords ws, l ⊆ ws := by
  unfold cornerWords
  split
  · simp
  next hne =>
    intro l hl
    obtain ⟨w, hw, rfl⟩ := List.mem_map.mp hl
    have hmem : w ∈ ws := by
      unfold corners at hw
      split at hw
      · simpa [or_comm] using hw
      · exact absurd rfl (hne _ _ _)
      · simp at hw ⊢
        tauto
      · exact hw
    simpa using hmem

/-- Corners are queued as the words that they are. -/
theorem spells_corners : Spells corners cornerWords where
  map_join ws := by
    unfold cornerWords
    split
    · simp [corners, join, List.intercalate_cons_cons]
    · exact (spells_alone length_corners).map_join ws
  length_eq ws := by
    unfold cornerWords
    split
    · rfl
    · exact (spells_alone length_corners).length_eq ws
  ne_nil ws := by
    unfold cornerWords
    split
    · simp
    · exact (spells_alone length_corners).ne_nil ws

end Words

open Words (join alone Spells)

/-- New words in the place of a token, the first of them behind the token's blanks. -/
def Token.lay (t : Token) : List Text → List Token
  | [] => []
  | w :: ws => { t with text := w } :: ws.map Token.spaced

namespace Tokens

/-- New words in the places of the word tokens, in order. -/
def lay : List Token → List (List Text) → List Token
  | [], _ => []
  | ts, [] => ts
  | t :: ts, ws :: wss => if t.isWord then t.lay ws ++ lay ts wss else t :: lay ts (ws :: wss)

/-- Turns the words among some tokens into lists of words, one for each. -/
def layWords (g : List Text → List (List Text)) (ts : List Token) : List Token := lay ts (g (words ts))

section

variable {t : Token} {ts : List Token} {ws : List Text} {wss : List (List Text)}

@[simp] theorem lay_nil (wss : List (List Text)) : lay [] wss = [] := by
  rw [lay]

/-- Where there are no words the tokens stay as they are. -/
@[simp] theorem lay_no_words (ts : List Token) : lay ts [] = ts := by
  cases ts <;> simp [lay]

/-- The first words are laid in the place of the first word token. -/
theorem lay_word (h : t.kind = .word) : lay (t :: ts) (ws :: wss) = t.lay ws ++ lay ts wss := by
  rw [lay, if_pos (by simp [Token.isWord, h])]

/-- Tokens that are no words stay where they are. -/
theorem lay_other (h : t.kind ≠ .word) : lay (t :: ts) wss = t :: lay ts wss := by
  cases wss with
  | nil => rw [lay_no_words, lay_no_words]
  | cons ws wss => rw [lay, if_neg (by simp [Token.isWord, h])]

/-- The text of a word token is the first word. -/
theorem words_word (h : t.kind = .word) : words (t :: ts) = t.text :: words ts := by
  simp [words, Token.isWord, h]

/-- A token that is no word adds no word. -/
theorem words_other (h : t.kind ≠ .word) : words (t :: ts) = words ts := by
  simp [words, Token.isWord, h]

/-- The words of two lists of tokens follow one another. -/
@[simp] theorem words_append (ts us : List Token) : words (ts ++ us) = words ts ++ words us := by
  simp [words]

/-- Spaced words are their own words. -/
theorem words_spaced (ws : List Text) : words (ws.map Token.spaced) = ws := by
  induction ws with
  | nil => rfl
  | cons w ws ih => rw [List.map_cons, words_word rfl, ih, Token.spaced]

/-- Spaced words are written as joined words. -/
theorem source_spaced (ws : List Text) (w : Text) :
    w ++ source (ws.map Token.spaced) = join (w :: ws) := by
  induction ws generalizing w with
  | nil => simp
  | cons v ws ih =>
    rw [List.map_cons, source_cons, List.append_assoc, Words.join_cons_cons, ← ih v]
    rfl

/-- Words in the place of a token are written behind its gap. -/
theorem source_lay (hne : ws ≠ []) : source (t.lay ws) = t.gap ++ join ws := by
  cases ws with
  | nil => exact absurd rfl hne
  | cons w ws => rw [Token.lay, source_cons, List.append_assoc, source_spaced]

/-- The words in the place of a word token are those that were laid there. -/
theorem words_tokenLay (h : t.kind = .word) : words (t.lay ws) = ws := by
  cases ws with
  | nil => rfl
  | cons w ws =>
    rw [Token.lay, words_word (by exact h), words_spaced]

/-- The words of tokens in which new words have been laid. -/
theorem words_lay (h : wss.length = (words ts).length) : words (lay ts wss) = wss.flatten := by
  induction ts generalizing wss with
  | nil =>
    rw [List.length_eq_zero_iff.mp h]
    rfl
  | cons t ts ih =>
    by_cases ht : t.kind = .word
    · rw [words_word ht, List.length_cons] at h
      cases wss with
      | nil => cases h
      | cons ws wss =>
        rw [lay_word ht, words_append, words_tokenLay ht, ih (Nat.succ.inj h), List.flatten_cons]
    · rw [words_other ht] at h
      rw [lay_other ht, words_other ht, ih h]

/-- A single word takes the place of the text of its token. -/
theorem lay_alone_cons (h : t.kind = .word) (w : Text) (ws : List Text) :
    lay (t :: ts) (alone (w :: ws)) = { t with text := w } :: lay ts (alone ws) :=
  lay_word h

/-- Single words are laid over single words. -/
theorem lay_lay {ws ws' : List Text} (h : ws.length = ws'.length) :
    lay (lay ts (alone ws)) (alone ws') = lay ts (alone ws') := by
  induction ts generalizing ws ws' with
  | nil => simp
  | cons t ts ih =>
    by_cases ht : t.kind = .word
    · cases ws with
      | nil =>
        rw [List.length_nil, eq_comm, List.length_eq_zero_iff] at h
        rw [h]
        exact lay_no_words _
      | cons w ws =>
        cases ws' with
        | nil => cases h
        | cons w' ws' =>
          rw [lay_alone_cons ht, lay_alone_cons ht, lay_alone_cons (by exact ht),
            ih (Nat.succ.inj h)]
    · rw [lay_other ht, lay_other ht, lay_other ht, ih h]

/-- Words that are laid where they are leave the tokens in front as they are. -/
theorem lay_words_append (us ts : List Token) (wss : List (List Text)) :
    lay (us ++ ts) (alone (words us) ++ wss) = us ++ lay ts wss := by
  induction us with
  | nil => rfl
  | cons t us ih =>
    by_cases ht : t.kind = .word
    · rw [words_word ht, List.cons_append, List.cons_append, ← ih]
      exact lay_word ht
    · rw [words_other ht, List.cons_append, lay_other ht, List.cons_append, ih]

/-- Laying the words that are there changes nothing. -/
theorem lay_words (ts : List Token) : lay ts (alone (words ts)) = ts := by
  have happend := lay_words_append ts [] []
  rwa [List.append_nil, List.append_nil, lay_nil, List.append_nil] at happend

/-- **The words that are queued are written out as the words that are laid.** -/
theorem render_assign (hfresh : ∀ t ∈ ts, t.queued = none) (hne : ∀ ws ∈ wss, ws ≠ []) :
    (assign ts (wss.map join)).flatMap Token.render = source (lay ts wss) := by
  have hrender : ∀ {t : Token}, t.queued = none → t.render = t.gap ++ t.text := by
    intro t h
    rw [Token.render, Token.rendered_of_fresh h]
  induction ts generalizing wss with
  | nil => rw [assign, lay_nil, source_nil, List.flatMap_nil]
  | cons t ts ih =>
    have ht := hfresh t List.mem_cons_self
    have hts : ∀ u ∈ ts, u.queued = none := fun u hu => hfresh u (List.mem_cons_of_mem t hu)
    cases wss with
    | nil =>
      rw [lay_no_words, List.map_nil, assign, source]
      · exact List.flatMap_congr fun u hu => hrender (hfresh u hu)
      · simp
    | cons ws wss =>
      rw [List.map_cons, assign]
      by_cases hword : t.kind = .word
      · have hws := hne ws List.mem_cons_self
        rw [if_pos (by simp [Token.isWord, hword]), List.flatMap_cons, lay_word hword, source_append,
          source_lay hws, ih hts fun l hl => hne l (List.mem_cons_of_mem ws hl)]
        rw [Token.render, Token.gap_queue, Token.rendered_queue ht]
      · rw [if_neg (by simp [Token.isWord, hword]), List.flatMap_cons, lay_other hword, source_cons,
          hrender ht, ← List.map_cons, ih hts hne]

/-- What is queued on the words is rendered as what is laid in their place. -/
theorem render_mapWords {f : List Text → List Text} {g : List Text → List (List Text)}
    (h : Spells f g) (hfresh : ∀ t ∈ ts, t.queued = none) :
    (mapWords f ts).flatMap Token.render = source (layWords g ts) := by
  rw [mapWords, ← h.map_join, render_assign hfresh (h.ne_nil _), layWords]

end

/-! ### Groups of tokens -/

/-- Whether no token is of some kind. -/
def isFree (kind : TokenKind) (ts : List Token) : Bool := ts.all fun t => t.kind ≠ kind

/-- No token is of the kind at which groups are divided. -/
theorem isFree_iff {kind : TokenKind} {ts : List Token} :
    isFree kind ts = true ↔ ∀ t ∈ ts, t.kind ≠ kind := by
  simp [isFree]

section

variable {kind : TokenKind} {F G : List Token → List Token} {group ts : List Token} {t : Token}

/-- Tokens that do not divide groups are added to the group that is being read. -/
theorem mapGroups_go_append (h : isFree kind group = true) (read ts : List Token) :
    mapGroups.go kind F read (group ++ ts) = mapGroups.go kind F (read ++ group) ts := by
  induction group generalizing read with
  | nil => rw [List.nil_append, List.append_nil]
  | cons t group ih =>
    rw [isFree, List.all_cons, Bool.and_eq_true, decide_eq_true_eq] at h
    rw [List.cons_append, mapGroups.go, if_neg h.1, ih h.2, List.append_assoc, List.singleton_append]

/-- Tokens without a divider are one group. -/
theorem mapGroups_free (h : isFree kind group = true) : mapGroups kind F group = F group := by
  have hgo := mapGroups_go_append (F := F) h [] []
  rw [List.append_nil, List.nil_append] at hgo
  rw [mapGroups, hgo, mapGroups.go]

/-- The first divider ends the first group. -/
theorem mapGroups_split (h : isFree kind group = true) (ht : t.kind = kind) (ts : List Token) :
    mapGroups kind F (group ++ t :: ts) = F group ++ t :: mapGroups kind F ts := by
  rw [mapGroups, mapGroups_go_append h, List.nil_append, mapGroups.go, if_pos ht]
  rfl

/-- Induction over the groups of tokens between those of some kind. -/
theorem induction_groups {P : List Token → Prop} (kind : TokenKind)
    (free : ∀ group, isFree kind group = true → P group)
    (split : ∀ group t ts, isFree kind group = true → t.kind = kind → P ts → P (group ++ t :: ts))
    (ts : List Token) : P ts := by
  have hgroup : ∀ ts group, isFree kind group = true → P (group ++ ts) := by
    intro ts
    induction ts with
    | nil =>
      intro group hgroup
      rw [List.append_nil]
      exact free group hgroup
    | cons t ts ih =>
      intro group hgroup
      by_cases ht : t.kind = kind
      · exact split group t ts hgroup ht (ih [] rfl)
      · rw [List.append_cons]
        apply ih
        rw [isFree, List.all_append, Bool.and_eq_true]
        exact ⟨hgroup, by simpa using ht⟩
  exact hgroup ts [] rfl

/-- Tokens without a divider are not split. -/
theorem splitOnP_free (h : isFree kind group = true) : group.splitOnP (fun t => t.kind = kind) = [group] :=
  List.splitOnP_eq_singleton fun t ht => decide_eq_false (isFree_iff.mp h t ht)

/-- The first divider splits off the first group. -/
theorem splitOnP_split (h : isFree kind group = true) (ht : t.kind = kind) (ts : List Token) :
    (group ++ t :: ts).splitOnP (fun t => t.kind = kind) = group :: ts.splitOnP fun t => t.kind = kind := by
  rw [List.splitOnP_append_cons _ _ (by simpa using ht), splitOnP_free h, List.singleton_append]

/-- A group is a part of the list. -/
theorem subset_of_mem_splitOnP {α : Type} {p : α → Bool} {xs group : List α} (h : group ∈ xs.splitOnP p) :
    group ⊆ xs := by
  induction xs generalizing group with
  | nil =>
    rw [List.splitOnP_nil, List.mem_singleton] at h
    rw [h]
    exact List.Subset.refl []
  | cons x xs ih =>
    rw [List.splitOnP_cons_eq_if_modifyHead] at h
    split at h
    · rcases List.mem_cons.mp h with rfl | h
      · exact List.nil_subset _
      · exact List.subset_cons_of_subset x (ih h)
    · obtain ⟨first, rest, hsplit⟩ := List.exists_cons_of_ne_nil (List.splitOnP_ne_nil p xs)
      rw [hsplit, List.modifyHead_cons] at h
      rcases List.mem_cons.mp h with rfl | h
      · exact List.cons_subset_cons x (ih (hsplit ▸ List.mem_cons_self))
      · exact List.subset_cons_of_subset x (ih (hsplit ▸ List.mem_cons_of_mem _ h))

/-- The groups of tokens of which each group has been changed are the changed groups. -/
theorem splitOnP_mapGroups (hF : ∀ us, isFree kind us = true → isFree kind (F us) = true) (ts : List Token) :
    (mapGroups kind F ts).splitOnP (fun t => t.kind = kind)
      = (ts.splitOnP fun t => t.kind = kind).map F := by
  induction ts using induction_groups kind with
  | free group hgroup =>
    rw [mapGroups_free hgroup, splitOnP_free (hF group hgroup), splitOnP_free hgroup, List.map_singleton]
  | split group t ts hgroup ht ih =>
    rw [mapGroups_split hgroup ht, splitOnP_split (hF group hgroup) ht, splitOnP_split hgroup ht,
      List.map_cons, ih]

/-- The tokens before the first divider have none, and behind them there is a divider or nothing. -/
theorem exists_of_not_isFree (kind : TokenKind) (ts : List Token) :
    isFree kind (ts.takeWhile (·.kind ≠ kind)) = true ∧
      (ts.dropWhile (·.kind ≠ kind) = [] ∨
        ∃ t us, ts.dropWhile (·.kind ≠ kind) = t :: us ∧ t.kind = kind) := by
  constructor
  · rw [isFree_iff]
    intro t ht
    have hkind := List.mem_takeWhile_imp ht
    simpa using hkind
  cases h : ts.dropWhile (·.kind ≠ kind) with
  | nil => exact .inl rfl
  | cons t us =>
    have hhead := List.head?_dropWhile_not (fun t : Token => decide (t.kind ≠ kind)) ts
    rw [h] at hhead
    exact .inr ⟨t, us, rfl, by simpa using hhead⟩

/-- What is done before the first token of some kind is done there again. -/
theorem mapBefore_mapBefore (hF : ∀ us, isFree kind us = true → isFree kind (F us) = true)
    (ts : List Token) : mapBefore kind G (mapBefore kind F ts) = mapBefore kind (G ∘ F) ts := by
  obtain ⟨hfree, hrest⟩ := exists_of_not_isFree kind ts
  have hall := isFree_iff.mp (hF _ hfree)
  rw [mapBefore, mapBefore, mapBefore, Function.comp]
  rcases hrest with hnil | ⟨t, us, hcons, ht⟩
  · rw [hnil, List.append_nil, List.append_nil, List.takeWhile_eq_self_iff.mpr, List.dropWhile_eq_nil_iff.mpr,
      List.append_nil]
    · exact fun u hu => decide_eq_true (hall u hu)
    · exact fun u hu => decide_eq_true (hall u hu)
  · rw [hcons, List.takeWhile_append_of_pos, List.dropWhile_append_of_pos,
      List.takeWhile_cons_of_neg (by simp [ht]), List.dropWhile_cons_of_neg (by simp [ht]),
      List.append_nil]
    · exact fun u hu => decide_eq_true (hall u hu)
    · exact fun u hu => decide_eq_true (hall u hu)

/-- What leaves a group as it is when done three times instead of once, leaves all of them so. -/
theorem mapGroups_thrice (hF : ∀ us, isFree kind us = true → isFree kind (F us) = true)
    (h : ∀ us, F (F (F us)) = F us) (ts : List Token) :
    mapGroups kind F (mapGroups kind F (mapGroups kind F ts)) = mapGroups kind F ts := by
  induction ts using induction_groups kind with
  | free group hgroup =>
    have h₁ := hF group hgroup
    rw [mapGroups_free hgroup, mapGroups_free h₁, mapGroups_free (hF _ h₁), h]
  | split group t ts hgroup ht ih =>
    have h₁ := hF group hgroup
    rw [mapGroups_split hgroup ht, mapGroups_split h₁ ht, mapGroups_split (hF _ h₁) ht, h, ih]

/-- What settles after two turns on each part settles after two turns before the first divider. -/
theorem mapBefore_thrice (hF : ∀ us, isFree kind us = true → isFree kind (F us) = true)
    (h : ∀ us, F (F (F us)) = F us) (ts : List Token) :
    mapBefore kind F (mapBefore kind F (mapBefore kind F ts)) = mapBefore kind F ts := by
  rw [mapBefore_mapBefore hF, mapBefore_mapBefore hF]
  have hcomp : (F ∘ F) ∘ F = F := funext h
  rw [hcomp]

/-- Groups can be rendered one by one. -/
theorem render_mapGroups (h : ∀ us : List Token, (∀ t ∈ us, t.queued = none) →
    (F us).flatMap Token.render = source (G us)) (hfresh : ∀ t ∈ ts, t.queued = none) :
    (mapGroups kind F ts).flatMap Token.render = source (mapGroups kind G ts) := by
  induction ts using induction_groups kind with
  | free group hgroup => rw [mapGroups_free hgroup, mapGroups_free hgroup, h group hfresh]
  | split group t ts hgroup ht ih =>
    have ht' : t.queued = none := hfresh t (List.mem_append_right _ List.mem_cons_self)
    rw [mapGroups_split hgroup ht, mapGroups_split hgroup ht, List.flatMap_append, List.flatMap_cons,
      source_append, source_cons, h group fun u hu => hfresh u (List.mem_append_left _ hu),
      ih fun u hu => hfresh u (List.mem_append_right _ (List.mem_cons_of_mem t hu)), Token.render,
      Token.rendered_of_fresh ht']

/-- The part before the first divider can be rendered on its own. -/
theorem render_mapBefore (h : ∀ us : List Token, (∀ t ∈ us, t.queued = none) →
    (F us).flatMap Token.render = source (G us)) (hfresh : ∀ t ∈ ts, t.queued = none) :
    (mapBefore kind F ts).flatMap Token.render = source (mapBefore kind G ts) := by
  rw [mapBefore, mapBefore, List.flatMap_append, source_append,
    h _ fun u hu => hfresh u ((List.takeWhile_prefix _).subset hu), source]
  congr 1
  apply List.flatMap_congr
  intro u hu
  rw [Token.render, Token.rendered_of_fresh (hfresh u ((List.dropWhile_suffix _).subset hu))]

end

/-! ### Revised words -/

section

variable {Q : Text → List Text → Prop} {kind : TokenKind} {ts us ts' us' : List Token}

theorem Revised.refl (ts : List Token) : Revised Q ts ts := by
  induction ts with
  | nil => exact .nil
  | cons t ts ih => exact .same t ih

/-- Revisions can be put one after the other. -/
theorem Revised.append (h : Revised Q ts us) (h' : Revised Q ts' us') :
    Revised Q (ts ++ ts') (us ++ us') := by
  induction h with
  | nil => exact h'
  | same t rest ih => exact .same t ih
  | word hword h rest ih =>
    rw [List.cons_append, List.cons_append, List.append_assoc]
    exact .word hword h ih

/-- A revision neither adds nor removes a token that is no word. -/
theorem Revised.isFree (h : Revised Q ts us) (hkind : kind ≠ .word) :
    isFree kind us = isFree kind ts := by
  induction h with
  | nil => rfl
  | same t rest ih =>
    rw [Tokens.isFree, List.all_cons, Tokens.isFree, List.all_cons]
    exact congrArg _ ih
  | @word t ts us w ws hword h rest ih =>
    have hspaced : Tokens.isFree kind (ws.map Token.spaced) = true := by
      rw [isFree_iff]
      intro u hu
      obtain ⟨v, -, rfl⟩ := List.mem_map.mp hu
      exact hkind.symm
    rw [Tokens.isFree] at hspaced ih ⊢
    rw [List.all_cons, List.all_append, hspaced, ih, Bool.true_and]
    rfl

/-- Words that are laid, each in the place of a word that it may replace, revise the tokens. -/
theorem revised_lay {wss : List (List Text)}
    (h : List.Forall₂ (fun w ws => ws = [w] ∨ ws ≠ [] ∧ Q w ws) (words ts) wss) :
    Revised Q ts (lay ts wss) := by
  induction ts generalizing wss with
  | nil =>
    rw [lay_nil]
    exact .nil
  | cons t ts ih =>
    by_cases ht : t.kind = .word
    · rw [words_word ht] at h
      cases h with
      | @cons _ ws _ wss hw h =>
        rw [lay_word ht]
        rcases hw with rfl | ⟨hne, hw⟩
        · exact .same t (ih h)
        · cases ws with
          | nil => exact absurd rfl hne
          | cons v ws => exact .word ht hw (ih h)
    · rw [words_other ht] at h
      rw [lay_other ht]
      exact .same t (ih h)

/-- A revision of each group is a revision of the whole. -/
theorem revised_mapGroups {F : List Token → List Token}
    (h : ∀ us ⊆ ts, Revised Q us (F us)) : Revised Q ts (mapGroups kind F ts) := by
  induction ts using induction_groups kind with
  | free group hgroup =>
    rw [mapGroups_free hgroup]
    exact h group (List.Subset.refl group)
  | split group t ts hgroup ht ih =>
    rw [mapGroups_split hgroup ht]
    refine (h group (List.subset_append_left _ _)).append (.same t (ih ?_))
    intro us hus
    exact h us (List.Subset.trans hus (List.subset_append_of_subset_right group
      (List.subset_cons_self t ts)))

/-- A revision before the first divider is a revision of the whole. -/
theorem revised_mapBefore {F : List Token → List Token}
    (h : ∀ us ⊆ ts, Revised Q us (F us)) : Revised Q ts (mapBefore kind F ts) := by
  have hbefore := h _ (List.takeWhile_prefix (fun t : Token => decide (t.kind ≠ kind))).subset
  have happend := hbefore.append (Revised.refl (ts.dropWhile (·.kind ≠ kind)))
  rwa [List.takeWhile_append_dropWhile] at happend

end

/-! ### Laying words three times -/

/-- The words that are laid are the words that are there afterwards. -/
theorem words_layWords {f : List Text → List Text} {g : List Text → List (List Text)}
    (h : Spells f g) (ts : List Token) : words (layWords g ts) = (g (words ts)).flatten :=
  words_lay (h.length_eq _)

/-- Where a function on words settles after two turns, so does laying its words. -/
theorem layWords_thrice {f : List Text → List Text} (hlen : ∀ ws, (f ws).length = ws.length)
    (h : ∀ ws, f (f (f ws)) = f ws) (ts : List Token) :
    layWords (fun ws => alone (f ws)) (layWords (fun ws => alone (f ws))
      (layWords (fun ws => alone (f ws)) ts)) = layWords (fun ws => alone (f ws)) ts := by
  have hwords : ∀ ts, words (layWords (fun ws => alone (f ws)) ts) = f (words ts) := by
    intro ts
    rw [words_layWords (Words.spells_alone hlen), Words.flatten_alone]
  have hlay : ∀ ts, layWords (fun ws => alone (f ws)) (layWords (fun ws => alone (f ws)) ts)
      = lay ts (alone (f (f (words ts)))) := by
    intro ts
    rw [layWords, hwords, layWords, lay_lay (hlen _).symm]
  rw [hlay, hwords, h, layWords, lay_lay rfl]

/-- **Corners go to and fro** once three of them have been written out as four. -/
theorem layWords_corners_thrice (ts : List Token) :
    layWords Words.cornerWords (layWords Words.cornerWords (layWords Words.cornerWords ts))
      = layWords Words.cornerWords ts := by
  -- on anything but three corners, corners are exchanged one for one
  have hback : ∀ us, (words us).length ≠ 3 →
      layWords Words.cornerWords (layWords Words.cornerWords us) = us := by
    intro us hus
    have hwords : words (layWords Words.cornerWords us) = Words.corners (words us) := by
      rw [words_layWords Words.spells_corners, Words.cornerWords_of_length_ne hus,
        Words.flatten_alone]
    have hlen : (Words.corners (words us)).length ≠ 3 := by rwa [Words.length_corners]
    rw [layWords, hwords, Words.cornerWords_of_length_ne hlen,
      Words.corners_corners hus, layWords, Words.cornerWords_of_length_ne hus,
      lay_lay (Words.length_corners _), lay_words]
  by_cases hlen : (words ts).length = 3
  · apply hback
    obtain ⟨a, b, c, habc⟩ := List.length_eq_three.mp hlen
    rw [words_layWords Words.spells_corners, habc]
    exact Nat.succ_ne_self 3
  · rw [hback ts hlen]

end Tokens

namespace Action

open Tokens (layWords mapGroups mapBefore Revised)

/-! ### Revising values -/

/-- A value with the words that an action makes of its words in their places. -/
def revise : Action → Value → Value
  | .rename _, v => v
  | .swap vocabulary, v => v.mapTokens (layWords fun ws => alone (ws.map vocabulary.swap))
  | .box, v => if v.isBox then v.mapTokens (layWords fun ws => alone (Words.box ws)) else v
  | .corners, v =>
    if v.isCorners then v.mapTokens (mapGroups .slash (layWords Words.cornerWords)) else v
  | .position, v =>
    v.mapTokens (mapGroups .comma (mapBefore .slash (layWords fun ws => alone (Words.position ws))))
  | .offset, v => v.mapTokens (mapGroups .comma (layWords fun ws => alone (Words.offset ws)))

/-- Whether an action only puts the words of a value in another order. -/
def isMove : Action → Bool
  | .box | .corners => true
  | _ => false

/-- A word is exchanged for one that is restyled. -/
def Restyles (w : Text) (ws : List Text) : Prop := ∃ w', ws = [w'] ∧ Words.Restyled w w'

/-- A word is exchanged for words from among some. -/
def Moves (all : List Text) (w : Text) (ws : List Text) : Prop := w ∈ all ∧ ∀ w' ∈ ws, w' ∈ all

variable {v : Value}

/-- An action leaves the blanks at the end of a value alone. -/
theorem tail_revise (action : Action) (v : Value) : (action.revise v).tail = v.tail := by
  cases action with
  | box =>
    rw [revise]
    split <;> rfl
  | corners =>
    rw [revise]
    split <;> rfl
  | rename | swap | position | offset => rfl

/-- **What an action queues is written out as the revised value.** -/
theorem render_onValue (action : Action) (hfresh : ∀ t ∈ v.tokens, t.queued = none) :
    (action.onValue v).render = Tokens.source (action.revise v).tokens ++ v.tail := by
  have hwords : ∀ {f : List Text → List Text} {g : List Text → List (List Text)}, Spells f g →
      ∀ us : List Token, (∀ t ∈ us, t.queued = none) →
        (Tokens.mapWords f us).flatMap Token.render = Tokens.source (layWords g us) :=
    fun h us hus => Tokens.render_mapWords h hus
  have hsame : v.render = Tokens.source v.tokens ++ v.tail := by
    rw [Value.render_of_not_isChanged, Value.source, Tokens.source]
    rw [Value.isChanged, List.any_eq_false]
    intro t ht
    simp [hfresh t ht]
  cases action with
  | rename vocabulary => exact hsame
  | swap vocabulary =>
    show (Tokens.mapWords _ v.tokens).flatMap Token.render ++ v.tail = _
    rw [hwords (Words.spells_alone fun ws => List.length_map _) _ hfresh]
    rfl
  | box =>
    rw [onValue, Value.swapSides, revise]
    split
    · show (Tokens.mapWords _ v.tokens).flatMap Token.render ++ v.tail = _
      rw [hwords (Words.spells_alone Words.length_box) _ hfresh]
      rfl
    · exact hsame
  | corners =>
    rw [onValue, Value.swapCorners, revise]
    split
    · show (mapGroups .slash _ v.tokens).flatMap Token.render ++ v.tail = _
      rw [Tokens.render_mapGroups (hwords Words.spells_corners) hfresh]
      rfl
    · exact hsame
  | position =>
    show (mapGroups .comma _ v.tokens).flatMap Token.render ++ v.tail = _
    rw [Tokens.render_mapGroups (fun us hus => Tokens.render_mapBefore
      (hwords (Words.spells_alone Words.length_position)) hus) hfresh]
    rfl
  | offset =>
    show (mapGroups .comma _ v.tokens).flatMap Token.render ++ v.tail = _
    rw [Tokens.render_mapGroups (hwords (Words.spells_alone Words.length_offset)) hfresh]
    rfl

/-! ### How the words are related -/

/-- Words that are exchanged one for one, and restyled if they change. -/
theorem revised_alone {f : List Text → List Text}
    (h : ∀ ws, List.Forall₂ (fun w w' => w' = w ∨ Words.Restyled w w') ws (f ws)) (ts : List Token) :
    Revised Restyles ts (layWords (fun ws => alone (f ws)) ts) := by
  apply Tokens.revised_lay
  refine List.forall₂_map_right_iff.mpr ((h (Tokens.words ts)).imp ?_)
  rintro w w' (rfl | hw)
  · exact .inl rfl
  · exact .inr ⟨List.cons_ne_nil _ _, w', rfl, hw⟩

/-- **Keywords, positions and offsets are restyled.** -/
theorem revised_of_restyles {action : Action} (h : action.isMove = false) (v : Value) :
    Revised Restyles v.tokens (action.revise v).tokens := by
  cases action with
  | rename vocabulary => exact .refl _
  | swap vocabulary => exact revised_alone (Words.forall₂_map_swap vocabulary) _
  | box => cases h
  | corners => cases h
  | position =>
    apply Tokens.revised_mapGroups
    intro us _
    apply Tokens.revised_mapBefore
    intro us _
    exact revised_alone Words.forall₂_position us
  | offset =>
    apply Tokens.revised_mapGroups
    intro us _
    exact revised_alone Words.forall₂_offset us

/-- The words that an action lays come from the words of the value. -/
theorem revised_words {f : List Text → List Text} {g : List Text → List (List Text)}
    (h : Spells f g) (hmem : ∀ ws, ∀ l ∈ g ws, l ⊆ ws) {ts us : List Token} (hus : us ⊆ ts) :
    Revised (Moves (Tokens.words ts)) us (layWords g us) := by
  have hwords : Tokens.words us ⊆ Tokens.words ts := by
    intro w hw
    obtain ⟨t, ht, rfl⟩ := List.mem_map.mp hw
    obtain ⟨ht, hword⟩ := List.mem_filter.mp ht
    exact List.mem_map_of_mem (List.mem_filter.mpr ⟨hus ht, hword⟩)
  apply Tokens.revised_lay
  rw [List.forall₂_iff_get]
  refine ⟨(h.length_eq _).symm, ?_⟩
  intro i hi hi'
  refine .inr ⟨h.ne_nil _ _ (List.get_mem _ _), hwords (List.get_mem _ _), ?_⟩
  intro w hw
  exact hwords (hmem _ _ (List.get_mem _ _) hw)

/-- **Sides and corners are moved.** -/
theorem revised_of_moves {action : Action} (h : action.isMove = true) (v : Value) :
    Revised (Moves (Tokens.words v.tokens)) v.tokens (action.revise v).tokens := by
  cases action with
  | rename => cases h
  | swap => cases h
  | position => cases h
  | offset => cases h
  | box =>
    rw [revise]
    split
    · exact revised_words (Words.spells_alone Words.length_box) Words.subset_box (List.Subset.refl _)
    · exact .refl _
  | corners =>
    rw [revise]
    split
    · apply Tokens.revised_mapGroups
      intro us hus
      exact revised_words Words.spells_corners Words.subset_cornerWords hus
    · exact .refl _

/-- An action puts nothing but words into a value. -/
theorem isFree_revise (action : Action) (v : Value) {kind : TokenKind} (hkind : kind ≠ .word) :
    Tokens.isFree kind (action.revise v).tokens = Tokens.isFree kind v.tokens := by
  cases h : action.isMove with
  | false => exact (revised_of_restyles h v).isFree hkind
  | true => exact (revised_of_moves h v).isFree hkind

/-- An action changes only words, so a value has the same other tokens afterwards. -/
theorem has_revise (action : Action) (v : Value) {kind : TokenKind} (hkind : kind ≠ .word) :
    (action.revise v).has kind = v.has kind := by
  have hhas : ∀ v : Value, v.has kind = !Tokens.isFree kind v.tokens := by
    intro v
    rw [Value.has, Tokens.isFree, List.not_all_eq_any_not]
    simp
  rw [hhas, hhas, isFree_revise action v hkind]

/-- A box stays a box. -/
theorem isBox_revise (action : Action) (v : Value) : (action.revise v).isBox = v.isBox := by
  rw [Value.isBox, Value.isBox, has_revise action v (by decide), has_revise action v (by decide)]

/-- A list of corners stays one. -/
theorem isCorners_revise (action : Action) (v : Value) :
    (action.revise v).isCorners = v.isCorners := by
  rw [Value.isCorners, Value.isCorners, has_revise action v (by decide)]

/-! ### Revising three times -/

/-- Laying words one by one adds no divider. -/
theorem isFree_layWords {f : List Text → List Text}
    (h : ∀ ws, List.Forall₂ (fun w w' => w' = w ∨ Words.Restyled w w') ws (f ws))
    {kind : TokenKind} (hkind : kind ≠ .word) {us : List Token}
    (hus : Tokens.isFree kind us = true) :
    Tokens.isFree kind (layWords (fun ws => alone (f ws)) us) = true := by
  rw [(revised_alone h us).isFree hkind, hus]

/-- **Revising a value three times is revising it once.** -/
theorem revise_revise_revise (action : Action) (v : Value) :
    action.revise (action.revise (action.revise v)) = action.revise v := by
  cases action with
  | rename vocabulary => rfl
  | swap vocabulary =>
    simp only [revise, Value.mapTokens]
    rw [Tokens.layWords_thrice (fun ws => List.length_map _) (Words.map_swap_swap_swap vocabulary)]
  | box =>
    cases h : v.isBox with
    | false => simp [revise, h]
    | true =>
      have hrev : ∀ u : Value, u.isBox = true →
          revise .box u = u.mapTokens (layWords fun ws => alone (Words.box ws)) := by
        intro u hu
        rw [revise, if_pos hu]
      rw [hrev (revise .box (revise .box v)) (by rw [isBox_revise, isBox_revise, h]),
        hrev (revise .box v) (by rw [isBox_revise, h]), hrev v h]
      simp only [Value.mapTokens]
      rw [Tokens.layWords_thrice Words.length_box fun ws => Words.box_box (Words.box ws)]
  | corners =>
    cases h : v.isCorners with
    | false => simp [revise, h]
    | true =>
      have hrev : ∀ u : Value, u.isCorners = true →
          revise .corners u = u.mapTokens (mapGroups .slash (layWords Words.cornerWords)) := by
        intro u hu
        rw [revise, if_pos hu]
      rw [hrev (revise .corners (revise .corners v)) (by rw [isCorners_revise, isCorners_revise, h]),
        hrev (revise .corners v) (by rw [isCorners_revise, h]), hrev v h]
      simp only [Value.mapTokens]
      rw [Tokens.mapGroups_thrice _ Tokens.layWords_corners_thrice]
      intro us hus
      rw [(revised_words Words.spells_corners Words.subset_cornerWords
        (List.Subset.refl us)).isFree (by decide), hus]
  | position =>
    simp only [revise, Value.mapTokens]
    rw [Tokens.mapGroups_thrice]
    · intro us hus
      rw [(Tokens.revised_mapBefore fun us _ => revised_alone Words.forall₂_position us).isFree
        (by decide), hus]
    · intro us
      apply Tokens.mapBefore_thrice
      · exact fun us => isFree_layWords Words.forall₂_position (by decide)
      · exact Tokens.layWords_thrice Words.length_position Words.position_position_position
  | offset =>
    simp only [revise, Value.mapTokens]
    rw [Tokens.mapGroups_thrice]
    · exact fun us => isFree_layWords Words.forall₂_offset (by decide)
    · exact Tokens.layWords_thrice Words.length_offset Words.offset_offset_offset

end Action

end BidiSheet
