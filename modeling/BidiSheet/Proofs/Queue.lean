import BidiSheet.Proofs.Action

/-!
# Actions as queues of replacements

An action can also be carried out place by place: it looks at the tokens of the value by their places, a group of
places at a time, and queues replacements on some of them, one after the other. Replacements change neither the kind
nor the text of a token, so that it does not matter what has been queued before (`Value.queueEach_eq`). What is queued
on each word in this way is what the function of the action makes of the words of the group (`Queues`). So every action
is such a loop over places (`Action.onValue_eq_byPlace`).
-/

namespace BidiSheet

/-! ### Replacements by place -/

namespace Value

/-- The text of the token at a place. -/
def textAt (v : Value) (i : Nat) : Text := (v.tokens[i]?.map Token.text).getD []

/-- Whether the token at a place is of some kind. -/
def isAt (kind : TokenKind) (v : Value) (i : Nat) : Bool := v.tokens[i]?.any fun t => t.kind = kind

/-- The places of words among some places. -/
def wordsIn (v : Value) (is : List Nat) : List Nat := is.filter (v.isAt .word)

/-- The places between tokens of some kind, group by group. -/
def placeGroups (kind : TokenKind) (v : Value) : List (List Nat) :=
  (v.tokens.zipIdx.splitOnP fun p => p.1.kind = kind).map (·.map Prod.snd)

/-- A value with replacements queued, one after the other. -/
def queueAll (v : Value) (rs : List (Nat × Text)) : Value := rs.foldl (fun v r => v.replace r.1 r.2) v

/-- A loop, each turn of which looks at the value as it is by then and queues replacements. -/
def queueEach {α : Type} (turn : Value → α → List (Nat × Text)) (xs : List α) (v : Value) : Value :=
  xs.foldl (fun v x => v.queueAll (turn v x)) v

/-- The layers are the groups of places between commas. -/
theorem layers_eq_placeGroups (v : Value) : v.layers = v.placeGroups .comma := rfl

/-- What a replacement leaves at each place. -/
theorem getElem?_replace (v : Value) (i : Nat) (w : Text) (j : Nat) :
    (v.replace i w).tokens[j]? = v.tokens[j]?.map fun t => if i = j then t.queue w else t := by
  rw [replace, List.getElem?_modify]
  split <;> cases v.tokens[j]? <;> rfl

/-- A replacement does not change texts. -/
@[simp] theorem textAt_replace (v : Value) (i : Nat) (w : Text) : (v.replace i w).textAt = v.textAt := by
  funext j
  rw [textAt, textAt, getElem?_replace, Option.map_map]
  refine congrArg (Option.getD · []) (Option.map_congr fun t _ => ?_)
  rw [Function.comp_apply, Token.queue]
  split <;> [split <;> rfl; rfl]

/-- A replacement does not change kinds. -/
@[simp] theorem isAt_replace (kind : TokenKind) (v : Value) (i : Nat) (w : Text) :
    (v.replace i w).isAt kind = v.isAt kind := by
  funext j
  rw [isAt, isAt, getElem?_replace, Option.any_map]
  refine congrArg (Option.any · v.tokens[j]?) (funext fun t => ?_)
  rw [Token.queue]
  split <;> [split <;> rfl; rfl]

/-- Replacements are queued in the order in which they are given. -/
theorem queueAll_append (v : Value) (rs rs' : List (Nat × Text)) :
    v.queueAll (rs ++ rs') = (v.queueAll rs).queueAll rs' := List.foldl_append

/-- A turn that does not look at what is queued. -/
def IsBlind {α : Type} (turn : Value → α → List (Nat × Text)) : Prop := ∀ v i w, turn (replace v i w) = turn v

/-- Replacements do not matter to a blind turn. -/
theorem IsBlind.queueAll {α : Type} {turn : Value → α → List (Nat × Text)} (h : IsBlind turn) (v : Value)
    (rs : List (Nat × Text)) : turn (v.queueAll rs) = turn v := by
  induction rs generalizing v with
  | nil => rfl
  | cons r rs ih => rw [Value.queueAll, List.foldl_cons, ← Value.queueAll, ih, h]

/-- **A loop of blind turns queues all replacements that they give for the value as it was.** -/
theorem queueEach_eq {α : Type} {turn : Value → α → List (Nat × Text)} (h : IsBlind turn) (xs : List α)
    (v : Value) : v.queueEach turn xs = v.queueAll (xs.flatMap (turn v)) := by
  induction xs generalizing v with
  | nil => rfl
  | cons x xs ih =>
    rw [queueEach, List.foldl_cons, ← queueEach, ih, h.queueAll, List.flatMap_cons, queueAll_append]

end Value

/-! ### What each token receives -/

namespace Token

/-- A token at a place with the replacements for this place queued. -/
def receive (t : Token) (i : Nat) (rs : List (Nat × Text)) : Token :=
  rs.foldl (fun t r => if r.1 = i then t.queue r.2 else t) t

variable {t : Token} {i : Nat} {rs : List (Nat × Text)}

/-- Queueing the text of a token changes nothing. -/
theorem queue_text (t : Token) : t.queue t.text = t := if_pos rfl

/-- Without replacements a token stays as it is. -/
@[simp] theorem receive_nil (t : Token) (i : Nat) : t.receive i [] = t := rfl

/-- A replacement for the place of the token. -/
@[simp] theorem receive_cons_self (t : Token) (i : Nat) (w : Text) (rs : List (Nat × Text)) :
    t.receive i ((i, w) :: rs) = (t.queue w).receive i rs := by
  rw [receive, List.foldl_cons, if_pos rfl, receive]

/-- A replacement for another place. -/
theorem receive_cons_of_ne {r : Nat × Text} (h : r.1 ≠ i) : t.receive i (r :: rs) = t.receive i rs := by
  rw [receive, List.foldl_cons, if_neg h, receive]

/-- Replacements are received in their order. -/
theorem receive_append (t : Token) (i : Nat) (rs rs' : List (Nat × Text)) :
    t.receive i (rs ++ rs') = (t.receive i rs).receive i rs' := List.foldl_append

/-- The text of a token does not depend on what it receives. -/
theorem text_receive (t : Token) (i : Nat) (rs : List (Nat × Text)) : (t.receive i rs).text = t.text := by
  induction rs generalizing t with
  | nil => rfl
  | cons r rs ih =>
    rw [receive, List.foldl_cons, ← receive, ih]
    split
    · exact text_queue t r.2
    · rfl

/-- A replacement of a token by its own text is none. -/
theorem receive_own {text : Nat → Text} (h : t.text = text i) (j : Nat) (rs : List (Nat × Text)) :
    t.receive i ((j, text j) :: rs) = t.receive i rs := by
  by_cases hj : j = i
  · rw [hj, receive_cons_self, ← h, queue_text]
  · exact receive_cons_of_ne hj

/-- A token receives nothing from replacements for other places. -/
theorem receive_of_forall_ne (h : ∀ r ∈ rs, r.1 ≠ i) : t.receive i rs = t := by
  induction rs with
  | nil => rfl
  | cons r rs ih =>
    rw [List.forall_mem_cons] at h
    rw [receive_cons_of_ne h.1, ih h.2]

/-- A token receives nothing from replacements for places that are not its own. -/
theorem receive_of_not_mem {is : List Nat} (hrs : ∀ r ∈ rs, r.1 ∈ is) (hi : i ∉ is) : t.receive i rs = t := by
  refine receive_of_forall_ne fun r hr => ?_
  rintro rfl
  exact hi (hrs r hr)

end Token

namespace Tokens

/-- Tokens, the first of them at place `n`, with the replacements for their places queued. -/
def receiveFrom (n : Nat) (rs : List (Nat × Text)) (ts : List Token) : List Token :=
  (ts.zipIdx n).map fun p => p.1.receive p.2 rs

variable {n : Nat} {rs rs' : List (Nat × Text)} {ts us : List Token}

/-- The places of some tokens are distinct. -/
theorem nodup_zipIdx (n : Nat) (ts : List Token) : ((ts.zipIdx n).map Prod.snd).Nodup := by
  rw [List.zipIdx_map_snd]
  exact List.nodup_range'

/-- What each of several tokens receives. -/
theorem receiveFrom_cons (n : Nat) (rs : List (Nat × Text)) (t : Token) (ts : List Token) :
    receiveFrom n rs (t :: ts) = t.receive n rs :: receiveFrom (n + 1) rs ts := rfl

/-- What each part of some tokens receives. -/
theorem receiveFrom_append (n : Nat) (rs : List (Nat × Text)) (ts us : List Token) :
    receiveFrom n rs (ts ++ us) = receiveFrom n rs ts ++ receiveFrom (n + ts.length) rs us := by
  rw [receiveFrom, List.zipIdx_append, List.map_append, receiveFrom, receiveFrom]

/-- Only what each token receives counts. -/
theorem receiveFrom_congr (h : ∀ p ∈ ts.zipIdx n, p.1.receive p.2 rs = p.1.receive p.2 rs') :
    receiveFrom n rs ts = receiveFrom n rs' ts := List.map_congr_left h

/-- Without replacements tokens stay as they are. -/
theorem receiveFrom_nil (n : Nat) (ts : List Token) : receiveFrom n [] ts = ts := List.zipIdx_map_fst n ts

/-- Tokens receive nothing from replacements for places before them. -/
theorem receiveFrom_append_of_lt (h : ∀ r ∈ rs, r.1 < n) : receiveFrom n (rs ++ rs') ts = receiveFrom n rs' ts := by
  refine receiveFrom_congr fun p hp => ?_
  have hne : ∀ r ∈ rs, r.1 ≠ p.2 := fun r hr => ((h r hr).trans_le (List.le_snd_of_mem_zipIdx hp)).ne
  rw [Token.receive_append, Token.receive_of_forall_ne hne]

/-- Tokens receive nothing from replacements for places behind them. -/
theorem receiveFrom_append_of_le (h : ∀ r ∈ rs', n + ts.length ≤ r.1) :
    receiveFrom n (rs ++ rs') ts = receiveFrom n rs ts := by
  refine receiveFrom_congr fun p hp => ?_
  have hlt : p.2 < n + ts.length := List.snd_lt_add_of_mem_zipIdx hp
  rw [Token.receive_append, Token.receive_of_forall_ne fun r hr => (hlt.trans_le (h r hr)).ne']

end Tokens

namespace Value

/-- Replacements do not change the blanks at the end. -/
theorem tail_queueAll (v : Value) (rs : List (Nat × Text)) : (v.queueAll rs).tail = v.tail := by
  induction rs generalizing v with
  | nil => rfl
  | cons r rs ih => exact ih (v.replace r.1 r.2)

/-- What replacements leave at each place. -/
theorem getElem?_queueAll (v : Value) (rs : List (Nat × Text)) (j : Nat) :
    (v.queueAll rs).tokens[j]? = v.tokens[j]?.map (Token.receive · j rs) := by
  induction rs generalizing v with
  | nil => exact Option.map_id'.symm
  | cons r rs ih =>
    rw [queueAll, List.foldl_cons, ← queueAll, ih, getElem?_replace, Option.map_map]
    refine Option.map_congr fun t _ => ?_
    rw [Function.comp_apply, Token.receive, Token.receive, List.foldl_cons]

/-- **Queueing replacements by place gives each token those for its place.** -/
theorem queueAll_eq (v : Value) (rs : List (Nat × Text)) :
    v.queueAll rs = v.mapTokens (Tokens.receiveFrom 0 rs) := by
  have htokens : (v.queueAll rs).tokens = Tokens.receiveFrom 0 rs v.tokens := by
    refine List.ext_getElem? fun j => ?_
    rw [getElem?_queueAll, Tokens.receiveFrom, List.getElem?_map, List.getElem?_zipIdx, Option.map_map, Nat.zero_add]
    rfl
  rw [mapTokens, ← htokens, ← tail_queueAll v rs]

end Value

/-! ### New words for the words of a group -/

/-- Queueing these replacements on words, which stand at some places, is turning the words into new words by a
function. -/
structure Queues (f : List Text → List Text) (queue : (Nat → Text) → List Nat → List (Nat × Text)) : Prop where
  length_eq : ∀ ws, (f ws).length = ws.length
  mem : ∀ text is, ∀ r ∈ queue text is, r.1 ∈ is
  receive_eq : ∀ text is, is.Nodup → ∀ i ∈ is, ∀ t : Token, t.text = text i →
    t.receive i (queue text is) = t.receive i (is.zip (f (is.map text)))

/-- Some tokens stand in a value from a place on. -/
def Value.StandsAt (v : Value) (n : Nat) (ts : List Token) : Prop := ∀ p ∈ ts.zipIdx n, v.tokens[p.2]? = some p.1

namespace Tokens

variable {v : Value} {n : Nat} {ts us : List Token}

/-- The places of the words among some tokens, the first of which is at place `n`. -/
def wordPlaces (n : Nat) (ts : List Token) : List Nat := ((ts.zipIdx n).filter fun p => p.1.isWord).map Prod.snd

/-- The places of words lie behind the first place. -/
theorem le_of_mem_wordPlaces {i : Nat} (h : i ∈ wordPlaces n ts) : n ≤ i := by
  obtain ⟨p, hp, rfl⟩ := List.mem_map.mp h
  exact List.le_snd_of_mem_zipIdx (List.mem_of_mem_filter hp)

/-- Assigning words in order queues each of them on the place of its token. -/
theorem assign_eq_receiveFrom {ws : List Text} (h : ws.length = (words ts).length) :
    assign ts ws = receiveFrom n ((wordPlaces n ts).zip ws) ts := by
  induction ts generalizing n ws with
  | nil => cases ws <;> rfl
  | cons t ts ih =>
    have hplaces : ∀ us : List Text, ∀ r ∈ (wordPlaces (n + 1) ts).zip us, r.1 ≠ n := fun us r hr =>
      (Nat.lt_of_succ_le (le_of_mem_wordPlaces (List.of_mem_zip hr).1)).ne'
    rw [receiveFrom_cons]
    by_cases hword : t.kind = .word
    · have hcons : wordPlaces n (t :: ts) = n :: wordPlaces (n + 1) ts := by
        rw [wordPlaces, List.zipIdx_cons, List.filter_cons_of_pos (by simpa [Token.isWord] using hword), List.map_cons,
          wordPlaces]
      rw [words_word hword] at h
      obtain ⟨w, ws, rfl⟩ := List.exists_cons_of_length_eq_add_one h
      rw [hcons, List.zip_cons_cons, Token.receive_cons_self, Token.receive_of_forall_ne (hplaces ws), assign,
        if_pos (by simpa [Token.isWord] using hword), ih (by simpa using h)]
      refine congrArg (t.queue w :: ·) (receiveFrom_congr fun p hp => ?_)
      rw [Token.receive_cons_of_ne (Nat.lt_of_succ_le (List.le_snd_of_mem_zipIdx hp)).ne]
    · have hcons : wordPlaces n (t :: ts) = wordPlaces (n + 1) ts := by
        rw [wordPlaces, List.zipIdx_cons, List.filter_cons_of_neg (by simpa [Token.isWord] using hword), wordPlaces]
      rw [words_other hword] at h
      rw [hcons, Token.receive_of_forall_ne (hplaces ws), ← ih h]
      cases ws with
      | nil => cases ts <;> rfl
      | cons w ws => rw [assign, if_neg (by simpa [Token.isWord] using hword)]

/-- The parts of tokens that stand in a value stand there too. -/
theorem standsAt_append : v.StandsAt n (ts ++ us) ↔ v.StandsAt n ts ∧ v.StandsAt (n + ts.length) us := by
  rw [Value.StandsAt, List.zipIdx_append, List.forall_mem_append]
  rfl

section

variable (h : v.StandsAt n ts)

include h

/-- Among the places of tokens, a value has words where they have. -/
theorem wordsIn_eq : v.wordsIn ((ts.zipIdx n).map Prod.snd) = wordPlaces n ts := by
  rw [Value.wordsIn, List.filter_map, wordPlaces]
  refine congrArg (List.map Prod.snd) (List.filter_congr fun p hp => ?_)
  rw [Function.comp_apply, Value.isAt, h p hp]
  rfl

/-- At the places of words, a value has the texts of the words. -/
theorem words_eq : words ts = (wordPlaces n ts).map v.textAt := by
  have hfilter : ts.filter Token.isWord = ((ts.zipIdx n).filter fun p => p.1.isWord).map Prod.fst := by
    have hmap : ((ts.zipIdx n).map Prod.fst).filter Token.isWord
        = ((ts.zipIdx n).filter fun p => p.1.isWord).map Prod.fst := List.filter_map
    rwa [List.zipIdx_map_fst] at hmap
  rw [words, hfilter, wordPlaces, List.map_map, List.map_map]
  refine List.map_congr_left fun p hp => ?_
  rw [Function.comp_apply, Function.comp_apply, Value.textAt, h p (List.mem_of_mem_filter hp)]
  rfl

/-- **New words are queued on the words of a group.** -/
theorem mapWords_eq_receiveFrom {f : List Text → List Text} {queue : (Nat → Text) → List Nat → List (Nat × Text)}
    (hqueues : Queues f queue) :
    mapWords f ts = receiveFrom n (queue v.textAt (v.wordsIn ((ts.zipIdx n).map Prod.snd))) ts := by
  rw [mapWords, assign_eq_receiveFrom (n := n) (hqueues.length_eq _), words_eq h, wordsIn_eq h]
  refine receiveFrom_congr fun p hp => ?_
  have hnodup := nodup_zipIdx n ts
  by_cases hplace : p.2 ∈ wordPlaces n ts
  · refine (hqueues.receive_eq _ _ ((List.filter_sublist.map _).nodup hnodup) p.2 hplace p.1 ?_).symm
    rw [Value.textAt, h p hp]
    rfl
  · rw [Token.receive_of_not_mem (fun r hr => (List.of_mem_zip hr).1) hplace,
      Token.receive_of_not_mem (hqueues.mem _ _) hplace]

end

section

variable {kind : TokenKind} {f : List Token → List Token} {turn : List Nat → List (Nat × Text)}
  (hf : ∀ n ts, v.StandsAt n ts → f ts = receiveFrom n (turn ((ts.zipIdx n).map Prod.snd)) ts)
  (hmem : ∀ is, ∀ r ∈ turn is, r.1 ∈ is)

include hf hmem

/-- **New words are queued group by group.** -/
theorem mapGroups_eq_receiveFrom (h : v.StandsAt n ts) :
    mapGroups kind f ts = receiveFrom n
      ((((ts.zipIdx n).splitOnP fun p => p.1.kind = kind).map (·.map Prod.snd)).flatMap turn) ts := by
  have hsplit : ∀ {group : List Token} {m : Nat}, isFree kind group = true →
      (group.zipIdx m).splitOnP (fun p => p.1.kind = kind) = [group.zipIdx m] := fun hgroup =>
    List.splitOnP_eq_singleton fun p hp => decide_eq_false (isFree_iff.mp hgroup _ (List.fst_mem_of_mem_zipIdx hp))
  induction ts using induction_groups kind generalizing n with
  | free group hgroup =>
    rw [mapGroups_free hgroup, hsplit hgroup, List.map_singleton, List.flatMap_singleton, ← hf n group h]
  | split group t ts hgroup ht ih =>
    obtain ⟨hfirst, hrest⟩ := standsAt_append.mp h
    have hnext : v.StandsAt (n + group.length + 1) ts := fun p hp => hrest p (List.mem_cons_of_mem _ hp)
    have hbehind : ∀ r ∈ (((ts.zipIdx (n + group.length + 1)).splitOnP fun p => p.1.kind = kind).map
        (·.map Prod.snd)).flatMap turn, n + group.length < r.1 := by
      intro r hr
      obtain ⟨is, his, hr⟩ := List.mem_flatMap.mp hr
      obtain ⟨ps, hps, rfl⟩ := List.mem_map.mp his
      obtain ⟨p, hp, heq⟩ := List.mem_map.mp (hmem _ r hr)
      rw [← heq]
      exact Nat.lt_of_succ_le (List.le_snd_of_mem_zipIdx (subset_of_mem_splitOnP hps hp))
    have hbefore : ∀ r ∈ turn ((group.zipIdx n).map Prod.snd), r.1 < n + group.length := by
      intro r hr
      obtain ⟨p, hp, heq⟩ := List.mem_map.mp (hmem _ r hr)
      rw [← heq]
      exact List.snd_lt_add_of_mem_zipIdx hp
    rw [mapGroups_split hgroup ht, ih hnext, hf n group hfirst, List.zipIdx_append, List.zipIdx_cons,
      List.splitOnP_append_cons _ _ (by simpa using ht), hsplit hgroup, List.singleton_append, List.map_cons,
      List.flatMap_cons, receiveFrom_append, receiveFrom_cons, receiveFrom_append_of_le fun r hr => (hbehind r hr).le,
      receiveFrom_append_of_lt fun r hr => (hbefore r hr).trans (Nat.lt_succ_self _), Token.receive_append,
      Token.receive_of_forall_ne fun r hr => (hbefore r hr).ne,
      Token.receive_of_forall_ne fun r hr => (hbehind r hr).ne']

/-- New words are queued before the first token of some kind. -/
theorem mapBefore_eq_receiveFrom (h : v.StandsAt n ts) :
    mapBefore kind f ts
      = receiveFrom n (turn (((ts.zipIdx n).map Prod.snd).takeWhile fun i => !v.isAt kind i)) ts := by
  have hparts : ts.takeWhile (·.kind ≠ kind) ++ ts.dropWhile (·.kind ≠ kind) = ts := List.takeWhile_append_dropWhile
  have htake : ((ts.zipIdx n).map Prod.snd).takeWhile (fun i => !v.isAt kind i)
      = ((ts.takeWhile (·.kind ≠ kind)).zipIdx n).map Prod.snd := by
    clear hf hmem hparts
    induction ts generalizing n with
    | nil => rfl
    | cons t ts ih =>
      have ht : v.isAt kind n = decide (t.kind = kind) := by
        rw [Value.isAt, h (t, n) List.mem_cons_self]
        rfl
      rw [List.zipIdx_cons, List.map_cons, List.takeWhile_cons, List.takeWhile_cons, ht, ← decide_not]
      split
      · rw [ih fun p hp => h p (List.mem_cons_of_mem _ hp), List.zipIdx_cons, List.map_cons]
      · rfl
  have hbefore : ∀ r ∈ turn (((ts.takeWhile (·.kind ≠ kind)).zipIdx n).map Prod.snd),
      r.1 < n + (ts.takeWhile (·.kind ≠ kind)).length := by
    intro r hr
    obtain ⟨p, hp, heq⟩ := List.mem_map.mp (hmem _ r hr)
    rw [← heq]
    exact List.snd_lt_add_of_mem_zipIdx hp
  have hrest : receiveFrom (n + (ts.takeWhile (·.kind ≠ kind)).length)
      (turn (((ts.takeWhile (·.kind ≠ kind)).zipIdx n).map Prod.snd)) (ts.dropWhile (·.kind ≠ kind))
        = ts.dropWhile (·.kind ≠ kind) := by
    rw [← List.append_nil (turn _), receiveFrom_append_of_lt hbefore, receiveFrom_nil]
  have happend := receiveFrom_append n (turn (((ts.takeWhile (·.kind ≠ kind)).zipIdx n).map Prod.snd))
    (ts.takeWhile (·.kind ≠ kind)) (ts.dropWhile (·.kind ≠ kind))
  rw [hparts, hrest, ← hf n _ (standsAt_append.mp (hparts.symm ▸ h)).1] at happend
  rw [htake, happend, mapBefore]

end

end Tokens

/-! ### What each action queues -/

namespace Words

variable {text : Nat → Text} {is : List Nat} {i j : Nat} {t : Token}

/-- The partners of the words that a vocabulary has. -/
def swapQueue (vocabulary : Vocabulary) (text : Nat → Text) (is : List Nat) : List (Nat × Text) :=
  is.flatMap fun i => ((vocabulary.lookup (text i)).map (i, ·)).toList

/-- Of four sides, the right and the left one in each other's place. -/
def sideQueue (text : Nat → Text) : List Nat → List (Nat × Text)
  | [_, right, _, left] => [(right, text left), (left, text right)]
  | _ => []

/-- Of two, three or four corners, the left and the right ones in each other's place. -/
def cornerQueue (text : Nat → Text) : List Nat → List (Nat × Text)
  | [a, b] => [(a, text b), (b, text a)]
  | [a, b, c] => [(a, text b), (b, text a), (c, text b ++ ' ' :: text c)]
  | [a, b, c, d] => [(a, text b), (b, text a), (c, text d), (d, text c)]
  | _ => []

/-- The complement of the first word of a position, if it is a percentage, and then the partners of sides. -/
def positionQueue (text : Nat → Text) (is : List Nat) : List (Nat × Text) :=
  ((is.find? fun i => isPosition (text i)).bind fun i => (Percentage.complement? (text i)).map (i, ·)).toList
    ++ swapQueue .side text is

/-- The first quantity with the other sign, unless it is zero. -/
def offsetQueue (text : Nat → Text) (is : List Nat) : List (Nat × Text) :=
  match is.findSome? fun i => (Quantity.read? (text i)).map (i, ·) with
  | none => []
  | some (i, q) => if q.numeral.isZero then [] else [(i, negate (text i))]

/-- What a word receives that is assigned a new word. -/
theorem receive_zip_cons (hj : i ∉ is) (w : Text) (ws : List Text) :
    t.receive i ((i :: is).zip (w :: ws)) = t.queue w := by
  rw [List.zip_cons_cons, Token.receive_cons_self, Token.receive_of_not_mem (fun r hr => (List.of_mem_zip hr).1) hj]

/-- What a word receives if another one is assigned a new word. -/
theorem receive_zip_cons_of_ne (h : j ≠ i) (w : Text) (ws : List Text) :
    t.receive i ((j :: is).zip (w :: ws)) = t.receive i (is.zip ws) := Token.receive_cons_of_ne h

/-- Words that are assigned their own texts receive nothing. -/
theorem receive_zip_map (h : t.text = text i) (is : List Nat) : t.receive i (is.zip (is.map text)) = t := by
  induction is with
  | nil => rfl
  | cons j is ih => rw [List.map_cons, List.zip_cons_cons, Token.receive_own h, ih]

/-- The partners of words are queued on their places. -/
theorem mem_swapQueue {vocabulary : Vocabulary} : ∀ r ∈ swapQueue vocabulary text is, r.1 ∈ is := by
  intro r hr
  obtain ⟨i, hi, hr⟩ := List.mem_flatMap.mp hr
  obtain ⟨w, -, rfl⟩ := Option.map_eq_some_iff.mp (Option.mem_toList.mp hr)
  exact hi

/-- What is queued for a position is queued on its places. -/
theorem mem_positionQueue (text : Nat → Text) (is : List Nat) : ∀ r ∈ positionQueue text is, r.1 ∈ is := by
  intro r hr
  rcases List.mem_append.mp hr with hr | hr
  · obtain ⟨i, hi, hr⟩ := Option.bind_eq_some_iff.mp (Option.mem_toList.mp hr)
    obtain ⟨w, -, rfl⟩ := Option.map_eq_some_iff.mp hr
    exact List.mem_of_find?_eq_some hi
  · exact mem_swapQueue r hr

/-- What is queued for an offset is queued on one of its places. -/
theorem mem_offsetQueue (text : Nat → Text) (is : List Nat) : ∀ r ∈ offsetQueue text is, r.1 ∈ is := by
  intro r hr
  unfold offsetQueue at hr
  split at hr
  · cases hr
  · next i q hfind =>
    obtain ⟨j, hj, hread⟩ := List.exists_of_findSome?_eq_some hfind
    obtain ⟨_, -, heq⟩ := Option.map_eq_some_iff.mp hread
    cases heq
    split at hr
    · cases hr
    · rwa [List.mem_singleton.mp hr]

/-- **Exchanging words by place.** -/
theorem queues_swap (vocabulary : Vocabulary) : Queues (·.map vocabulary.swap) (swapQueue vocabulary) where
  length_eq ws := List.length_map _
  mem text is := mem_swapQueue
  receive_eq text is hnodup := by
    induction is with
    | nil => exact fun i hi => absurd hi List.not_mem_nil
    | cons j is ih =>
      obtain ⟨hj, hnodup⟩ := List.nodup_cons.mp hnodup
      intro i hi t ht
      rw [swapQueue, List.flatMap_cons, ← swapQueue, List.map_cons, List.map_cons, Token.receive_append]
      rcases List.mem_cons.mp hi with rfl | hi
      · rw [receive_zip_cons hj, Token.receive_of_not_mem mem_swapQueue hj]
        cases hlookup : vocabulary.lookup (text i) with
        | none => rw [Vocabulary.swap_of_lookup_eq_none hlookup, ← ht, Token.queue_text]; rfl
        | some w => rw [Vocabulary.swap_of_lookup hlookup]; exact Token.receive_cons_self t i w []
      · have hne : j ≠ i := by
          rintro rfl
          exact hj hi
        rw [receive_zip_cons_of_ne hne, ← ih hnodup i hi t ht]
        cases vocabulary.lookup (text j) with
        | none => rfl
        | some w => rw [Option.map_some, Option.toList_some, Token.receive_cons_of_ne hne, Token.receive_nil]

/-- **Exchanging sides by place.** -/
theorem queues_box : Queues box sideQueue where
  length_eq := length_box
  mem text is r hr := by
    unfold sideQueue at hr
    split at hr
    · simp only [List.mem_cons, List.not_mem_nil, or_false] at hr
      rcases hr with rfl | rfl <;> simp
    · cases hr
  receive_eq text is hnodup i hi t ht := by
    rcases is with _ | ⟨a, _ | ⟨b, _ | ⟨c, _ | ⟨d, _ | ⟨e, is⟩⟩⟩⟩⟩
    case cons.cons.cons.cons.nil =>
      -- the first and the third side are assigned their own texts
      have hthird : (t.receive i [(b, text d)]).text = text i := by rw [Token.text_receive, ht]
      calc t.receive i [(b, text d), (d, text b)]
        _ = (t.receive i [(b, text d)]).receive i [(d, text b)] := rfl
        _ = (t.receive i [(b, text d)]).receive i [(c, text c), (d, text b)] := (Token.receive_own hthird c _).symm
        _ = t.receive i [(b, text d), (c, text c), (d, text b)] := rfl
        _ = t.receive i [(a, text a), (b, text d), (c, text c), (d, text b)] := (Token.receive_own ht a _).symm
    all_goals exact (receive_zip_map ht _).symm

/-- **Exchanging corners by place.** -/
theorem queues_corners : Queues corners cornerQueue where
  length_eq := length_corners
  mem text is r hr := by
    unfold cornerQueue at hr
    split at hr
    all_goals simp only [List.mem_cons, List.not_mem_nil, or_false] at hr
    · rcases hr with rfl | rfl <;> simp
    · rcases hr with rfl | rfl | rfl <;> simp
    · rcases hr with rfl | rfl | rfl | rfl <;> simp
  receive_eq text is hnodup i hi t ht := by
    rcases is with _ | ⟨a, _ | ⟨b, _ | ⟨c, _ | ⟨d, _ | ⟨e, is⟩⟩⟩⟩⟩
    case nil | cons.nil | cons.cons.cons.cons.cons => exact (receive_zip_map ht _).symm
    all_goals rfl

/-- **Seeing a position from the other side by place.** -/
theorem queues_position : Queues position positionQueue where
  length_eq := length_position
  mem := mem_positionQueue
  receive_eq text is hnodup := by
    induction is with
    | nil => exact fun i hi => absurd hi List.not_mem_nil
    | cons j is ih =>
      obtain ⟨hj, hnodup⟩ := List.nodup_cons.mp hnodup
      intro i hi t ht
      have hne : i ∈ is → j ≠ i := by
        rintro hi rfl
        exact hj hi
      cases hposition : isPosition (text j) with
      | false =>
        have hlookup : Vocabulary.side.lookup (text j) = none := by
          refine Option.eq_none_iff_forall_ne_some.mpr fun w hw => ?_
          rw [(of_side_lookup hw).1] at hposition
          cases hposition
        have hcons : positionQueue text (j :: is) = positionQueue text is := by
          rw [positionQueue, List.find?_cons_of_neg (by simp [hposition]), swapQueue, List.flatMap_cons, hlookup]
          rfl
        rw [hcons, List.map_cons, position_of_not_isPosition hposition]
        rcases List.mem_cons.mp hi with rfl | hi
        · rw [receive_zip_cons hj, ← ht, Token.queue_text, Token.receive_of_not_mem (mem_positionQueue text is) hj]
        · rw [receive_zip_cons_of_ne (hne hi), ih hnodup i hi t ht]
      | true =>
        have hcons : positionQueue text (j :: is) = ((Percentage.complement? (text j)).map (j, ·)).toList ++
            (((Vocabulary.side.lookup (text j)).map (j, ·)).toList ++ swapQueue .side text is) := by
          rw [positionQueue, List.find?_cons_of_pos (by simp [hposition]), Option.bind_some, swapQueue,
            List.flatMap_cons, swapQueue]
        rw [hcons, List.map_cons, position_of_isPosition hposition, Token.receive_append, Token.receive_append]
        rcases List.mem_cons.mp hi with rfl | hi
        · rw [receive_zip_cons hj, Token.receive_of_not_mem mem_swapQueue hj, opposite]
          cases hlookup : Vocabulary.side.lookup (text i) with
          | none =>
            cases Percentage.complement? (text i) with
            | none =>
              rw [Option.getD_none, Vocabulary.swap_of_lookup_eq_none hlookup, ← ht, Token.queue_text]
              rfl
            | some c => exact Token.receive_cons_self t i c []
          | some w =>
            rw [(of_side_lookup hlookup).2, Option.getD_none, Vocabulary.swap_of_lookup hlookup]
            exact Token.receive_cons_self t i w []
        · have hskip : ∀ (u : Token) (o : Option Text), u.receive i (o.map (j, ·)).toList = u := by
            intro u o
            cases o with
            | none => rfl
            | some w => exact Token.receive_cons_of_ne (hne hi)
          rw [receive_zip_cons_of_ne (hne hi), hskip, hskip]
          exact (queues_swap .side).receive_eq text is hnodup i hi t ht

/-- **Negating an offset by place.** -/
theorem queues_offset : Queues offset offsetQueue where
  length_eq := length_offset
  mem := mem_offsetQueue
  receive_eq text is hnodup := by
    induction is with
    | nil => exact fun i hi => absurd hi List.not_mem_nil
    | cons j is ih =>
      obtain ⟨hj, hnodup⟩ := List.nodup_cons.mp hnodup
      intro i hi t ht
      have hne : i ∈ is → j ≠ i := by
        rintro hi rfl
        exact hj hi
      rw [List.map_cons]
      cases hread : Quantity.read? (text j) with
      | none =>
        have hcons : offsetQueue text (j :: is) = offsetQueue text is := by
          rw [offsetQueue, List.findSome?_cons, hread]
          rfl
        rw [hcons, offset_of_read?_eq_none hread]
        rcases List.mem_cons.mp hi with rfl | hi
        · rw [receive_zip_cons hj, ← ht, Token.queue_text, Token.receive_of_not_mem (mem_offsetQueue text is) hj]
        · rw [receive_zip_cons_of_ne (hne hi), ih hnodup i hi t ht]
      | some q =>
        have hcons : offsetQueue text (j :: is) = if q.numeral.isZero then [] else [(j, negate (text j))] := by
          rw [offsetQueue, List.findSome?_cons, hread]
          rfl
        rw [hcons]
        cases hzero : q.numeral.isZero with
        | true =>
          rw [offset_of_isZero hread hzero]
          exact (receive_zip_map ht (j :: is)).symm
        | false =>
          rw [offset_of_not_isZero hread hzero]
          rcases List.mem_cons.mp hi with rfl | hi
          · rw [receive_zip_cons hj]
            exact Token.receive_cons_self t i _ []
          · rw [receive_zip_cons_of_ne (hne hi), receive_zip_map ht]
            exact Token.receive_cons_of_ne (hne hi)

end Words

/-! ### The actions by place -/

namespace Value

/-- The tokens of a value stand in it from the beginning on. -/
theorem standsAt_tokens (v : Value) : v.StandsAt 0 v.tokens := fun _ hp => List.mem_zipIdx_iff_getElem?.mp hp

/-- The places of words are those among all places. -/
theorem places_word_eq (v : Value) : v.places .word = v.wordsIn (v.tokens.zipIdx.map Prod.snd) := by
  rw [Tokens.wordsIn_eq v.standsAt_tokens]
  rfl

/-- What is done group by group is queued group by group. -/
theorem mapGroups_eq_queueAll {v : Value} {kind : TokenKind} {f : List Token → List Token}
    {turn : List Nat → List (Nat × Text)}
    (hf : ∀ n ts, v.StandsAt n ts → f ts = Tokens.receiveFrom n (turn ((ts.zipIdx n).map Prod.snd)) ts)
    (hmem : ∀ is, ∀ r ∈ turn is, r.1 ∈ is) :
    v.mapTokens (Tokens.mapGroups kind f) = v.queueAll ((v.placeGroups kind).flatMap turn) := by
  rw [queueAll_eq, mapTokens, mapTokens, placeGroups, Tokens.mapGroups_eq_receiveFrom hf hmem v.standsAt_tokens]

/-- **Words are exchanged one after the other.** -/
theorem swapWords_eq_queueEach (vocabulary : Vocabulary) (v : Value) :
    v.swapWords vocabulary
      = v.queueEach (fun v i => Words.swapQueue vocabulary v.textAt [i]) (v.places .word) := by
  have hblind : IsBlind fun v i => Words.swapQueue vocabulary (textAt v) [i] := by
    intro v i w
    simp only [textAt_replace]
  have hqueue : (v.places .word).flatMap (fun i => Words.swapQueue vocabulary v.textAt [i])
      = Words.swapQueue vocabulary v.textAt (v.places .word) := by
    simp only [Words.swapQueue, List.flatMap_singleton]
  rw [queueEach_eq hblind, hqueue, queueAll_eq, places_word_eq, swapWords, mapTokens, mapTokens,
    Tokens.mapWords_eq_receiveFrom v.standsAt_tokens (Words.queues_swap vocabulary)]

/-- **The right and the left side are put in each other's place.** -/
theorem swapSides_eq_queueAll (v : Value) :
    v.swapSides
      = if v.has .comma || v.has .slash then v else v.queueAll (Words.sideQueue v.textAt (v.places .word)) := by
  have hbox : v.isBox = !(v.has .comma || v.has .slash) := by rw [isBox, Bool.not_or]
  rw [swapSides, hbox]
  cases v.has .comma || v.has .slash with
  | true => rfl
  | false =>
    rw [Bool.not_false, if_pos rfl, if_neg Bool.false_ne_true, queueAll_eq, places_word_eq, mapTokens, mapTokens,
      Tokens.mapWords_eq_receiveFrom v.standsAt_tokens Words.queues_box]

/-- **Corners are exchanged in each group between slashes.** -/
theorem swapCorners_eq_queueEach (v : Value) :
    v.swapCorners = if v.has .comma then v
      else v.queueEach (fun v is => Words.cornerQueue v.textAt (v.wordsIn is)) (v.placeGroups .slash) := by
  have hblind : IsBlind fun v is => Words.cornerQueue (textAt v) (wordsIn v is) := by
    intro v i w
    simp only [textAt_replace, wordsIn, isAt_replace]
  rw [swapCorners, isCorners]
  cases v.has .comma with
  | true => rfl
  | false =>
    rw [Bool.not_false, if_pos rfl, if_neg Bool.false_ne_true, queueEach_eq hblind]
    exact mapGroups_eq_queueAll (fun _ _ h => Tokens.mapWords_eq_receiveFrom h Words.queues_corners) fun is r hr =>
      List.mem_of_mem_filter (Words.queues_corners.mem _ _ r hr)

/-- **The position of each layer is seen from the other side.** -/
theorem reflectPositions_eq_queueEach (v : Value) :
    v.reflectPositions = v.queueEach
      (fun v is => Words.positionQueue v.textAt (v.wordsIn (is.takeWhile fun i => !v.isAt .slash i))) v.layers := by
  have hblind : IsBlind fun v (is : List Nat) =>
      Words.positionQueue (textAt v) (wordsIn v (is.takeWhile fun i => !isAt .slash v i)) := by
    intro v i w
    simp only [textAt_replace, wordsIn, isAt_replace]
  have hmem : ∀ is, ∀ r ∈ Words.positionQueue v.textAt (v.wordsIn is), r.1 ∈ is := fun is r hr =>
    List.mem_of_mem_filter (Words.queues_position.mem _ _ r hr)
  have hwords : ∀ n ts, v.StandsAt n ts → Tokens.mapWords Words.position ts
      = Tokens.receiveFrom n (Words.positionQueue v.textAt (v.wordsIn ((ts.zipIdx n).map Prod.snd))) ts := fun _ _ h =>
    Tokens.mapWords_eq_receiveFrom h Words.queues_position
  rw [queueEach_eq hblind, layers_eq_placeGroups]
  exact mapGroups_eq_queueAll (fun _ _ h => Tokens.mapBefore_eq_receiveFrom hwords hmem h) fun is r hr =>
    (List.takeWhile_prefix _).subset (hmem _ r hr)

/-- **The first quantity of each layer is negated.** -/
theorem negateOffsets_eq_queueEach (v : Value) :
    v.negateOffsets = v.queueEach (fun v is => Words.offsetQueue v.textAt (v.wordsIn is)) v.layers := by
  have hblind : IsBlind fun v is => Words.offsetQueue (textAt v) (wordsIn v is) := by
    intro v i w
    simp only [textAt_replace, wordsIn, isAt_replace]
  rw [queueEach_eq hblind, layers_eq_placeGroups]
  exact mapGroups_eq_queueAll (fun _ _ h => Tokens.mapWords_eq_receiveFrom h Words.queues_offset) fun is r hr =>
    List.mem_of_mem_filter (Words.queues_offset.mem _ _ r hr)

end Value

namespace Action

/-- A value after an action that is carried out place by place. -/
def byPlace : Action → Value → Value
  | .rename _, v => v
  | .swap vocabulary, v => v.queueEach (fun v i => Words.swapQueue vocabulary v.textAt [i]) (v.places .word)
  | .box, v => if v.has .comma || v.has .slash then v else v.queueAll (Words.sideQueue v.textAt (v.places .word))
  | .corners, v => if v.has .comma then v
    else v.queueEach (fun v is => Words.cornerQueue v.textAt (v.wordsIn is)) (v.placeGroups .slash)
  | .position, v => v.queueEach
      (fun v is => Words.positionQueue v.textAt (v.wordsIn (is.takeWhile fun i => !v.isAt .slash i))) v.layers
  | .offset, v => v.queueEach (fun v is => Words.offsetQueue v.textAt (v.wordsIn is)) v.layers

/-- **Every action queues its replacements place by place.** -/
theorem onValue_eq_byPlace (action : Action) (v : Value) : action.onValue v = action.byPlace v := by
  cases action with
  | rename _ => rfl
  | swap vocabulary => exact v.swapWords_eq_queueEach vocabulary
  | box => exact v.swapSides_eq_queueAll
  | corners => exact v.swapCorners_eq_queueEach
  | position => exact v.reflectPositions_eq_queueEach
  | offset => exact v.negateOffsets_eq_queueEach

end Action

end BidiSheet
