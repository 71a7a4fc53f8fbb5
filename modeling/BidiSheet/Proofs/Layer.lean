import BidiSheet.Proofs.Change
import BidiSheet.Proofs.Whole

/-!
# Layers

Backgrounds and shadows are lists of layers with commas between them, and each layer is reflected as if it
stood alone. There are two sides to this. A text with closed brackets is read before a comma as it is read by
itself (`Value.read_comma`). And what is done to the tokens of a value is done to those before and to those
behind a comma (`Action.onTokens_comma`).

* `Value.exists_group_of_mem_layers`: the places of a layer are those of a group of tokens, whatever is done
  to the groups.
* `layers_reflect_apart`: reflecting two values with a comma between them is reflecting each of them; in a
  layer of positions nothing changes from a slash on, and in a layer of offsets only the first quantity does.
-/

namespace BidiSheet

open Marker (isOutside)
open Tokens (words assign mapWords mapGroups mapBefore isFree)

/-! ### Reading before a comma -/

/-- A comma behind some blanks. -/
def Token.comma (gap : Text) : Token := ⟨gap, .comma, [','], none⟩

namespace Value

variable {tail tail' : Text} {ts us : List Token}

/-- No marker begins where none did before more text was put behind it, if none goes on there. -/
theorem read?_append_eq_none {s r : Text} (hne : s ≠ []) (hr : isOutside r = true)
    (h : Marker.read? s = none) : Marker.read? (s ++ r) = none := by
  rw [← Option.not_isSome_iff_eq_none] at h ⊢
  exact fun hsome => h (Marker.isSome_read?_of_append hne hr hsome)

/-- A token with closed brackets is the same token if a comma comes behind all that follows it. -/
theorem tokenAt_append_comma {c : Char} {cs r : Text} {kind : TokenKind}
    (h : tokenAt c (cs ++ r) = (kind, cs.length)) (hclosed : isClosed (c :: cs) = true) (x : Text) :
    tokenAt c (cs ++ (r ++ ',' :: x)) = (kind, cs.length) := by
  by_cases hkind : kind = .word
  · subst hkind
    obtain ⟨-, hword, -⟩ | ⟨-, hword, -⟩ | ⟨-, -, hword, -⟩ | ⟨hcomma, hslash, hnone, -, -⟩ :=
      tokenAt_cases h
    · cases hword
    · cases hword
    · cases hword
    · obtain ⟨-, -, hlen, hends⟩ := endsWord_of_tokenAt h
      have hnone' := read?_append_eq_none (r := ',' :: x) (List.cons_ne_nil _ _) rfl hnone
      rw [List.cons_append, List.append_assoc] at hnone'
      have hstop : (r ++ ',' :: x).head?.any endsWord = true := by
        rcases hends with rfl | ⟨-, hhead⟩
        · rfl
        · cases r with
          | nil => rfl
          | cons d r => exact hhead
      have hlen' : wordLength (nest 0 c) (cs ++ (r ++ ',' :: x)) = cs.length := by
        rw [wordLength_eq] at hlen ⊢
        exact outerLength_append_eq_iff.mpr ⟨hlen, .inr ⟨isClosed_iff.mp hclosed, hstop⟩⟩
      rw [tokenAt, if_neg hcomma, if_neg hslash, hnone']
      exact congrArg (Prod.mk TokenKind.word) hlen'
  · exact tokenAt_congr hkind h _

/-- Tokens with closed brackets still read if a comma and more tokens come behind them. -/
theorem Reads.append_comma (h : Reads tail ts) (hclosed : isClosed (Tokens.source ts ++ tail) = true)
    (h' : Reads tail' us) : Reads tail' (ts ++ Token.comma tail :: us) := by
  induction h with
  | nil htail => exact .cons htail rfl rfl h'
  | @cons gap cs kind c ts hgap hc htoken rest ih =>
    have hfirst := (Reads.cons hgap hc htoken rest).isClosed_of_mem hclosed List.mem_cons_self
    rw [Tokens.source_cons, List.append_assoc, List.append_assoc, isClosed_append (isClosed_of_blank hgap),
      isClosed_append hfirst] at hclosed
    rw [List.cons_append]
    refine .cons hgap hc ?_ (ih hclosed)
    have hsource : Tokens.source (ts ++ Token.comma tail :: us) ++ tail'
        = (Tokens.source ts ++ tail) ++ ',' :: (Tokens.source us ++ tail') := by
      simp [Token.comma]
    rw [hsource]
    exact tokenAt_append_comma htoken hfirst _

/-- **Two values with a comma between them are read one after the other**, if the brackets of the first are
closed. -/
theorem read_comma {u : Text} (hu : isClosed u = true) (v : Text) :
    read (u ++ ',' :: v)
      = ⟨(read u).tokens ++ Token.comma (read u).tail :: (read v).tokens, (read v).tail⟩ := by
  have hreads : Reads (read v).tail ((read u).tokens ++ Token.comma (read u).tail :: (read v).tokens) := by
    apply (reads_read u).append_comma _ (reads_read v)
    rwa [source_tokens_read]
  have hsource : Tokens.source ((read u).tokens ++ Token.comma (read u).tail :: (read v).tokens)
      ++ (read v).tail = u ++ ',' :: v := by
    rw [Tokens.source_append, Tokens.source_cons, List.append_assoc, List.append_assoc, source_tokens_read,
      Token.comma, List.append_assoc, ← List.append_assoc, source_tokens_read, List.singleton_append]
  rw [← hsource, read_of_reads hreads]

end Value

/-! ### Tokens before and behind a comma -/

/-- A token on which `f` of its text is queued, if it is a word. -/
def Token.reword (f : Text → Text) (t : Token) : Token := if t.isWord then t.queue (f t.text) else t

namespace Tokens

variable {t : Token} {ts us : List Token} {kind : TokenKind} {F : List Token → List Token}

/-- No word is queued on a token that is none. -/
theorem assign_other (h : t.kind ≠ .word) (ws : List Text) : assign (t :: ts) ws = t :: assign ts ws := by
  cases ws with
  | nil => cases ts <;> simp [assign]
  | cons w ws => rw [assign, if_neg (by simp [Token.isWord, h])]

/-- The first word is queued on the first word token. -/
theorem assign_word (h : t.kind = .word) (w : Text) (ws : List Text) :
    assign (t :: ts) (w :: ws) = t.queue w :: assign ts ws := by
  rw [assign, if_pos (by simp [Token.isWord, h])]

/-- Words that are turned into new words one by one are so token by token. -/
theorem mapWords_map (f : Text → Text) (ts : List Token) :
    mapWords (·.map f) ts = ts.map (Token.reword f) := by
  rw [mapWords]
  induction ts with
  | nil => rw [assign, List.map_nil]
  | cons t ts ih =>
    by_cases ht : t.kind = .word
    · rw [words_word ht, List.map_cons, assign_word ht, ih, List.map_cons, Token.reword,
        if_pos (by simp [Token.isWord, ht])]
    · rw [words_other ht, assign_other ht, ih, List.map_cons, Token.reword,
        if_neg (by simp [Token.isWord, ht])]

/-- What is done to groups of tokens is done to those before and to those behind one that divides them. -/
theorem mapGroups_append (h : t.kind = kind) (ts us : List Token) :
    mapGroups kind F (ts ++ t :: us) = mapGroups kind F ts ++ t :: mapGroups kind F us := by
  induction ts using induction_groups kind with
  | free group hgroup => rw [mapGroups_split hgroup h, mapGroups_free hgroup]
  | split group s ts hgroup hs ih =>
    rw [List.append_assoc, List.cons_append, mapGroups_split hgroup hs, ih, mapGroups_split hgroup hs,
      List.append_assoc, List.cons_append]

end Tokens

namespace Action

/-- Whether an action works on each layer of a value. -/
def isLayered : Action → Bool
  | .swap _ | .position | .offset => true
  | _ => false

/-- What an action that works on layers does to the tokens of a value. -/
def onTokens : Action → List Token → List Token
  | .swap vocabulary => mapWords (·.map vocabulary.swap)
  | .position => mapGroups .comma (mapBefore .slash (mapWords Words.position))
  | .offset => mapGroups .comma (mapWords Words.offset)
  | _ => id

variable {action : Action}

/-- An action on layers changes the tokens alone. -/
theorem onValue_of_isLayered (h : action.isLayered = true) (v : Value) :
    action.onValue v = ⟨action.onTokens v.tokens, v.tail⟩ := by
  cases action with
  | swap | position | offset => rfl
  | rename | box | corners => cases h

/-- **What is done to tokens is done to those before and to those behind a comma.** -/
theorem onTokens_comma (h : action.isLayered = true) (gap : Text) (ts us : List Token) :
    action.onTokens (ts ++ Token.comma gap :: us)
      = action.onTokens ts ++ Token.comma gap :: action.onTokens us := by
  cases action with
  | swap vocabulary =>
    simp only [onTokens, Tokens.mapWords_map, List.map_append, List.map_cons]
    rfl
  | position | offset => exact Tokens.mapGroups_append (t := Token.comma gap) rfl ts us
  | rename | box | corners => cases h

end Action

/-! ### The places of a layer -/

namespace Tokens

/-- Some tokens, each with its place, the first of them at place `k`, in groups between those of kind `kind`. -/
def placedGroups (kind : TokenKind) (k : Nat) (ts : List Token) : List (List (Token × Nat)) :=
  (ts.zipIdx k).splitOnP fun (t, _) => t.kind = kind

variable {t : Token} {group ts : List Token} {kind : TokenKind}

/-- Tokens without a divider are one group, at their places. -/
theorem placedGroups_free (h : isFree kind group = true) (k : Nat) :
    placedGroups kind k group = [group.zipIdx k] := by
  apply List.splitOnP_eq_singleton
  intro p hp
  exact decide_eq_false (isFree_iff.mp h p.1 (List.fst_mem_of_mem_zipIdx hp))

/-- The first divider ends the first group, and takes a place of its own. -/
theorem placedGroups_split (h : isFree kind group = true) (ht : t.kind = kind) (k : Nat) :
    placedGroups kind k (group ++ t :: ts)
      = group.zipIdx k :: placedGroups kind (k + group.length + 1) ts := by
  have hfirst := placedGroups_free h k
  rw [placedGroups] at hfirst
  rw [placedGroups, List.zipIdx_append, List.zipIdx_cons, List.splitOnP_append_cons _ _ (by simpa using ht),
    hfirst, List.singleton_append, placedGroups]

/-- A group of placed tokens stands behind as many tokens as its first place says, and does so after each
group is turned into equally many tokens. -/
theorem exists_of_mem_placedGroups {k : Nat} {placed : List (Token × Nat)}
    (h : placed ∈ placedGroups kind k ts) :
    ∃ before group after, ts = before ++ (group ++ after) ∧ placed = group.zipIdx (k + before.length) ∧
      ∀ F : List Token → List Token, (∀ us, (F us).length = us.length) →
        ∃ before' after', mapGroups kind F ts = before' ++ (F group ++ after') ∧
          before'.length = before.length := by
  induction ts using induction_groups kind generalizing k with
  | free group hgroup =>
    rw [placedGroups_free hgroup, List.mem_singleton] at h
    refine ⟨[], group, [], by simp, h, ?_⟩
    intro F _
    exact ⟨[], [], by rw [mapGroups_free hgroup, List.append_nil, List.nil_append], rfl⟩
  | split group t ts hgroup ht ih =>
    rw [placedGroups_split hgroup ht] at h
    rcases List.mem_cons.mp h with hfirst | hrest
    · refine ⟨[], group, t :: ts, rfl, hfirst, ?_⟩
      intro F _
      exact ⟨[], _, mapGroups_split hgroup ht ts, rfl⟩
    · obtain ⟨before, group', after, rfl, hplaced, hF⟩ := ih hrest
      refine ⟨group ++ t :: before, group', after, by simp, ?_, ?_⟩
      · rw [hplaced, List.length_append, List.length_cons]
        congr 1
        omega
      · intro F hlen
        obtain ⟨before', after', heq, hbefore⟩ := hF F hlen
        refine ⟨F group ++ t :: before', after', ?_, ?_⟩
        · rw [mapGroups_split hgroup ht, heq, List.append_assoc, List.cons_append]
        · rw [List.length_append, List.length_append, List.length_cons, List.length_cons, hlen, hbefore]

/-- A place in the middle of some tokens. -/
theorem getElem?_middle {front middle back : List Token} {j : Nat} (hj : j < middle.length) :
    (front ++ (middle ++ back))[front.length + j]? = middle[j]? := by
  rw [List.getElem?_append_right (Nat.le_add_right _ _), Nat.add_sub_cancel_left, List.getElem?_append_left hj]

end Tokens

/-- **The places of a layer are those of a group of tokens**, before and after each group is turned into
equally many tokens. -/
theorem Value.exists_group_of_mem_layers {v : Value} {layer : List Nat} (h : layer ∈ v.layers) :
    ∃ start group, layer = List.range' start group.length ∧
      (∀ j < group.length, v.tokens[start + j]? = group[j]?) ∧
      ∀ F : List Token → List Token, (∀ us, (F us).length = us.length) →
        ∀ j < group.length, (mapGroups .comma F v.tokens)[start + j]? = (F group)[j]? := by
  obtain ⟨placed, hplaced, rfl⟩ := List.mem_map.mp h
  obtain ⟨before, group, after, htokens, rfl, hF⟩ := Tokens.exists_of_mem_placedGroups hplaced
  refine ⟨before.length, group, ?_, ?_, ?_⟩
  · rw [List.zipIdx_map_snd, Nat.zero_add]
  · intro j hj
    rw [htokens, Tokens.getElem?_middle hj]
  · intro F hlen j hj
    obtain ⟨before', after', heq, hbefore⟩ := hF F hlen
    rw [heq, ← hbefore, Tokens.getElem?_middle (by rwa [hlen])]

/-! ### What changes in a layer -/

/-- Whether a token is a word that is a quantity. -/
def Token.isQuantity (t : Token) : Bool := t.isWord && (Quantity.read? t.text).isSome

namespace Tokens

variable {t : Token} {ts : List Token}

/-- Mapping words keeps the number of tokens. -/
theorem length_mapWords (f : List Text → List Text) (ts : List Token) :
    (mapWords f ts).length = ts.length := by
  have hmap := congrArg List.length (map_mapWords (g := Token.kind) Token.kind_queue f ts)
  rwa [List.length_map, List.length_map] at hmap

/-- Mapping what stands before the first divider keeps the number of tokens. -/
theorem length_mapBefore {F : List Token → List Token} (hF : ∀ us, (F us).length = us.length)
    (kind : TokenKind) (ts : List Token) : (mapBefore kind F ts).length = ts.length := by
  rw [mapBefore, List.length_append, hF, ← List.length_append, List.takeWhile_append_dropWhile]

/-- Nothing changes from a token of the dividing kind on. -/
theorem getElem?_mapBefore {F : List Token → List Token} (hF : ∀ us, (F us).length = us.length)
    {kind : TokenKind} {k i : Nat} (hk : ts[k]? = some t) (ht : t.kind = kind) (hle : k ≤ i) :
    (mapBefore kind F ts)[i]? = ts[i]? := by
  have hshort : (ts.takeWhile (·.kind ≠ kind)).length ≤ k := by
    by_contra hlong
    have hmem : t ∈ ts.takeWhile (·.kind ≠ kind) := by
      have hget := List.prefix_iff_getElem?.mp (List.takeWhile_prefix fun u : Token => decide (u.kind ≠ kind)) k
        (Nat.not_le.mp hlong)
      rw [hk, Option.some.injEq] at hget
      rw [hget]
      exact List.getElem_mem _
    have hne := List.mem_takeWhile_imp hmem
    simp [ht] at hne
  have hsplit : ts[i]? = (ts.takeWhile (·.kind ≠ kind) ++ ts.dropWhile (·.kind ≠ kind))[i]? := by
    rw [List.takeWhile_append_dropWhile]
  rw [mapBefore, hsplit, List.getElem?_append_right (by rw [hF]; omega),
    List.getElem?_append_right (by omega), hF]

/-- Before a first quantity the tokens stay as they are, and so do those behind it. -/
theorem mapWords_offset_cons (t : Token) (ts : List Token) :
    (t.isQuantity = false ∧ mapWords Words.offset (t :: ts) = t :: mapWords Words.offset ts) ∨
      (t.isQuantity = true ∧ ∃ t', mapWords Words.offset (t :: ts) = t' :: ts) := by
  by_cases ht : t.kind = .word
  · cases hread : Quantity.read? t.text with
    | none =>
      refine .inl ⟨by simp [Token.isQuantity, hread], ?_⟩
      rw [mapWords, words_word ht, Words.offset_of_read?_eq_none hread, assign_word ht, Token.queue,
        if_pos rfl, mapWords]
    | some q =>
      refine .inr ⟨by simp [Token.isQuantity, Token.isWord, ht, hread], ?_⟩
      rw [mapWords, words_word ht]
      cases hzero : q.numeral.isZero with
      | true =>
        rw [Words.offset_of_isZero hread hzero, assign_word ht, assign_words]
        exact ⟨_, rfl⟩
      | false =>
        rw [Words.offset_of_not_isZero hread hzero, assign_word ht, assign_words]
        exact ⟨_, rfl⟩
  · refine .inl ⟨by simp [Token.isQuantity, Token.isWord, ht], ?_⟩
    rw [mapWords, words_other ht, assign_other ht, mapWords]

/-- **Only the first quantity is negated.** -/
theorem isQuantity_of_getElem?_offset_ne {i : Nat} (h : (mapWords Words.offset ts)[i]? ≠ ts[i]?) :
    (∃ t, ts[i]? = some t ∧ t.isQuantity = true) ∧
      ∀ k < i, ∀ t, ts[k]? = some t → t.isQuantity = false := by
  induction ts generalizing i with
  | nil => exact absurd (by rw [mapWords, assign]) h
  | cons t ts ih =>
    rcases mapWords_offset_cons t ts with ⟨ht, heq⟩ | ⟨ht, t', heq⟩
    · rw [heq] at h
      cases i with
      | zero => exact absurd rfl h
      | succ i =>
        rw [List.getElem?_cons_succ, List.getElem?_cons_succ] at h
        obtain ⟨hfirst, hbefore⟩ := ih h
        refine ⟨by rwa [List.getElem?_cons_succ], ?_⟩
        intro k hk u hu
        cases k with
        | zero =>
          rw [List.getElem?_cons_zero, Option.some.injEq] at hu
          rw [← hu, ht]
        | succ k =>
          rw [List.getElem?_cons_succ] at hu
          exact hbefore k (Nat.lt_of_succ_lt_succ hk) u hu
    · rw [heq] at h
      cases i with
      | zero => exact ⟨⟨t, rfl, ht⟩, fun k hk => absurd hk (Nat.not_lt_zero k)⟩
      | succ i => exact absurd (by rw [List.getElem?_cons_succ, List.getElem?_cons_succ]) h

end Tokens

/-- **Layers are reflected apart.** If the brackets of `u` are closed, then exchanging keywords, reflecting
positions and negating offsets in `u` and `v` with a comma between them is doing so in each of them, and a
change is reported if one is reported for either. In a layer of positions all tokens from a slash on stay as
they are, and in a layer of offsets all but the first quantity. -/
theorem layers_reflect_apart :
    (∀ action : Action, action.isLayered = true → ∀ u v : Text, isClosed u = true →
      (action.onValue (Value.read (u ++ ',' :: v))).render
          = (action.onValue (Value.read u)).render ++ ',' :: (action.onValue (Value.read v)).render ∧
        (action.onValue (Value.read (u ++ ',' :: v))).isChanged
          = ((action.onValue (Value.read u)).isChanged || (action.onValue (Value.read v)).isChanged)) ∧
    ∀ v : Value, ∀ layer ∈ v.layers, ∀ i ∈ layer,
      (∀ k ∈ layer, k ≤ i → (∃ t, v.tokens[k]? = some t ∧ t.kind = .slash) →
        (Action.position.onValue v).tokens[i]? = v.tokens[i]?) ∧
      ((Action.offset.onValue v).tokens[i]? ≠ v.tokens[i]? →
        (∃ t, v.tokens[i]? = some t ∧ t.isQuantity = true) ∧
          ∀ k ∈ layer, k < i → ∀ t, v.tokens[k]? = some t → t.isQuantity = false) := by
  constructor
  · intro action haction u v hu
    rw [Action.onValue_of_isLayered haction, Action.onValue_of_isLayered haction,
      Action.onValue_of_isLayered haction, Value.read_comma hu, Action.onTokens_comma haction]
    constructor
    · simp [Value.render, Token.render, Token.rendered, Token.comma]
    · simp [Value.isChanged, Token.comma]
  · intro v layer hlayer i hi
    obtain ⟨start, group, rfl, htokens, hmap⟩ := Value.exists_group_of_mem_layers hlayer
    have hplace : ∀ {k}, k ∈ List.range' start group.length → ∃ j < group.length, k = start + j := by
      intro k hk
      obtain ⟨j, hj, rfl⟩ := List.mem_range'.mp hk
      exact ⟨j, hj, by rw [Nat.one_mul]⟩
    obtain ⟨j, hj, rfl⟩ := hplace hi
    rw [htokens j hj]
    constructor
    · rintro k hk hle ⟨t, ht, hslash⟩
      obtain ⟨n, hn, rfl⟩ := hplace hk
      rw [htokens n hn] at ht
      have hlength := Tokens.length_mapWords Words.position
      show (mapGroups .comma (mapBefore .slash (mapWords Words.position)) v.tokens)[start + j]? = group[j]?
      rw [hmap _ (Tokens.length_mapBefore hlength .slash) j hj]
      exact Tokens.getElem?_mapBefore hlength ht hslash (by omega)
    · intro hne
      have hgroup : (mapWords Words.offset group)[j]? ≠ group[j]? := by
        rwa [← hmap _ (Tokens.length_mapWords Words.offset) j hj]
      obtain ⟨hfirst, hbefore⟩ := Tokens.isQuantity_of_getElem?_offset_ne hgroup
      refine ⟨hfirst, ?_⟩
      intro k hk hlt t ht
      obtain ⟨n, hn, rfl⟩ := hplace hk
      rw [htokens n hn] at ht
      exact hbefore n (by omega) t ht

/-- A layer with a comma in brackets, a marker and a size stands before another layer. Of two shadows, nothing
changes behind the slash in the first, and in the second the first quantity changes. -/
theorem layers_reflect_apart_at_comma :
    let u := "f(a, b) 25% 0\x0201\x03/ left ".toList
    let v := "Left top".toList
    let shadows := Value.read "0 / 5px,red -3px 1px".toList
    (Action.position.isLayered = true ∧ isClosed u = true ∧
      ((Action.position.onValue (Value.read (u ++ ',' :: v))).render
          = (Action.position.onValue (Value.read u)).render ++
              ',' :: (Action.position.onValue (Value.read v)).render ∧
        (Action.position.onValue (Value.read (u ++ ',' :: v))).isChanged
          = ((Action.position.onValue (Value.read u)).isChanged ||
              (Action.position.onValue (Value.read v)).isChanged))) ∧
    (Action.position.onValue (Value.read (u ++ ',' :: v))).render
      = "f(a, b) 75% 0\x0201\x03/ left ,Right top".toList ∧
    ([0, 1, 2] ∈ shadows.layers ∧ (∃ t, shadows.tokens[1]? = some t ∧ t.kind = .slash) ∧
      (Action.position.onValue shadows).tokens[2]? = shadows.tokens[2]?) ∧
    ([4, 5, 6] ∈ shadows.layers ∧ (Action.offset.onValue shadows).tokens[5]? ≠ shadows.tokens[5]? ∧
      ((∃ t, shadows.tokens[5]? = some t ∧ t.isQuantity = true) ∧
        ∀ k ∈ [4, 5, 6], k < 5 → ∀ t, shadows.tokens[k]? = some t → t.isQuantity = false)) := by
  intro u v shadows
  have hfirst : [0, 1, 2] ∈ shadows.layers := by decide +kernel
  have hsecond : [4, 5, 6] ∈ shadows.layers := by decide +kernel
  have hclosed : isClosed u = true := by decide +kernel
  have hslash : ∃ t, shadows.tokens[1]? = some t ∧ t.kind = .slash :=
    ⟨⟨[' '], .slash, ['/'], none⟩, by decide +kernel, rfl⟩
  have hne : (Action.offset.onValue shadows).tokens[5]? ≠ shadows.tokens[5]? := by decide +kernel
  refine ⟨⟨rfl, hclosed, layers_reflect_apart.1 .position rfl u v hclosed⟩, by decide +kernel,
    ⟨hfirst, hslash, ?_⟩, hsecond, hne, ?_⟩
  · exact (layers_reflect_apart.2 shadows _ hfirst 2 (by decide)).1 1 (by decide) (by decide) hslash
  · exact (layers_reflect_apart.2 shadows _ hsecond 5 (by decide)).2 hne

end BidiSheet
