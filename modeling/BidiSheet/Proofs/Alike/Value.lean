import BidiSheet.Proofs.Bracket
import BidiSheet.Proofs.Declaration
import BidiSheet.Proofs.Quiet

/-!
# Values with alike texts

A value that is read from one of two alike texts has the same tokens as that of the other, but for the
numbers of markers (`Value.alike_read`), and every action does the same to both
(`Action.alike_onValue`).

Tokens are compared in two ways. Tokens that were just read have alike texts and no replacement yet
(`Token.FreshAlike`). Tokens on which replacements have been queued are written out alike
(`Token.WrittenAlike`); whether a replacement counts as one depends on an equality of words, so this is the
same on both sides only where numbers are related one to one.
-/

namespace BidiSheet

open Marker (opener closer isControl)

namespace Value

variable {ρ : Nat → Nat → Prop} {s t : Text}

/-! ### Words -/

/-- Words of alike texts end in the same place. -/
theorem alikeCut_wordLength (h : Alike ρ s t) (depth : Nat) :
    AlikeCut ρ (wordLength depth s) (wordLength depth t) s t := by
  rw [wordLength_eq, wordLength_eq]
  refine alikeCut_outerLength ?_ (by decide) h depth
  intro c hc
  have hne : ∀ d : Char, d.isDigit = false → c ≠ d := by
    rintro d hd rfl
    rw [hc] at hd
    cases hd
  simp only [endsWord, isBlank, Bool.or_eq_false_iff, decide_eq_false_iff_not]
  exact ⟨⟨⟨⟨⟨⟨⟨hne _ rfl, hne _ rfl⟩, hne _ rfl⟩, hne _ rfl⟩, hne _ rfl⟩, hne _ rfl⟩, hne _ rfl⟩,
    hne _ rfl⟩

/-! ### Tokens -/

/-- A marker is a token, whatever stands behind it. -/
theorem tokenAt_mark {i : Nat} (hi : i < Marker.bound) (t : Text) :
    tokenAt opener (Nat.toDigits 10 i ++ closer :: t)
      = (.marker, (Nat.toDigits 10 i).length + 1) := by
  rw [tokenAt, if_neg (by decide), if_neg (by decide), Marker.read?_text hi]

/-- A character that is neither a comma, a slash nor the opening of a marker begins a word. -/
theorem tokenAt_word {c : Char} (h1 : c ≠ ',') (h2 : c ≠ '/') (h3 : c ≠ opener) (t : Text) :
    tokenAt c t = (.word, wordLength (nest 0 c) t) := by
  rw [tokenAt, if_neg h1, if_neg h2, Marker.read?_of_ne_opener h3]

/-- Tokens of alike texts are of the same kind and end in the same place. -/
theorem alike_tokenAt {c : Char} (h : Alike ρ (c :: s) (c :: t)) :
    (tokenAt c s).1 = (tokenAt c t).1 ∧
      AlikeCut ρ ((tokenAt c s).2 + 1) ((tokenAt c t).2 + 1) (c :: s) (c :: t) := by
  generalize hs : c :: s = s₀ at h
  generalize ht : c :: t = t₀ at h
  cases h with
  | nil => cases hs
  | @plain d s' t' hd h =>
    cases hs
    cases ht
    by_cases h1 : c = ','
    · subst h1
      exact ⟨rfl, .plain hd (.zero h)⟩
    by_cases h2 : c = '/'
    · subst h2
      exact ⟨rfl, .plain hd (.zero h)⟩
    have h3 := Marker.ne_opener_of_not_isControl hd
    rw [tokenAt_word h1 h2 h3, tokenAt_word h1 h2 h3]
    exact ⟨rfl, .plain hd (alikeCut_wordLength h _)⟩
  | @mark i j s' t' hi hj hij h =>
    obtain ⟨rfl, rfl⟩ := List.cons.inj hs
    obtain ⟨-, rfl⟩ := List.cons.inj ht
    rw [tokenAt_mark hi, tokenAt_mark hj]
    exact ⟨rfl, .mark hi hj hij (.zero h)⟩

end Value

/-! ### Fresh and written tokens -/

namespace Token

variable {ρ : Nat → Nat → Prop} {a b : Token}

/-- Tokens with alike texts, on which nothing has been queued. -/
structure FreshAlike (ρ : Nat → Nat → Prop) (a b : Token) : Prop where
  gap : a.gap = b.gap
  plain_gap : Plain a.gap
  kind : a.kind = b.kind
  text : Alike ρ a.text b.text
  left_fresh : a.queued = none
  right_fresh : b.queued = none

/-- Tokens that are written out alike. -/
structure WrittenAlike (ρ : Nat → Nat → Prop) (a b : Token) : Prop where
  gap : a.gap = b.gap
  plain_gap : Plain a.gap
  kind : a.kind = b.kind
  rendered : Alike ρ a.rendered b.rendered
  changed : Relator.BiUnique ρ → a.queued.isSome = b.queued.isSome

/-- A token on which nothing is queued is written as it stands. -/
theorem rendered_of_fresh (h : a.queued = none) : a.rendered = a.text := by
  rw [rendered, h, Option.getD_none]

/-- A word queued on a fresh token is what is written for it, even where it is the token's own text and
so does not count as a replacement. -/
theorem rendered_queue (h : a.queued = none) (w : Text) : (a.queue w).rendered = w := by
  unfold queue
  split
  next hw => rw [rendered_of_fresh h, hw]
  · rfl

/-- Queuing on a fresh token counts unless the word is the token's own text. -/
theorem isSome_queued_queue (h : a.queued = none) (w : Text) :
    (a.queue w).queued.isSome = decide (w ≠ a.text) := by
  unfold queue
  split
  next hw => simp [h, hw]
  next hw => simp [hw]

/-- Tokens that are alike before anything is queued are written alike. -/
theorem FreshAlike.written (h : FreshAlike ρ a b) : WrittenAlike ρ a b where
  gap := h.gap
  plain_gap := h.plain_gap
  kind := h.kind
  rendered := by
    rw [rendered_of_fresh h.left_fresh, rendered_of_fresh h.right_fresh]
    exact h.text
  changed := fun _ => by rw [h.left_fresh, h.right_fresh]

/-- Alike words queued on alike tokens. -/
theorem FreshAlike.queue (h : FreshAlike ρ a b) {w w' : Text} (hw : Alike ρ w w') :
    WrittenAlike ρ (a.queue w) (b.queue w') where
  gap := by rw [gap_queue, gap_queue, h.gap]
  plain_gap := by
    rw [gap_queue]
    exact h.plain_gap
  kind := by rw [kind_queue, kind_queue, h.kind]
  rendered := by
    rw [rendered_queue h.left_fresh, rendered_queue h.right_fresh]
    exact hw
  changed := fun hρ => by
    have hiff := hw.eq_iff hρ h.text
    rw [isSome_queued_queue h.left_fresh, isSome_queued_queue h.right_fresh]
    exact decide_eq_decide.mpr (not_congr hiff)

/-- Tokens that are alike are both words or neither is. -/
theorem FreshAlike.isWord (h : FreshAlike ρ a b) : a.isWord = b.isWord := by
  rw [Token.isWord, Token.isWord, h.kind]

/-- Tokens that are written alike have renderings that are alike. -/
theorem WrittenAlike.render (h : WrittenAlike ρ a b) : Alike ρ a.render b.render := by
  rw [Token.render, Token.render, ← h.gap]
  exact (Alike.of_plain h.plain_gap).append h.rendered

end Token

/-! ### Groups of tokens -/

namespace Tokens

variable {ρ : Nat → Nat → Prop} {ts ts' : List Token}

/-- Tokens that are alike have words that are alike. -/
theorem alike_words (h : List.Forall₂ (Token.FreshAlike ρ) ts ts') :
    List.Forall₂ (Alike ρ) (words ts) (words ts') := by
  induction h with
  | nil => exact .nil
  | @cons a b ts ts' hab h ih =>
    unfold words at ih ⊢
    rw [List.filter_cons, List.filter_cons, ← hab.isWord]
    split
    · exact .cons hab.text ih
    · exact ih

/-- Where nothing is queued nothing is written otherwise. -/
theorem written_of_fresh (h : List.Forall₂ (Token.FreshAlike ρ) ts ts') :
    List.Forall₂ (Token.WrittenAlike ρ) ts ts' :=
  h.imp fun _ _ hab => hab.written

/-- Alike words are queued alike. -/
theorem alike_assign (h : List.Forall₂ (Token.FreshAlike ρ) ts ts') {ws ws' : List Text}
    (hw : List.Forall₂ (Alike ρ) ws ws') :
    List.Forall₂ (Token.WrittenAlike ρ) (assign ts ws) (assign ts' ws') := by
  induction h generalizing ws ws' with
  | nil => exact .nil
  | @cons a b ts ts' hab h ih =>
    cases hw with
    | nil => exact .cons hab.written (written_of_fresh h)
    | @cons w w' ws ws' hww hws =>
      rw [assign, assign, ← hab.isWord]
      split
      · exact .cons (hab.queue hww) (ih hws)
      · exact .cons hab.written (ih (.cons hww hws))

/-- A function that treats words alike treats tokens alike. -/
theorem alike_mapWords {f : List Text → List Text}
    (hf : ∀ {ws ws'}, List.Forall₂ (Alike ρ) ws ws' → List.Forall₂ (Alike ρ) (f ws) (f ws'))
    (h : List.Forall₂ (Token.FreshAlike ρ) ts ts') :
    List.Forall₂ (Token.WrittenAlike ρ) (mapWords f ts) (mapWords f ts') :=
  alike_assign h (hf (alike_words h))

variable {F : List Token → List Token}

/-- A function that treats groups alike goes on so in the middle of a group. -/
theorem alike_mapGroups_go (kind : TokenKind)
    (hF : ∀ {us us'}, List.Forall₂ (Token.FreshAlike ρ) us us' →
      List.Forall₂ (Token.WrittenAlike ρ) (F us) (F us'))
    (h : List.Forall₂ (Token.FreshAlike ρ) ts ts') {group group' : List Token}
    (hgroup : List.Forall₂ (Token.FreshAlike ρ) group group') :
    List.Forall₂ (Token.WrittenAlike ρ) (mapGroups.go kind F group ts)
      (mapGroups.go kind F group' ts') := by
  induction h generalizing group group' with
  | nil => exact hF hgroup
  | @cons a b ts ts' hab h ih =>
    rw [mapGroups.go, mapGroups.go, ← hab.kind]
    split
    · exact List.rel_append (hF hgroup) (.cons hab.written (ih .nil))
    · exact ih (List.rel_append hgroup (.cons hab .nil))

/-- A function that treats groups alike treats tokens alike. -/
theorem alike_mapGroups (kind : TokenKind)
    (hF : ∀ {us us'}, List.Forall₂ (Token.FreshAlike ρ) us us' →
      List.Forall₂ (Token.WrittenAlike ρ) (F us) (F us'))
    (h : List.Forall₂ (Token.FreshAlike ρ) ts ts') :
    List.Forall₂ (Token.WrittenAlike ρ) (mapGroups kind F ts) (mapGroups kind F ts') :=
  alike_mapGroups_go kind hF h .nil

/-- The tokens before the first divider are alike. -/
theorem alike_takeWhile (kind : TokenKind) (h : List.Forall₂ (Token.FreshAlike ρ) ts ts') :
    List.Forall₂ (Token.FreshAlike ρ) (ts.takeWhile (·.kind ≠ kind))
      (ts'.takeWhile (·.kind ≠ kind)) := by
  induction h with
  | nil => exact .nil
  | @cons a b ts ts' hab h ih =>
    rw [List.takeWhile_cons, List.takeWhile_cons, ← hab.kind]
    split
    · exact .cons hab ih
    · exact .nil

/-- The tokens from the first divider on are alike. -/
theorem alike_dropWhile (kind : TokenKind) (h : List.Forall₂ (Token.FreshAlike ρ) ts ts') :
    List.Forall₂ (Token.FreshAlike ρ) (ts.dropWhile (·.kind ≠ kind))
      (ts'.dropWhile (·.kind ≠ kind)) := by
  induction h with
  | nil => exact .nil
  | @cons a b ts ts' hab h ih =>
    rw [List.dropWhile_cons, List.dropWhile_cons, ← hab.kind]
    split
    · exact ih
    · exact .cons hab h

/-- A function that treats alike what stands before the first divider treats tokens alike. -/
theorem alike_mapBefore (kind : TokenKind)
    (hF : ∀ {us us'}, List.Forall₂ (Token.FreshAlike ρ) us us' →
      List.Forall₂ (Token.WrittenAlike ρ) (F us) (F us'))
    (h : List.Forall₂ (Token.FreshAlike ρ) ts ts') :
    List.Forall₂ (Token.WrittenAlike ρ) (mapBefore kind F ts) (mapBefore kind F ts') :=
  List.rel_append (hF (alike_takeWhile kind h)) (written_of_fresh (alike_dropWhile kind h))

/-- Tokens that are written alike have texts that are alike. -/
theorem alike_render (h : List.Forall₂ (Token.WrittenAlike ρ) ts ts') :
    Alike ρ (ts.flatMap Token.render) (ts'.flatMap Token.render) := by
  induction h with
  | nil => exact .nil
  | cons hab _ ih => exact hab.render.append ih

/-- A question that alike tokens answer alike. -/
theorem alike_any {p : Token → Bool} (hp : ∀ {a b}, Token.WrittenAlike ρ a b → p a = p b)
    (h : List.Forall₂ (Token.WrittenAlike ρ) ts ts') : ts.any p = ts'.any p := by
  induction h with
  | nil => rfl
  | cons hab _ ih => rw [List.any_cons, List.any_cons, ih, hp hab]

end Tokens

/-! ### Values -/

namespace Value

variable {ρ : Nat → Nat → Prop} {v v' : Value}

theorem read_of_nil {t : Text} (h : t.dropWhile isBlank = []) : read t = ⟨[], t⟩ := by
  rw [read]
  split
  · rfl
  next hc => simp [h] at hc

/-- Reading takes one token, and goes on behind it. -/
theorem read_of_cons {t cs : Text} {c : Char} (h : t.dropWhile isBlank = c :: cs) :
    read t =
      ⟨⟨t.takeWhile isBlank, (tokenAt c cs).1, c :: cs.take (tokenAt c cs).2, none⟩
          :: (read (cs.drop (tokenAt c cs).2)).tokens,
        (read (cs.drop (tokenAt c cs).2)).tail⟩ := by
  rw [read]
  split
  next hn => simp [h] at hn
  next d ds hd =>
    obtain ⟨rfl, rfl⟩ := List.cons.inj (hd.symm.trans h)
    rfl

/-- Values with alike tokens, on which nothing has been queued. -/
structure FreshAlike (ρ : Nat → Nat → Prop) (v v' : Value) : Prop where
  tokens : List.Forall₂ (Token.FreshAlike ρ) v.tokens v'.tokens
  tail : v.tail = v'.tail
  plain_tail : Plain v.tail

/-- Values that are written out alike. -/
structure WrittenAlike (ρ : Nat → Nat → Prop) (v v' : Value) : Prop where
  tokens : List.Forall₂ (Token.WrittenAlike ρ) v.tokens v'.tokens
  tail : v.tail = v'.tail
  plain_tail : Plain v.tail

/-- **Alike texts are read as alike values.** -/
theorem alike_read {s t : Text} (h : Alike ρ s t) : FreshAlike ρ (read s) (read t) := by
  have hblank : isBlank opener = false := by decide
  fun_induction read s generalizing t with
  | case1 s hs =>
    have hd := h.dropWhile hblank
    rw [hs] at hd
    have ht : t.dropWhile isBlank = [] := hd.eq_nil_iff.mp rfl
    have hst : s = t := by
      rw [← List.takeWhile_append_dropWhile (p := isBlank) (l := s), hs,
        ← List.takeWhile_append_dropWhile (p := isBlank) (l := t), ht, h.takeWhile_eq hblank]
    have hplain : Plain s := by
      rw [← List.takeWhile_append_dropWhile (p := isBlank) (l := s), hs, List.append_nil]
      exact h.plain_takeWhile hblank
    rw [read_of_nil ht]
    exact ⟨.nil, hst, hplain⟩
  | case2 s c cs hs n value =>
    rename_i ih
    have hd := h.dropWhile hblank
    rw [hs] at hd
    obtain ⟨ds, ht⟩ : ∃ ds, t.dropWhile isBlank = c :: ds := by
      have hhead := hd.head?
      rw [List.head?_cons] at hhead
      exact List.head?_eq_some_iff.mp hhead.symm
    rw [ht] at hd
    obtain ⟨hkind, hcut⟩ := alike_tokenAt hd
    have hrest := ih hcut.back
    rw [read_of_cons ht]
    refine ⟨.cons ⟨h.takeWhile_eq hblank, h.plain_takeWhile hblank, hkind, ?_, rfl, rfl⟩
      hrest.tokens, hrest.tail, hrest.plain_tail⟩
    exact hcut.front

/-- Values that are alike before anything is queued are written alike. -/
theorem FreshAlike.written (h : FreshAlike ρ v v') : WrittenAlike ρ v v' :=
  ⟨Tokens.written_of_fresh h.tokens, h.tail, h.plain_tail⟩

/-- What is done to the tokens of values that were just read. -/
theorem FreshAlike.mapTokens (h : FreshAlike ρ v v') {F : List Token → List Token}
    (hF : ∀ {us us'}, List.Forall₂ (Token.FreshAlike ρ) us us' →
      List.Forall₂ (Token.WrittenAlike ρ) (F us) (F us')) :
    WrittenAlike ρ (v.mapTokens F) (v'.mapTokens F) :=
  ⟨hF h.tokens, h.tail, h.plain_tail⟩

/-- Values that are written alike have renderings that are alike. -/
theorem WrittenAlike.render (h : WrittenAlike ρ v v') : Alike ρ v.render v'.render := by
  rw [Value.render, Value.render, ← h.tail]
  exact (Tokens.alike_render h.tokens).append (.of_plain h.plain_tail)

/-- Values that are written alike are both changed or neither is. -/
theorem WrittenAlike.isChanged (hρ : Relator.BiUnique ρ) (h : WrittenAlike ρ v v') :
    v.isChanged = v'.isChanged :=
  Tokens.alike_any (fun hab => hab.changed hρ) h.tokens

/-- Values that are written alike have the same kinds of tokens. -/
theorem WrittenAlike.has (h : WrittenAlike ρ v v') (kind : TokenKind) : v.has kind = v'.has kind :=
  Tokens.alike_any (fun hab => by rw [hab.kind]) h.tokens

/-- Values that are written alike are both boxes or neither is. -/
theorem WrittenAlike.isBox (h : WrittenAlike ρ v v') : v.isBox = v'.isBox := by
  rw [Value.isBox, Value.isBox, h.has, h.has]

/-- Values that are written alike both list corners or neither does. -/
theorem WrittenAlike.isCorners (h : WrittenAlike ρ v v') : v.isCorners = v'.isCorners := by
  rw [Value.isCorners, Value.isCorners, h.has]

end Value

/-- **No action depends on how markers are numbered.** -/
theorem Action.alike_onValue {ρ : Nat → Nat → Prop} {v v' : Value} (action : Action)
    (h : v.FreshAlike ρ v') : (action.onValue v).WrittenAlike ρ (action.onValue v') := by
  cases action with
  | rename vocabulary => exact h.written
  | swap vocabulary =>
    exact h.mapTokens fun hts => Tokens.alike_mapWords (Words.alike_map_swap vocabulary) hts
  | box =>
    show Value.WrittenAlike ρ v.swapSides v'.swapSides
    unfold Value.swapSides
    rw [← h.written.isBox]
    split
    · exact h.mapTokens fun hts => Tokens.alike_mapWords Words.alike_box hts
    · exact h.written
  | corners =>
    show Value.WrittenAlike ρ v.swapCorners v'.swapCorners
    unfold Value.swapCorners
    rw [← h.written.isCorners]
    split
    · exact h.mapTokens fun hts =>
        Tokens.alike_mapGroups .slash (Tokens.alike_mapWords Words.alike_corners) hts
    · exact h.written
  | position =>
    exact h.mapTokens fun hts =>
      Tokens.alike_mapGroups .comma
        (Tokens.alike_mapBefore .slash (Tokens.alike_mapWords Words.alike_position)) hts
  | offset =>
    exact h.mapTokens fun hts =>
      Tokens.alike_mapGroups .comma (Tokens.alike_mapWords Words.alike_offset) hts

/-- Which values an action is made for does not depend on it either. -/
theorem Action.alike_admits {ρ : Nat → Nat → Prop} {v v' : Value} (action : Action)
    (h : v.WrittenAlike ρ v') : action.admits v = action.admits v' := by
  cases action with
  | box => exact h.isBox
  | corners => exact h.isCorners
  | _ => rfl

end BidiSheet
