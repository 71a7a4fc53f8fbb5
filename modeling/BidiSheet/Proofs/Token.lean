import BidiSheet.Proofs.Alike.Value

/-!
# Tokens that are read from their own text

Tokens *read* when the text that they are written as is taken apart into the same tokens again
(`Value.read_of_reads`), as it is for the tokens of any value (`Value.reads_read`). Where a word ends depends
on what follows it, but only in that its brackets are closed and that the next token is set off from it.
So words may be exchanged for other words with closed brackets, and the tokens still read
(`Value.Reads.revised`).
-/

namespace BidiSheet

open Marker (opener closer isControl)

/-! ### Words -/

/-- Whether a text is read as one word, if what follows it does not belong to the word. -/
def isWordText : Text → Bool
  | [] => false
  | c :: cs =>
    !isBlank c && c ≠ ',' && c ≠ '/' && c ≠ opener && Value.wordLength (nest 0 c) cs = cs.length

namespace Value

/-! ### Tokens -/

section

variable {c : Char} {cs v r : Text}

/-- What the text of a word is like. -/
theorem isWordText_iff : isWordText (c :: cs) = true ↔
    isBlank c = false ∧ c ≠ ',' ∧ c ≠ '/' ∧ c ≠ opener ∧
      wordLength (nest 0 c) cs = cs.length := by
  simp [isWordText, and_assoc]

/-- Outside its brackets nothing in a word ends it. -/
theorem outerLength_of_isWordText {w : Text} (h : isWordText w = true) :
    outerLength endsWord 0 w = w.length := by
  cases w with
  | nil => cases h
  | cons c cs =>
    obtain ⟨h1, h2, h3, h4, hlen⟩ := isWordText_iff.mp h
    have hc : endsWord c = false := by simp [endsWord, h1, h2, h3, h4]
    rw [outerLength, if_neg (by simp [hc]), ← wordLength_eq, hlen, List.length_cons]

/-- A comma is a token of its own. -/
theorem tokenAt_comma (cs : Text) : tokenAt ',' cs = (.comma, 0) := rfl

/-- A slash is a token of its own. -/
theorem tokenAt_slash (cs : Text) : tokenAt '/' cs = (.slash, 0) := rfl

/-- What a token may be. -/
theorem tokenAt_cases {kind : TokenKind} {n : Nat} (h : tokenAt c cs = (kind, n)) :
    (c = ',' ∧ kind = .comma ∧ n = 0) ∨ (c = '/' ∧ kind = .slash ∧ n = 0) ∨
    (∃ found, Marker.read? (c :: cs) = some found ∧ kind = .marker ∧ n = found.digits + 1) ∨
    (c ≠ ',' ∧ c ≠ '/' ∧ Marker.read? (c :: cs) = none ∧ kind = .word ∧
      n = wordLength (nest 0 c) cs) := by
  unfold tokenAt at h
  split at h
  next hc =>
    cases h
    exact .inl ⟨hc, rfl, rfl⟩
  next hcomma =>
    split at h
    next hc =>
      cases h
      exact .inr (.inl ⟨hc, rfl, rfl⟩)
    next hslash =>
      split at h
      next found hfound =>
        cases h
        exact .inr (.inr (.inl ⟨found, hfound, rfl, rfl⟩))
      next hnone =>
        cases h
        exact .inr (.inr (.inr ⟨hcomma, hslash, hnone, rfl, rfl⟩))

/-- A marker token is a whole marker. -/
theorem exists_of_marker {found : Marker.Found}
    (h : Marker.read? (c :: (cs ++ v)) = some found) (hlen : cs.length = found.digits + 1) :
    c = opener ∧ ∃ ds, cs = ds ++ [closer] ∧ (∀ d ∈ ds, d.isDigit = true) ∧ ds ≠ [] ∧
      Nat.ofDigitChars 10 ds 0 < Marker.bound := by
  obtain ⟨ds, rest, heq, hds, hne, hlt, rfl⟩ := Marker.exists_of_read? h
  obtain ⟨rfl, heq'⟩ := List.cons.inj heq
  have hsplit : cs ++ v = (ds ++ [closer]) ++ rest := by
    rw [heq', List.append_assoc, List.singleton_append]
  refine ⟨rfl, ds, ?_, hds, hne, hlt⟩
  apply List.append_inj_left hsplit
  rw [hlen, List.length_append, List.length_singleton]

/-- A token does not reach beyond the text. -/
theorem tokenAt_le {kind : TokenKind} {n : Nat} (h : tokenAt c cs = (kind, n)) : n ≤ cs.length := by
  obtain ⟨-, -, rfl⟩ | ⟨-, -, rfl⟩ | ⟨found, hfound, -, rfl⟩ | ⟨-, -, -, -, rfl⟩ := tokenAt_cases h
  · exact Nat.zero_le _
  · exact Nat.zero_le _
  · obtain ⟨ds, rest, heq, -, -, -, rfl⟩ := Marker.exists_of_read? hfound
    rw [(List.cons.inj heq).2, List.length_append, List.length_cons]
    simp only
    omega
  · rw [wordLength_eq]
    exact outerLength_le _ _ cs

/-- A token that is no word ends where it does whatever follows. -/
theorem tokenAt_congr {kind : TokenKind} (hkind : kind ≠ .word)
    (h : tokenAt c (cs ++ v) = (kind, cs.length)) (r : Text) :
    tokenAt c (cs ++ r) = (kind, cs.length) := by
  obtain ⟨rfl, rfl, hlen⟩ | ⟨rfl, rfl, hlen⟩ | ⟨found, hfound, rfl, hlen⟩ | ⟨-, -, -, hword, -⟩ :=
    tokenAt_cases h
  · rw [tokenAt_comma, hlen]
  · rw [tokenAt_slash, hlen]
  · obtain ⟨rfl, ds, rfl, hds, hne, hlt⟩ := exists_of_marker hfound hlen
    rw [List.append_assoc, List.singleton_append, tokenAt, if_neg (by decide),
      if_neg (by decide), Marker.read?_mark hds hne hlt]
    simp
  · exact absurd hword hkind

end

end Value

namespace Tokens

/-- The text that some tokens were read from. -/
def source (ts : List Token) : Text := ts.flatMap fun t => t.gap ++ t.text

@[simp] theorem source_nil : source [] = [] := rfl

/-- The text of a token stands behind its gap. -/
@[simp] theorem source_cons (t : Token) (ts : List Token) :
    source (t :: ts) = t.gap ++ t.text ++ source ts := rfl

/-- The texts of tokens follow one another. -/
@[simp] theorem source_append (ts us : List Token) :
    source (ts ++ us) = source ts ++ source us :=
  List.flatMap_append

/-- Whether nothing in the way some tokens begin could be taken for a part of a word before them. -/
def isSetOff : List Token → Bool
  | [] => true
  | t :: _ => t.gap ≠ [] || t.kind ≠ .word

/-- Whether no word begins with the opening of a marker. -/
def isMarked (ts : List Token) : Bool := ts.all fun t => t.kind ≠ .word || t.text.head? ≠ some opener

end Tokens

namespace Value

/-! ### Reading -/

/-- Tokens that are read from their own text, with `tail` behind it. -/
inductive Reads (tail : Text) : List Token → Prop where
  | nil (h : ∀ c ∈ tail, isBlank c = true) : Reads tail []
  | cons {gap cs : Text} {kind : TokenKind} {c : Char} {ts : List Token}
      (hgap : ∀ d ∈ gap, isBlank d = true) (hc : isBlank c = false)
      (h : tokenAt c (cs ++ (Tokens.source ts ++ tail)) = (kind, cs.length))
      (rest : Reads tail ts) : Reads tail (⟨gap, kind, c :: cs, none⟩ :: ts)

/-- **Tokens that read are what their text is taken apart into.** -/
theorem read_of_reads {tail : Text} {ts : List Token} (h : Reads tail ts) :
    read (Tokens.source ts ++ tail) = ⟨ts, tail⟩ := by
  induction h with
  | nil h => exact read_of_nil (List.dropWhile_eq_nil_iff.mpr h)
  | @cons gap cs kind c ts hgap hc h rest ih =>
    have hdrop : (gap ++ c :: (cs ++ (Tokens.source ts ++ tail))).dropWhile isBlank
        = c :: (cs ++ (Tokens.source ts ++ tail)) := by
      rw [List.dropWhile_append_of_pos hgap, List.dropWhile_cons_of_neg (by simp [hc])]
    have htake : (gap ++ c :: (cs ++ (Tokens.source ts ++ tail))).takeWhile isBlank = gap := by
      rw [List.takeWhile_append_of_pos hgap, List.takeWhile_cons_of_neg (by simp [hc]),
        List.append_nil]
    have htext : Tokens.source (⟨gap, kind, c :: cs, none⟩ :: ts) ++ tail
        = gap ++ c :: (cs ++ (Tokens.source ts ++ tail)) := by
      simp
    rw [htext, read_of_cons hdrop, h, htake]
    simp only [List.take_left, List.drop_left]
    rw [ih]

/-- The tokens of a text, with the blanks at its end, are the text. -/
theorem source_tokens_read (t : Text) : Tokens.source (read t).tokens ++ (read t).tail = t :=
  source_read t

/-- The tokens of a value read. -/
theorem reads_read (t : Text) : Reads (read t).tail (read t).tokens := by
  fun_induction read t with
  | case1 t h => exact .nil (List.dropWhile_eq_nil_iff.mp h)
  | case2 t c cs h n value ih =>
    have hc : isBlank c = false := by
      have hhead := List.head?_dropWhile_not isBlank t
      rw [h] at hhead
      simpa using hhead
    refine .cons (fun d => List.mem_takeWhile_imp) hc ?_ ih
    have hn : n ≤ cs.length := tokenAt_le (Prod.mk.eta (p := tokenAt c cs)).symm
    rw [source_tokens_read, List.take_append_drop, List.length_take_of_le hn]

end Value

/-! ### Revised words -/

/-- A word behind a single blank. -/
def Token.spaced (w : Text) : Token := ⟨[' '], .word, w, none⟩

namespace Tokens

/-- Tokens of which some words have been exchanged, each for one or several words as `Q` allows. -/
inductive Revised (Q : Text → List Text → Prop) : List Token → List Token → Prop where
  | nil : Revised Q [] []
  | same (t : Token) {ts us : List Token} (rest : Revised Q ts us) : Revised Q (t :: ts) (t :: us)
  | word {t : Token} {ts us : List Token} {w : Text} {ws : List Text} (hword : t.kind = .word)
      (h : Q t.text (w :: ws)) (rest : Revised Q ts us) :
      Revised Q (t :: ts) ({ t with text := w } :: (ws.map Token.spaced ++ us))

/-- A revision sets off the same tokens. -/
theorem Revised.isSetOff {Q : Text → List Text → Prop} {ts us : List Token} (h : Revised Q ts us) :
    isSetOff us = isSetOff ts := by
  cases h <;> rfl

end Tokens

namespace Value

open Tokens (isSetOff isMarked Revised)

variable {tail : Text} {ts us : List Token}

/-- Blanks end a word. -/
theorem head?_of_blank {t : Text} (h : ∀ c ∈ t, isBlank c = true) :
    t = [] ∨ t.head?.any endsWord = true := by
  cases t with
  | nil => exact .inl rfl
  | cons c t => exact .inr (by simp [endsWord, h c List.mem_cons_self])

/-- A word that is no broken marker does not begin with the opening of one. -/
theorem ne_opener_of_isMarked {gap cs : Text} {c : Char} {queued : Option Text}
    (h : isMarked (⟨gap, .word, c :: cs, queued⟩ :: ts) = true) : c ≠ opener := by
  have hall := List.all_eq_true.mp h _ List.mem_cons_self
  simpa using hall

/-- Nothing that comes next belongs to a word. -/
def EndsWord (t : Text) : Prop := t = [] ∨ t.head?.any endsWord = true

/-- A word before tokens that are set off from it ends there. -/
theorem Reads.endsWord (h : Reads tail ts) (hoff : isSetOff ts = true) :
    EndsWord (Tokens.source ts ++ tail) := by
  cases h with
  | nil h => exact head?_of_blank h
  | @cons gap cs kind c ts hgap hc h rest =>
    right
    cases gap with
    | cons d gap => simp [Value.endsWord, hgap d List.mem_cons_self]
    | nil =>
      have hkind : kind ≠ .word := by simpa [isSetOff] using hoff
      have hends : Value.endsWord c = true := by
        obtain ⟨rfl, -⟩ | ⟨rfl, -⟩ | ⟨found, hfound, -⟩ | ⟨-, -, -, hword, -⟩ := tokenAt_cases h
        · decide
        · decide
        · obtain ⟨ds, rest, heq, -⟩ := Marker.exists_of_read? hfound
          rw [(List.cons.inj heq).1]
          decide
        · exact absurd hword hkind
      simpa using hends

/-- Where a word ends before tokens, they are set off from it. -/
theorem Reads.isSetOff (h : Reads tail ts) (hmarked : isMarked ts = true)
    (hends : EndsWord (Tokens.source ts ++ tail)) : isSetOff ts = true := by
  cases h with
  | nil => rfl
  | @cons gap cs kind c ts hgap hc h rest =>
    by_cases hword : gap = [] ∧ kind = .word
    · obtain ⟨rfl, rfl⟩ := hword
      have hc' : Value.endsWord c = true := by
        rcases hends with hnil | hhead
        · simp at hnil
        · simpa using hhead
      have hopener := ne_opener_of_isMarked hmarked
      obtain ⟨-, hkind, -⟩ | ⟨-, hkind, -⟩ | ⟨-, -, hkind, -⟩ | ⟨h1, h2, -⟩ := tokenAt_cases h
      · cases hkind
      · cases hkind
      · cases hkind
      · simp [Value.endsWord, hc, h1, h2, hopener] at hc'
    · rw [not_and_or] at hword
      simpa [Tokens.isSetOff] using hword

/-- A text that is read as one word ends before what does not belong to it. -/
theorem tokenAt_of_isWordText {c : Char} {cs r : Text} (hw : isWordText (c :: cs) = true)
    (hclosed : isClosed (c :: cs) = true) (hr : EndsWord r) :
    tokenAt c (cs ++ r) = (.word, cs.length) := by
  obtain ⟨-, h1, h2, h3, hlen⟩ := isWordText_iff.mp hw
  have hdepth : cs.foldl nest (nest 0 c) = 0 := isClosed_iff.mp hclosed
  rw [wordLength_eq] at hlen
  rw [tokenAt_word h1 h2 h3, wordLength_eq,
    outerLength_append_eq_iff.mpr ⟨hlen, hr.imp_right fun h => ⟨hdepth, h⟩⟩]

/-- Where a word is read, it ends. -/
theorem endsWord_of_tokenAt {c : Char} {cs r : Text}
    (h : tokenAt c (cs ++ r) = (.word, cs.length)) :
    c ≠ ',' ∧ c ≠ '/' ∧ wordLength (nest 0 c) cs = cs.length ∧
      (r = [] ∨ isClosed (c :: cs) = true ∧ r.head?.any Value.endsWord = true) := by
  obtain ⟨-, hkind, -⟩ | ⟨-, hkind, -⟩ | ⟨-, -, hkind, -⟩ | ⟨h1, h2, -, -, hlen⟩ := tokenAt_cases h
  · cases hkind
  · cases hkind
  · cases hkind
  · rw [wordLength_eq] at hlen ⊢
    obtain ⟨hcs, hr⟩ := outerLength_append_eq_iff.mp hlen.symm
    refine ⟨h1, h2, hcs, hr.imp_right ?_⟩
    rintro ⟨hdepth, hhead⟩
    exact ⟨isClosed_iff.mpr hdepth, hhead⟩

/-- Nothing behind a word belongs to it. -/
theorem endsWord_behind {c : Char} {cs r : Text} (h : tokenAt c (cs ++ r) = (.word, cs.length)) :
    EndsWord r :=
  (endsWord_of_tokenAt h).2.2.2.imp_right And.right

/-- What is read as a word is one. -/
theorem isWordText_of_tokenAt {c : Char} {cs r : Text} (hc : isBlank c = false) (hopener : c ≠ opener)
    (h : tokenAt c (cs ++ r) = (.word, cs.length)) : isWordText (c :: cs) = true := by
  obtain ⟨hcomma, hslash, hlen, -⟩ := endsWord_of_tokenAt h
  exact isWordText_iff.mpr ⟨hc, hcomma, hslash, hopener, hlen⟩

/-- Words behind blanks are read before whatever ends a word. -/
theorem Reads.spaced {ws : List Text} (hws : ∀ w ∈ ws, isWordText w = true ∧ isClosed w = true)
    (h : Reads tail us) (hends : EndsWord (Tokens.source us ++ tail)) :
    Reads tail (ws.map Token.spaced ++ us) ∧
      EndsWord (Tokens.source (ws.map Token.spaced ++ us) ++ tail) := by
  induction ws with
  | nil => exact ⟨h, hends⟩
  | cons w ws ih =>
    obtain ⟨hrest, hrestEnds⟩ := ih fun v hv => hws v (List.mem_cons_of_mem w hv)
    obtain ⟨hw, hclosed⟩ := hws w List.mem_cons_self
    cases w with
    | nil => cases hw
    | cons c cs =>
      refine ⟨?_, .inr rfl⟩
      exact .cons (fun d hd => by rw [List.mem_singleton.mp hd]; rfl) (isWordText_iff.mp hw).1
        (tokenAt_of_isWordText hw hclosed hrestEnds) hrest

/-- Tokens without broken markers have none behind the first one. -/
theorem isMarked_tail {t : Token} (h : isMarked (t :: ts) = true) : isMarked ts = true := by
  rw [isMarked, List.all_cons, Bool.and_eq_true] at h
  exact h.2

/-- Behind a word of tokens that read, nothing belongs to the word. -/
theorem endsWord_revised {Q : Text → List Text → Prop} {c : Char} {cs : Text}
    (h : tokenAt c (cs ++ (Tokens.source ts ++ tail)) = (.word, cs.length)) (hts : Reads tail ts)
    (hus : Reads tail us) (hmarked : isMarked ts = true) (hrev : Revised Q ts us) :
    EndsWord (Tokens.source us ++ tail) := by
  apply hus.endsWord
  rw [hrev.isSetOff]
  exact hts.isSetOff hmarked (endsWord_behind h)

/-- Only nothing has no text. -/
theorem Reads.eq_nil (h : Reads tail ts) (hnil : Tokens.source ts ++ tail = []) :
    ts = [] ∧ tail = [] := by
  cases h with
  | nil => exact ⟨rfl, hnil⟩
  | cons => simp at hnil

/-- **Tokens still read when their words are exchanged** for words with closed brackets. -/
theorem Reads.revised {Q : Text → List Text → Prop}
    (hQ : ∀ w ws, Q w ws → ∀ w' ∈ ws, isWordText w' = true ∧ isClosed w' = true)
    (h : Reads tail ts) (hmarked : isMarked ts = true) (hrev : Revised Q ts us) : Reads tail us := by
  induction hrev with
  | nil => exact h
  | @same t ts us hrest ih =>
    cases h with
    | @cons gap cs kind c ts hgap hc h rest =>
      have hus := ih rest (isMarked_tail hmarked)
      refine .cons hgap hc ?_ hus
      by_cases hkind : kind = .word
      · subst hkind
        obtain ⟨h1, h2, hlen, hend⟩ := endsWord_of_tokenAt h
        rw [wordLength_eq] at hlen
        rw [tokenAt_word h1 h2 (ne_opener_of_isMarked hmarked), wordLength_eq,
          outerLength_append_eq_iff.mpr ⟨hlen, ?_⟩]
        rcases hend with hnil | ⟨hclosed, -⟩
        · -- nothing follows a word whose brackets are not closed
          obtain ⟨rfl, rfl⟩ := rest.eq_nil hnil
          cases hrest
          exact .inl rfl
        · exact (endsWord_revised h rest hus (isMarked_tail hmarked) hrest).imp_right
            fun hhead => ⟨isClosed_iff.mp hclosed, hhead⟩
      · exact tokenAt_congr hkind h _
  | @word t ts us w ws hword hw hrest ih =>
    cases h with
    | @cons gap cs kind c ts hgap hc h rest =>
      have hus := ih rest (isMarked_tail hmarked)
      cases hword
      have hends := endsWord_revised h rest hus (isMarked_tail hmarked) hrest
      have hwords := hQ _ _ hw
      obtain ⟨hmore, hmoreEnds⟩ :=
        hus.spaced (fun v hv => hwords v (List.mem_cons_of_mem w hv)) hends
      obtain ⟨hwt, hclosed⟩ := hwords w List.mem_cons_self
      cases w with
      | nil => cases hwt
      | cons d ds =>
        exact .cons hgap (isWordText_iff.mp hwt).1 (tokenAt_of_isWordText hwt hclosed hmoreEnds) hmore

end Value

end BidiSheet
