import BidiSheet.Proofs.Action

/-!
# Values that are read again

The text that an action makes of a value is read as the revised value, with the same tokens between the
words and the same blanks (`Value.read_render_onValue`). Words that are restyled have no brackets, so they
stand anywhere. Words that are moved have to have closed brackets: behind a word that lacks a closing
bracket everything would belong to that word.

Whatever the brackets, the new text shelters exclamation marks as the old one did
(`Action.isSheltered_onValue`), has its brackets closed if they were (`Action.isClosed_onValue`), and has no
characters but those that were there, those of quiet words, and blanks (`Action.mem_onValue`).
-/

namespace BidiSheet

open Marker (opener closer isControl)
open Tokens (isMarked Revised words)

/-! ### Quiet words -/

namespace Quiet

variable {w : Text}

/-- A quiet word has no brackets. -/
theorem ne_bracket (h : Quiet w) : ∀ c ∈ w, c ≠ '(' ∧ c ≠ ')' :=
  fun c hc => ⟨ne_of_isQuiet (h c hc) (by decide), ne_of_isQuiet (h c hc) (by decide)⟩

/-- A quiet word leaves no bracket open. -/
theorem isClosed (h : Quiet w) : isClosed w = true := isClosed_of_ne h.ne_bracket

/-- A quiet word has nothing to shelter. -/
theorem isSheltered (h : Quiet w) : isSheltered w = true :=
  isSheltered_of_not_mem fun hm => absurd (h _ hm) (by decide)

/-- A quiet word has no blank. -/
theorem isBlank_of_mem (h : Quiet w) {c : Char} (hc : c ∈ w) : isBlank c = false := by
  have hne : ∀ d, isQuiet d = false → c ≠ d := fun d hd => ne_of_isQuiet (h c hc) hd
  simp only [isBlank, Bool.or_eq_false_iff, decide_eq_false_iff_not]
  exact ⟨⟨⟨⟨hne _ rfl, hne _ rfl⟩, hne _ rfl⟩, hne _ rfl⟩, hne _ rfl⟩

/-- A quiet word is read as one word. -/
theorem isWordText (h : Quiet w) (hne : w ≠ []) : isWordText w = true := by
  cases w with
  | nil => exact absurd rfl hne
  | cons c cs =>
    have hc := h c List.mem_cons_self
    refine Value.isWordText_iff.mpr ⟨h.isBlank_of_mem List.mem_cons_self,
      ne_of_isQuiet hc (by decide), ne_of_isQuiet hc (by decide), ne_of_isQuiet hc (by decide), ?_⟩
    have hends : ∀ d ∈ cs, Value.endsWord d = false := by
      intro d hd
      have hd' := h d (List.mem_cons_of_mem c hd)
      simp only [Value.endsWord, Bool.or_eq_false_iff, decide_eq_false_iff_not]
      exact ⟨⟨⟨h.isBlank_of_mem (List.mem_cons_of_mem c hd), ne_of_isQuiet hd' (by decide)⟩,
        ne_of_isQuiet hd' (by decide)⟩, ne_of_isQuiet hd' (by decide)⟩
    have hlen : outerLength Value.endsWord (nest 0 c) (cs ++ []) = cs.length + 0 :=
      outerLength_append h.tail.ne_bracket (fun d hd hstop => by simp [hends d hd] at hstop) []
    rwa [List.append_nil, ← Value.wordLength_eq] at hlen

end Quiet

/-! ### Brackets of tokens -/

namespace Value

variable {tail : Text} {ts : List Token}

/-- There are brackets only in words. -/
theorem ne_bracket_of_tokenAt {c : Char} {cs r : Text} {kind : TokenKind}
    (h : tokenAt c (cs ++ r) = (kind, cs.length)) (hkind : kind ≠ .word) :
    ∀ d ∈ c :: cs, d ≠ '(' ∧ d ≠ ')' := by
  obtain ⟨rfl, -, hlen⟩ | ⟨rfl, -, hlen⟩ | ⟨found, hfound, -, hlen⟩ | ⟨-, -, -, hword, -⟩ :=
    tokenAt_cases h
  · simp [List.length_eq_zero_iff.mp hlen]
  · simp [List.length_eq_zero_iff.mp hlen]
  · obtain ⟨rfl, ds, rfl, hds, -⟩ := exists_of_marker hfound hlen
    intro d hd
    rw [List.mem_cons, List.mem_append, List.mem_singleton] at hd
    rcases hd with rfl | hd | rfl
    · decide
    · refine ⟨?_, ?_⟩ <;> rintro rfl <;> exact absurd (hds _ hd) (by decide)
    · decide
  · exact absurd hword hkind

/-- A token has closed brackets, or nothing stands behind it. -/
theorem isClosed_or_last {c : Char} {cs r : Text} {kind : TokenKind}
    (h : tokenAt c (cs ++ r) = (kind, cs.length)) : isClosed (c :: cs) = true ∨ r = [] := by
  by_cases hkind : kind = .word
  · subst hkind
    exact (endsWord_of_tokenAt h).2.2.2.symm.imp_left And.left
  · exact .inl (isClosed_of_ne (ne_bracket_of_tokenAt h hkind))

/-- Blanks are no brackets. -/
theorem ne_bracket_of_blank {t : Text} (h : ∀ c ∈ t, isBlank c = true) : ∀ c ∈ t, c ≠ '(' ∧ c ≠ ')' :=
  fun c hc => by constructor <;> rintro rfl <;> exact absurd (h _ hc) (by decide)

/-- Blanks leave no bracket open. -/
theorem isClosed_of_blank {t : Text} (h : ∀ c ∈ t, isBlank c = true) : isClosed t = true :=
  isClosed_of_ne (ne_bracket_of_blank h)

/-- Blanks have nothing to shelter. -/
theorem isSheltered_of_blank {t : Text} (h : ∀ c ∈ t, isBlank c = true) : isSheltered t = true :=
  isSheltered_of_not_mem fun hm => absurd (h _ hm) (by decide)

/-- If the brackets of a value are closed, so are those of its tokens. -/
theorem Reads.isClosed_of_mem (h : Reads tail ts) (hclosed : isClosed (Tokens.source ts ++ tail) = true)
    {t : Token} (ht : t ∈ ts) : isClosed t.text = true := by
  induction h with
  | nil => cases ht
  | @cons gap cs kind c ts hgap hc h rest ih =>
    rw [Tokens.source_cons, List.append_assoc, List.append_assoc,
      isClosed_append (isClosed_of_blank hgap)] at hclosed
    have hfirst : isClosed (c :: cs) = true := by
      rcases isClosed_or_last h with hc | hnil
      · exact hc
      · rwa [hnil, List.append_nil] at hclosed
    rw [isClosed_append hfirst] at hclosed
    rcases List.mem_cons.mp ht with rfl | ht
    · exact hfirst
    · exact ih hclosed ht

/-- If the exclamation marks of a value are sheltered, they are so within its tokens. -/
theorem Reads.isSheltered_of_mem (h : Reads tail ts)
    (hsheltered : isSheltered (Tokens.source ts ++ tail) = true) {t : Token} (ht : t ∈ ts) :
    isSheltered t.text = true := by
  induction h with
  | nil => cases ht
  | @cons gap cs kind c ts hgap hc h rest ih =>
    rw [Tokens.source_cons, List.append_assoc, List.append_assoc] at hsheltered
    have htoken := isSheltered_right (isClosed_of_blank hgap) hsheltered
    rcases List.mem_cons.mp ht with rfl | ht
    · exact isSheltered_left htoken
    · rcases isClosed_or_last h with hc | hnil
      · exact ih (isSheltered_right hc htoken) ht
      · obtain ⟨rfl, -⟩ := rest.eq_nil hnil
        cases ht

/-- The words of tokens that read are read as words. -/
theorem Reads.isWordText_of_mem (h : Reads tail ts) (hmarked : isMarked ts = true) {w : Text}
    (hw : w ∈ words ts) : isWordText w = true := by
  induction h with
  | nil => cases hw
  | @cons gap cs kind c ts hgap hc h rest ih =>
    have hrest := ih (isMarked_tail hmarked)
    by_cases hkind : kind = .word
    · subst hkind
      rw [Tokens.words_word rfl, List.mem_cons] at hw
      rcases hw with rfl | hw
      · exact isWordText_of_tokenAt hc (ne_opener_of_isMarked hmarked) h
      · exact hrest hw
    · rw [Tokens.words_other hkind] at hw
      exact hrest hw

/-- The gaps between tokens are blank. -/
theorem Reads.isBlank_of_mem_gap (h : Reads tail ts) {t : Token} (ht : t ∈ ts) :
    ∀ c ∈ t.gap, isBlank c = true := by
  induction h with
  | nil => cases ht
  | @cons gap cs kind c ts hgap hc h rest ih =>
    rcases List.mem_cons.mp ht with rfl | ht
    · exact hgap
    · exact ih ht

/-- Behind the last token there are only blanks. -/
theorem Reads.isBlank_of_mem_tail (h : Reads tail ts) : ∀ c ∈ tail, isBlank c = true := by
  induction h with
  | nil h => exact h
  | cons _ _ _ _ ih => exact ih

end Value

/-! ### The tokens of a revised value -/

/-- A token of a revision was there before, or is a word that was put in behind a blank or a gap that was there. -/
theorem Tokens.Revised.mem {Q : Text → List Text → Prop} {S : Text → Prop} {ts us : List Token}
    (hQ : ∀ w ws, Q w ws → ∀ w' ∈ ws, S w') (h : Revised Q ts us) {u : Token} (hu : u ∈ us) :
    u ∈ ts ∨ u.kind = .word ∧ S u.text ∧ (u.gap = [' '] ∨ ∃ t ∈ ts, u.gap = t.gap) := by
  induction h with
  | nil => exact .inl hu
  | @same t ts us rest ih =>
    rcases List.mem_cons.mp hu with rfl | hu
    · exact .inl List.mem_cons_self
    · rcases ih hu with hmem | ⟨hkind, htext, hgap⟩
      · exact .inl (List.mem_cons_of_mem t hmem)
      · refine .inr ⟨hkind, htext, hgap.imp_right ?_⟩
        rintro ⟨t', ht', hgap⟩
        exact ⟨t', List.mem_cons_of_mem t ht', hgap⟩
  | @word t ts us w ws hword hw rest ih =>
    rcases List.mem_cons.mp hu with rfl | hu
    · exact .inr ⟨hword, hQ _ _ hw _ List.mem_cons_self, .inr ⟨t, List.mem_cons_self, rfl⟩⟩
    rcases List.mem_append.mp hu with hu | hu
    · obtain ⟨w', hw', rfl⟩ := List.mem_map.mp hu
      exact .inr ⟨rfl, hQ _ _ hw _ (List.mem_cons_of_mem w hw'), .inl rfl⟩
    · rcases ih hu with hmem | ⟨hkind, htext, hgap⟩
      · exact .inl (List.mem_cons_of_mem t hmem)
      · refine .inr ⟨hkind, htext, hgap.imp_right ?_⟩
        rintro ⟨t', ht', hgap⟩
        exact ⟨t', List.mem_cons_of_mem t ht', hgap⟩

theorem Words.EndsIn.ne_nil {w unit : Text} (h : EndsIn w unit) : w ≠ [] := by
  obtain ⟨u, c, rfl, -⟩ := h
  simp

namespace Action

variable {v : Value} {x : Text}

/-- A token of a revised value was there before, or is a word that was there before or is quiet. -/
theorem mem_revise (action : Action) {u : Token} (hu : u ∈ (action.revise v).tokens) :
    u ∈ v.tokens ∨ u.kind = .word ∧ (u.text ∈ words v.tokens ∨ Quiet u.text ∧ u.text ≠ []) ∧
      (u.gap = [' '] ∨ ∃ t ∈ v.tokens, u.gap = t.gap) := by
  cases h : action.isMove with
  | false =>
    refine (revised_of_restyles h v).mem (S := fun w => w ∈ words v.tokens ∨ Quiet w ∧ w ≠ []) ?_ hu
    rintro w ws ⟨w', rfl, -, hquiet, unit, -, -, hends⟩ w'' hw''
    rw [List.mem_singleton.mp hw'']
    exact .inr ⟨hquiet, hends.ne_nil⟩
  | true =>
    refine (revised_of_moves h v).mem (S := fun w => w ∈ words v.tokens ∨ Quiet w ∧ w ≠ []) ?_ hu
    intro w ws hw w' hw'
    exact .inl (hw.2 w' hw')

/-- A word is the text of a word token. -/
theorem exists_of_mem_words {ts : List Token} {w : Text} (h : w ∈ words ts) :
    ∃ t ∈ ts, t.kind = .word ∧ t.text = w := by
  obtain ⟨t, ht, rfl⟩ := List.mem_map.mp h
  obtain ⟨ht, hword⟩ := List.mem_filter.mp ht
  exact ⟨t, ht, by simpa [Token.isWord] using hword, rfl⟩

/-- What holds of all texts of a value's tokens and of quiet words, holds of those of the revised
value. -/
theorem forall_text_revise (action : Action) {P : Text → Prop} (hv : ∀ t ∈ v.tokens, P t.text)
    (hquiet : ∀ w, Quiet w → P w) : ∀ t ∈ (action.revise v).tokens, P t.text := by
  intro t ht
  rcases action.mem_revise ht with hmem | ⟨-, hword | ⟨hw, -⟩, -⟩
  · exact hv t hmem
  · obtain ⟨u, hu, -, htext⟩ := exists_of_mem_words hword
    exact htext ▸ hv u hu
  · exact hquiet _ hw

/-- Likewise for the blanks before the tokens. -/
theorem forall_gap_revise (action : Action) {P : Text → Prop} (hv : ∀ t ∈ v.tokens, P t.gap)
    (hblank : P [' ']) : ∀ t ∈ (action.revise v).tokens, P t.gap := by
  intro t ht
  rcases action.mem_revise ht with hmem | ⟨-, -, hgap | ⟨u, hu, hgap⟩⟩
  · exact hv t hmem
  · rwa [hgap]
  · rw [hgap]
    exact hv u hu

/-- An action does not begin a word with the opening of a marker. -/
theorem isMarked_revise (action : Action) (h : isMarked v.tokens = true) :
    isMarked (action.revise v).tokens = true := by
  have hall := List.all_eq_true.mp h
  refine List.all_eq_true.mpr fun t ht => ?_
  rcases action.mem_revise ht with hmem | ⟨-, hword | ⟨hquiet, -⟩, -⟩
  · exact hall t hmem
  · obtain ⟨u, hu, hkind, htext⟩ := exists_of_mem_words hword
    have hhead := hall u hu
    rw [hkind, htext] at hhead
    simp only [ne_eq, not_true_eq_false, decide_false, Bool.false_or] at hhead
    simp [hhead]
  · have hhead : t.text.head? ≠ some opener :=
      fun hhead => hquiet.opener_not_mem (List.mem_of_head? hhead)
    simp [hhead]

/-- An action writes the revised tokens of a text. -/
theorem render_onValue_read (action : Action) (x : Text) :
    (action.onValue (Value.read x)).render
      = Tokens.source (action.revise (Value.read x)).tokens ++ (Value.read x).tail :=
  action.render_onValue fun _ => Value.queued_of_mem_read

/-- A property of texts that is kept by joining is kept by an action. -/
theorem onValue_induction (action : Action) {P : Text → Prop}
    (happend : ∀ s t, P s → P t → P (s ++ t)) (hblank : ∀ t : Text, (∀ c ∈ t, isBlank c = true) → P t)
    (hquiet : ∀ w, Quiet w → P w) (htext : ∀ t ∈ (Value.read x).tokens, P t.text) :
    P (action.onValue (Value.read x)).render := by
  have hreads := Value.reads_read x
  rw [render_onValue_read]
  refine happend _ _ ?_ (hblank _ hreads.isBlank_of_mem_tail)
  have htexts := action.forall_text_revise htext hquiet
  have hgaps := action.forall_gap_revise (P := P)
    (fun t ht => hblank _ (hreads.isBlank_of_mem_gap ht)) (hblank _ (by simp [isBlank]))
  generalize (action.revise (Value.read x)).tokens = us at htexts hgaps
  induction us with
  | nil => exact hblank [] (by simp)
  | cons u us ih =>
    rw [Tokens.source_cons]
    refine happend _ _ (happend _ _ (hgaps u List.mem_cons_self) (htexts u List.mem_cons_self)) ?_
    exact ih (fun t ht => htexts t (List.mem_cons_of_mem u ht))
      fun t ht => hgaps t (List.mem_cons_of_mem u ht)

/-- **No exclamation mark comes out of its brackets.** -/
theorem isSheltered_onValue (action : Action) (h : isSheltered x = true) :
    isSheltered (action.onValue (Value.read x)).render = true := by
  refine action.onValue_induction (fun s t => isSheltered_append)
    (fun t => Value.isSheltered_of_blank) (fun w => Quiet.isSheltered) ?_
  intro t ht
  apply (Value.reads_read x).isSheltered_of_mem _ ht
  rwa [Value.source_tokens_read]

/-- A value that leaves no bracket open leaves none open behind an action. -/
theorem isClosed_onValue (action : Action) (h : isClosed x = true) :
    isClosed (action.onValue (Value.read x)).render = true := by
  refine action.onValue_induction (fun s t hs ht => by rwa [isClosed_append hs])
    (fun t => Value.isClosed_of_blank) (fun w => Quiet.isClosed) ?_
  intro t ht
  apply (Value.reads_read x).isClosed_of_mem _ ht
  rwa [Value.source_tokens_read]

/-- **An action brings no characters into a value** but those of quiet words, and blanks. -/
theorem mem_onValue (action : Action) {c : Char}
    (hc : c ∈ (action.onValue (Value.read x)).render) :
    c ∈ x ∨ isQuiet c = true ∨ isBlank c = true := by
  refine action.onValue_induction (x := x)
    (P := fun t => ∀ c ∈ t, c ∈ x ∨ isQuiet c = true ∨ isBlank c = true) ?_ ?_ ?_ ?_ c hc
  · intro s t hs ht c hc
    exact (List.mem_append.mp hc).elim (hs c) (ht c)
  · exact fun t ht c hc => .inr (.inr (ht c hc))
  · exact fun w hw c hc => .inr (.inl (hw c hc))
  · intro t ht c hc
    left
    rw [← Value.source_tokens_read x]
    exact List.mem_append_left _ (List.mem_flatMap.mpr ⟨t, ht, List.mem_append_right _ hc⟩)

end Action

/-! ### Reading again -/

/-- **A value that an action has written is read as the revised value.** -/
theorem Value.read_render_onValue {x : Text} (action : Action)
    (hmarked : isMarked (read x).tokens = true) (hclosed : action.isMove = true → isClosed x = true) :
    read (action.onValue (read x)).render = action.revise (read x) := by
  have hreads := reads_read x
  have hrevised : Reads (read x).tail (action.revise (read x)).tokens := by
    cases hmove : action.isMove with
    | false =>
      refine hreads.revised ?_ hmarked (Action.revised_of_restyles hmove (read x))
      rintro w ws ⟨w', rfl, -, hquiet, unit, -, -, hends⟩ w'' hw''
      rw [List.mem_singleton.mp hw'']
      exact ⟨hquiet.isWordText hends.ne_nil, hquiet.isClosed⟩
    | true =>
      refine hreads.revised ?_ hmarked (Action.revised_of_moves hmove (read x))
      intro w ws hw w' hw'
      have hmem := hw.2 w' hw'
      refine ⟨hreads.isWordText_of_mem hmarked hmem, ?_⟩
      obtain ⟨t, ht, -, rfl⟩ := Action.exists_of_mem_words hmem
      apply hreads.isClosed_of_mem _ ht
      rw [source_tokens_read]
      exact hclosed hmove
  rw [Action.render_onValue_read, read_of_reads hrevised, ← action.tail_revise (read x)]

end BidiSheet
