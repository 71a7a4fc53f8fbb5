import BidiSheet.Proofs.Fourfold

/-!
# Sides whose brackets are not closed

Of four sides the last may lack a closing bracket. Exchanged with the second, it takes whatever comes behind
it for a part of itself, up to where its brackets happen to be closed (`Value.Reads.exists_open`). At least the
third side is lost in this way, so what is left are not four sides, and it is never exchanged again
(`render_onValue_box_of_open`). A text that is reflected three times is then the same as after the first
time, as it is if all brackets are closed, though for another reason.

* `reflectText_involutive_on_image`: reflecting a text is an involution on reflected texts, whatever the
  sides of its boxes look like. Only corners need closed brackets.
-/

namespace BidiSheet

open Marker (opener AllWhole)
open Tokens (words isMarked lay Revised)
open Words (alone)

/-! ### Open words -/

section

variable {w m : Text}

/-- An open word goes on over whatever stands in brackets. -/
theorem isWordText_append (h : isWordText w = true)
    (hm : outerLength Value.endsWord (w.foldl nest 0) m = m.length) : isWordText (w ++ m) = true := by
  cases w with
  | nil => cases h
  | cons c cs =>
    obtain ⟨h1, h2, h3, h4, hlen⟩ := Value.isWordText_iff.mp h
    refine Value.isWordText_iff.mpr ⟨h1, h2, h3, h4, ?_⟩
    rw [Value.wordLength_eq] at hlen ⊢
    exact outerLength_append_eq_length_iff.mpr ⟨hlen, hm⟩

/-- Inside brackets nothing ends a word, and the brackets stay open over text without any. -/
theorem outerLength_of_pos {depth : Nat} (hdepth : 0 < depth) (hm : ∀ c ∈ m, c ≠ '(' ∧ c ≠ ')') :
    outerLength Value.endsWord depth m = m.length := by
  have happend : outerLength Value.endsWord depth (m ++ []) = m.length :=
    outerLength_append hm (fun c _ hstop => absurd hstop.1 (Nat.ne_of_gt hdepth)) []
  rwa [List.append_nil] at happend

end

namespace Value

variable {tail tail' : Text} {ts vs vs' : List Token}

/-- Tokens are read before others as they were, if these are set off from them in the same way. -/
theorem Reads.front (h : Reads tail (ts ++ vs)) (hmarked : isMarked (ts ++ vs) = true) (hvs : vs ≠ [])
    (h' : Reads tail' vs') (hoff : Tokens.isSetOff vs' = Tokens.isSetOff vs) : Reads tail' (ts ++ vs') := by
  induction ts with
  | nil => exact h'
  | cons t ts ih =>
    rw [List.cons_append] at h hmarked
    cases h with
    | @cons gap cs kind c _ hgap hc h rest =>
      have hnext := ih rest (isMarked_tail hmarked)
      refine .cons hgap hc ?_ hnext
      by_cases hkind : kind = .word
      · subst hkind
        have hclosed : isClosed (c :: cs) = true := by
          rcases isClosed_or_last h with hclosed | hnil
          · exact hclosed
          · exact absurd (List.append_eq_nil_iff.mp (rest.eq_nil hnil).1).2 hvs
        have hends : Tokens.isSetOff (ts ++ vs') = true := by
          have hset := rest.isSetOff (isMarked_tail hmarked) (endsWord_behind h)
          cases ts with
          | nil => rwa [List.nil_append, hoff]
          | cons u ts => exact hset
        exact tokenAt_of_isWordText (isWordText_of_tokenAt hc (ne_opener_of_isMarked hmarked) h) hclosed
          (hnext.endsWord hends)
      · exact tokenAt_congr hkind h _

/-- A word is read in front of tokens that are set off from it. -/
theorem Reads.word {gap w : Text} (hgap : ∀ c ∈ gap, isBlank c = true) (hw : isWordText w = true)
    (hend : Tokens.source ts ++ tail = [] ∨ isClosed w = true ∧ EndsWord (Tokens.source ts ++ tail))
    (rest : Reads tail ts) : Reads tail (⟨gap, .word, w, none⟩ :: ts) := by
  cases w with
  | nil => cases hw
  | cons c cs =>
    obtain ⟨hc, h1, h2, h3, hlen⟩ := isWordText_iff.mp hw
    refine .cons hgap hc ?_ rest
    rcases hend with hnil | ⟨hclosed, hends⟩
    · rw [hnil, List.append_nil, tokenAt_word h1 h2 h3, hlen]
    · exact tokenAt_of_isWordText hw hclosed hends

/-- The next token belongs to an open word, with the blanks before it. -/
theorem isWordText_append_token {g w cs r : Text} {kind : TokenKind} {c : Char} (hw : isWordText w = true)
    (hopen : isClosed w = false) (hg : ∀ c ∈ g, isBlank c = true) (hc : isBlank c = false)
    (hopener : kind = .word → c ≠ opener) (h : tokenAt c (cs ++ r) = (kind, cs.length)) :
    isWordText (w ++ (g ++ c :: cs)) = true := by
  have hpos : 0 < w.foldl nest 0 := Nat.pos_of_ne_zero (of_decide_eq_false hopen)
  have hgap := ne_bracket_of_blank hg
  apply isWordText_append hw
  rw [outerLength_append_eq_length_iff, foldl_nest_of_ne hgap]
  refine ⟨outerLength_of_pos hpos hgap, ?_⟩
  by_cases hkind : kind = .word
  · subst hkind
    have htoken : isWordText (c :: cs) = true := isWordText_of_tokenAt hc (hopener rfl) h
    exact outerLength_of_le (Nat.zero_le _) (outerLength_of_isWordText htoken)
  · exact outerLength_of_pos hpos (ne_bracket_of_tokenAt h hkind)

/-- **An open word takes in what stands behind it**, up to where its brackets are closed. The tokens behind it
lose at least one word. -/
theorem Reads.exists_open {gap w : Text} (hgap : ∀ c ∈ gap, isBlank c = true) (hw : isWordText w = true)
    (hopen : isClosed w = false) (h : Reads tail ts) (hmarked : isMarked ts = true) :
    ∃ v us tail', Reads tail' (⟨gap, .word, v, none⟩ :: us) ∧
      Tokens.source (⟨gap, .word, v, none⟩ :: us) ++ tail' = gap ++ (w ++ (Tokens.source ts ++ tail)) ∧
      (words us).length ≤ (words ts).length - 1 := by
  -- the word grows token by token, and stays open until it takes in a closing bracket
  induction h generalizing w with
  | nil htail =>
    have hpos : 0 < w.foldl nest 0 := Nat.pos_of_ne_zero (of_decide_eq_false hopen)
    have hword := isWordText_append hw (outerLength_of_pos hpos (ne_bracket_of_blank htail))
    exact ⟨w ++ tail, [], [], .word hgap hword (.inl rfl) (.nil (by simp)), by simp, Nat.le_refl 0⟩
  | @cons g cs kind c ts hg hc h rest ih =>
    have hopener : kind = .word → c ≠ opener := by
      rintro rfl
      exact ne_opener_of_isMarked hmarked
    have hword := isWordText_append_token hw hopen hg hc hopener h
    cases hclosed : isClosed (w ++ (g ++ c :: cs)) with
    | true =>
      have hkind : kind = .word := by
        by_contra hkind
        rw [isClosed_iff, List.foldl_append, List.foldl_append, foldl_nest_of_ne (ne_bracket_of_blank hg),
          foldl_nest_of_ne (ne_bracket_of_tokenAt h hkind), ← isClosed_iff, hopen] at hclosed
        cases hclosed
      subst hkind
      refine ⟨w ++ (g ++ c :: cs), ts, tail, .word hgap hword (.inr ⟨hclosed, endsWord_behind h⟩) rest,
        by simp, ?_⟩
      rw [Tokens.words_word rfl, List.length_cons, Nat.add_sub_cancel]
    | false =>
      obtain ⟨v, us, tail', hreads, hsource, hlen⟩ := ih hword hclosed (isMarked_tail hmarked)
      refine ⟨v, us, tail', hreads, by simpa using hsource, hlen.trans ?_⟩
      apply Nat.sub_le_sub_right
      by_cases hkind : kind = .word
      · rw [Tokens.words_word hkind, List.length_cons]
        exact Nat.le_succ _
      · rw [Tokens.words_other hkind]

/-- If the brackets of all words are closed, so are those of the value. -/
theorem Reads.isClosed_of_words (h : Reads tail ts) (hall : ∀ w ∈ words ts, isClosed w = true) :
    isClosed (Tokens.source ts ++ tail) = true := by
  induction h with
  | nil htail => exact isClosed_of_blank htail
  | @cons g cs kind c ts hg hc h rest ih =>
    have htoken : isClosed (c :: cs) = true := by
      by_cases hkind : kind = .word
      · exact hall _ (by rw [Tokens.words_word hkind]; exact List.mem_cons_self)
      · exact isClosed_of_ne (ne_bracket_of_tokenAt h hkind)
    have hrest := ih fun w hw => hall w (by
      by_cases hkind : kind = .word
      · rw [Tokens.words_word hkind]
        exact List.mem_cons_of_mem _ hw
      · rwa [Tokens.words_other hkind])
    rw [Tokens.source_cons, List.append_assoc, List.append_assoc, isClosed_append (isClosed_of_blank hg),
      isClosed_append htoken, hrest]

/-- Only the last word of a value can be open. -/
theorem Reads.isClosed_of_mem_words (h : Reads tail ts) (ws : List Text) {last : Text}
    (hwords : words ts = ws ++ [last]) : ∀ w ∈ ws, isClosed w = true := by
  induction h generalizing ws with
  | nil => simp [words] at hwords
  | @cons g cs kind c ts hg hc h rest ih =>
    by_cases hkind : kind = .word
    · rw [Tokens.words_word hkind] at hwords
      cases ws with
      | nil => simp
      | cons w ws =>
        obtain ⟨rfl, hrest⟩ := List.cons.inj hwords
        have hclosed : isClosed (c :: cs) = true := by
          rcases isClosed_or_last h with hclosed | hnil
          · exact hclosed
          · rw [(rest.eq_nil hnil).1] at hrest
            simp [words] at hrest
        intro v hv
        rcases List.mem_cons.mp hv with rfl | hv
        · exact hclosed
        · exact ih ws hrest v hv
    · rw [Tokens.words_other hkind] at hwords
      exact ih ws hwords

end Value

/-! ### Exchanging an open side -/

namespace Tokens

/-- A word among others is the text of a token, which stands between the tokens of the others. -/
theorem exists_of_words {ts : List Token} (ws : List Text) {vs : List Text} {w : Text}
    (h : words ts = ws ++ w :: vs) :
    ∃ us t rest, ts = us ++ t :: rest ∧ t.kind = .word ∧ t.text = w ∧ words us = ws ∧ words rest = vs := by
  induction ts generalizing ws with
  | nil => simp [words] at h
  | cons t ts ih =>
    by_cases ht : t.kind = .word
    · rw [words_word ht] at h
      cases ws with
      | nil =>
        obtain ⟨htext, hrest⟩ := List.cons.inj h
        exact ⟨[], t, ts, rfl, ht, htext, rfl, hrest⟩
      | cons v ws =>
        obtain ⟨rfl, hrest⟩ := List.cons.inj h
        obtain ⟨us, u, rest, rfl, hu, htext, hws, hvs⟩ := ih ws hrest
        exact ⟨t :: us, u, rest, rfl, hu, htext, by rw [words_word ht, hws], hvs⟩
    · rw [words_other ht] at h
      obtain ⟨us, u, rest, rfl, hu, htext, hws, hvs⟩ := ih ws h
      exact ⟨t :: us, u, rest, rfl, hu, htext, by rw [words_other ht, hws], hvs⟩

/-- A revision by texts of words begins no word with the opening of a marker. -/
theorem isMarked_of_revised {Q : Text → List Text → Prop} {ts us : List Token}
    (hQ : ∀ w ws, Q w ws → ∀ w' ∈ ws, isWordText w' = true) (h : Revised Q ts us)
    (hmarked : isMarked ts = true) : isMarked us = true := by
  refine List.all_eq_true.mpr fun u hu => ?_
  rcases h.mem hQ hu with hmem | ⟨-, hword, -⟩
  · exact List.all_eq_true.mp hmarked u hmem
  · have hhead : u.text.head? ≠ some opener := by
      cases htext : u.text with
      | nil => simp
      | cons c cs =>
        rw [htext] at hword
        simpa using (Value.isWordText_iff.mp hword).2.2.2.1
    simp [hhead]

/-- **An open side in the second place leaves at most three words.** -/
theorem length_words_of_open {tail a b c d : Text} {ts : List Token} (h : Value.Reads tail ts)
    (hmarked : isMarked ts = true) (hwords : words ts = [a, b, c, d]) (hopen : isClosed d = false) :
    (words (Value.read (source (lay ts (alone [a, d, c, b])) ++ tail)).tokens).length ≤ 3 := by
  have hclosed := h.isClosed_of_mem_words [a, b, c] hwords
  have htext : ∀ w ∈ [a, b, c, d], isWordText w = true := by
    intro w hw
    rw [← hwords] at hw
    exact h.isWordText_of_mem hmarked hw
  obtain ⟨us, t, rest, rfl, ht, -, hus, hrest⟩ := exists_of_words [a] hwords
  have hlay : lay (us ++ t :: rest) (alone [a, d, c, b])
      = us ++ { t with text := d } :: lay rest (alone [c, b]) := by
    have hfront := lay_words_append us (t :: rest) (alone [d, c, b])
    rw [hus, lay_alone_cons ht] at hfront
    exact hfront
  have hmarkedRest : isMarked rest = true := by
    rw [isMarked, List.all_append, List.all_cons, Bool.and_eq_true, Bool.and_eq_true] at hmarked
    exact hmarked.2.2
  -- the third and the fourth place hold closed words
  have hrevised : Revised (fun _ ws => ∀ w ∈ ws, isWordText w = true ∧ isClosed w = true) rest
      (lay rest (alone [c, b])) := by
    apply revised_lay
    rw [hrest]
    refine .cons (.inr ⟨by simp, ?_⟩) (.cons (.inr ⟨by simp, ?_⟩) .nil)
    · simp [htext c (by simp), hclosed c (by simp)]
    · simp [htext b (by simp), hclosed b (by simp)]
  have hlaid : words (lay rest (alone [c, b])) = [c, b] := words_lay (by rw [hrest]; rfl)
  have hfirst := reads_of_append h
  cases hfirst with
  | @cons gap cs kind e _ hgap _ _ hreads =>
    cases ht
    obtain ⟨v, us', tail', hreads', hsource, hlen⟩ := (hreads.revised (fun _ _ hQ => hQ) hmarkedRest
      hrevised).exists_open hgap (htext d (by simp)) hopen
        (isMarked_of_revised (fun _ _ hQ w hw => (hQ w hw).1) hrevised hmarkedRest)
    have hfront := h.front hmarked (List.cons_ne_nil _ _) hreads' rfl
    have hsame : source (lay (us ++ ⟨gap, .word, e :: cs, none⟩ :: rest) (alone [a, d, c, b])) ++ tail
        = source (us ++ ⟨gap, .word, v, none⟩ :: us') ++ tail' := by
      rw [hlay, source_append, source_append, List.append_assoc, List.append_assoc, hsource, source_cons]
      simp only [List.append_assoc]
    rw [hlaid] at hlen
    rw [hsame, Value.read_of_reads hfront, words_append, words_word rfl, hus]
    simp only [List.length_append, List.length_cons, List.length_nil] at hlen ⊢
    omega

end Tokens

/-- **Sides that are not closed are exchanged once and never again.** -/
theorem render_onValue_box_of_open {x : Text} (hmarked : isMarked (Value.read x).tokens = true)
    (hopen : isClosed x = false) :
    (Action.box.onValue (Value.read (Action.box.onValue (Value.read x)).render)).render
      = (Action.box.onValue (Value.read x)).render := by
  have hreads := Value.reads_read x
  by_cases hfour : (Value.read x).isBox = true ∧ (words (Value.read x).tokens).length = 4
  · obtain ⟨hbox, hlen⟩ := hfour
    obtain ⟨a, b, c, d, hwords⟩ : ∃ a b c d, words (Value.read x).tokens = [a, b, c, d] := by
      match words (Value.read x).tokens, hlen with
      | [a, b, c, d], _ => exact ⟨a, b, c, d, rfl⟩
    -- the other words are closed, so it is the last one that is not
    have hlast : isClosed d = false := by
      by_contra hclosed
      rw [Bool.not_eq_false] at hclosed
      have hall := hreads.isClosed_of_words (by
        rw [hwords]
        intro w hw
        rcases List.mem_append.mp (show w ∈ [a, b, c] ++ [d] from hw) with hw | hw
        · exact hreads.isClosed_of_mem_words [a, b, c] hwords w hw
        · rwa [List.mem_singleton.mp hw])
      rw [Value.source_tokens_read, hopen] at hall
      cases hall
    have hfewer := Tokens.length_words_of_open hreads hmarked hwords hlast
    have hrender : (Action.box.onValue (Value.read x)).render
        = Tokens.source (lay (Value.read x).tokens (alone [a, d, c, b])) ++ (Value.read x).tail := by
      rw [Action.render_onValue_read, revise_box hbox, hwords]
      rfl
    rw [← hrender] at hfewer
    rw [onValue_box_of_not (.inr (Nat.ne_of_lt (Nat.lt_succ_of_le hfewer))), Value.render_read]
  · have hstays : Action.box.onValue (Value.read x) = Value.read x := by
      apply onValue_box_of_not
      rwa [not_and_or, Bool.not_eq_true] at hfour
    rw [hstays, Value.render_read, hstays, Value.render_read]

/-! ### Texts -/

namespace Declaration

/-- The action of the rule that covers a declaration. -/
def action? (table : Table) (d : Declaration) : Option Action := (table.ruleFor (lower d.base)).map Rule.action

variable {d : Declaration}

/-- A declaration with an action that does not rename is reflected by it. -/
theorem reflect_of_action? {table : Table} {action : Action} (h : d.action? table = some action)
    (hne : ∀ v, action ≠ .rename v) :
    d.reflect table = { d with value := (action.onValue (Value.read d.value)).render } := by
  obtain ⟨rule, hrule, rfl⟩ := Option.map_eq_some_iff.mp h
  rw [reflect, hrule]
  exact under_of_ne d hne

/-- A box that is not closed is the same after its first reflection. -/
theorem reflect_reflect_of_open {table : Table} (hmarked : isMarked (Value.read d.value).tokens = true)
    (hbox : d.action? table = some .box) (hopen : isClosed d.value = false) :
    (d.reflect table).reflect table = d.reflect table := by
  have hne : ∀ v, Action.box ≠ .rename v := by simp
  rw [reflect_of_action? hbox hne, reflect_of_action? (by exact hbox) hne]
  simp only [render_onValue_box_of_open hmarked hopen]

/-- Reflecting a declaration three times is reflecting it once, if its corners are closed. -/
theorem reflect_thrice (hmarked : isMarked (Value.read d.value).tokens = true)
    (hcorners : d.action? .standard = some .corners → isClosed d.value = true) :
    ((d.reflect .standard).reflect .standard).reflect .standard = d.reflect .standard := by
  cases hclosed : isClosed d.value with
  | true => exact reflect_reflect_reflect ⟨hmarked, fun _ => hclosed⟩
  | false =>
    by_cases hbox : d.action? .standard = some .box
    · have hsame := reflect_reflect_of_open hmarked hbox hclosed
      rw [hsame, hsame]
    · refine reflect_reflect_reflect ⟨hmarked, fun hmoved => ?_⟩
      -- words are moved in boxes and in corners only
      have haction : (d.action? .standard).any Action.isMove = true := by
        rw [action?, Option.any_map]
        exact hmoved
      rcases hd : d.action? .standard with _ | action
      · rw [hd] at haction
        cases haction
      · rw [hd] at haction
        cases action with
        | box => exact absurd hd hbox
        | corners => exact hcorners hd
        | rename | swap | position | offset => cases haction

end Declaration

/-- **Reflecting is an involution on reflected texts**: a text that is reflected three times is the same as
after the first time. Its markers have to be whole, and the brackets of its corner radii closed. -/
theorem reflectText_involutive_on_image {t : Text} (hwhole : AllWhole t)
    (hcorners : ∀ d ∈ declarations t, d.action? .standard = some .corners → isClosed d.value = true) :
    (reflectText .standard (reflectText .standard (reflectText .standard t).text).text).text
      = (reflectText .standard t).text :=
  reflectText_thrice fun d hd => Declaration.reflect_thrice
    (Value.isMarked_of_allWhole (allWhole_of_mem_declarations hwhole hd)) (hcorners d hd)

/-- Sides that are not closed, a brace too many, an odd mixture of capitals, three radii around a marker with a
leading zero, and a plus sign in a block that is never closed. The first reflection differs from the text, and
the second from the first. -/
theorem reflectText_involutive_on_open_block :
    let t := "margin:1 2) 3 (4 !x;\x7dlEFT:0;a\x7bborder-radius:1 2\x0201\x033;background:+010% LEFT".toList
    AllWhole t ∧
    (∀ d ∈ declarations t, d.action? .standard = some .corners → isClosed d.value = true) ∧
    (∃ d ∈ declarations t, d.action? .standard = some .corners) ∧
    (reflectText .standard t).text ≠ t ∧
    (reflectText .standard (reflectText .standard t).text).text ≠ (reflectText .standard t).text ∧
    (reflectText .standard (reflectText .standard (reflectText .standard t).text).text).text
      = (reflectText .standard t).text := by
  intro t
  refine ⟨?whole, ?corners, ?some, ?first, ?second, reflectText_involutive_on_image ?whole ?corners⟩
  all_goals decide +kernel

end BidiSheet
