import BidiSheet.Proofs.Exchange
import BidiSheet.Proofs.Reflected

/-!
# Scanning a reflected source again

When the declarations of a masked source are reflected and the kept stretches are put back, scanning the
result finds the same kept stretches again: the pieces that the reflected text names read
(`reads_reflectText`). Nothing that stood outside of them becomes a string, a comment or a url, and
none of them ends earlier or later than it did.

The pieces of a text are exchanged from its end to its front. Behind every delimiter a segment may be
exchanged for the reflected one, provided that what follows may be exchanged (`follows_reflectBody`).
For words that are put in another order this needs more than closed brackets (`Declaration.Settled`): a
backslash at the end of a word would escape what comes next, a star at the front of one would turn a slash
into the beginning of a comment, and a url directly behind a word may be taken for a part of another one.
-/

namespace BidiSheet

open Marker (opener closer isControl)
open Masked (named Intact)
open Piece (Follows StartsWord Solid isWall isStop isFence plains stops)
open Tokens (Revised isMarked words isCalm startsUrl AllIntact spread)

variable {spans : List Span}

/-! ### Intact values -/

/-- The first character of texts that are alike delimits a marker only if it opens one. -/
theorem Alike.isControl_head {ρ : Nat → Nat → Prop} {c : Char} {s t : Text} (hc : c ≠ opener)
    (h : Alike ρ (c :: s) t) : isControl c = false := by
  cases h with
  | plain hc _ => exact hc
  | mark => exact absurd rfl hc

/-- The tokens of an intact text are intact. -/
theorem Value.allIntact_read {x : Text} (h : Intact spans x) : AllIntact spans (read x).tokens := by
  have halike := List.forall₂_same.mp (alike_read h).tokens
  intro t ht
  exact ⟨(halike t ht).plain_gap, (halike t ht).text⟩

/-- No word of an intact text begins with the opening of a marker. -/
theorem Value.Reads.isMarked_of_intact {tail : Text} {ts : List Token} (h : Reads tail ts)
    (hintact : AllIntact spans ts) : isMarked ts = true := by
  induction h with
  | nil => rfl
  | @cons gap cs kind c ts hgap hc hat rest ih =>
    rw [isMarked, List.all_cons, Bool.and_eq_true]
    refine ⟨?_, ih hintact.tail⟩
    by_contra hno
    obtain ⟨rfl, rfl⟩ : kind = .word ∧ c = opener := by simpa using hno
    obtain ⟨i, j, s, hi, -, rfl⟩ := (hintact _ List.mem_cons_self).2.exists_marker
    rw [List.append_assoc, List.cons_append, tokenAt_mark hi] at hat
    cases hat

/-- An intact text has no broken markers. -/
theorem Value.isMarked_read {x : Text} (h : Intact spans x) : isMarked (read x).tokens = true :=
  (reads_read x).isMarked_of_intact (allIntact_read h)

/-! ### Calm values -/

namespace Tokens

/-- No word begins with a url. -/
theorem startsUrl_of_word {t : Token} {ts : List Token} (hword : t.kind = .word)
    (hmarked : isMarked (t :: ts) = true) : startsUrl spans (t :: ts) = false := by
  obtain ⟨gap, kind, text, queued⟩ := t
  cases hword
  cases text with
  | nil => simp [startsUrl, Token.isUrl, Marker.read?_nil]
  | cons c cs =>
    have hc := Value.ne_opener_of_isMarked hmarked
    simp [startsUrl, Token.isUrl, Marker.read?_of_ne_opener hc]

/-- Words behind blanks are calm before what is calm and does not begin with a url. -/
theorem isCalm_spaced {us : List Token} (h : isCalm spans us = true) (hus : startsUrl spans us = false)
    (ws : List Text) : isCalm spans (ws.map Token.spaced ++ us) = true ∧
      startsUrl spans (ws.map Token.spaced ++ us) = false := by
  induction ws with
  | nil => exact ⟨h, hus⟩
  | cons w ws ih =>
    rw [List.map_cons, List.cons_append, isCalm, ih.1, ih.2]
    exact ⟨by simp, rfl⟩

/-- Exchanging words leaves tokens calm. -/
theorem isCalm_revised {Q : Text → List Text → Prop} {ts us : List Token} (h : Revised Q ts us)
    (hmarked : isMarked us = true) (hcalm : isCalm spans ts = true) :
    isCalm spans us = true ∧ (startsUrl spans ts = false → startsUrl spans us = false) := by
  induction h with
  | nil => exact ⟨rfl, id⟩
  | @same t ts us rest ih =>
    obtain ⟨hurl, hrest⟩ := isCalm_cons hcalm
    obtain ⟨hus, hstarts⟩ := ih (Value.isMarked_tail hmarked) hrest
    refine ⟨?_, id⟩
    rw [isCalm, hus, Bool.and_true]
    by_cases hword : t.kind = .word
    · simp [hstarts (hurl hword)]
    · simp [Token.isWord, hword]
  | @word t ts us w ws hword hw rest ih =>
    obtain ⟨hurl, hrest⟩ := isCalm_cons hcalm
    refine ⟨?_, fun _ => startsUrl_of_word hword hmarked⟩
    have hmarked' : isMarked us = true := by
      rw [isMarked, List.all_cons, List.all_append, Bool.and_eq_true, Bool.and_eq_true] at hmarked
      exact hmarked.2.2
    obtain ⟨hus, hstarts⟩ := ih hmarked' hrest
    obtain ⟨hspaced, hno⟩ := isCalm_spaced hus (hstarts (hurl hword)) ws
    rw [isCalm, hspaced, hno]
    simp

end Tokens

/-! ### Settled declarations -/

namespace Declaration

/-- A declaration whose words may be put in another order without a trace in the source. -/
structure Settled (spans : List Span) (d : Declaration) : Prop where
  /-- All brackets of the value are closed. -/
  closed : isClosed d.value = true
  /-- There is no backslash in the value. -/
  backslash : '\\' ∉ d.value
  /-- No word begins with a star. -/
  star : ∀ w ∈ words (Value.read d.value).tokens, w.head? ≠ some '*'
  /-- No url stands directly behind a word. -/
  calm : isCalm spans (Value.read d.value).tokens = true

instance (spans : List Span) (d : Declaration) : Decidable (d.Settled spans) :=
  decidable_of_iff (isClosed d.value = true ∧ '\\' ∉ d.value ∧
      (∀ w ∈ words (Value.read d.value).tokens, w.head? ≠ some '*') ∧
      isCalm spans (Value.read d.value).tokens = true)
    ⟨fun ⟨h1, h2, h3, h4⟩ => ⟨h1, h2, h3, h4⟩, fun ⟨h1, h2, h3, h4⟩ => ⟨h1, h2, h3, h4⟩⟩

/-- The parts of a declaration in an intact text. -/
def IntactParts (spans : List Span) (d : Declaration) : Prop :=
  AlikeParts (fun i j => i = j ∧ i < spans.length) d d

variable {d : Declaration} {ps qs : List Piece}

/-- What is read of an intact text has intact parts. -/
theorem intactParts_of_read? {t : Text} (h : Intact spans t) (hd : read? t = some d) :
    IntactParts spans d := by
  rcases alike_read? h with ⟨hnone, -⟩ | ⟨e, e', he, he', hparts⟩
  · rw [hd] at hnone
    cases hnone
  · rw [hd] at he he'
    cases he
    cases he'
    exact hparts

/-- The name of a declaration has no control characters. -/
theorem IntactParts.plain_name (h : IntactParts spans d) : Plain d.name :=
  (h.plain_hack.append h.plain_vendor).append h.plain_base

/-- The pieces of a declaration, part by part. -/
theorem IntactParts.named_text (h : IntactParts spans d) :
    named spans d.text = named spans d.lead ++ (plains d.name ++
      (named spans d.gap ++ .plain ':' :: (named spans d.value ++ named spans d.tail))) := by
  have htext : d.text = d.lead ++ (d.name ++ (d.gap ++ ':' :: (d.value ++ d.tail))) := by
    simp [text]
  have hlead : Intact spans d.lead := h.lead
  have hgap : Intact spans d.gap := h.gap
  have hvalue : Intact spans d.value := h.value
  rw [htext, hlead.named_append, (Intact.of_plain h.plain_name).named_append, hgap.named_append,
    Masked.named_plain (by decide), hvalue.named_append, Masked.named_of_plain h.plain_name]

/-! ### Names -/

/-- Blanks and markers are walls, and end a word. -/
theorem isWall_of_trivia {ρ : Nat → Nat → Prop} {s t : Text} (h : Alike ρ s t)
    (hρ : ∀ i j, ρ i j → ∃ span, spans[i]? = some span) (hs : trivia s = s.length) :
    ∀ q ∈ named spans s, isWall q = true ∧ ∀ ps, isStop (q :: ps) = true := by
  induction h with
  | nil =>
    rw [Masked.named_nil]
    intro q hq
    cases hq
  | @plain c s t hc h ih =>
    cases hb : isBlank c with
    | false =>
      rw [trivia_plain hb (Marker.ne_opener_of_not_isControl hc)] at hs
      cases hs
    | true =>
      rw [trivia_blank hb, List.length_cons, Nat.add_right_cancel_iff] at hs
      rw [Masked.named_plain hc]
      intro q hq
      rcases List.mem_cons.mp hq with rfl | hq
      · exact ⟨isWall_of_isBlank hb, fun ps => stops_plain (.inl hb) false ps⟩
      · exact ih hs q hq
  | @mark i j s t hi hj hij h ih =>
    obtain ⟨span, hspan⟩ := hρ i j hij
    rw [trivia_mark hi, List.length_cons, List.length_append, List.length_cons] at hs
    rw [Masked.named_mark hi hspan]
    intro q hq
    rcases List.mem_cons.mp hq with rfl | hq
    · exact ⟨rfl, fun ps => rfl⟩
    · exact ih (by omega) q hq

/-- A hack is a star, or may be taken for a part of the name. -/
theorem Legible.exists_hack (h : d.Legible) :
    ∃ star score, d.hack = star ++ score ∧ (∀ c ∈ star, c = '*') ∧ ∀ c ∈ score, c = '_' := by
  have hhack := h.hack
  cases hname : d.name with
  | nil =>
    rw [hname] at hhack
    exact ⟨[], [], by rw [← hhack]; rfl, by simp, by simp⟩
  | cons c cs =>
    rw [hname, hackOf_cons] at hhack
    split at hhack
    next hc =>
      have hcases : c = '*' ∨ c = '_' := by simpa [isHack] using hc
      rcases hcases with rfl | rfl
      · exact ⟨['*'], [], by rw [← hhack]; rfl, by simp, by simp⟩
      · exact ⟨[], ['_'], by rw [← hhack]; rfl, by simp, by simp⟩
    next => exact ⟨[], [], by rw [← hhack]; rfl, by simp, by simp⟩

/-- A character of a name belongs to an identifier. -/
theorem isIdent_of_isNameChar {c : Char} (h : isNameChar c = true) : isIdent c = true := by
  rw [isNameChar] at h
  rw [isIdent, h, Bool.true_or]

/-- An identifier begins a word. -/
theorem startsWord_of_isIdent {w : Text} (hne : w ≠ []) (h : ∀ c ∈ w, isIdent c = true) :
    StartsWord (plains w) := by
  obtain ⟨c, cs, rfl⟩ := List.exists_cons_of_ne_nil hne
  have hc := h c List.mem_cons_self
  have hblank : isBlank c = false := by
    by_contra hb
    have hno := of_isBlank (p := fun c => !isIdent c) (by decide) (by simpa using hb)
    simp [hc] at hno
  refine ⟨c, plains cs, rfl, hblank, ?_, ?_⟩ <;> rintro rfl <;> cases hc

/-- **A property may be renamed in the source.** -/
theorem follows_rename (hl : d.Legible) (hd : IntactParts spans d) {v : Vocabulary} {base : Text}
    (hlookup : v.lookup d.base = some base) (h : Follows ps qs) {p : Piece} (hp : isWall p = true) :
    Follows (p :: (named spans d.text ++ ps)) (p :: (named spans ({ d with base } : Declaration).text ++ qs)) := by
  obtain ⟨w₂, hlookup', -⟩ := Vocabulary.lookup_lookup hlookup
  obtain ⟨⟨c, cs, hcs, -⟩, hident⟩ := Words.isIdent_of_lookup hlookup
  obtain ⟨⟨c', cs', hcs', -⟩, hident'⟩ := Words.isIdent_of_lookup hlookup'
  have hd' : IntactParts spans { d with base } :=
    { hd with base := rfl, plain_base := (Vocabulary.quiet_of_lookup hlookup).2.plain }
  have hbehind : ∀ i j, i = j ∧ i < spans.length → ∃ span, spans[i]? = some span :=
    fun _ _ hi => ⟨_, List.getElem?_eq_getElem hi.2⟩
  obtain ⟨star, score, hhack, hstar, hscore⟩ := hl.exists_hack
  -- the name without a star, before and after
  have hsoft : ∀ b : Text, (∀ e ∈ b, isIdent e = true) →
      ∀ e ∈ score ++ d.vendor ++ b, isIdent e = true := by
    intro b hb e he
    rw [List.mem_append, List.mem_append] at he
    rcases he with (he | he) | he
    · rw [hscore e he]
      decide
    · exact isIdent_of_isNameChar (hl.name e (List.mem_append_left _ he))
    · exact hb e he
  obtain ⟨u, x, hu, hx⟩ := exists_last_of_forall (by simp [hcs]) (hsoft d.base hident)
  have hwalls : ∀ q ∈ named spans d.lead ++ plains star, isWall q = true := by
    intro q hq
    rcases List.mem_append.mp hq with hq | hq
    · exact (isWall_of_trivia hd.lead hbehind hl.lead q hq).1
    · obtain ⟨e, he, rfl⟩ := List.mem_map.mp hq
      rw [hstar e he]
      decide
  obtain ⟨ys, q, hq, hwall⟩ := exists_wall hwalls (.inl hp)
  generalize hrest : named spans d.gap ++ .plain ':' :: (named spans d.value ++ named spans d.tail) = rest
  have hstop : isStop (rest ++ ps) = true := by
    rw [← hrest]
    have hgap := isWall_of_trivia hd.gap hbehind hl.gap
    cases hpieces : named spans d.gap with
    | nil => rfl
    | cons r rs => exact (hgap r (by rw [hpieces]; exact List.mem_cons_self)).2 _
  have hword : Follows (q :: (plains (score ++ d.vendor ++ d.base) ++ (rest ++ ps)))
      (q :: (plains (score ++ d.vendor ++ base) ++ (rest ++ qs))) := by
    refine Follows.word hwall ((startsWord_of_isIdent (by simp [hcs]) (hsoft d.base hident)).append _)
      ((startsWord_of_isIdent (by simp [hcs']) (hsoft base hident')).append _) ?_
    refine Piece.reads_soft hu hx ?_ hstop (h.append rest)
    intro e he
    simp [Piece.isSoft, hsoft base hident' e he]
  have hregroup : ∀ (b : Text) (rs : List Piece),
      p :: (named spans d.lead ++ (plains (d.hack ++ d.vendor ++ b) ++ rest) ++ rs)
        = ys ++ q :: (plains (score ++ d.vendor ++ b) ++ (rest ++ rs)) := by
    intro b rs
    have hsplit : plains (d.hack ++ d.vendor ++ b) = plains star ++ plains (score ++ d.vendor ++ b) := by
      simp [hhack, plains]
    have hassoc : p :: (named spans d.lead ++ (plains star ++ plains (score ++ d.vendor ++ b) ++ rest) ++ rs)
        = (p :: (named spans d.lead ++ plains star)) ++ (plains (score ++ d.vendor ++ b) ++ (rest ++ rs)) := by
      simp
    rw [hsplit, hassoc, hq, List.append_assoc, List.singleton_append]
  rw [hd.named_text, hd'.named_text]
  simp only [name]
  rw [hrest, hregroup, hregroup]
  exact hword.append ys

/-! ### Values -/

/-- What stands behind a value ends a word. -/
theorem Legible.stops_tail (hl : d.Legible) (hps : isFence ps = true) (moved : Bool) :
    stops moved (named spans d.tail ++ ps) = true := by
  have hvalue := hl.value
  rw [valueLength_eq, outerLength_append_eq_iff] at hvalue
  rcases hvalue.2 with hnil | ⟨-, hhead⟩
  · rw [hnil, Masked.named_nil]
    cases moved with
    | false => exact Piece.isStop_of_isFence hps
    | true => exact hps
  · cases htail : d.tail with
    | nil =>
      rw [htail] at hhead
      cases hhead
    | cons c t =>
      rw [htail] at hhead
      have hc : c = '!' := by simpa using hhead
      rw [hc, Masked.named_plain (by decide)]
      exact stops_plain (by simp) moved _

/-- The words of a settled declaration begin like words. -/
theorem Settled.startsWord (h : d.Settled spans) (hd : IntactParts spans d) (hbrace : '\x7d' ∉ d.value) :
    ∀ w ∈ words (Value.read d.value).tokens, StartsWord (named spans w) := by
  have hintact := Value.allIntact_read hd.value
  have hreads := Value.reads_read d.value
  intro w hw
  obtain ⟨t, ht, -, htext⟩ := Action.exists_of_mem_words hw
  have hword := hreads.isWordText_of_mem (hreads.isMarked_of_intact hintact) hw
  have hstar := h.star w hw
  cases w with
  | nil => cases hword
  | cons c cs =>
    obtain ⟨hblank, -, -, hopener, -⟩ := Value.isWordText_iff.mp hword
    have hmem : c ∈ d.value := by
      rw [← Value.source_tokens_read d.value]
      apply List.mem_append_left
      refine List.mem_flatMap.mpr ⟨t, ht, List.mem_append_right _ ?_⟩
      rw [htext]
      exact List.mem_cons_self
    have hcontrol : isControl c = false := by
      have hword' := (hintact t ht).2
      rw [htext] at hword'
      exact hword'.isControl_head hopener
    rw [Masked.named_plain hcontrol]
    refine ⟨c, named spans cs, rfl, hblank, ?_, ?_⟩
    · rintro rfl
      exact hbrace hmem
    · rintro rfl
      exact hstar rfl

/-- **A value may be exchanged in the source** for what an action makes of it. -/
theorem follows_onValue (action : Action) (hl : d.Legible) (hd : IntactParts spans d)
    (hbrace : '\x7d' ∉ d.value) (hsettled : action.isMove = true → d.Settled spans)
    (hps : isFence ps = true) (h : Follows ps qs) {joined : Bool} {xs : List Piece}
    (hread : Piece.Reads joined
      (xs ++ .plain ':' :: (named spans d.value ++ (named spans d.tail ++ ps)))) :
    Follows (.plain ':' :: (named spans d.value ++ (named spans d.tail ++ ps)))
      (.plain ':' :: (named spans (action.onValue (Value.read d.value)).render
        ++ (named spans d.tail ++ qs))) := by
  have hreads := Value.reads_read d.value
  have hintact := Value.allIntact_read hd.value
  have hmarked := hreads.isMarked_of_intact hintact
  have hold : named spans d.value ++ (named spans d.tail ++ ps)
      = spread spans (Value.read d.value).tail (named spans d.tail ++ ps) (Value.read d.value).tokens := by
    rw [spread, Value.source_tokens_read]
  have hfollows := h.append (named spans d.tail)
  rw [hold] at hread ⊢
  rw [action.render_onValue_read]
  cases hmove : action.isMove with
  | false =>
    refine (Tokens.follows_revised ?_ hreads hmarked hintact (fun hm => absurd hm Bool.false_ne_true)
      (hl.stops_tail hps false) hfollows (Action.revised_of_restyles hmove _)).1 _ (by decide)
    rintro w v vs ⟨w', heq, hrestyled⟩
    cases heq
    rw [Words.join_singleton]
    exact exchange_of_restyled hrestyled
  | true =>
    have hs := hsettled hmove
    have hclosed : ∀ w ∈ words (Value.read d.value).tokens, isClosed w = true := by
      intro w hw
      obtain ⟨t, ht, -, rfl⟩ := Action.exists_of_mem_words hw
      apply hreads.isClosed_of_mem _ ht
      rw [Value.source_tokens_read]
      exact hs.closed
    have hback : ∀ w ∈ words (Value.read d.value).tokens, '\\' ∉ w := by
      intro w hw hmem
      obtain ⟨t, ht, -, rfl⟩ := Action.exists_of_mem_words hw
      apply hs.backslash
      rw [← Value.source_tokens_read d.value]
      exact List.mem_append_left _ (List.mem_flatMap.mpr ⟨t, ht, List.mem_append_right _ hmem⟩)
    have hmovable := Tokens.movable_of_reads hreads hmarked hintact hclosed (hs.startsWord hd hbrace)
      hback hs.calm (hl.stops_tail hps true) hread (.inl (by decide))
    refine (Tokens.follows_revised ?_ hreads hmarked hintact (fun _ => hs.calm)
      (hl.stops_tail hps true) hfollows (Action.revised_of_moves hmove _)).1 _ (by decide)
    rintro w v vs ⟨hw, hvs⟩
    exact exchange_of_movable (hmovable w hw) (hmovable v (hvs v List.mem_cons_self))
      fun u hu => hmovable u (hvs u (List.mem_cons_of_mem v hu))

/-- **A declaration may be exchanged in the source** for the reflected one. -/
theorem follows_reflect (hl : d.Legible) (hd : IntactParts spans d) (hbrace : '\x7d' ∉ d.value)
    (hsettled : d.isMoved .standard = true → d.Settled spans) (hps : isFence ps = true)
    (h : Follows ps qs) {p : Piece} (hp : isWall p = true) {joined : Bool} {xs : List Piece}
    (hread : Piece.Reads joined (xs ++ p :: (named spans d.text ++ ps))) :
    Follows (p :: (named spans d.text ++ ps))
      (p :: (named spans (d.reflect .standard).text ++ qs)) := by
  have hsame := (h.append (named spans d.text)).cons p
  unfold Declaration.reflect
  split
  · exact hsame
  next rule hrule =>
    by_cases hr : ∃ v, rule.action = .rename v
    · obtain ⟨v, hv⟩ := hr
      rw [under_rename d hv]
      cases hlookup : v.lookup d.base with
      | none =>
        rw [Vocabulary.swap_of_lookup_eq_none hlookup]
        exact hsame
      | some base =>
        rw [Vocabulary.swap_of_lookup hlookup]
        exact follows_rename hl hd hlookup h hp
    · rw [under_of_ne d fun v hv => hr ⟨v, hv⟩]
      have hmoved : rule.action.isMove = true → d.Settled spans := by
        intro hmove
        apply hsettled
        rw [isMoved, hrule]
        exact hmove
      generalize hx : (rule.action.onValue (Value.read d.value)).render = x
      have hnew : IntactParts spans { d with value := x } :=
        { hd with value := hx ▸ (rule.action.alike_onValue (Value.alike_read hd.value)).render }
      have hregroup : ∀ (y : Text) (rs : List Piece), p :: (named spans d.lead ++ (plains d.name ++
          (named spans d.gap ++ .plain ':' :: (named spans y ++ named spans d.tail))) ++ rs)
            = (p :: (named spans d.lead ++ (plains d.name ++ named spans d.gap)))
              ++ .plain ':' :: (named spans y ++ (named spans d.tail ++ rs)) := by
        simp
      have hold := hregroup d.value ps
      rw [← hd.named_text] at hold
      have hnew' : p :: (named spans ({ d with value := x } : Declaration).text ++ qs)
          = (p :: (named spans d.lead ++ (plains d.name ++ named spans d.gap)))
            ++ .plain ':' :: (named spans x ++ (named spans d.tail ++ qs)) := by
        rw [hnew.named_text]
        exact hregroup x qs
      rw [hold, ← List.append_assoc] at hread
      rw [hold, hnew', ← hx]
      exact (follows_onValue rule.action hl hd hbrace hmoved hps h hread).append _

/-- A settled declaration is settled after it is reflected. -/
theorem Settled.reflect (h : d.Settled spans) (hmarked : isMarked (Value.read d.value).tokens = true)
    (hmoved : d.isMoved .standard = true) : (d.reflect .standard).Settled spans := by
  obtain ⟨rule, hrule, hmove⟩ : ∃ rule, Table.standard.ruleFor (lower d.base) = some rule ∧
      rule.action.isMove = true := by
    rw [isMoved, Option.any_eq_true] at hmoved
    exact hmoved
  have hne : ∀ v, rule.action ≠ .rename v := by
    intro v hv
    rw [hv] at hmove
    cases hmove
  have hreflect : d.reflect .standard
      = { d with value := (rule.action.onValue (Value.read d.value)).render } := by
    rw [Declaration.reflect, hrule, ← under_of_ne d hne]
  have hread := Value.read_render_onValue rule.action hmarked fun _ => h.closed
  rw [hreflect]
  refine ⟨rule.action.isClosed_onValue h.closed, ?_, ?_, ?_⟩
  · intro hmem
    rcases rule.action.mem_onValue hmem with hold | hquiet | hblank
    · exact h.backslash hold
    · cases hquiet
    · cases hblank
  · simp only
    rw [hread]
    intro w hw
    obtain ⟨u, hu, hkind, rfl⟩ := Action.exists_of_mem_words hw
    rcases rule.action.mem_revise hu with hold | ⟨-, hold | ⟨hquiet, -⟩, -⟩
    · apply h.star
      exact List.mem_map_of_mem (List.mem_filter.mpr ⟨hold, by simp [Token.isWord, hkind]⟩)
    · exact h.star _ hold
    · intro hhead
      exact absurd (hquiet _ (List.mem_of_head? hhead)) (by decide)
  · simp only
    rw [hread]
    exact (Tokens.isCalm_revised (Action.revised_of_moves hmove _)
      (rule.action.isMarked_revise hmarked) h.calm).1

end Declaration

/-! ### Segments -/

variable {ps qs : List Piece}

/-- **A segment may be exchanged in the source** for the reflected one. -/
theorem follows_reflectBody {body : Text} (hintact : Intact spans body)
    (hdelimiter : ∀ c ∈ body, isDelimiter c = false)
    (hsettled : ∀ d, Declaration.read? body = some d → d.isMoved .standard = true → d.Settled spans)
    (hps : isFence ps = true) (h : Follows ps qs) {p : Piece} (hp : isWall p = true) {joined : Bool}
    {xs : List Piece} (hread : Piece.Reads joined (xs ++ p :: (named spans body ++ ps))) :
    Follows (p :: (named spans body ++ ps)) (p :: (named spans (reflectBody .standard body) ++ qs)) := by
  unfold reflectBody
  split
  · exact (h.append _).cons p
  next d hd =>
    have htext := Declaration.text_read hd
    have hbrace : '\x7d' ∉ d.value := by
      intro hmem
      have hno := hdelimiter '\x7d' (by
        rw [← htext, Declaration.text]
        simp [hmem])
      cases hno
    rw [← htext] at hread ⊢
    exact Declaration.follows_reflect (Declaration.legible_of_read? hd)
      (Declaration.intactParts_of_read? hintact hd) hbrace (hsettled d hd) hps h hp hread

/-- What holds of the three delimiters holds of every delimiter. -/
theorem of_isDelimiter {p : Char → Bool} (h : [openBrace, closeBrace, ';'].all p = true) {c : Char}
    (hc : isDelimiter c = true) : p c = true := by
  have hcases : (c = openBrace ∨ c = closeBrace) ∨ c = ';' := by simpa [isDelimiter] using hc
  apply List.all_eq_true.mp h
  rcases hcases with (rfl | rfl) | rfl <;> simp

/-- Closed segments may be exchanged in the source for the reflected ones, if what stands behind them may be
exchanged. -/
theorem follows_closed {closed : List Segment} {tail tail' : Text} {joined : Bool}
    (hbody : ∀ s ∈ closed, Intact spans s.body ∧ ∀ c ∈ s.body, isDelimiter c = false)
    (hcloser : ∀ s ∈ closed, isDelimiter s.closer = true)
    (hsettled : ∀ s ∈ closed, s.closer ≠ openBrace → ∀ d, Declaration.read? s.body = some d →
      d.isMoved .standard = true → d.Settled spans)
    (htail : ∀ p xs, isWall p = true → Piece.Reads joined (xs ++ p :: named spans tail) →
      Follows (p :: named spans tail) (p :: named spans tail'))
    {p : Piece} (hp : isWall p = true) {xs : List Piece}
    (hread : Piece.Reads joined (xs ++ p :: named spans (closed.flatMap Segment.text ++ tail))) :
    Follows (p :: named spans (closed.flatMap Segment.text ++ tail))
      (p :: named spans ((closed.map (Segment.reflect .standard)).flatMap Segment.text ++ tail')) := by
  induction closed generalizing p xs with
  | nil => exact htail p xs hp hread
  | cons s closed ih =>
    obtain ⟨hintact, hdelimiter⟩ := hbody s List.mem_cons_self
    have hs := hcloser s List.mem_cons_self
    have hwall := of_isDelimiter (p := fun c => isWall (.plain c)) (by decide) hs
    have hcontrol : isControl s.closer = false := by
      simpa using of_isDelimiter (p := fun c => !isControl c) (by decide) hs
    have hsplit : ∀ (b rest : Text), Intact spans b →
        named spans (Segment.text ⟨b, s.closer⟩ ++ rest)
          = named spans b ++ .plain s.closer :: named spans rest := by
      intro b rest hb
      rw [Segment.text, List.append_assoc, hb.named_append, List.singleton_append,
        Masked.named_plain hcontrol]
    rw [List.map_cons, List.flatMap_cons, List.flatMap_cons, List.append_assoc, List.append_assoc,
      Segment.reflect_eq]
    rw [List.flatMap_cons, List.append_assoc, hsplit _ _ hintact] at hread
    rw [hsplit _ _ hintact]
    -- the delimiter is the wall for what comes behind it
    have hread' : Piece.Reads joined ((xs ++ p :: named spans s.body)
        ++ .plain s.closer :: named spans (closed.flatMap Segment.text ++ tail)) := by
      rwa [List.append_assoc, List.cons_append]
    have hrest := ih (fun r hr => hbody r (List.mem_cons_of_mem s hr))
      (fun r hr => hcloser r (List.mem_cons_of_mem s hr))
      (fun r hr => hsettled r (List.mem_cons_of_mem s hr)) hwall hread'
    split
    · rw [hsplit _ _ hintact]
      exact (hrest.append _).cons p
    next hne =>
      rw [hsplit _ _ (alike_reflectBody hintact .standard)]
      exact follows_reflectBody hintact hdelimiter (hsettled s List.mem_cons_self hne)
        (of_isDelimiter (p := fun c => isFence (.plain c :: _)) rfl hs) hrest hp hread

/-- **Scanning a reflected source finds the same kept stretches again.** -/
theorem reads_reflectText {t : Text} (hintact : Intact spans t)
    (hsettled : ∀ d ∈ declarations t, d.isMoved .standard = true → d.Settled spans)
    (h : Piece.Reads false (named spans t)) :
    Piece.Reads false (named spans (reflectText .standard t).text) := by
  have hparts := Segments.alike_read hintact
  have hcut := Segments.cut_read t
  have hbody : ∀ body ∈ (Segments.read t).bodies, ∀ d, Declaration.read? body = some d →
      d.isMoved .standard = true → d.Settled spans := by
    intro body hmem d hd
    exact hsettled d (List.mem_filterMap.mpr ⟨body, hmem, hd⟩)
  have hclosed := List.forall₂_same.mp hparts.closed
  have htail : ∀ p xs, isWall p = true →
      Piece.Reads false (xs ++ p :: named spans (Segments.read t).tail) →
      Follows (p :: named spans (Segments.read t).tail)
        (p :: named spans ((Segments.read t).reflect .standard).tail) := by
    intro p xs hp hread
    rw [← List.append_nil (named spans (Segments.read t).tail)] at hread ⊢
    rw [← List.append_nil (named spans ((Segments.read t).reflect .standard).tail), Segments.tail_reflect]
    split
    next hmay =>
      exact follows_reflectBody hparts.tail hcut.tail (hbody _ (Segments.tail_mem_bodies hmay)) rfl
        .nil hp hread
    · exact (Follows.nil.append _).cons p
  -- a blank before the text takes the place of the first delimiter
  have hread : Piece.Reads false ([] ++ .plain ' ' :: named spans (Segments.read t).text) := by
    rw [Segments.text_read]
    exact h.blank false
  have hfollows : Follows (.plain ' ' :: named spans (Segments.read t).text)
      (.plain ' ' :: named spans ((Segments.read t).reflect .standard).text) :=
    follows_closed (fun s hs => ⟨(hclosed s hs).body, hcut.body s hs⟩) hcut.closer
      (fun s hs hne => hbody s.body (Segments.body_mem_bodies hs hne)) htail (by decide) hread
  have hreflected : Piece.Reads false
      ([] ++ .plain ' ' :: named spans (reflectText .standard t).text) :=
    (hfollows.reads false hread).1
  exact hreflected.behind (by simp)

end BidiSheet
