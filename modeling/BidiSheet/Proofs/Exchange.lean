import BidiSheet.Proofs.Follows
import BidiSheet.Proofs.Named
import BidiSheet.Proofs.Value

/-!
# Exchanging words in the source

When the words of a value are exchanged, and the value is put back into the source, the source is still cut
into the corresponding pieces (`Tokens.follows_revised`). Every word stands behind a wall: a colon, a blank,
a comma, a slash or something that is kept. So it is enough that each word may be exchanged before what
follows it (`Exchange`). This holds

* of words that are restyled (`exchange_of_restyled`), before anything that ends a word;
* of words that are moved (`exchange_of_movable`), before anything that ends a word but a url, as long as the
  words are read from the source where they stand (`Tokens.movable_of_reads`).
-/

namespace BidiSheet

open Marker (opener closer isControl)
open Masked (named Intact)
open Piece (Follows StartsWord Solid isWall isStop isFence plains)
open Tokens (Revised isSetOff isMarked words)

variable {spans : List Span}

/-! ### Pieces of plain text -/

/-- A text without control characters names plain pieces only. -/
theorem Masked.named_of_plain {t : Text} (h : Plain t) : named spans t = plains t := by
  induction t with
  | nil => exact Masked.named_nil
  | cons c t ih =>
    rw [Masked.named_plain (h c List.mem_cons_self), ih fun d hd => h d (List.mem_cons_of_mem c hd)]
    rfl

/-- A blank is a wall. -/
theorem isWall_of_isBlank {c : Char} (h : isBlank c = true) : isWall (.plain c) = true :=
  of_isBlank (p := fun c => isWall (.plain c)) (by decide) h

/-- What may be exchanged behind every wall may be exchanged behind blanks. -/
theorem Piece.Follows.blanks {gap : Text} {ps qs : List Piece} (hgap : ∀ c ∈ gap, isBlank c = true)
    (h : ∀ p, isWall p = true → Follows (p :: ps) (p :: qs)) :
    (∀ p, isWall p = true → Follows (p :: (plains gap ++ ps)) (p :: (plains gap ++ qs))) ∧
      (gap ≠ [] → Follows (plains gap ++ ps) (plains gap ++ qs)) := by
  induction gap with
  | nil => exact ⟨h, fun hne => absurd rfl hne⟩
  | cons c gap ih =>
    have hc := isWall_of_isBlank (hgap c List.mem_cons_self)
    have hfollows := (ih fun d hd => hgap d (List.mem_cons_of_mem c hd)).1 (.plain c) hc
    exact ⟨fun p _ => hfollows.cons p, fun _ => hfollows⟩

/-- The last of some walls is a wall. -/
theorem exists_wall {p : Piece} {ps : List Piece} (hps : ∀ q ∈ ps, isWall q = true)
    (h : isWall p = true ∨ ps ≠ []) : ∃ xs q, p :: ps = xs ++ [q] ∧ isWall q = true := by
  rcases List.eq_nil_or_concat ps with rfl | ⟨ps, q, rfl⟩
  · exact ⟨[], p, rfl, h.resolve_right fun hne => hne rfl⟩
  · exact ⟨p :: ps, q, by simp, hps q (by simp)⟩

/-- The pieces of a gap are walls. -/
theorem isWall_of_mem_plains {gap : Text} (hgap : ∀ c ∈ gap, isBlank c = true) :
    ∀ q ∈ plains gap, isWall q = true := by
  intro q hq
  obtain ⟨c, hc, rfl⟩ := List.mem_map.mp hq
  exact isWall_of_isBlank (hgap c hc)

/-! ### The ends of words -/

/-- Whether pieces may stand directly behind a word, for words that may be moved if `moved` holds. -/
def Piece.stops (moved : Bool) (ps : List Piece) : Bool := if moved then isFence ps else isStop ps

open Piece (stops)

/-- Characters that stop a value. -/
theorem stops_plain {c : Char} (h : isBlank c = true ∨ c = ',' ∨ c = '/' ∨ c = '!') (moved : Bool)
    (ps : List Piece) : stops moved (.plain c :: ps) = true := by
  have hstop : isStop (.plain c :: ps) = true := by
    rcases h with hc | rfl | rfl | rfl
    · exact of_isBlank (p := fun c => isStop (.plain c :: ps)) rfl hc
    · rfl
    · rfl
    · rfl
  cases moved <;> exact hstop

/-- **A word with closed brackets ends in a plain character.** A blank or a marker would have to be inside
brackets, and so to be followed by a closing one. -/
theorem exists_last_of_closed {ρ : Nat → Nat → Prop} {s t : Text} (h : Alike ρ s t)
    (hρ : ∀ i j, ρ i j → ∃ span, spans[i]? = some span) {depth : Nat} (hne : s ≠ [])
    (hlen : outerLength Value.endsWord depth s = s.length) (hdepth : s.foldl nest depth = 0) :
    ∃ xs x, named spans s = xs ++ [.plain x] ∧ isBlank x = false ∧ x ∈ s := by
  induction h generalizing depth with
  | nil => exact absurd rfl hne
  | @plain c s t hc h ih =>
    rw [outerLength] at hlen
    split at hlen
    · cases hlen
    next hstop =>
      rw [List.length_cons, Nat.add_right_cancel_iff] at hlen
      rw [List.foldl_cons] at hdepth
      by_cases hs : s = []
      · subst hs
        refine ⟨[], c, by rw [Masked.named_plain hc, Masked.named_nil]; rfl, ?_, List.mem_cons_self⟩
        by_contra hblank
        rw [Bool.not_eq_false] at hblank
        have hkeep : nest depth c = depth := by
          apply nest_of_ne <;> rintro rfl <;> exact absurd hblank (by decide)
        rw [hkeep] at hdepth
        exact hstop ⟨hdepth, by simp [Value.endsWord, hblank]⟩
      · obtain ⟨xs, x, hxs, hx, hmem⟩ := ih hs hlen hdepth
        refine ⟨.plain c :: xs, x, ?_, hx, List.mem_cons_of_mem c hmem⟩
        rw [Masked.named_plain hc, hxs]
        rfl
  | @mark i j s t hi hj hij h ih =>
    have hopen : depth ≠ 0 := by
      rintro rfl
      rw [outerLength, if_pos ⟨rfl, by decide⟩] at hlen
      cases hlen
    obtain ⟨span, hspan⟩ := hρ i j hij
    rw [← Marker.text_append] at hlen hdepth
    rw [List.foldl_append, foldl_nest_of_ne fun c => ne_bracket_of_mem_text] at hdepth
    obtain ⟨-, hlen⟩ := outerLength_append_eq_length_iff.mp hlen
    rw [foldl_nest_of_ne fun c => ne_bracket_of_mem_text] at hlen
    have hs : s ≠ [] := by
      rintro rfl
      exact hopen hdepth
    obtain ⟨xs, x, hxs, hx, hmem⟩ := ih hs hlen hdepth
    refine ⟨.kept span.kind span.text :: xs, x, ?_, hx, ?_⟩
    · rw [Masked.named_mark hi hspan, hxs]
      rfl
    · rw [← Marker.text_append]
      exact List.mem_append_right _ hmem

/-! ### Exchanging a word -/

/-- The text `v` may take the place of the word `w`. -/
structure Exchange (spans : List Span) (moved : Bool) (w v : Text) : Prop where
  /-- The old word begins like a word. -/
  left : StartsWord (named spans w)
  /-- The new text begins like a word. -/
  right : StartsWord (named spans v)
  intact : Intact spans v
  /-- If the old word reads, so does the new text. -/
  step : ∀ ps qs, stops moved ps = true → Follows ps qs → Piece.Reads false (named spans w ++ ps) →
    Piece.Reads false (named spans v ++ qs)

/-- A quiet word begins a word. -/
theorem startsWord_of_quiet {w : Text} (h : Quiet w) (hne : w ≠ []) : StartsWord (named spans w) := by
  obtain ⟨c, cs, rfl⟩ := List.exists_cons_of_ne_nil hne
  have hc := h c List.mem_cons_self
  rw [Masked.named_of_plain h.plain]
  exact ⟨c, plains cs, rfl, h.isBlank_of_mem List.mem_cons_self, ne_of_isQuiet hc (by decide),
    ne_of_isQuiet hc (by decide)⟩

/-- A quiet character is soft. -/
theorem Piece.isSoft_of_isQuiet {c : Char} (h : isQuiet c = true) : isSoft c = true := by
  have hcases : (((c.isAlphanum = true ∨ c = '-') ∨ c = '+') ∨ c = '.') ∨ c = '%' := by
    simpa [isQuiet] using h
  rcases hcases with (((h | rfl) | rfl) | rfl) | rfl
  · simp [isSoft, isIdent, h]
  · decide
  · decide
  · decide
  · decide

/-- **A word may be restyled** before anything that ends a word. -/
theorem exchange_of_restyled {w w' : Text} (h : Words.Restyled w w') : Exchange spans false w w' := by
  obtain ⟨hw, hw', unit, hunit, hends, hends'⟩ := h
  refine ⟨startsWord_of_quiet hw hends.ne_nil, startsWord_of_quiet hw' hends'.ne_nil,
    .of_plain hw'.plain, ?_⟩
  intro ps qs hstop hfollows hps
  rw [Masked.named_of_plain hw.plain] at hps
  rw [Masked.named_of_plain hw'.plain]
  obtain ⟨u, c, rfl, hc⟩ := hends
  obtain ⟨u', c', rfl, hc'⟩ := hends'
  have hsoft : ∀ d ∈ u' ++ [c'], Piece.isSoft d = true := by
    intro d hd
    apply Piece.isSoft_of_isQuiet
    apply hw'
    rw [List.append_cons]
    exact List.mem_append_left _ hd
  rcases hunit with rfl | rfl
  · exact Piece.reads_soft rfl hc hsoft hstop hfollows hps
  · -- the percent sign belongs to what follows
    have hsplit : ∀ (v : Text) (d : Char) (rest : List Piece),
        plains (v ++ [d, '%']) ++ rest = plains (v ++ [d]) ++ .plain '%' :: rest := by
      simp [plains]
    rw [hsplit] at hps ⊢
    exact Piece.reads_soft rfl hc hsoft rfl (hfollows.cons _) hps

/-! ### Moving words -/

/-- A word that may be put in the place of another. -/
structure Movable (spans : List Span) (w : Text) : Prop where
  starts : StartsWord (named spans w)
  intact : Intact spans w
  solid : Solid (named spans w)
  last : ∃ xs x, named spans w = xs ++ [.plain x] ∧ x ≠ '\\'

/-- **A word may be moved if it is read** behind a wall and before a fence, and the character that it ends in
escapes nothing. -/
theorem Movable.of_reads {w : Text} (hstarts : StartsWord (named spans w)) (hintact : Intact spans w)
    {ys : List Piece} {x : Char} (hlast : named spans w = ys ++ [.plain x]) (hx : isBlank x = false)
    (hxs : x ≠ '\\') {joined : Bool} {q : Piece} {zs rest : List Piece} (hwall : isWall q = true)
    (hfence : isFence rest = true) (h : Piece.Reads joined (zs ++ q :: (named spans w ++ rest))) :
    Movable spans w where
  starts := hstarts
  intact := hintact
  solid := by
    have hreads := h.behind_wall hwall (hstarts.append rest)
    rw [hlast, List.append_assoc] at hreads
    rw [hlast]
    exact Piece.solid_of_reads hx hxs hfence hreads
  last := ⟨ys, x, hlast, hxs⟩

/-- A blank may be put before pieces that read. -/
theorem Piece.Reads.blank {ps : List Piece} (h : Reads false ps) (joined : Bool) :
    Reads joined (.plain ' ' :: ps) :=
  .pause (by decide) h

/-- Movable words behind blanks. -/
theorem join_of_movable {w : Text} {ws : List Text} (hw : Movable spans w)
    (hws : ∀ v ∈ ws, Movable spans v) :
    Intact spans (Words.join (w :: ws)) ∧ StartsWord (named spans (Words.join (w :: ws))) ∧
      Solid (named spans (Words.join (w :: ws))) := by
  induction ws generalizing w with
  | nil =>
    rw [Words.join_singleton]
    exact ⟨hw.intact, hw.starts, hw.solid⟩
  | cons v ws ih =>
    obtain ⟨hintact, -, hsolid⟩ :=
      ih (hws v List.mem_cons_self) fun u hu => hws u (List.mem_cons_of_mem v hu)
    have hblank : isControl ' ' = false := by decide
    rw [Words.join_cons_cons, hw.intact.named_append, Masked.named_plain hblank]
    refine ⟨hw.intact.append (.plain hblank hintact), hw.starts.append _, ?_⟩
    intro qs hfence hqs
    rw [List.append_assoc]
    exact hw.solid _ rfl ((hsolid qs hfence hqs).blank false)

/-- **Words may be moved** before anything that ends a word and is no url. -/
theorem exchange_of_movable {w v : Text} {vs : List Text} (hw : Movable spans w)
    (hv : Movable spans v) (hvs : ∀ u ∈ vs, Movable spans u) :
    Exchange spans true w (Words.join (v :: vs)) := by
  obtain ⟨hintact, hstarts, hsolid⟩ := join_of_movable hv hvs
  refine ⟨hw.starts, hstarts, hintact, ?_⟩
  intro ps qs hstop hfollows hps
  obtain ⟨xs, x, hlast, hx⟩ := hw.last
  rw [hlast, List.append_assoc] at hps
  have hbehind := hps.behind fun heq => hx (Piece.plain.inj heq)
  have hfence : isFence qs = true := by
    rw [Piece.isFence_congr hfollows.head]
    exact hstop
  exact hsolid qs hfence ((hfollows.reads _ hbehind).1.of_isFence hfence false)

/-! ### Tokens in the source -/

/-- Whether a token is a marker that stands for a url. -/
def Token.isUrl (spans : List Span) (t : Token) : Bool :=
  ((Marker.read? t.text).bind fun found => spans[found.id]?).any fun span => span.kind = .url

namespace Tokens

/-- Whether tokens begin with a url that has no blanks before it. -/
def startsUrl (spans : List Span) : List Token → Bool
  | [] => false
  | t :: _ => t.gap = [] && t.isUrl spans

/-- Whether no url stands directly behind a word. -/
def isCalm (spans : List Span) : List Token → Bool
  | [] => true
  | t :: ts => !(t.isWord && startsUrl spans ts) && isCalm spans ts

/-- Tokens are calm if no word stands before a url, and the others are calm. -/
theorem isCalm_cons {t : Token} {ts : List Token} (h : isCalm spans (t :: ts) = true) :
    (t.kind = .word → startsUrl spans ts = false) ∧ isCalm spans ts = true := by
  rw [isCalm, Bool.and_eq_true] at h
  refine ⟨fun hword => ?_, h.2⟩
  simpa [Token.isWord, hword] using h.1

/-- Tokens of an intact text. -/
def AllIntact (spans : List Span) (ts : List Token) : Prop :=
  ∀ t ∈ ts, Plain t.gap ∧ Intact spans t.text

/-- Behind the first of intact tokens there are intact ones. -/
theorem AllIntact.tail {t : Token} {ts : List Token} (h : AllIntact spans (t :: ts)) :
    AllIntact spans ts :=
  fun u hu => h u (List.mem_cons_of_mem t hu)

/-- The pieces that some tokens name, with the blanks `tail` and the pieces `ps` behind them. -/
def spread (spans : List Span) (tail : Text) (ps : List Piece) (ts : List Token) : List Piece :=
  named spans (source ts ++ tail) ++ ps

/-- The first token is spread into its gap, its pieces and the rest. -/
theorem spread_cons {t : Token} (hgap : Plain t.gap) (htext : Intact spans t.text) (tail : Text)
    (ps : List Piece) (ts : List Token) :
    spread spans tail ps (t :: ts)
      = plains t.gap ++ (named spans t.text ++ spread spans tail ps ts) := by
  rw [spread, source_cons, List.append_assoc, List.append_assoc,
    (Intact.of_plain hgap).named_append, htext.named_append, Masked.named_of_plain hgap,
    List.append_assoc, List.append_assoc, spread]

end Tokens

open Tokens (startsUrl isCalm AllIntact spread)

/-- What begins with the opening of a marker begins with a whole marker. -/
theorem Alike.exists_marker {ρ : Nat → Nat → Prop} {cs t : Text} (h : Alike ρ (opener :: cs) t) :
    ∃ i j s, i < Marker.bound ∧ ρ i j ∧ cs = Nat.toDigits 10 i ++ closer :: s := by
  generalize hs : opener :: cs = s at h
  cases h with
  | nil => cases hs
  | plain hc =>
    rw [← (List.cons.inj hs).1] at hc
    cases hc
  | @mark i j s t hi hj hij h => exact ⟨i, j, s, hi, hij, (List.cons.inj hs).2⟩

/-- **A token that is no word is a single piece**, which is a wall and ends a word. -/
theorem exists_piece_of_tokenAt {cs r : Text} {c : Char} {kind : TokenKind}
    (h : Value.tokenAt c (cs ++ r) = (kind, cs.length)) (hkind : kind ≠ .word)
    (hintact : Intact spans (c :: cs)) (gap : Text) :
    ∃ p, named spans (c :: cs) = [p] ∧ isWall p = true ∧ ∀ moved ps,
      (moved = true → Token.isUrl spans ⟨gap, kind, c :: cs, none⟩ = false) →
        stops moved (p :: ps) = true := by
  obtain ⟨rfl, -, hlen⟩ | ⟨rfl, -, hlen⟩ | ⟨found, hfound, -, hlen⟩ | ⟨-, -, -, hword, -⟩ :=
    Value.tokenAt_cases h
  · rw [List.length_eq_zero_iff.mp hlen, Masked.named_plain (by decide), Masked.named_nil]
    exact ⟨_, rfl, by decide, fun moved ps _ => stops_plain (by simp) moved ps⟩
  · rw [List.length_eq_zero_iff.mp hlen, Masked.named_plain (by decide), Masked.named_nil]
    exact ⟨_, rfl, by decide, fun moved ps _ => stops_plain (by simp) moved ps⟩
  · obtain ⟨rfl, -⟩ := Value.exists_of_marker hfound hlen
    obtain ⟨i, j, s, hi, ⟨-, hlt⟩, rfl⟩ := hintact.exists_marker
    rw [List.append_assoc, List.cons_append, Marker.read?_text hi] at hfound
    cases hfound
    -- the token ends where the marker does
    have hs : s = [] := by
      rw [List.length_append, List.length_cons] at hlen
      exact List.length_eq_zero_iff.mp (by simp only at hlen; omega)
    subst hs
    have hspan : spans[i]? = some spans[i] := List.getElem?_eq_getElem hlt
    refine ⟨.kept spans[i].kind spans[i].text, ?_, rfl, ?_⟩
    · rw [Masked.named_mark hi hspan, Masked.named_nil]
    · intro moved ps hurl
      have hne : moved = true → spans[i].kind ≠ .url := by
        intro hmoved
        have hno := hurl hmoved
        rw [Token.isUrl, Marker.read?_text hi, Option.bind_some, hspan] at hno
        simpa using hno
      generalize spans[i].kind = kind at hne
      cases moved with
      | false => rfl
      | true =>
        cases kind with
        | url => exact absurd rfl (hne rfl)
        | comment | quoted | fontFace | noFlip | control => rfl
  · exact absurd hword hkind

namespace Tokens

variable {tail : Text} {ts us : List Token} {ps qs : List Piece} {moved : Bool}

/-- Tokens that are set off from a word end it. -/
theorem stops_spread (h : Value.Reads tail ts) (hoff : isSetOff ts = true)
    (hintact : AllIntact spans ts) (hcalm : moved = true → startsUrl spans ts = false)
    (hps : stops moved ps = true) : stops moved (spread spans tail ps ts) = true := by
  cases h with
  | nil htail =>
    cases tail with
    | nil =>
      rw [spread, source_nil, List.nil_append, Masked.named_nil]
      exact hps
    | cons c tail =>
      have hc := htail c List.mem_cons_self
      have hcontrol : isControl c = false := by
        simpa using of_isBlank (p := fun c => !isControl c) (by decide) hc
      rw [spread, source_nil, List.nil_append, Masked.named_plain hcontrol]
      exact stops_plain (.inl hc) moved _
  | @cons gap cs kind c ts hgap hc h rest =>
    obtain ⟨hplain, htext⟩ := hintact _ List.mem_cons_self
    rw [spread_cons hplain htext]
    cases gap with
    | cons d gap => exact stops_plain (.inl (hgap d List.mem_cons_self)) moved _
    | nil =>
      have hkind : kind ≠ .word := by simpa [isSetOff] using hoff
      obtain ⟨p, hp, -, hstops⟩ := exists_piece_of_tokenAt h hkind htext []
      rw [show plains [] = [] from rfl, List.nil_append, hp]
      apply hstops
      intro hmoved
      simpa [startsUrl] using hcalm hmoved

/-- What stands behind a word of tokens that read is set off from it. -/
theorem isSetOff_of_word {c : Char} {cs : Text}
    (h : Value.tokenAt c (cs ++ (source ts ++ tail)) = (.word, cs.length))
    (rest : Value.Reads tail ts) (hmarked : isMarked ts = true) : isSetOff ts = true :=
  rest.isSetOff hmarked (Value.endsWord_behind h)

/-- **The words of a value may be exchanged in the source**, if each may be exchanged on its own. -/
theorem follows_revised {Q : Text → List Text → Prop}
    (hQ : ∀ w v vs, Q w (v :: vs) → Exchange spans moved w (Words.join (v :: vs)))
    (hreads : Value.Reads tail ts) (hmarked : isMarked ts = true) (hintact : AllIntact spans ts)
    (hcalm : moved = true → isCalm spans ts = true) (hps : stops moved ps = true)
    (h : Follows ps qs) (hrev : Revised Q ts us) :
    (∀ p, isWall p = true → Follows (p :: spread spans tail ps ts) (p :: spread spans tail qs us)) ∧
      (isSetOff ts = true → Follows (spread spans tail ps ts) (spread spans tail qs us)) := by
  induction hrev with
  | nil =>
    have hfollows := h.append (named spans (source [] ++ tail))
    exact ⟨fun p _ => hfollows.cons p, fun _ => hfollows⟩
  | @same t ts us hrest ih =>
    cases hreads with
    | @cons gap cs kind c ts hgap hc hat rest =>
      obtain ⟨hplain, htext⟩ := hintact _ List.mem_cons_self
      obtain ⟨hwall, hset⟩ := ih rest (Value.isMarked_tail hmarked) hintact.tail
        fun hmoved => (isCalm_cons (hcalm hmoved)).2
      have hfollows : Follows (named spans (c :: cs) ++ spread spans tail ps ts)
          (named spans (c :: cs) ++ spread spans tail qs us) := by
        by_cases hkind : kind = .word
        · subst hkind
          exact (hset (isSetOff_of_word hat rest (Value.isMarked_tail hmarked))).append _
        · obtain ⟨p, hp, hpwall, -⟩ := exists_piece_of_tokenAt hat hkind htext gap
          rw [hp]
          exact hwall p hpwall
      rw [spread_cons hplain htext, spread_cons hplain htext]
      have hgaps := hfollows.append (plains gap)
      exact ⟨fun p _ => hgaps.cons p, fun _ => hgaps⟩
  | @word t ts us w ws hword hw hrest ih =>
    cases hreads with
    | @cons gap cs kind c ts hgap hc hat rest =>
      cases hword
      obtain ⟨hplain, htext⟩ := hintact _ List.mem_cons_self
      have hoff := isSetOff_of_word hat rest (Value.isMarked_tail hmarked)
      obtain ⟨-, hset⟩ := ih rest (Value.isMarked_tail hmarked) hintact.tail
        fun hmoved => (isCalm_cons (hcalm hmoved)).2
      have hexchange := hQ _ _ _ hw
      have hstops := stops_spread rest hoff hintact.tail
        (fun hmoved => (isCalm_cons (hcalm hmoved)).1 rfl) hps
      have hnew : spread spans tail qs (⟨gap, .word, w, none⟩ :: (ws.map Token.spaced ++ us))
          = plains gap ++ (named spans (Words.join (w :: ws)) ++ spread spans tail qs us) := by
        rw [spread, source_cons, source_append, List.append_assoc gap, ← List.append_assoc w,
          source_spaced, List.append_assoc, List.append_assoc, (Intact.of_plain hplain).named_append,
          hexchange.intact.named_append, Masked.named_of_plain hplain, List.append_assoc,
          List.append_assoc, spread]
      rw [spread_cons hplain htext, hnew]
      have hfollows : ∀ p, isWall p = true → Follows (p :: (named spans (c :: cs) ++ spread spans tail ps ts))
          (p :: (named spans (Words.join (w :: ws)) ++ spread spans tail qs us)) := by
        intro p hp
        exact Follows.word hp (hexchange.left.append _) (hexchange.right.append _)
          (hexchange.step _ _ hstops (hset hoff))
      obtain ⟨hwalls, hgaps⟩ := Follows.blanks hgap hfollows
      refine ⟨hwalls, fun hoff' => hgaps ?_⟩
      simpa [isSetOff] using hoff'

/-- **The words of a value may be moved** if they are read where they stand in the source. -/
theorem movable_of_reads (hreads : Value.Reads tail ts) (hmarked : isMarked ts = true)
    (hintact : AllIntact spans ts) (hclosed : ∀ w ∈ words ts, isClosed w = true)
    (hstarts : ∀ w ∈ words ts, StartsWord (named spans w)) (hback : ∀ w ∈ words ts, '\\' ∉ w)
    (hcalm : isCalm spans ts = true) (hps : isFence ps = true) {joined : Bool} {p : Piece}
    {xs : List Piece} (h : Piece.Reads joined (xs ++ p :: spread spans tail ps ts))
    (hp : isWall p = true ∨ isSetOff ts = true) : ∀ w ∈ words ts, Movable spans w := by
  induction hreads generalizing xs p with
  | nil => intro w hw; cases hw
  | @cons gap cs kind c ts hgap hc hat rest ih =>
    obtain ⟨hplain, htext⟩ := hintact _ List.mem_cons_self
    rw [spread_cons hplain htext] at h
    obtain ⟨hurl, hcalm'⟩ := isCalm_cons hcalm
    have hmarked' := Value.isMarked_tail hmarked
    by_cases hkind : kind = .word
    · subst hkind
      rw [words_word rfl, List.forall_mem_cons] at hclosed hstarts hback ⊢
      simp only at h
      have hoff := isSetOff_of_word hat rest hmarked'
      have hfence : stops true (spread spans tail ps ts) = true :=
        stops_spread rest hoff hintact.tail (fun _ => hurl rfl) hps
      have hword := Value.isWordText_of_tokenAt hc (Value.ne_opener_of_isMarked hmarked) hat
      obtain ⟨ys, x, hlast, hx, hmem⟩ := exists_last_of_closed htext
        (fun _ _ hi => ⟨_, List.getElem?_eq_getElem hi.2⟩) (List.cons_ne_nil c cs)
        (Value.outerLength_of_isWordText hword) (isClosed_iff.mp hclosed.1)
      have hxs : x ≠ '\\' := by
        rintro rfl
        exact hback.1 hmem
      have hmovable : Movable spans (c :: cs) := by
        have hne : isWall p = true ∨ plains gap ≠ [] := by
          refine hp.imp_right fun hoff => ?_
          simpa [isSetOff, plains] using hoff
        obtain ⟨zs, q, hq, hwall⟩ := exists_wall (isWall_of_mem_plains hgap) hne
        have hregroup : xs ++ p :: (plains gap ++ (named spans (c :: cs) ++ spread spans tail ps ts))
            = (xs ++ zs) ++ q :: (named spans (c :: cs) ++ spread spans tail ps ts) := by
          rw [← List.cons_append, hq]
          simp
        rw [hregroup] at h
        exact .of_reads hstarts.1 htext hlast hx hxs hwall hfence h
      have hregroup : xs ++ p :: (plains gap ++ (named spans (c :: cs) ++ spread spans tail ps ts))
          = (xs ++ p :: (plains gap ++ ys)) ++ .plain x :: spread spans tail ps ts := by
        simp [hlast]
      rw [hregroup] at h
      exact ⟨hmovable, ih hmarked' hintact.tail hclosed.2 hstarts.2 hback.2 hcalm' h (.inr hoff)⟩
    · obtain ⟨q, hq, hwall, -⟩ := exists_piece_of_tokenAt hat hkind htext gap
      simp only at h
      rw [words_other hkind] at hclosed hstarts hback ⊢
      have hregroup : xs ++ p :: (plains gap ++ ([q] ++ spread spans tail ps ts))
          = (xs ++ p :: plains gap) ++ q :: spread spans tail ps ts := by
        simp
      rw [hq, hregroup] at h
      exact ih hmarked' hintact.tail hclosed hstarts hback hcalm' h (.inl hwall)

end Tokens

end BidiSheet
