import BidiSheet.Proofs.Follows
import BidiSheet.Proofs.Guard
import BidiSheet.Proofs.Unit.End

/-!
# Text behind the last block

Text behind the last block of a stylesheet is copied, whatever it says, if one of the blocks is an ordinary
one. But a font face, or a rule behind a no-flip comment, is kept as one stretch with its braces inside. A
stylesheet that has no other blocks reads like a bare declaration, and text behind the last block is taken
for one (`Style.reflect_append_trailing`).

A font face or a guarded rule that has the brace which closes its block (`Extent.ClosesBlock`) ends there
whatever follows. So the pieces of the stylesheet and of the text behind it are cut one after the other
(`pieces_append_of_closesBlock`), and the text, which has no delimiters, goes on where the tail of the masked
stylesheet ends (`reflectText_append_copied`, `reflectText_append_declared`).
-/

namespace BidiSheet

open HasSign (sign)

namespace Extent

variable {α : Type} [HasSign α] {us vs ws : List (List α)} {t : List α}

/-! ### Rules with their blocks -/

/-- Units make up a rule, up to the brace that closes its block. -/
inductive IsRule : List (List α) → Prop where
  | mk {vs ws : List (List α)} {o d : List α} (hcalm : Calm 0 vs) (ho : isSign .openBrace o = true)
      (hpending : Pending 0 ws)
      (hcount : ws.countP (isSign .closeBrace) = ws.countP (isSign .openBrace))
      (hd : isSign .closeBrace d = true) : IsRule (vs ++ o :: (ws ++ [d]))

/-- A text is a rule up to the brace that closes its block, behind blanks and comments. -/
def ClosesBlock (t : List α) : Prop := IsRule ((units t).dropWhile isTrivia)

namespace IsRule

theorem ne_nil (h : IsRule us) : us ≠ [] := by
  cases h
  simp

/-- The last unit of a rule is its closing brace. -/
theorem exists_concat (h : IsRule us) : ∃ vs d, us = vs ++ [[d]] ∧ sign d = .closeBrace := by
  cases h with
  | @mk vs ws o d _ _ _ _ hd =>
    obtain ⟨d, rfl, hsign⟩ := exists_of_isSign hd
    exact ⟨vs ++ o :: ws, d, by simp, hsign⟩

/-- A rule is something to guard. -/
theorem isOver_eq_false (h : IsRule us) (ws : List (List α)) : isOver (us ++ ws) = false := by
  cases h with
  | @mk vs ws o d hcalm ho _ _ _ =>
    cases vs with
    | nil => simp [isOver, isSign_eq_false ho]
    | cons v vs =>
      have hv := (calm_cons_iff.mp hcalm).1
      simp only [halts, decide_true, Bool.true_and, Bool.or_eq_false_iff] at hv
      simp [isOver, hv]

/-- A rule ends with its block, whatever follows. -/
theorem ruleEnds (h : IsRule us) (ws : List (List α)) : RuleEnds 0 (us ++ ws) us.flatten.length := by
  cases h with
  | @mk vs us o d hcalm ho hpending hcount hd =>
    have hblock : BlockEnds 0 (us ++ d :: ws) (us.flatten.length + 1) := .balanced hpending hcount hd
    have hrule : RuleEnds 0 (vs ++ o :: (us ++ d :: ws))
        (vs.flatten.length + (us.flatten.length + 1 + 1)) :=
      .first hcalm (by simp [halts, ho]) (.openBrace ho hblock)
    obtain ⟨o, rfl, -⟩ := exists_of_isSign ho
    obtain ⟨d, rfl, -⟩ := exists_of_isSign hd
    have hlen : (vs ++ [o] :: (us ++ [[d]])).flatten.length
        = vs.flatten.length + (us.flatten.length + 1 + 1) := by
      simp only [List.flatten_append, List.flatten_cons, List.flatten_nil, List.length_append,
        List.length_cons, List.length_nil]
      omega
    rw [hlen]
    simpa using hrule

end IsRule

/-- What a no-flip comment guards ends with a rule's block, whatever follows. -/
theorem guards_of_isRule (h : IsRule (us.dropWhile isTrivia)) (ws : List (List α)) :
    Guards (us ++ ws) us.flatten.length := by
  have hdrop : (us ++ ws).dropWhile isTrivia = us.dropWhile isTrivia ++ ws := by
    rw [List.dropWhile_append, if_neg (by simpa using h.ne_nil)]
  have htake : (us ++ ws).takeWhile isTrivia = us.takeWhile isTrivia := by
    have hsplit : (us ++ ws).takeWhile isTrivia ++ (us.dropWhile isTrivia ++ ws) = us ++ ws := by
      rw [← hdrop, List.takeWhile_append_dropWhile]
    rw [← List.append_assoc, List.append_cancel_right_eq] at hsplit
    have hself := List.takeWhile_append_dropWhile (p := isTrivia) (l := us)
    exact List.append_cancel_right (hsplit.trans hself.symm)
  have hguards : Guards (us ++ ws)
      (((us ++ ws).takeWhile isTrivia).flatten.length + (us.dropWhile isTrivia).flatten.length) :=
    .rule (by rw [hdrop]; exact h.isOver_eq_false ws) (by rw [hdrop]; exact h.ruleEnds ws)
  rwa [htake, ← List.length_append, ← List.flatten_append, List.takeWhile_append_dropWhile] at hguards

namespace ClosesBlock

variable (h : ClosesBlock t)
include h

/-- The last unit is the brace that closes the block. -/
theorem exists_units : ∃ vs d, units t = vs ++ [[d]] ∧ sign d = .closeBrace := by
  obtain ⟨vs, d, hvs, hd⟩ := IsRule.exists_concat h
  refine ⟨(units t).takeWhile isTrivia ++ vs, d, ?_, hd⟩
  rw [List.append_assoc, ← hvs, List.takeWhile_append_dropWhile]

/-- A rule ends in its closing brace. -/
theorem endsIn : EndsIn (· = .closeBrace) t := by
  obtain ⟨vs, d, hvs, hd⟩ := h.exists_units
  have hflat := (cutsInto_units t).flatten_eq
  rw [hvs, List.flatten_append, List.flatten_singleton] at hflat
  exact ⟨vs.flatten, d, hflat.symm, hd⟩

/-- A rule is cut into the same units whatever follows. -/
theorem cutsInto_append (rest : List α) : CutsInto (t ++ rest) (units t ++ units rest) := by
  have hcut := cutsInto_units t
  obtain ⟨vs, d, hvs, hd⟩ := h.exists_units
  refine hcut.append ?_ ?_ (cutsInto_units rest)
  · rw [hvs] at hcut ⊢
    exact hcut.not_unclosed (by simp [hd, Sign.isQuote]) (by simp [hd])
  · obtain ⟨w, e, rfl, he⟩ := h.endsIn
    intro c hc
    rw [List.getLast?_concat, Option.some_inj] at hc
    simp [opensComment, ← hc, he]

/-- A rule is guarded whole whatever follows. -/
theorem target_append (rest : List α) : target (t ++ rest) = t.length := by
  have hguards := (guards_iff (h.cutsInto_append rest)).mp (guards_of_isRule h (units rest))
  rw [← hguards, (cutsInto_units t).flatten_eq]

end ClosesBlock

end Extent

/-! ### Pieces that close a block -/

namespace Piece

section

variable {joined : Bool} {c : Char} {u : Text}

/-- What opens with a comment and closes a block has the rule behind the comment. -/
theorem exists_rule_of_opensComment (h : Extent.ClosesBlock (c :: u))
    (hcomment : Extent.opensComment c u = true) :
    ∃ d u₁ u₂, u = d :: (u₁ ++ u₂) ∧ Extent.comment (u₁ ++ u₂) = u₁.length ∧
      Extent.ClosesBlock u₂ ∧ u₂ ≠ [] := by
  cases u with
  | nil => simp [Extent.opensComment] at hcomment
  | cons d u =>
    obtain ⟨hslash, hstar⟩ : sign c = .slash ∧ sign d = .star := by
      simpa [Extent.opensComment] using hcomment
    obtain ⟨u₁, u₂, rfl, hl⟩ := Extent.exists_split (Extent.comment_le u)
    have hunit := Extent.unit_comment hslash hstar (u₁ ++ u₂)
    rw [Extent.ClosesBlock, Extent.units, hunit, ← hl, List.take_succ_cons, List.drop_succ_cons,
      List.drop_left, List.dropWhile_cons_of_pos (by simp [Extent.isTrivia, hslash, hstar])] at h
    refine ⟨d, u₁, u₂, rfl, hl.symm, h, ?_⟩
    obtain ⟨w, e, rfl, -⟩ := Extent.ClosesBlock.endsIn h
    simp

variable (hclosed : Extent.ClosesBlock (c :: u))
include hclosed

/-- A no-flip comment with a rule that has its end is kept, whatever follows. -/
theorem keptAt_noFlip_append (h : keptAt joined c u = some (.noFlip, u.length)) (rest : Text) :
    keptAt joined c (u ++ rest) = some (.noFlip, u.length) := by
  obtain ⟨hcomment, hflip⟩ := of_keptAt_noFlip h
  obtain ⟨d, u₁, u₂, rfl, hend, hrule, hne⟩ := exists_rule_of_opensComment hclosed hcomment
  rw [List.tail_cons, hend, List.take_succ_cons, List.take_left] at hflip
  have hend' : Extent.comment (u₁ ++ (u₂ ++ rest)) = u₁.length := Extent.comment_congr hne _ hend
  have hopens : Extent.opensComment c (d :: (u₁ ++ (u₂ ++ rest))) = true := hcomment
  rw [List.cons_append, List.append_assoc, keptAt_noFlip_cons hopens hend' hflip, hrule.target_append,
    ← List.length_append, List.cons_append]

/-- A font face that has its end is kept, whatever follows. -/
theorem keptAt_fontFace_append (h : keptAt joined c u = some (.fontFace, u.length)) (rest : Text) :
    keptAt joined c (u ++ rest) = some (.fontFace, u.length) := by
  have hface : opensFontFace (c :: u) = true := by
    rcases keptAt_cases h with ⟨-, -, hne, -⟩ | ⟨-, -, -, hne, -⟩ | ⟨-, hne, -⟩ | ⟨-, hne, -⟩ |
      ⟨hface, -, -⟩ | ⟨-, hne, -⟩
    case inr.inr.inr.inr.inl => exact hface
    all_goals cases hne
  obtain ⟨rfl, -⟩ := of_opensFontFace hface
  obtain ⟨e, he, hident⟩ : ∃ e ∈ u, isIdent e = false := by
    obtain ⟨w, e, hw, he⟩ := hclosed.endsIn
    have hmem : e ∈ '@' :: u := by simp [hw]
    rcases List.mem_cons.mp hmem with rfl | hmem
    · exact absurd he (by decide)
    · exact ⟨e, hmem, not_isIdent_of_sign (by simp [he])⟩
  have hopens : opensFontFace ('@' :: (u ++ rest)) = true := by
    rwa [← opensFontFace_window, window_append he hident, opensFontFace_window]
  -- behind its first character a font face is measured like a guarded rule
  have htarget := hclosed.target_append rest
  have htrivia : Extent.trivia ('@' :: (u ++ rest)) = 0 :=
    Extent.trivia_stop (by decide) (opensComment_of_sign (by decide) _)
  have hunit : Extent.unit '@' (u ++ rest) = 0 :=
    Extent.unit_eq_zero (by decide) (by decide) (by decide) _
  rw [List.cons_append, Extent.target_eq (by rw [htarget]; simp), htrivia,
    List.drop_zero, Extent.rule_unit (by decide), hunit, List.drop_zero, List.length_cons] at htarget
  rw [keptAt_fontFace hopens]
  congr 2
  omega

end

/-- The last piece of a source closes a block: it is a closing brace, or a font face or a guarded rule up to
the brace that closes its block. -/
def ClosesBlock : Piece → Prop
  | .plain c => c = closeBrace
  | .kept kind t => (kind = .noFlip ∨ kind = .fontFace) ∧ Extent.ClosesBlock t

/-- Anything may follow a closing brace. -/
theorem follows_closeBrace {qs : List Piece} (hqs : Reads false qs) :
    Follows [.plain closeBrace] (.plain closeBrace :: qs) where
  head := rfl
  idle _ := by simp [isIdle, closeBrace]
  reads joined _ := by
    refine ⟨.pause (by decide) hqs, ?_⟩
    rw [source_plain, source_plain, window_stop (by decide) (by decide), window_stop (by decide) (by decide)]
  escaped c ps' heq _ := by
    cases heq
    exact ⟨qs, rfl, hqs⟩

/-- Anything may follow a stretch that closes a block. -/
theorem follows_kept {kind : SpanKind} {t : Text} (h : ClosesBlock (.kept kind t)) {joined : Bool}
    (hreads : Reads joined [.kept kind t]) {qs : List Piece} (hqs : Reads false qs) :
    Follows [.kept kind t] (.kept kind t :: qs) where
  head := rfl
  idle hidle := by
    cases hreads with
    | @kept _ _ c u _ hkept _ =>
      rcases h with ⟨rfl | rfl, hclosed⟩
      · -- the comment guards the rule
        rw [source_nil, List.append_nil] at hkept
        obtain ⟨d, u₁, u₂, rfl, hend, -, hne⟩ :=
          exists_rule_of_opensComment hclosed (of_keptAt_noFlip hkept).1
        have hbare : isBare (c :: d :: (u₁ ++ u₂)) = true := by
          rw [isIdle, Bool.and_eq_true] at hidle
          exact hidle.1
        rw [isBare, decide_eq_true_eq, List.drop_succ_cons, List.drop_succ_cons, List.drop_zero,
          hend] at hbare
        simp only [List.length_cons, List.length_append] at hbare
        exact absurd (List.length_eq_zero_iff.mp (by omega)) hne
      · cases hidle
  reads joined' hreads' := by
    obtain ⟨w, e, rfl, he⟩ := h.2.endsIn
    have hident : isIdent e = false := not_isIdent_of_sign (by simp [he])
    constructor
    · generalize ht : w ++ [e] = t at hreads' h ⊢
      cases hreads' with
      | @kept _ _ c u _ hkept _ =>
        have hjoined : endsJoined (c :: u) = false := by
          rw [endsJoined, ← ht, List.getLast?_concat, Option.any_some, hident]
        refine .kept ?_ (hjoined ▸ hqs)
        rw [source_nil, List.append_nil] at hkept
        rcases h with ⟨rfl | rfl, hclosed⟩
        · exact keptAt_noFlip_append hclosed hkept _
        · exact keptAt_fontFace_append hclosed hkept _
    · have hmem : e ∈ w ++ [e] := by simp
      rw [source_kept, source_kept, window_append hmem hident, window_append hmem hident]
  escaped c ps' heq _ := by cases heq

end Piece

/-- **A source that ends with a block is cut without regard to what follows.** -/
theorem pieces_append_of_closesBlock {a : Text} {ps : List Piece} {p : Piece} (h : pieces a = ps ++ [p])
    (hp : p.ClosesBlock) (b : Text) : pieces (a ++ b) = pieces a ++ pieces b := by
  have hreads : Piece.Reads false (ps ++ [p]) := h ▸ Piece.reads_cut false a
  have hfollows : Piece.Follows [p] (p :: pieces b) := by
    cases p with
    | plain c =>
      obtain rfl : c = closeBrace := hp
      exact Piece.follows_closeBrace (Piece.reads_cut false b)
    | kept kind t =>
      obtain ⟨joined, hlast⟩ | ⟨c, qs, heq, -⟩ := hreads.of_append
      · exact Piece.follows_kept hp hlast (Piece.reads_cut false b)
      · cases heq
  have hcut := Piece.cut_of_reads ((hfollows.append ps).reads false hreads).1
  rw [List.append_cons, ← h, Piece.source_append, Piece.source_pieces, Piece.source_pieces] at hcut
  exact hcut

/-! ### Texts without delimiters -/

section

variable {s t : Text}

/-- A text without delimiters is a tail. -/
theorem Segments.read_of_no_delimiter (ht : ∀ c ∈ t, isDelimiter c = false) : read t = ⟨[], t⟩ := by
  have hread := read_append_of_no_delimiter ht []
  rwa [List.append_nil, read, prepend, List.append_nil] at hread

/-- A text without delimiters goes on where the tail of another one ends. -/
theorem Segments.read_append_tail (s : Text) (ht : ∀ c ∈ t, isDelimiter c = false) :
    read (s ++ t) = ⟨(read s).closed, (read s).tail ++ t⟩ := by
  rw [read_append, read_of_no_delimiter ht, join, prepend, List.append_nil]

/-- A text has a brace exactly if its segments do. -/
theorem Segments.hasBrace_read_iff : (read t).hasBrace = true ↔ openBrace ∈ t ∨ closeBrace ∈ t := by
  refine ⟨fun h => ?_, hasBrace_read⟩
  induction t with
  | nil => cases h
  | cons c t ih =>
    have hlater : (read t).hasBrace = true → openBrace ∈ c :: t ∨ closeBrace ∈ c :: t :=
      fun hrest => (ih hrest).imp (List.mem_cons_of_mem c) (List.mem_cons_of_mem c)
    rw [read] at h
    split at h
    next hc =>
      have hor : (decide (c ≠ ';') || (read t).hasBrace) = true := h
      rw [isDelimiter] at hc
      simp only [Bool.or_eq_true, decide_eq_true_eq] at hc hor
      rcases hor with hne | hrest
      · rcases hc with (rfl | rfl) | rfl
        · exact .inl List.mem_cons_self
        · exact .inr List.mem_cons_self
        · exact absurd rfl hne
      · exact hlater hrest
    next =>
      rw [hasBrace_push] at h
      exact hlater h

/-- Where the tail of a text is copied, what follows it is copied as well. -/
theorem reflectText_append_copied (ht : ∀ c ∈ t, isDelimiter c = false)
    (hcopied : (Segments.read s).tailMayDeclare = false) (table : Table) :
    (reflectText table (s ++ t)).text = (reflectText table s).text ++ t := by
  have hcopied' : Segments.tailMayDeclare ⟨(Segments.read s).closed, (Segments.read s).tail ++ t⟩ = false :=
    hcopied
  rw [text_reflectText, text_reflectText, Segments.read_append_tail s ht, Segments.text, Segments.text,
    Segments.tail_reflect, Segments.tail_reflect, hcopied, hcopied', List.append_assoc]
  rfl

/-- Where a text has no braces, and its tail nothing but blanks and markers, what follows it is reflected as
if it came first. -/
theorem reflectText_append_declared (ht : ∀ c ∈ t, isDelimiter c = false)
    (hbrace : (Segments.read s).hasBrace = false)
    (htrivia : Declaration.trivia (Segments.read s).tail = (Segments.read s).tail.length) (table : Table) :
    (reflectText table (s ++ t)).text = (reflectText table s).text ++ (reflectText table t).text := by
  have hmay : ∀ tail, Segments.tailMayDeclare ⟨(Segments.read s).closed, tail⟩ = true := by
    intro tail
    have hbrace' : Segments.hasBrace ⟨(Segments.read s).closed, tail⟩ = false := hbrace
    rw [Segments.tailMayDeclare, hbrace', Bool.not_false, Bool.or_true]
  have hbody : (reflectText table t).text = reflectBody table t := by
    rw [text_reflectText, Segments.read_of_no_delimiter ht, Segments.text, Segments.tail_reflect]
    rfl
  rw [hbody, text_reflectText, text_reflectText, Segments.read_append_tail s ht, Segments.text, Segments.text,
    Segments.tail_reflect, Segments.tail_reflect, hmay, hmay (Segments.read s).tail, if_pos rfl, if_pos rfl,
    reflectBody_append htrivia, reflectBody_of_trivia htrivia, List.append_assoc]
  rfl

end

namespace Masked

variable {ps qs : List Piece}

/-- Markers are no delimiters. -/
theorem not_isDelimiter_maskText (h : ∀ c, .plain c ∈ ps → isDelimiter c = false) (id : Nat) :
    ∀ c ∈ maskText id ps, isDelimiter c = false := by
  induction ps generalizing id with
  | nil => exact fun c hc => absurd hc List.not_mem_nil
  | cons p ps ih =>
    have hrest := ih fun c hc => h c (List.mem_cons_of_mem p hc)
    cases p with
    | plain c => exact List.forall_mem_cons.mpr ⟨h c List.mem_cons_self, hrest id⟩
    | kept kind t =>
      exact List.forall_mem_append.mpr ⟨fun c => Segments.not_isDelimiter_of_mem_text, hrest (id + 1)⟩

/-- A text that has markers of the first pieces only names them, in front of others. -/
theorem named_append_left {x : Text} (hx : Intact (spansFrom 0 ps) x) (y : Text) :
    named (spansFrom 0 (ps ++ qs)) (x ++ y)
      = named (spansFrom 0 ps) x ++ named (spansFrom 0 (ps ++ qs)) y := by
  have hx' : Intact (spansFrom 0 (ps ++ qs)) x := by
    refine Alike.mono (fun i j hij => ⟨hij.1, ?_⟩) hx
    rw [spansFrom_append, List.length_append]
    exact Nat.lt_add_right _ hij.2
  rw [hx'.named_append, Alike.named_eq hx fun i j hij => sameSpan_append_left qs hij]

variable (hqs : Piece.Sound qs)
  (hcount : ps.countP Piece.isKept + qs.countP Piece.isKept ≤ Marker.bound)
include hqs hcount

/-- Behind other pieces, pieces that are masked with higher numbers are named again. -/
theorem named_append_right :
    named (spansFrom 0 (ps ++ qs)) (maskText (ps.countP Piece.isKept) qs) = qs := by
  have hnamed := named_maskText hqs (spansFrom 0 ps) [] (0 + byteSize (Piece.source ps))
    (by rwa [length_spansFrom])
  rwa [List.append_nil, ← spansFrom_append, length_spansFrom] at hnamed

/-- What is reflected names the same pieces with higher numbers. -/
theorem named_reflectText_right (table : Table) :
    named (spansFrom 0 (ps ++ qs)) (reflectText table (maskText (ps.countP Piece.isKept) qs)).text
      = named (spansFrom 0 qs) (reflectText table (maskText 0 qs)).text := by
  have hshifted := (alike_reflectText (alike_shifted hqs hcount) table).1
  exact (hshifted.named_eq fun i j hij => sameSpan_append_right ps hij).symm

end Masked

namespace Style

/-- With urls left alone, a reflection has the text that its pieces name. -/
theorem exists_reflect_eq (table : Table) {source : Text}
    (h : (pieces source).countP Piece.isKept ≤ Marker.bound) :
    ∃ sheet, reflect { table } source = .ok sheet ∧
      sheet.text = Piece.source (Masked.named (Masked.spansFrom 0 (pieces source))
        (reflectText table (Masked.ofSource source).text).text) := by
  refine ⟨_, reflect_eq { table } h, ?_⟩
  rw [Masked.swapUrls_default]
  rfl

/-- **What becomes of text behind the last block.** If all blocks are closed, and one of their braces is
outside the kept stretches, then it is copied. But if there are no blocks except font faces and guarded rules,
and nothing but those, blanks and comments behind the last semicolon, then it is reflected as if nothing stood
before it. -/
theorem reflect_append_trailing (table : Table) {a t : Text} {ps : List Piece} {p : Piece}
    (hbytes : byteSize (a ++ t) < Marker.bound) (hlast : pieces a = ps ++ [p]) (hclosed : p.ClosesBlock)
    (ht : ∀ c ∈ t, isDelimiter c = false) :
    ∃ A B S, reflect { table } a = .ok A ∧ reflect { table } t = .ok B ∧
      reflect { table } (a ++ t) = .ok S ∧
      (openBrace ∈ (Masked.ofSource a).text ∨ closeBrace ∈ (Masked.ofSource a).text →
        (Segments.read (Masked.ofSource a).text).depth = 0 → S.text = A.text ++ t) ∧
      (¬ (openBrace ∈ (Masked.ofSource a).text ∨ closeBrace ∈ (Masked.ofSource a).text) →
        Declaration.trivia (Segments.read (Masked.ofSource a).text).tail
          = (Segments.read (Masked.ofSource a).text).tail.length → S.text = A.text ++ B.text) := by
  have hpieces := pieces_append_of_closesBlock hlast hclosed t
  have hkept := Nat.le_of_lt (Masked.countP_isKept_pieces_lt hbytes)
  have hcount := hkept
  rw [hpieces, List.countP_append] at hcount
  have hsound : Piece.Sound (pieces t) := Piece.sound_cut false t
  have hintact : Masked.Intact (Masked.spansFrom 0 (pieces a))
      (reflectText table (Masked.ofSource a).text).text :=
    Masked.Intact.reflectText (Masked.intact_ofSource (by omega)) table
  have hplain : ∀ c ∈ Masked.maskText ((pieces a).countP Piece.isKept) (pieces t), isDelimiter c = false := by
    refine Masked.not_isDelimiter_maskText (fun c hc => ht c ?_) _
    rw [← Piece.source_pieces t]
    exact List.mem_flatMap.mpr ⟨_, hc, List.mem_singleton.mpr rfl⟩
  obtain ⟨A, hA, htextA⟩ := exists_reflect_eq table (by omega : (pieces a).countP Piece.isKept ≤ _)
  obtain ⟨B, hB, htextB⟩ := exists_reflect_eq table (by omega : (pieces t).countP Piece.isKept ≤ _)
  obtain ⟨S, hS, htextS⟩ := exists_reflect_eq table hkept
  have hmasked : (Masked.ofSource (a ++ t)).text
      = (Masked.ofSource a).text ++ Masked.maskText ((pieces a).countP Piece.isKept) (pieces t) := by
    rw [Masked.ofSource, hpieces, Masked.maskText_append, Nat.zero_add, Masked.ofSource]
  rw [hpieces, hmasked] at htextS
  refine ⟨A, B, S, hA, hB, hS, fun hbrace hdepth => ?_, fun hbrace htrivia => ?_⟩
  · have hcopied : (Segments.read (Masked.ofSource a).text).tailMayDeclare = false := by
      simp [Segments.tailMayDeclare, hdepth, Segments.hasBrace_read hbrace]
    rw [htextS, reflectText_append_copied hplain hcopied, Masked.named_append_left hintact,
      Masked.named_append_right hsound hcount, Piece.source_append, Piece.source_pieces, htextA]
  · rw [← Segments.hasBrace_read_iff, Bool.not_eq_true] at hbrace
    rw [htextS, reflectText_append_declared hplain hbrace htrivia, Masked.named_append_left hintact,
      Masked.named_reflectText_right hsound hcount, Piece.source_append, htextA, htextB]
    rfl

/-- Behind a guarded rule with a brace in a string, `left:hover` is copied: there is another block before. -/
theorem reflect_append_trailing_guarded :
    let a := ".x\x7bleft:0\x7d/*noflip*/b\x7bc:\"\x7d\"\x7d".toList
    let t := " left:hover".toList
    (pieces a).getLast? = some (.kept .noFlip "/*noflip*/b\x7bc:\"\x7d\"\x7d".toList) ∧
      ∃ A S, reflect {} a = .ok A ∧ reflect {} (a ++ t) = .ok S ∧ S.text = A.text ++ t := by
  intro a t
  have hlast : (pieces a).getLast? = some (.kept .noFlip "/*noflip*/b\x7bc:\"\x7d\"\x7d".toList) := by
    decide +kernel
  obtain ⟨ps, hps⟩ := List.getLast?_eq_some_iff.mp hlast
  have hclosed : Extent.ClosesBlock "/*noflip*/b\x7bc:\"\x7d\"\x7d".toList := by
    have hunits : (Extent.units "/*noflip*/b\x7bc:\"\x7d\"\x7d".toList).dropWhile Extent.isTrivia
        = [['b']] ++ [openBrace] :: ([['c'], [':'], "\"\x7d\"".toList] ++ [[closeBrace]]) := by
      decide +kernel
    rw [Extent.ClosesBlock, hunits]
    exact .mk (by decide) (by decide) (by decide) (by decide) (by decide)
  have hall : t.all (!isDelimiter ·) = true := by decide
  have ht : ∀ c ∈ t, isDelimiter c = false := by simpa using hall
  obtain ⟨A, B, S, hA, -, hS, hcopied, -⟩ :=
    reflect_append_trailing .standard (by decide : byteSize (a ++ t) < _) hps ⟨.inl rfl, hclosed⟩ ht
  exact ⟨hlast, A, S, hA, hS, hcopied (.inl (by decide +kernel)) (by decide +kernel)⟩

/-- Behind a font face alone `left:hover` is taken for a declaration. -/
theorem reflect_trailing_fontFace :
    let source := "@font-face\x7bsrc:local(a)\x7d left:hover".toList
    ∃ sheet, reflect {} source = .ok sheet ∧
      sheet.text = "@font-face\x7bsrc:local(a)\x7d right:hover".toList := by
  refine ⟨⟨"@font-face\x7bsrc:local(a)\x7d right:hover".toList, 1, 1, 1⟩, ?_⟩
  decide +kernel

end Style

end BidiSheet
