import BidiSheet.Proofs.Byte.Extent
import BidiSheet.Proofs.Hidden
import BidiSheet.Proofs.Unit.End

/-!
# What a no-flip comment guards

A no-flip span begins with a no-flip comment and reaches as far as the comment guards: over the declaration
or the rule behind it, which is read in units, byte by byte (`Masked.noFlip_extent`). What follows the
comment in the source decides where the span ends, and nothing that stands before it.
-/

namespace BidiSheet

open HasSign (sign)

/-- Two texts that begin with as many bytes begin alike. -/
theorem eq_of_byteSize_eq {s s' t t' : Text} (h : s ++ t = s' ++ t') (hsize : byteSize s = byteSize s') :
    s = s' ∧ t = t' := by
  have htake := takeBytes_append s t
  have hdrop := dropBytes_append s t
  rw [h, hsize] at htake hdrop
  rw [takeBytes_append] at htake
  rw [dropBytes_append] at hdrop
  exact ⟨htake.symm, hdrop.symm⟩

/-- The first unit of the bytes at a comment is the comment. -/
theorem Extent.cutsInto_bytes_comment_iff {c : Char} {cs : Text} (h : opensComment c cs = true)
    {us : List (List UInt8)} :
    CutsInto (bytes (c :: cs)) us ↔ ∃ vs, us = bytes (c :: cs.take (comment cs.tail + 1)) :: vs ∧
      CutsInto (bytes (cs.drop (comment cs.tail + 1))) vs := by
  cases cs with
  | nil => simp [opensComment] at h
  | cons d ds =>
    obtain ⟨hslash, hstar⟩ : sign c = .slash ∧ sign d = .star := by simpa [opensComment] using h
    obtain ⟨-, b, hb, hbytes⟩ := exists_single (c := c) (by simp [hslash])
    obtain ⟨-, b', hb', hbytes'⟩ := exists_single (c := d) (by simp [hstar])
    have htake : (bytes ds).take (byteSize (ds.take (comment ds))) = bytes (ds.take (comment ds)) := by
      have h := take_bytes (ds.take (comment ds)) (ds.drop (comment ds))
      rwa [List.take_append_drop] at h
    rw [hbytes, hbytes', cutsInto_cons_iff, unit_comment (hb.trans hslash) (hb'.trans hstar),
      comment_bytes, List.take_succ_cons, List.drop_succ_cons, htake, drop_bytes_take, List.tail_cons,
      List.take_succ_cons, List.drop_succ_cons, hbytes, hbytes']

namespace Masked

/-- The scanner meets a no-flip comment in a source, behind `before`: what comes there is in no span that
has begun before, is not escaped, and has a no-flip comment for its first unit. The units of `rest`, which
follows the comment, are `us`. -/
structure MeetsNoFlip (source before comment rest : Text) (us : List (List UInt8)) : Prop where
  eq_append : source = before ++ (comment ++ rest)
  not_within : ∀ span ∈ (ofSource source).spans,
    ¬ (span.start < byteSize before ∧ byteSize before < span.stop)
  not_isEscapedAt : isEscapedAt (ofSource source).spans (bytes source) (byteSize before) = false
  opens : (bytes comment).take 2 = [0x2F, 0x2A]
  isNoFlip : Piece.isNoFlip comment = true
  cutsInto : Extent.CutsInto (bytes (comment ++ rest)) (bytes comment :: us)

/-- A span ends behind its own bytes. -/
theorem stop_of_mem_spansFrom {offset : Nat} {ps : List Piece} {span : Span}
    (h : span ∈ spansFrom offset ps) : span.stop = span.start + byteSize span.text := by
  induction ps generalizing offset with
  | nil => exact absurd h List.not_mem_nil
  | cons p ps ih =>
    cases p with
    | plain c => exact ih h
    | kept kind t =>
      rcases List.mem_cons.mp h with rfl | h
      · rfl
      · exact ih h

section

variable {source before comment rest : Text} {us : List (List UInt8)}

/-- A span of a source begins with a character at which something is kept. -/
theorem exists_keptAt {span : Span} (h : span ∈ (ofSource source).spans) :
    ∃ before c u rest joined, source = before ++ c :: (u ++ rest) ∧ span.start = byteSize before ∧
      span.stop = byteSize before + byteSize (c :: u) ∧
      Piece.keptAt joined c (u ++ rest) = some (span.kind, u.length) := by
  have hsound : Piece.Sound (pieces source) := Piece.sound_cut false source
  have hreads : Piece.Reads false (pieces source) := Piece.reads_cut false source
  have hsource := Piece.source_pieces source
  obtain ⟨vs, ws, hps, hstart⟩ := exists_of_mem_spansFrom h
  have hstop := stop_of_mem_spansFrom h
  rw [hps] at hsound hreads hsource
  obtain ⟨c, u, htext⟩ : ∃ c u, span.text = c :: u :=
    List.exists_cons_of_ne_nil (hsound.text_ne_nil (.kept span.kind span.text) (by simp))
  rw [htext] at hreads hsource
  refine ⟨Piece.source vs, c, u, Piece.source ws, _, ?_, hstart, ?_, hreads.keptAt_kept.2⟩
  · rw [← hsource]
    simp
  · rw [hstop, hstart, htext]

/-- Two spans of a source do not overlap. -/
theorem not_within_of_mem {span span' : Span} (h : span ∈ (ofSource source).spans)
    (h' : span' ∈ (ofSource source).spans) : ¬ (span'.start < span.start ∧ span.start < span'.stop) := by
  rintro ⟨hstart, hstop⟩
  have hapart : (ofSource source).spans.Pairwise fun a b => a.stop ≤ b.start ∨ b.stop ≤ a.start :=
    (pairwise_spansFrom 0 (pieces source)).imp .inl
  have hsymm : Std.Symm fun a b : Span => a.stop ≤ b.start ∨ b.stop ≤ a.start := ⟨fun _ _ => Or.symm⟩
  have hle : span.start ≤ span.stop := by
    rw [stop_of_mem_spansFrom h]
    exact Nat.le_add_right _ _
  rcases hapart.forall h h' (by rintro rfl; omega) with hbefore | hafter
  · omega
  · omega

namespace MeetsNoFlip

/-- A comment that is met is the one that the scanner of comments reads, and what follows it is cut into
units. -/
theorem front (h : MeetsNoFlip source before comment rest us) :
    ∃ c cs, comment ++ rest = c :: cs ∧ Extent.opensComment c cs = true ∧
      comment = c :: cs.take (Extent.comment cs.tail + 1) ∧
      rest = cs.drop (Extent.comment cs.tail + 1) ∧ Extent.CutsInto (bytes rest) us := by
  have hlen : 2 ≤ (bytes comment).length := by
    have hlen := congrArg List.length h.opens
    rw [List.length_take, List.length_cons, List.length_singleton] at hlen
    omega
  have hopens : (bytes (comment ++ rest)).take 2 = [0x2F, 0x2A] := by
    rw [bytes_append, List.take_append_of_le_length hlen, h.opens]
  obtain ⟨c, cs, hcs⟩ : ∃ c cs, comment ++ rest = c :: cs := by
    refine List.exists_cons_of_ne_nil fun hnil => ?_
    rw [hnil] at hopens
    cases hopens
  rw [hcs] at hopens
  have hcomment : Extent.opensComment c cs = true := by
    have hbytes := Piece.opens_bytes [] c cs .comment
    rw [Byte.opens, hopens] at hbytes
    exact hbytes.symm
  have hcut := h.cutsInto
  rw [hcs, Extent.cutsInto_bytes_comment_iff hcomment] at hcut
  obtain ⟨vs, hvs, hrest⟩ := hcut
  obtain ⟨hfirst, rfl⟩ := List.cons.inj hvs
  have hsize := congrArg List.length hfirst
  rw [length_bytes, length_bytes] at hsize
  have happend : comment ++ rest = c :: cs.take (Extent.comment cs.tail + 1)
      ++ cs.drop (Extent.comment cs.tail + 1) := by
    rw [hcs, List.cons_append, List.take_append_drop]
  obtain ⟨hcomment', hrest'⟩ := eq_of_byteSize_eq happend hsize
  exact ⟨c, cs, hcs, hcomment, hcomment', hrest', hrest' ▸ hrest⟩

/-- Where a comment is met, a span begins. -/
theorem exists_span (h : MeetsNoFlip source before comment rest us) :
    ∃ span ∈ (ofSource source).spans, span.start = byteSize before := by
  obtain ⟨c, cs, hcs, hcomment, -⟩ := h.front
  have hopens : Byte.opensAt (bytes source) (byteSize before) .comment = true := by
    rw [h.eq_append, hcs, Byte.opensAt, take_bytes, drop_bytes, Piece.opens_bytes]
    exact hcomment
  rcases hkept : isKeptAt (ofSource source).spans (byteSize before) with _ | _
  · have houtside := opensAt_outside (Piece.reads_cut false source) (Piece.sound_cut false source) hkept
    rw [Piece.source_cut] at houtside
    have hnone := houtside.2 h.not_isEscapedAt .comment
    rw [hopens] at hnone
    cases hnone
  · obtain ⟨span, hspan, hcovers⟩ := List.any_eq_true.mp hkept
    rw [Bool.and_eq_true, decide_eq_true_eq, decide_eq_true_eq] at hcovers
    refine ⟨span, hspan, ?_⟩
    by_contra hne
    exact h.not_within span hspan ⟨by omega, hcovers.2⟩

/-- The span that begins with a comment that is met reaches as far as the comment guards. -/
theorem span_eq (h : MeetsNoFlip source before comment rest us) {span : Span}
    (hspan : span ∈ (ofSource source).spans) (hstart : span.start = byteSize before) :
    span.kind = .noFlip ∧
      span.stop = byteSize before + byteSize comment + Extent.target (bytes rest) := by
  obtain ⟨c, cs, hcs, hcomment, hfirst, hrest, -⟩ := h.front
  obtain ⟨before', d, u, rest', joined, hsource, hstart', hstop, hkept⟩ := exists_keptAt hspan
  obtain ⟨rfl, hbehind⟩ := eq_of_byteSize_eq (h.eq_append.symm.trans hsource) (hstart.symm.trans hstart')
  obtain ⟨rfl, rfl⟩ := List.cons.inj (hcs.symm.trans hbehind)
  have hflip := h.isNoFlip
  rw [hfirst] at hflip
  rw [Piece.keptAt_noFlip hcomment rfl hflip, Option.some_inj, Prod.mk.injEq] at hkept
  obtain ⟨hkind, hlen⟩ := hkept
  refine ⟨hkind.symm, ?_⟩
  have htext : c :: u = comment ++ rest.take (Extent.target rest) := by
    rw [hfirst, hrest, List.cons_append, ← List.take_add, hlen, List.take_left]
  rw [hstop, htext, byteSize_append, Extent.target_bytes]
  omega

end MeetsNoFlip

/-- A no-flip span begins with a no-flip comment that is met. -/
theorem exists_meetsNoFlip {span : Span} (h : span ∈ (ofSource source).spans)
    (hkind : span.kind = .noFlip) :
    ∃ before comment rest us, MeetsNoFlip source before comment rest us ∧
      span.start = byteSize before := by
  obtain ⟨before, c, u, rest, joined, hsource, hstart, -, hkept⟩ := exists_keptAt h
  obtain ⟨hcomment, hflip⟩ := Piece.of_keptAt_noFlip (hkind ▸ hkept)
  have hcut := (Extent.cutsInto_bytes_comment_iff hcomment).mpr
    ⟨_, rfl, Extent.cutsInto_units (bytes ((u ++ rest).drop (Extent.comment (u ++ rest).tail + 1)))⟩
  generalize hm : Extent.comment (u ++ rest).tail + 1 = m at hcut hflip
  have hopened := opened_of_mem_spansFrom (Piece.reads_cut false source) (Piece.sound_cut false source) h
  rw [Piece.source_cut] at hopened
  have happend : c :: (u ++ rest).take m ++ (u ++ rest).drop m = c :: (u ++ rest) := by
    rw [List.cons_append, List.take_append_drop]
  refine ⟨before, _, _, _, ⟨?_, ?_, ?_, ?_, hflip, by rw [happend]; exact hcut⟩, hstart⟩
  · rw [happend, hsource]
  · intro span' hspan'
    rw [← hstart]
    exact not_within_of_mem h hspan'
  · rw [← hstart]
    exact hopened.not_isEscapedAt (by rw [hkind]; decide)
  · rw [← hm]
    cases hcs : u ++ rest with
    | nil => simp [hcs, Extent.opensComment] at hcomment
    | cons d ds =>
      obtain ⟨rfl, rfl⟩ : c = '/' ∧ d = '*' := by
        simpa [hcs, Extent.opensComment, sign_eq_slash_iff, sign_eq_star_iff] using hcomment
      rfl

end

/-- **A no-flip span reaches as far as its comment guards.** Wherever the scanner meets a no-flip comment, a
no-flip span begins with it, and it ends at the one place that the units of what follows the comment
determine; and every no-flip span begins with such a comment. -/
theorem noFlip_extent (source : Text) :
    (∀ before comment rest us, MeetsNoFlip source before comment rest us →
      ∃ span ∈ (ofSource source).spans, span.kind = .noFlip ∧ span.start = byteSize before ∧
        ∃ n, (∀ m, Extent.Guards us m ↔ m = n) ∧
          span.stop = byteSize before + byteSize comment + n) ∧
    ∀ span ∈ (ofSource source).spans, span.kind = .noFlip →
      ∃ before comment rest us, MeetsNoFlip source before comment rest us ∧
        span.start = byteSize before := by
  refine ⟨fun before comment rest us h => ?_, fun span => exists_meetsNoFlip⟩
  obtain ⟨span, hspan, hstart⟩ := h.exists_span
  obtain ⟨hkind, hstop⟩ := h.span_eq hspan hstart
  obtain ⟨-, -, -, -, -, -, hcut⟩ := h.front
  exact ⟨span, hspan, hkind, hstart, _, fun m => Extent.guards_iff hcut, hstop⟩

/-- Behind the comment of `é/*noflip*/(;)\é;b` a semicolon stands in brackets, and a backslash takes along
only the first byte of `é`. -/
theorem noFlip_extent_escaped :
    let source := "é/*noflip*/(;)\\é;b".toList
    let us : List (List UInt8) := [[0x28], [0x3B], [0x29], [0x5C, 0xC3], [0xA9], [0x3B], [0x62]]
    MeetsNoFlip source "é".toList "/*noflip*/".toList "(;)\\é;b".toList us ∧
      ∃ span ∈ (ofSource source).spans, span.kind = .noFlip ∧ span.start = 2 ∧ span.stop = 19 ∧
        ∀ m, Extent.Guards us m ↔ m = 7 := by
  intro source us
  have hmeets : MeetsNoFlip source "é".toList "/*noflip*/".toList "(;)\\é;b".toList us :=
    { eq_append := by decide +kernel
      not_within := by decide +kernel
      not_isEscapedAt := by decide +kernel
      opens := by decide +kernel
      isNoFlip := by decide +kernel
      cutsInto := by decide +kernel }
  obtain ⟨span, hspan, hkind, hstart, n, hguards, hstop⟩ := (noFlip_extent source).1 _ _ _ _ hmeets
  have hend : ∀ span ∈ (ofSource source).spans, span.stop = 19 := by decide +kernel
  have hsize : byteSize "é".toList = 2 ∧ byteSize "/*noflip*/".toList = 10 := by decide
  rw [hsize.1, hsize.2, hend span hspan] at hstop
  obtain rfl : n = 7 := by omega
  exact ⟨hmeets, span, hspan, hkind, hstart, hend span hspan, hguards⟩

end Masked

end BidiSheet
