import BidiSheet.Proofs.Scanner

/-!
# Masking as a loop over bytes

A source can be masked in one pass over its bytes. The loop holds an offset, and the offset up to which the source has
been written out. Where a stretch opens, it writes out what lies before the stretch and then a marker, and it goes on
where the scanner of the stretch ends; elsewhere it goes on at the next byte, or behind an escaped one. Nothing in this
form says that the loop ends, or that it cuts the source between two characters only. A cut elsewhere has no answer
(`Loop.slice`), and neither has a loop that makes one.

* `Masking.run_eq`: the loop has an answer, and it is the masked sheet of the source.

The loop follows the pieces of the source (`Piece.Reads`): it takes a turn for a kept piece, and as many turns for a
plain character as the character has bytes.
-/

namespace BidiSheet

/-! ### Cutting at offsets -/

namespace Loop

/-- The stretch of a text between two bytes. There is one only if both lie between two characters. -/
def slice (t : Text) (start stop : Nat) : Part Text :=
  ⟨IsBoundary t start ∧ IsBoundary t stop ∧ start ≤ stop, fun _ => byteSlice start stop t⟩

/-- Between the ends of a stretch lies the stretch. -/
theorem slice_append (before u after : Text) :
    slice (before ++ (u ++ after)) (byteSize before) (byteSize before + byteSize u) = .some u := by
  rw [Part.eq_some_iff]
  refine ⟨⟨⟨before, u ++ after, rfl, rfl⟩, ⟨before ++ u, after, ?_, byteSize_append _ _⟩, Nat.le_add_right _ _⟩, ?_⟩
  · rw [List.append_assoc]
  · exact byteSlice_append before u after

/-- Up to the end of a text lies the rest of it. -/
theorem slice_end (before after : Text) :
    slice (before ++ after) (byteSize before) (byteSize (before ++ after)) = .some after := by
  have h := slice_append before after []
  rwa [List.append_nil, ← byteSize_append] at h

end Loop

/-! ### The loop -/

/-- Where the masking of a source is: at an offset, with the source written out up to another one. -/
structure Masking where
  pos : Nat
  copied : Nat
  text : Text
  spans : List Span

namespace Masking

open HasSign (sign)
open Loop (slice stop go)
open Piece (Reads keptAt endsJoined source)

variable (t : Text)

/-- The kind of the stretch that opens at an offset, if one does. A comment has to be read to its end. -/
def kindAt (i : Nat) : Part (Option SpanKind) :=
  if Byte.opensAt (bytes t) i .comment then
    (Loop.comment (bytes t) i).bind fun stop => (slice t i stop).map fun comment =>
      some (if Piece.isNoFlip comment then .noFlip else .comment)
  else .some ([.quoted, .url, .fontFace, .control].find? (Byte.opensAt (bytes t) i))

/-- Writes out the source up to the offset, and a marker for the stretch from there up to `stop`. -/
def keep (m : Masking) (kind : SpanKind) (stop : Nat) : Part Masking :=
  (slice t m.copied m.pos).bind fun gap => (slice t m.pos stop).map fun text =>
    ⟨stop, stop, m.text ++ gap ++ Marker.text m.spans.length, m.spans ++ [⟨kind, m.pos, stop, text⟩]⟩

/-- The state at a later offset. -/
def skip (m : Masking) (n : Nat) : Masking := { m with pos := m.pos + n }

/-- Whether a backslash at an offset makes the next byte plain. A control character is never plain. -/
def escapes (i : Nat) : Bool :=
  (bytes t)[i]? = some 0x5C && i + 1 < (bytes t).length && !Byte.opensAt (bytes t) (i + 1) .control

/-- A turn of the loop. At the end of the source it writes out what is left. -/
def turn (m : Masking) : Part (Masked ⊕ Masking) :=
  if m.pos < (bytes t).length then
    (kindAt t m.pos).bind fun
      | some kind => (Scanner.stopOf (bytes t) m.pos kind).bind fun stop => (m.keep t kind stop).bind go
      | none => go (m.skip (if escapes t m.pos then 2 else 1))
  else (slice t m.copied (byteSize t)).bind fun rest => stop ⟨m.text ++ rest, m.spans⟩

/-- Masks a source. -/
def run : Part Masked := PFun.fix (turn t) ⟨0, 0, [], []⟩

/-! ### What opens at an offset -/

variable {t} {m : Masking} {c : Char} {cs before : Text}

/-- At a boundary of the source, what opens in the bytes is what opens in the text. -/
theorem opensAt_boundary (ht : t = before ++ c :: cs) (kind : SpanKind) :
    Byte.opensAt (bytes t) (byteSize before) kind = Piece.opens (endsJoined before) c cs kind := by
  rw [Byte.opensAt, ht, take_bytes, drop_bytes, Piece.opens_bytes]

/-- **The loop sees at a boundary what is kept there.** -/
theorem kindAt_boundary (ht : t = before ++ c :: cs) :
    kindAt t (byteSize before) = .some ((keptAt (endsJoined before) c cs).map Prod.fst) := by
  rw [kindAt, opensAt_boundary ht, Piece.opens]
  by_cases hcomment : Extent.opensComment c cs = true
  · rw [if_pos hcomment]
    generalize hn : Extent.comment cs.tail + 1 = n
    have hextent : Scanner.extent .comment (c :: cs) = n + 1 := by
      rw [← hn, Scanner.extent, List.drop_succ_cons, List.drop_one]
    have hstop := Scanner.run_of_opens (Scanner.opens_comment hcomment) before
    rw [Scanner.run, ← ht, hextent, List.take_succ_cons] at hstop
    have hslice : slice t (byteSize before) (byteSize before + byteSize (c :: cs.take n)) = .some (c :: cs.take n) := by
      have h := Loop.slice_append before (c :: cs.take n) (cs.drop n)
      rwa [List.cons_append, List.take_append_drop, ← ht] at h
    rw [hstop, Part.bind_some, hslice, Part.map_some]
    cases hflip : Piece.isNoFlip (c :: cs.take n) with
    | true => rw [Piece.keptAt_noFlip hcomment hn hflip]; rfl
    | false => rw [Piece.keptAt_comment hcomment hn hflip]; rfl
  · rw [if_neg hcomment, keptAt, if_neg hcomment]
    -- the other kinds are tried in the same order
    simp only [List.find?, opensAt_boundary ht, Piece.opens]
    cases (sign c).isQuote with
    | true => rfl
    | false =>
      cases Piece.opensUrl (endsJoined before) (c :: cs) with
      | true => rfl
      | false => cases Piece.opensFontFace (c :: cs) <;> cases Marker.isControl c <;> rfl

/-- Nothing opens at a byte beyond ASCII. -/
theorem kindAt_beyond {b : UInt8} {bs : List UInt8} {i : Nat} (h : (bytes t).drop i = b :: bs)
    (hb : 0x80 ≤ b.toNat) : kindAt t i = .some none := by
  have hopens : ∀ kind, Byte.opensAt (bytes t) i kind = false := by
    intro kind
    rw [Byte.opensAt, h, Byte.opens_beyond hb]
  rw [kindAt, hopens, if_neg Bool.false_ne_true, List.find?_eq_none.mpr (by simp [hopens])]

/-- Only a backslash escapes. -/
theorem escapes_of_ne {b : UInt8} {bs : List UInt8} {i : Nat} (h : (bytes t).drop i = b :: bs) (hb : b ≠ 0x5C) :
    escapes t i = false := by
  simp [escapes, Loop.getElem?_of_drop h, hb]

/-- A backslash escapes the next character, unless it is a control character. -/
theorem escapes_backslash (ht : t = before ++ '\\' :: cs) :
    escapes t (byteSize before) = cs.head?.any (!Marker.isControl ·) := by
  have hget : (bytes t)[byteSize before]? = some 0x5C := by
    rw [← List.head?_drop, ht, drop_bytes]
    rfl
  have hnext : t = (before ++ ['\\']) ++ cs := by rw [ht, List.append_assoc]; rfl
  have hsize : byteSize before + 1 = byteSize (before ++ ['\\']) := by rw [byteSize_append]; rfl
  rw [escapes, hget, hsize, length_bytes]
  cases cs with
  | nil => simp [hnext]
  | cons d ds =>
    have hlt : byteSize (before ++ ['\\']) < byteSize t := by
      rw [hnext, byteSize_append _ (d :: ds), byteSize_cons]
      exact Nat.lt_add_of_pos_right (Nat.add_pos_left d.utf8Size_pos _)
    rw [opensAt_boundary hnext, Piece.opens, decide_eq_true hlt]
    rfl

/-! ### Single turns -/

/-- Where nothing opens the loop goes on at the next byte, or behind an escaped one. -/
theorem turn_next {bs : List UInt8} (h : (bytes t).drop m.pos = bs) (hbs : bs ≠ [])
    (hkind : kindAt t m.pos = .some none) : turn t m = go (m.skip (if escapes t m.pos then 2 else 1)) := by
  have hlt : m.pos < (bytes t).length := by
    by_contra hle
    rw [List.drop_eq_nil_of_le (Nat.not_lt.mp hle)] at h
    exact hbs h.symm
  rw [turn, if_pos hlt, hkind, Part.bind_some]

/-- The loop goes past bytes beyond ASCII. -/
theorem fix_beyond {xs bs : List UInt8} (h : (bytes t).drop m.pos = xs ++ bs) (hxs : ∀ x ∈ xs, 0x80 ≤ x.toNat) :
    PFun.fix (turn t) m = PFun.fix (turn t) (m.skip xs.length) := by
  induction xs generalizing m with
  | nil => rfl
  | cons x xs ih =>
    have hx := hxs x List.mem_cons_self
    have hne : x ≠ 0x5C := by
      rintro rfl
      exact absurd hx (by decide)
    have hnext : (bytes t).drop (m.skip 1).pos = xs ++ bs := Loop.drop_succ h
    have hturn : turn t m = go (m.skip 1) := by
      rw [turn_next h (List.cons_ne_nil _ _) (kindAt_beyond h hx), escapes_of_ne h hne]
      rfl
    rw [Loop.fix_of_go hturn, ih hnext fun y hy => hxs y (List.mem_cons_of_mem x hy)]
    simp only [skip, List.length_cons, Nat.add_assoc, Nat.add_comm 1]

/-- Behind the first byte of a character the loop goes past the others. -/
theorem fix_character (h : (bytes t).drop m.pos = bytes (c :: cs)) :
    PFun.fix (turn t) (m.skip 1) = PFun.fix (turn t) (m.skip c.utf8Size) := by
  obtain ⟨b, bs, henc, -, hbeyond⟩ := Byte.exists_utf8EncodeChar_eq c
  have hsize : c.utf8Size = bs.length + 1 := by rw [← String.length_utf8EncodeChar, henc, List.length_cons]
  rw [bytes_cons, henc, List.cons_append] at h
  have hnext : (bytes t).drop (m.skip 1).pos = bs ++ bytes cs := Loop.drop_succ h
  rw [fix_beyond hnext hbeyond, hsize]
  simp only [skip, Nat.add_assoc, Nat.add_comm 1]

/-! ### The whole pass -/

/-- Where the masking of a source is between two pieces: it has written out `before`, with `text` and `spans` as the
outcome, and `gap` is still to be written. -/
def between (before gap text : Text) (spans : List Span) : Masking :=
  ⟨byteSize (before ++ gap), byteSize before, text, spans⟩

/-- Going past a character adds it to what is still to be written. -/
theorem skip_between (before gap text : Text) (spans : List Span) (c : Char) :
    (between before gap text spans).skip c.utf8Size = between before (gap ++ [c]) text spans := by
  simp [between, skip, Nat.add_assoc]

variable {gap text : Text} {spans : List Span}

/-- What is left of the bytes between two pieces. -/
theorem drop_between {rest : Text} (ht : t = before ++ (gap ++ rest)) :
    (bytes t).drop (between before gap text spans).pos = bytes rest := by
  rw [ht, ← List.append_assoc]
  exact drop_bytes (before ++ gap) rest

/-- At the end the loop writes out what is left. -/
theorem fix_end (ht : t = before ++ gap) :
    PFun.fix (turn t) (between before gap text spans) = .some ⟨text ++ gap, spans⟩ := by
  have hend : ¬ (between before gap text spans).pos < (bytes t).length := by
    rw [length_bytes, ht]
    exact Nat.lt_irrefl _
  have hslice : slice t (byteSize before) (byteSize t) = .some gap := by rw [ht, Loop.slice_end]
  have hturn : turn t (between before gap text spans) = stop ⟨text ++ gap, spans⟩ := by
    rw [turn, if_neg hend, between, hslice, Part.bind_some]
  exact Loop.fix_of_stop hturn

/-- At a stretch that is kept the loop writes out what lies before it, and a marker. -/
theorem turn_kept {kind : SpanKind} {u rest : Text} (ht : t = before ++ (gap ++ c :: (u ++ rest)))
    (h : keptAt (endsJoined (before ++ gap)) c (u ++ rest) = some (kind, u.length)) :
    turn t (between before gap text spans)
      = go (between (before ++ (gap ++ c :: u)) [] (text ++ gap ++ Marker.text spans.length)
          (spans ++ [⟨kind, byteSize (before ++ gap), byteSize (before ++ gap) + byteSize (c :: u), c :: u⟩])) := by
  have hsource : t = (before ++ gap) ++ c :: (u ++ rest) := by rw [ht, List.append_assoc]
  have hlt : byteSize (before ++ gap) < (bytes t).length := by
    rw [length_bytes, hsource, byteSize_append _ (c :: (u ++ rest)), byteSize_cons]
    exact Nat.lt_add_of_pos_right (Nat.add_pos_left c.utf8Size_pos _)
  have hstop := Scanner.stopOf_of_keptAt h (before ++ gap)
  have hgap := Loop.slice_append before gap (c :: (u ++ rest))
  have hkept := Loop.slice_append (before ++ gap) (c :: u) rest
  rw [← hsource] at hstop
  rw [← ht, ← byteSize_append] at hgap
  rw [List.cons_append, ← hsource] at hkept
  rw [turn, between, if_pos hlt, kindAt_boundary hsource, h, Part.bind_some]
  simp only [Option.map_some]
  rw [hstop, Part.bind_some, keep, hgap, Part.bind_some, hkept, Part.map_some, Part.bind_some]
  simp [between, Nat.add_assoc]

/-- At a character that is plain, and no backslash, the loop goes on behind it. -/
theorem fix_plain {rest : Text} (ht : t = before ++ (gap ++ c :: rest)) (hc : c ≠ '\\')
    (h : keptAt (endsJoined (before ++ gap)) c rest = none) :
    PFun.fix (turn t) (between before gap text spans)
      = PFun.fix (turn t) (between before (gap ++ [c]) text spans) := by
  have hsource : t = (before ++ gap) ++ c :: rest := by rw [ht, List.append_assoc]
  have hdrop : (bytes t).drop (between before gap text spans).pos = bytes (c :: rest) := drop_between ht
  obtain ⟨b, bs, henc, hstands, -⟩ := Byte.exists_utf8EncodeChar_eq c
  have hb : b ≠ 0x5C := fun heq => hc ((Byte.eq_code_iff hstands '\\' (by decide)).mp heq)
  have hfirst : (bytes t).drop (between before gap text spans).pos = b :: (bs ++ bytes rest) := by
    rw [hdrop, bytes_cons, henc, List.cons_append]
  have hkind : kindAt t (between before gap text spans).pos = .some none := by
    rw [between, kindAt_boundary hsource, h]
    rfl
  have hturn : turn t (between before gap text spans) = go ((between before gap text spans).skip 1) := by
    rw [turn_next hfirst (List.cons_ne_nil _ _) hkind, escapes_of_ne hfirst hb]
    rfl
  rw [Loop.fix_of_go hturn, fix_character hdrop, skip_between]

/-- At a backslash the loop goes on behind it, or at the second byte of the character behind it. -/
theorem turn_backslash {rest : Text} (ht : t = before ++ (gap ++ '\\' :: rest)) :
    turn t (between before gap text spans)
      = go ((between before (gap ++ ['\\']) text spans).skip
          (if rest.head?.any (!Marker.isControl ·) then 1 else 0)) := by
  have hsource : t = (before ++ gap) ++ '\\' :: rest := by rw [ht, List.append_assoc]
  have hdrop : (bytes t).drop (between before gap text spans).pos = 0x5C :: bytes rest := drop_between ht
  have hkind : kindAt t (between before gap text spans).pos = .some none := by
    rw [between, kindAt_boundary hsource, Piece.keptAt_backslash]
    rfl
  rw [turn_next hdrop (List.cons_ne_nil _ _) hkind, ← skip_between, between, escapes_backslash hsource]
  simp only [skip, show '\\'.utf8Size = 1 from rfl, Nat.add_assoc]
  split <;> rfl

/-- Whether an identifier reaches up to the end of a text is seen from its last part. -/
theorem endsJoined_append {u : Text} (hu : u ≠ []) (v : Text) : endsJoined (v ++ u) = endsJoined u := by
  rw [endsJoined, endsJoined, List.getLast?_append, List.getLast?_eq_some_getLast hu, Option.some_or]

/-- **The loop follows the pieces of a source.** -/
theorem fix_of_reads {joined : Bool} {ps : List Piece} (h : Reads joined ps) (ht : t = before ++ (gap ++ source ps))
    (hjoined : joined = endsJoined (before ++ gap)) :
    PFun.fix (turn t) (between before gap text spans)
      = .some ⟨text ++ gap ++ Masked.maskText spans.length ps,
          spans ++ Masked.spansFrom (byteSize (before ++ gap)) ps⟩ := by
  induction h generalizing before gap text spans with
  | nil =>
    rw [fix_end (by simpa using ht)]
    simp [Masked.maskText, Masked.spansFrom]
  | @kept joined kind c u ps h rest ih =>
    subst hjoined
    have hnext : t = (before ++ (gap ++ c :: u)) ++ ([] ++ source ps) := by rw [ht]; simp
    have hlast : endsJoined (c :: u) = endsJoined (before ++ (gap ++ c :: u) ++ []) := by
      rw [List.append_nil, ← List.append_assoc, endsJoined_append (List.cons_ne_nil c u)]
    rw [Loop.fix_of_go (turn_kept ht h), ih hnext hlast]
    simp [Masked.maskText, Masked.spansFrom, Nat.add_assoc]
  | @plain joined c ps hc h rest ih =>
    subst hjoined
    have hnext : t = before ++ ((gap ++ [c]) ++ source ps) := by rw [ht]; simp
    have hlast : isIdent c = endsJoined (before ++ (gap ++ [c])) := by
      rw [← List.append_assoc, endsJoined_append (List.cons_ne_nil c [])]
      rfl
    rw [fix_plain ht hc h, ih hnext hlast]
    simp [Masked.maskText, Masked.spansFrom, Nat.add_assoc]
  | stray =>
    rw [Piece.source_plain, Piece.source_nil] at ht
    have hturn : turn t (between before gap text spans) = go (between before (gap ++ ['\\']) text spans) :=
      turn_backslash ht
    rw [Loop.fix_of_go hturn, fix_end ht]
    simp [Masked.maskText, Masked.spansFrom]
  | @escape joined d ps h rest ih =>
    rw [Piece.source_plain] at ht
    -- the loop steps to the second byte of `d`, and goes past the others
    have hnext : t = before ++ ((gap ++ ['\\']) ++ d :: source ps) := by rw [ht]; simp
    have hbehind : t = before ++ ((gap ++ ['\\'] ++ [d]) ++ source ps) := by rw [ht]; simp
    have hlast : isIdent d = endsJoined (before ++ (gap ++ ['\\'] ++ [d])) := by
      rw [← List.append_assoc, endsJoined_append (List.cons_ne_nil d [])]
      rfl
    have hturn : turn t (between before gap text spans) = go ((between before (gap ++ ['\\']) text spans).skip 1) := by
      rw [turn_backslash ht, Piece.source_plain, List.head?_cons, Option.any_some, h]
      rfl
    rw [Loop.fix_of_go hturn, fix_character (drop_between hnext), skip_between, ih hbehind hlast]
    simp [Masked.maskText, Masked.spansFrom, Nat.add_assoc]
  | @control joined d ps h rest ih =>
    rw [Piece.source_plain] at ht
    have hnext : t = before ++ ((gap ++ ['\\']) ++ source (.kept .control [d] :: ps)) := by rw [ht]; simp
    have hlast : false = endsJoined (before ++ (gap ++ ['\\'])) := by
      rw [← List.append_assoc, endsJoined_append (List.cons_ne_nil '\\' [])]
      rfl
    have hturn : turn t (between before gap text spans) = go (between before (gap ++ ['\\']) text spans) := by
      rw [turn_backslash ht, Piece.source_kept, List.cons_append, List.head?_cons, Option.any_some, h]
      rfl
    rw [Loop.fix_of_go hturn, ih hnext hlast]
    simp [Masked.maskText, Masked.spansFrom, Nat.add_assoc]

/-- **The loop over the bytes of a source ends, and it makes the masked sheet of the source.** -/
theorem run_eq (t : Text) : run t = .some (Masked.ofSource t) := by
  have h : PFun.fix (turn t) (between [] [] [] []) = _ :=
    fix_of_reads (Piece.reads_cut false t) (by rw [Piece.source_cut]; rfl) rfl
  exact h

end Masking

end BidiSheet
