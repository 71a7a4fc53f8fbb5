import BidiSheet.Proofs.Byte.Masking
import BidiSheet.Proofs.Partition
import BidiSheet.Proofs.Unmask

/-!
# Reading a value as a loop over bytes

The tokens of a value can be found in one pass over its bytes. The loop steps over blanks byte by byte, and from the
first byte of a token to its end. The end of a word is found by an inner loop, which counts round brackets; a marker is
read from the text that is left, which has to begin between two characters.

* `Lexing.run_eq`: the loop has an answer, which is where the tokens of the value stand (`Value.placed`).
-/

namespace BidiSheet

open Loop (slice stop go)

/-! ### Words -/

namespace Loop

variable (bs : List UInt8)

/-- A turn of the inner loop, in a word that begins at `start`. The first byte of a word never ends it. -/
def wordTurn (start : Nat) : Cursor → Part (Nat ⊕ Cursor)
  | ⟨depth, i⟩ =>
    match bs[i]? with
    | none => stop i
    | some b => if depth = 0 ∧ Byte.endsWord b = true ∧ start < i then stop i else go ⟨Byte.nest depth b, i + 1⟩

/-- The end of the word that begins at `start`. -/
def word (start : Nat) : Part Nat := PFun.fix (wordTurn bs start) ⟨0, start⟩

variable {bs} {start i depth : Nat} {b : UInt8} {cs xs rest : List UInt8}

/-- A word goes on over a byte that does not end it. -/
theorem wordTurn_go (h : bs.drop i = b :: cs) (hb : ¬ (depth = 0 ∧ Byte.endsWord b = true ∧ start < i)) :
    wordTurn bs start ⟨depth, i⟩ = go ⟨Byte.nest depth b, i + 1⟩ := by
  rw [wordTurn, getElem?_of_drop h]
  simp only
  rw [if_neg hb]

/-- A word goes on over bytes beyond ASCII. -/
theorem fix_wordTurn_beyond (h : bs.drop i = xs ++ rest) (hxs : ∀ x ∈ xs, 0x80 ≤ x.toNat) :
    PFun.fix (wordTurn bs start) ⟨depth, i⟩ = PFun.fix (wordTurn bs start) ⟨depth, i + xs.length⟩ := by
  induction xs generalizing i with
  | nil => rfl
  | cons x xs ih =>
    have hx := hxs x List.mem_cons_self
    have hword : Byte.endsWord x ≠ true := fun hends => absurd (Byte.endsWord_beyond hends) (Nat.not_lt.mpr hx)
    have hturn : wordTurn bs start ⟨depth, i⟩ = go ⟨depth, i + 1⟩ := by
      rw [wordTurn_go h fun hends => hword hends.2.1, Byte.nest_beyond hx]
    rw [fix_of_go hturn, ih (drop_succ h) fun y hy => hxs y (List.mem_cons_of_mem x hy), List.length_cons,
      Nat.add_assoc, Nat.add_comm 1]

/-- A word goes on over a character that does not end it. -/
theorem fix_wordTurn_cons {c : Char} {t : Text} (h : bs.drop i = bytes (c :: t))
    (hc : ¬ (depth = 0 ∧ Value.endsWord c = true ∧ start < i)) :
    PFun.fix (wordTurn bs start) ⟨depth, i⟩
      = PFun.fix (wordTurn bs start) ⟨nest depth c, i + c.utf8Size⟩ := by
  obtain ⟨b, xs, henc, hstands, hbeyond⟩ := Byte.exists_utf8EncodeChar_eq c
  have hsize : c.utf8Size = 1 + xs.length := by
    rw [← String.length_utf8EncodeChar, henc, List.length_cons, Nat.add_comm]
  rw [bytes_cons, henc, List.cons_append] at h
  rw [← Byte.endsWord_eq hstands] at hc
  rw [fix_of_go (wordTurn_go h hc), fix_wordTurn_beyond (drop_succ h) hbeyond, Byte.nest_eq hstands, hsize,
    Nat.add_assoc]

/-- Behind its first character a word ends where its length says. -/
theorem fix_wordTurn {t : Text} (h : bs.drop i = bytes t) (hi : i ≤ bs.length) (hstart : start < i) :
    PFun.fix (wordTurn bs start) ⟨depth, i⟩ = .some (i + byteSize (t.take (Value.wordLength depth t))) := by
  induction t generalizing depth i with
  | nil =>
    have hturn : wordTurn bs start ⟨depth, i⟩ = stop i := by
      rw [wordTurn, List.getElem?_eq_none (List.drop_eq_nil_iff.mp h)]
    exact fix_of_stop hturn
  | cons c t ih =>
    rw [Value.wordLength]
    by_cases hends : depth = 0 ∧ Value.endsWord c = true
    · obtain ⟨b, xs, henc, hstands, -⟩ := Byte.exists_utf8EncodeChar_eq c
      have hget : bs[i]? = some b := by
        rw [bytes_cons, henc, List.cons_append] at h
        exact getElem?_of_drop h
      have hturn : wordTurn bs start ⟨depth, i⟩ = stop i := by
        rw [wordTurn, hget]
        simp only
        rw [if_pos ⟨hends.1, (Byte.endsWord_eq hstands).trans hends.2, hstart⟩]
      rw [if_pos hends]
      exact fix_of_stop hturn
    · have hnext : bs.drop (i + c.utf8Size) = bytes t := by
        rw [← List.drop_drop, h, ← List.singleton_append]
        exact drop_bytes [c] t
      have hlen : i + c.utf8Size ≤ bs.length := by
        have hlength := congrArg List.length h
        rw [List.length_drop, length_bytes, byteSize_cons] at hlength
        omega
      rw [if_neg hends, fix_wordTurn_cons h fun hstop => hends ⟨hstop.1, hstop.2.1⟩, ih hnext hlen (by omega),
        List.take_succ_cons, byteSize_cons, Nat.add_assoc]

/-- **The inner loop finds the end of a word** that begins at a boundary of a text. -/
theorem word_boundary {x before t : Text} {c : Char} (hx : x = before ++ c :: t) :
    word (bytes x) (byteSize before)
      = .some (byteSize before + byteSize (c :: t.take (Value.wordLength (nest 0 c) t))) := by
  have hdrop : (bytes x).drop (byteSize before) = bytes (c :: t) := by rw [hx, drop_bytes]
  have hsource : x = (before ++ [c]) ++ t := by rw [hx, List.append_assoc, List.singleton_append]
  have hsize : byteSize before + c.utf8Size = byteSize (before ++ [c]) := by simp
  have hnext : (bytes x).drop (byteSize before + c.utf8Size) = bytes t := by rw [hsize, hsource, drop_bytes]
  have hlen : byteSize before + c.utf8Size ≤ (bytes x).length := by
    rw [hsize, hsource, length_bytes, byteSize_append _ t]
    exact Nat.le_add_right _ _
  have hpos := c.utf8Size_pos
  rw [word, fix_wordTurn_cons hdrop fun hstop => Nat.lt_irrefl _ hstop.2.2, fix_wordTurn hnext hlen (by omega),
    byteSize_cons, Nat.add_assoc]

end Loop

/-! ### Tokens -/

/-- Where the reading of a value is: at an offset, with the tokens that it has found. -/
structure Lexing where
  pos : Nat
  found : List (TokenKind × Nat × Nat)

namespace Lexing

variable (x : Text)

/-- The marker at an offset where the byte `b` stands, if there is one. -/
def markerAt (b : UInt8) (i : Nat) : Part (Option Marker.Found) :=
  if b = 0x02 then (slice x i (byteSize x)).map Marker.read? else .some none

/-- The kind and the end of the token that begins at an offset with the byte `b`. -/
def tokenAt (b : UInt8) (i : Nat) : Part (TokenKind × Nat) :=
  if b = 0x2C then .some (.comma, i + 1)
  else if b = 0x2F then .some (.slash, i + 1)
  else (markerAt x b i).bind fun
    | some found => .some (.marker, i + found.size)
    | none => (Loop.word (bytes x) i).map fun stop => (.word, stop)

/-- A turn of the loop. -/
def turn : Lexing → Part (List (TokenKind × Nat × Nat) ⊕ Lexing)
  | ⟨i, found⟩ =>
    match (bytes x)[i]? with
    | none => stop found
    | some b =>
      if Byte.isBlank b then go ⟨i + 1, found⟩
      else (tokenAt x b i).bind fun (kind, stop) => go ⟨stop, found ++ [(kind, i, stop)]⟩

/-- Finds the tokens of a value. -/
def run : Part (List (TokenKind × Nat × Nat)) := PFun.fix (turn x) ⟨0, []⟩

variable {x}

/-- A marker is read where its opening byte stands. -/
theorem markerAt_boundary {before cs : Text} {c : Char} {b : UInt8} (hx : x = before ++ c :: cs)
    (hb : Byte.StandsFor b c) : markerAt x b (byteSize before) = .some (Marker.read? (c :: cs)) := by
  have hopener : b = 0x02 ↔ c = Marker.opener := Byte.eq_code_iff hb Marker.opener (by decide)
  unfold markerAt
  by_cases hc : c = Marker.opener
  · rw [if_pos (hopener.mpr hc), hx, Loop.slice_end, Part.map_some]
  · rw [if_neg fun h => hc (hopener.mp h), Marker.read?_of_ne_opener hc]

/-- **The token at a boundary** of a text ends in the bytes where it ends in the text. -/
theorem tokenAt_boundary {before cs rest : Text} {c : Char} {b : UInt8} {kind : TokenKind}
    (hx : x = before ++ c :: (cs ++ rest)) (hb : Byte.StandsFor b c)
    (h : Value.tokenAt c (cs ++ rest) = (kind, cs.length)) :
    tokenAt x b (byteSize before) = .some (kind, byteSize before + byteSize (c :: cs)) := by
  have hcomma : b = 0x2C ↔ c = ',' := Byte.eq_code_iff hb ',' (by decide)
  have hslash : b = 0x2F ↔ c = '/' := Byte.eq_code_iff hb '/' (by decide)
  unfold tokenAt
  obtain ⟨hc, rfl, hlen⟩ | ⟨hc, rfl, hlen⟩ | ⟨found, hfound, rfl, hlen⟩ | ⟨hc, hc', hnone, rfl, hlen⟩ :=
    Value.tokenAt_cases h
  · rw [if_pos (hcomma.mpr hc), List.length_eq_zero_iff.mp hlen, hc]
    rfl
  · rw [if_neg (by rw [hcomma, hc]; decide), if_pos (hslash.mpr hc), List.length_eq_zero_iff.mp hlen, hc]
    rfl
  · obtain ⟨rfl, -⟩ := Value.exists_of_marker hfound hlen
    obtain ⟨w, -, hw, hsize⟩ := Marker.exists_of_read?_cons hfound
    have hbytes : byteSize (Marker.opener :: cs) = found.size := by
      have htotal := congrArg byteSize hw
      rw [← hlen, List.drop_left, ← List.cons_append, byteSize_append, byteSize_append, hsize] at htotal
      omega
    rw [if_neg (by rw [hcomma]; decide), if_neg (by rw [hslash]; decide), markerAt_boundary hx hb, hfound,
      Part.bind_some, hbytes]
  · rw [if_neg (mt hcomma.mp hc), if_neg (mt hslash.mp hc'), markerAt_boundary hx hb, hnone, Part.bind_some]
    simp only
    rw [Loop.word_boundary hx, Part.map_some, ← hlen, List.take_left]

variable {before : Text} {found : List (TokenKind × Nat × Nat)}

/-- The loop steps over a blank. -/
theorem turn_blank {rest : Text} {c : Char} (hx : x = before ++ c :: rest) (hc : isBlank c = true) :
    turn x ⟨byteSize before, found⟩ = go ⟨byteSize (before ++ [c]), found⟩ := by
  obtain ⟨b, bs, henc, hstands, -⟩ := Byte.exists_utf8EncodeChar_eq c
  have hget : (bytes x)[byteSize before]? = some b := by
    rw [← List.head?_drop, hx, drop_bytes, bytes_cons, henc]
    rfl
  have hsize : c.utf8Size = 1 := by
    simpa using of_isBlank (p := fun c => c.utf8Size = 1) (by decide) hc
  rw [turn, hget]
  simp only
  rw [if_pos ((Byte.isBlank_eq hstands).trans hc), byteSize_append, byteSize_cons, hsize]
  rfl

/-- The loop steps over blanks. -/
theorem fix_blanks {gap rest : Text} (hx : x = before ++ (gap ++ rest)) (hgap : ∀ d ∈ gap, isBlank d = true) :
    PFun.fix (turn x) ⟨byteSize before, found⟩ = PFun.fix (turn x) ⟨byteSize (before ++ gap), found⟩ := by
  induction gap generalizing before with
  | nil => rw [List.append_nil]
  | cons d gap ih =>
    have hnext : x = (before ++ [d]) ++ (gap ++ rest) := by rw [hx]; simp
    rw [Loop.fix_of_go (turn_blank hx (hgap d List.mem_cons_self)),
      ih hnext fun e he => hgap e (List.mem_cons_of_mem d he), List.append_assoc, List.singleton_append]

/-- The loop steps from the front of a token to its end. -/
theorem turn_token {cs rest : Text} {c : Char} {kind : TokenKind} (hx : x = before ++ c :: (cs ++ rest))
    (hc : isBlank c = false) (h : Value.tokenAt c (cs ++ rest) = (kind, cs.length)) :
    turn x ⟨byteSize before, found⟩
      = go ⟨byteSize (before ++ c :: cs),
          found ++ [(kind, byteSize before, byteSize before + byteSize (c :: cs))]⟩ := by
  obtain ⟨b, bs, henc, hstands, -⟩ := Byte.exists_utf8EncodeChar_eq c
  have hget : (bytes x)[byteSize before]? = some b := by
    rw [← List.head?_drop, hx, drop_bytes, bytes_cons, henc]
    rfl
  rw [turn, hget]
  simp only
  rw [if_neg (by simp [Byte.isBlank_eq hstands, hc]), tokenAt_boundary hx hstands h, Part.bind_some,
    byteSize_append]

/-- **The loop follows the tokens of a value.** -/
theorem fix_of_reads {tail : Text} {ts : List Token} (h : Value.Reads tail ts)
    (hx : x = before ++ (Tokens.source ts ++ tail)) :
    PFun.fix (turn x) ⟨byteSize before, found⟩
      = .some (found ++ (ts.zip (Value.extents.go (byteSize before) ts)).map fun (t, start, stop) =>
          (t.kind, start, stop)) := by
  induction h generalizing before found with
  | nil htail =>
    have hend : x = before ++ (tail ++ []) := by rw [hx]; simp
    have hturn : turn x ⟨byteSize (before ++ tail), found⟩ = stop found := by
      have hnone : (bytes x)[byteSize (before ++ tail)]? = none := by
        rw [List.getElem?_eq_none_iff, length_bytes, hend, List.append_nil]
      rw [turn, hnone]
    rw [fix_blanks hend htail, Loop.fix_of_stop hturn]
    simp
  | @cons gap cs kind c ts hgap hc h rest ih =>
    have hblanks : x = before ++ (gap ++ c :: (cs ++ (Tokens.source ts ++ tail))) := by rw [hx]; simp
    have htoken : x = (before ++ gap) ++ c :: (cs ++ (Tokens.source ts ++ tail)) := by rw [hblanks]; simp
    have hnext : x = ((before ++ gap) ++ c :: cs) ++ (Tokens.source ts ++ tail) := by rw [hblanks]; simp
    rw [fix_blanks hblanks hgap, Loop.fix_of_go (turn_token htoken hc h), ih hnext, Value.extents.go]
    simp [Nat.add_assoc]

/-- **The loop over the bytes of a value ends, and it finds the tokens of the value where they stand.** -/
theorem run_eq (x : Text) :
    run x = .some ((Value.read x).placed.map fun (t, start, stop) => (t.kind, start, stop)) := by
  have hx : x = [] ++ (Tokens.source (Value.read x).tokens ++ (Value.read x).tail) :=
    (Value.source_tokens_read x).symm
  exact fix_of_reads (Value.reads_read x) hx

end Lexing

end BidiSheet
