import BidiSheet.Proofs.Byte
import BidiSheet.Proofs.Masked
import BidiSheet.Proofs.Value

/-!
# The tokens of a value as stretches of its text

The tokens of a value stand between byte offsets of its text (`Value.extents`). They are stretches of the text that
follow one another, and nothing but blanks lies between them (`Value.Partitions`), whatever the text is: an opening
character that begins no marker is a part of a word.

Rendering writes each token's replacement in its place. There are two ways to say so. One goes token by token
(`substitute`); the other copies all that lies between two tokens that are replaced in one piece (`splice`). A token
that is replaced several times takes the last text that is not its own (`lastFor`).

* `Value.read_partitions`: both for every text, and for every sequence of replacements.
-/

namespace BidiSheet

open Marker (opener closer)

/-! ### Bytes of words and blanks -/

namespace Byte

/-- The bytes of the blanks: space, tab, line feed, form feed and carriage return. -/
def isBlank (b : UInt8) : Bool := b = 0x20 || b = 0x09 || b = 0x0A || b = 0x0C || b = 0x0D

/-- The depth of round brackets after a byte. A closing bracket at depth zero is ignored. -/
def nest (depth : Nat) (b : UInt8) : Nat :=
  if b = 0x28 then depth + 1 else if b = 0x29 then depth - 1 else depth

/-- Whether a byte ends a word outside brackets: a blank, a comma, a slash, or the opening of a marker. -/
def endsWord (b : UInt8) : Bool := isBlank b || b = 0x2C || b = 0x2F || b = 0x02

section

variable {b : UInt8} {c : Char} (h : StandsFor b c)

include h

/-- A byte is blank exactly if the character is that it stands for. -/
theorem isBlank_eq : isBlank b = BidiSheet.isBlank c := by
  have hcode : ∀ d : Char, d.toNat < 0x80 → (b = UInt8.ofNat d.toNat ↔ c = d) := eq_code_iff h
  rw [Bool.eq_iff_iff]
  simp only [isBlank, BidiSheet.isBlank, Bool.or_eq_true, decide_eq_true_eq]
  exact or_congr (or_congr (or_congr (or_congr (hcode ' ' (by decide)) (hcode '\t' (by decide)))
    (hcode '\n' (by decide))) (hcode '\x0c' (by decide))) (hcode '\r' (by decide))

/-- A byte ends a word exactly if the character does that it stands for. -/
theorem endsWord_eq : endsWord b = Value.endsWord c := by
  have hcode : ∀ d : Char, d.toNat < 0x80 → (b = UInt8.ofNat d.toNat ↔ c = d) := eq_code_iff h
  rw [endsWord, Value.endsWord, isBlank_eq h, Bool.eq_iff_iff]
  simp only [Bool.or_eq_true, decide_eq_true_eq]
  exact or_congr (or_congr (or_congr Iff.rfl (hcode ',' (by decide))) (hcode '/' (by decide)))
    (hcode opener (by decide))

/-- A byte changes the depth of brackets as the character does that it stands for. -/
theorem nest_eq (depth : Nat) : nest depth b = BidiSheet.nest depth c := by
  have hopen : b = 0x28 ↔ c = '(' := eq_code_iff h '(' (by decide)
  have hclose : b = 0x29 ↔ c = ')' := eq_code_iff h ')' (by decide)
  simp only [nest, BidiSheet.nest, hopen, hclose]

end

/-- A byte beyond ASCII is no bracket. -/
theorem nest_beyond {b : UInt8} (hb : 0x80 ≤ b.toNat) (depth : Nat) : nest depth b = depth := by
  have hopen : b ≠ 0x28 := by rintro rfl; exact absurd hb (by decide)
  have hclose : b ≠ 0x29 := by rintro rfl; exact absurd hb (by decide)
  rw [nest, if_neg hopen, if_neg hclose]

/-- Bytes beyond ASCII leave the depth of brackets alone. -/
theorem foldl_nest_beyond {bs : List UInt8} (h : ∀ b ∈ bs, 0x80 ≤ b.toNat) (depth : Nat) :
    bs.foldl nest depth = depth := by
  induction bs with
  | nil => rfl
  | cons b bs ih =>
    rw [List.foldl_cons, nest_beyond (h b List.mem_cons_self), ih fun d hd => h d (List.mem_cons_of_mem b hd)]

/-- **Brackets are counted alike in a text and in its bytes.** -/
theorem foldl_nest_bytes (t : Text) (depth : Nat) : (bytes t).foldl nest depth = t.foldl BidiSheet.nest depth := by
  induction t generalizing depth with
  | nil => rfl
  | cons c t ih =>
    obtain ⟨b, bs, henc, hstands, hbeyond⟩ := exists_utf8EncodeChar_eq c
    rw [bytes_cons, henc, List.cons_append, List.foldl_cons, List.foldl_append, foldl_nest_beyond hbeyond,
      nest_eq hstands, ih, List.foldl_cons]

/-- The bytes of blanks are blank. -/
theorem isBlank_of_mem_bytes {t : Text} (h : ∀ c ∈ t, BidiSheet.isBlank c = true) {b : UInt8} (hb : b ∈ bytes t) :
    isBlank b = true := by
  obtain ⟨c, hc, hb⟩ := List.mem_flatMap.mp hb
  rw [isBlank_eq (standsFor_of_mem hb), h c hc]

/-- Only ASCII bytes end words. -/
theorem endsWord_beyond {b : UInt8} (hb : endsWord b = true) : b.toNat < 0x80 := by
  simp only [endsWord, isBlank, Bool.or_eq_true, decide_eq_true_eq] at hb
  rcases hb with ((((((rfl | rfl) | rfl) | rfl) | rfl) | rfl) | rfl) | rfl <;> decide

end Byte

namespace Value

/-! ### Where the tokens stand -/

/-- The tokens of a value, each with the bytes between which it stands. -/
def placed (v : Value) : List (Token × Nat × Nat) := v.tokens.zip v.extents

/-- Each token has an extent. -/
theorem length_extents_go (offset : Nat) (ts : List Token) : (extents.go offset ts).length = ts.length := by
  induction ts generalizing offset with
  | nil => rfl
  | cons t ts ih => exact congrArg Nat.succ (ih _)

/-- A token stands behind the tokens before it and its blanks. -/
theorem exists_of_mem_zip {ts : List Token} {offset start stop : Nat} {t : Token}
    (h : (t, start, stop) ∈ ts.zip (extents.go offset ts)) :
    ∃ before behind, ts = before ++ t :: behind ∧ start = offset + byteSize (Tokens.source before ++ t.gap) ∧
      stop = start + byteSize t.text := by
  induction ts generalizing offset with
  | nil => cases h
  | cons u ts ih =>
    rw [extents.go, List.zip_cons_cons, List.mem_cons] at h
    rcases h with heq | h
    · obtain ⟨rfl, rfl, rfl⟩ : t = u ∧ _ ∧ _ := by simpa using heq
      exact ⟨[], ts, rfl, by simp, rfl⟩
    · obtain ⟨before, behind, rfl, hstart, hstop⟩ := ih h
      refine ⟨u :: before, behind, rfl, ?_, hstop⟩
      rw [hstart, Tokens.source_cons]
      simp only [byteSize_append]
      omega

/-- No token stands before the first. -/
theorem le_of_mem_extents_go {ts : List Token} {offset : Nat} {e : Nat × Nat} (h : e ∈ extents.go offset ts) :
    offset ≤ e.1 := by
  induction ts generalizing offset with
  | nil => cases h
  | cons t ts ih =>
    rw [extents.go, List.mem_cons] at h
    rcases h with rfl | h
    · exact Nat.le_add_right _ _
    · have hle := ih h
      omega

/-- Tokens follow one another. -/
theorem pairwise_extents_go (offset : Nat) (ts : List Token) :
    (extents.go offset ts).Pairwise fun e e' => e.2 ≤ e'.1 := by
  induction ts generalizing offset with
  | nil => exact .nil
  | cons t ts ih => exact .cons (fun e => le_of_mem_extents_go) (ih _)

/-- A byte that no token covers is the byte of a blank. -/
theorem Reads.isBlank_of_uncovered {tail : Text} {ts : List Token} (h : Reads tail ts) (offset : Nat) {i : Nat}
    (hfree : ∀ e ∈ extents.go offset ts, offset + i < e.1 ∨ e.2 ≤ offset + i) {b : UInt8}
    (hb : (bytes (Tokens.source ts ++ tail))[i]? = some b) : Byte.isBlank b = true := by
  induction h generalizing offset i with
  | nil htail => exact Byte.isBlank_of_mem_bytes htail (List.mem_of_getElem? hb)
  | @cons gap cs kind c ts hgap hc h rest ih =>
    rw [extents.go] at hfree
    rw [Tokens.source_cons, List.append_assoc, List.append_assoc, bytes_append] at hb
    by_cases hi : i < (bytes gap).length
    · rw [List.getElem?_append_left hi] at hb
      exact Byte.isBlank_of_mem_bytes hgap (List.mem_of_getElem? hb)
    rw [List.getElem?_append_right (Nat.not_lt.mp hi), bytes_append] at hb
    have hfirst := hfree _ List.mem_cons_self
    simp only [length_bytes] at hi hb hfirst
    rw [List.getElem?_append_right (by rw [length_bytes]; omega), length_bytes] at hb
    refine ih (offset + byteSize gap + byteSize (c :: cs)) (fun e he => ?_) hb
    have hlater := hfree e (List.mem_cons_of_mem _ he)
    omega

/-- Behind its first byte, a word has no byte outside brackets that ends a word. -/
theorem endsWord_of_wordLength {c : Char} {cs : Text} (h : wordLength (nest 0 c) cs = cs.length)
    {front back : List UInt8} {b : UInt8} (hbytes : bytes (c :: cs) = front ++ b :: back) (hne : front ≠ [])
    (hdepth : front.foldl Byte.nest 0 = 0) : Byte.endsWord b = false := by
  rw [Bool.eq_false_iff]
  intro hends
  -- such a byte is a character, and stands at the same depth as it does among the characters
  have hat : (bytes (c :: cs))[front.length]? = some b := by
    rw [hbytes, List.getElem?_append_right (Nat.le_refl _), Nat.sub_self, List.getElem?_cons_zero]
  obtain ⟨u, d, v, heq, hlen, hstands⟩ := Byte.exists_of_ascii hat (Byte.endsWord_beyond hends)
  have hfront : front = bytes u := by
    have htake := take_bytes u (d :: v)
    rw [← heq, hbytes, ← hlen, List.take_left] at htake
    exact htake
  cases u with
  | nil => exact hne hfront
  | cons c' u =>
    rw [List.cons_append, List.cons.injEq] at heq
    obtain ⟨rfl, rfl⟩ := heq
    rw [hfront, Byte.foldl_nest_bytes, List.foldl_cons] at hdepth
    rw [Byte.endsWord_eq hstands] at hends
    rw [wordLength_eq, outerLength_append_eq_length_iff, hdepth, outerLength, if_pos ⟨rfl, hends⟩] at h
    cases h.2

/-- A value whose tokens are stretches of a text, one behind the other and with blanks between them. Each token is what
its kind says. -/
structure Partitions (x : Text) (v : Value) : Prop where
  length_extents : v.extents.length = v.tokens.length
  start_lt_stop : ∀ t start stop, (t, start, stop) ∈ v.placed → start < stop
  ordered : v.extents.Pairwise fun e e' => e.2 ≤ e'.1
  isBoundary : ∀ t start stop, (t, start, stop) ∈ v.placed → IsBoundary x start ∧ IsBoundary x stop
  text_eq : ∀ t start stop, (t, start, stop) ∈ v.placed → t.text = byteSlice start stop x
  blank : ∀ i, (∀ e ∈ v.extents, i < e.1 ∨ e.2 ≤ i) → ∀ b, (bytes x)[i]? = some b → Byte.isBlank b = true
  comma : ∀ t ∈ v.tokens, t.kind = .comma → t.text = [',']
  slash : ∀ t ∈ v.tokens, t.kind = .slash → t.text = ['/']
  marker : ∀ t ∈ v.tokens, t.kind = .marker → ∃ ds, t.text = opener :: (ds ++ [closer]) ∧ ds ≠ [] ∧
    (∀ d ∈ ds, d.isDigit = true) ∧ Nat.ofDigitChars 10 ds 0 < Marker.bound
  word : ∀ t ∈ v.tokens, t.kind = .word → ∀ front b back, bytes t.text = front ++ b :: back → front ≠ [] →
    front.foldl Byte.nest 0 = 0 → Byte.endsWord b = false

/-- A token that reads is what its kind says. -/
theorem Reads.exists_tokenAt {tail : Text} {ts : List Token} (h : Reads tail ts) {t : Token} (ht : t ∈ ts) :
    ∃ c cs r, t.text = c :: cs ∧ tokenAt c (cs ++ r) = (t.kind, cs.length) := by
  induction h with
  | nil => cases ht
  | @cons gap cs kind c ts hgap hc h rest ih =>
    rcases List.mem_cons.mp ht with rfl | ht
    · exact ⟨c, cs, _, rfl, h⟩
    · exact ih ht

/-- What each token of a text is, by its kind. -/
theorem Reads.cases_of_mem {tail : Text} {ts : List Token} (h : Reads tail ts) {t : Token} (ht : t ∈ ts) :
    (t.kind = .comma ∧ t.text = [',']) ∨ (t.kind = .slash ∧ t.text = ['/']) ∨
    (t.kind = .marker ∧ ∃ ds, t.text = opener :: (ds ++ [closer]) ∧ ds ≠ [] ∧
      (∀ d ∈ ds, d.isDigit = true) ∧ Nat.ofDigitChars 10 ds 0 < Marker.bound) ∨
    (t.kind = .word ∧ ∃ c cs, t.text = c :: cs ∧ wordLength (nest 0 c) cs = cs.length) := by
  obtain ⟨c, cs, r, htext, hat⟩ := h.exists_tokenAt ht
  obtain ⟨rfl, hkind, hlen⟩ | ⟨rfl, hkind, hlen⟩ | ⟨found, hfound, hkind, hlen⟩ | ⟨-, -, -, hkind, -⟩ :=
    tokenAt_cases hat
  · exact .inl ⟨hkind, by rw [htext, List.length_eq_zero_iff.mp hlen]⟩
  · exact .inr (.inl ⟨hkind, by rw [htext, List.length_eq_zero_iff.mp hlen]⟩)
  · obtain ⟨rfl, ds, rfl, hds, hne, hlt⟩ := exists_of_marker hfound hlen
    exact .inr (.inr (.inl ⟨hkind, ds, htext, hne, hds, hlt⟩))
  · rw [hkind] at hat
    exact .inr (.inr (.inr ⟨hkind, c, cs, htext, (endsWord_of_tokenAt hat).2.2.1⟩))

/-- A token of a text is the stretch of it between the bytes where it stands. -/
theorem exists_of_mem_placed {x : Text} {t : Token} {start stop : Nat} (h : (t, start, stop) ∈ (read x).placed) :
    ∃ front back, x = front ++ (t.text ++ back) ∧ start = byteSize front ∧
      stop = byteSize front + byteSize t.text ∧ t ∈ (read x).tokens := by
  obtain ⟨before, behind, htokens, hstart, hstop⟩ := exists_of_mem_zip h
  refine ⟨Tokens.source before ++ t.gap, Tokens.source behind ++ (read x).tail, ?_, ?_, ?_, ?_⟩
  · have hx := source_tokens_read x
    rw [htokens, Tokens.source_append, Tokens.source_cons] at hx
    simpa using hx.symm
  · rw [hstart, Nat.zero_add]
  · rw [hstop, hstart, Nat.zero_add]
  · rw [htokens]
    exact List.mem_append_right _ List.mem_cons_self

/-- **The tokens of a text partition it.** -/
theorem partitions_read (x : Text) : (read x).Partitions x where
  length_extents := length_extents_go 0 _
  start_lt_stop := by
    intro t start stop h
    obtain ⟨front, back, -, rfl, rfl, ht⟩ := exists_of_mem_placed h
    obtain ⟨c, cs, -, htext, -⟩ := (reads_read x).exists_tokenAt ht
    have hpos := c.utf8Size_pos
    rw [htext, byteSize_cons]
    omega
  ordered := pairwise_extents_go 0 _
  isBoundary := by
    intro t start stop h
    obtain ⟨front, back, hx, rfl, rfl, -⟩ := exists_of_mem_placed h
    refine ⟨⟨front, _, hx, rfl⟩, front ++ t.text, back, ?_, byteSize_append _ _⟩
    rw [hx, List.append_assoc]
  text_eq := by
    intro t start stop h
    obtain ⟨front, back, hx, rfl, rfl, -⟩ := exists_of_mem_placed h
    rw [hx, byteSlice_append]
  blank := by
    intro i hfree b hb
    rw [← source_tokens_read x] at hb
    refine (reads_read x).isBlank_of_uncovered 0 (fun e he => ?_) hb
    rw [Nat.zero_add]
    exact hfree e he
  comma := by
    intro t ht hkind
    have hcases := (reads_read x).cases_of_mem ht
    simp only [hkind, reduceCtorEq, false_and, or_false, true_and] at hcases
    exact hcases
  slash := by
    intro t ht hkind
    have hcases := (reads_read x).cases_of_mem ht
    simp only [hkind, reduceCtorEq, false_and, or_false, false_or, true_and] at hcases
    exact hcases
  marker := by
    intro t ht hkind
    have hcases := (reads_read x).cases_of_mem ht
    simp only [hkind, reduceCtorEq, false_and, or_false, false_or, true_and] at hcases
    exact hcases
  word := by
    intro t ht hkind front b back hbytes hne hdepth
    have hcases := (reads_read x).cases_of_mem ht
    simp only [hkind, reduceCtorEq, false_and, false_or, true_and] at hcases
    obtain ⟨c, cs, htext, hlen⟩ := hcases
    rw [htext] at hbytes
    exact endsWord_of_wordLength hlen hbytes hne hdepth

end Value

/-! ### Text in which stretches are replaced -/

/-- A text from byte `copied` on, with a stretch after the other written as its replacement, or else as it is. -/
def substitute (x : Text) (copied : Nat) : List ((Nat × Nat) × Option Text) → Text
  | [] => dropBytes copied x
  | ((start, stop), r) :: rest =>
    byteSlice copied start x ++ r.getD (byteSlice start stop x) ++ substitute x stop rest

/-- The same with only the stretches that are replaced taken out. All before them that has not been `copied` yet is
copied at once. -/
def splice (x : Text) (copied : Nat) : List ((Nat × Nat) × Option Text) → Text
  | [] => dropBytes copied x
  | ((start, stop), some r) :: rest => byteSlice copied start x ++ r ++ splice x stop rest
  | (_, none) :: rest => splice x copied rest

namespace Value

/-- Replacing the extents one by one renders the tokens. -/
theorem substitute_extents_go (before : Text) (ts : List Token) (tail : Text) :
    substitute (before ++ (Tokens.source ts ++ tail)) (byteSize before)
      ((extents.go (byteSize before) ts).zip (ts.map Token.queued)) = ts.flatMap Token.render ++ tail := by
  induction ts generalizing before with
  | nil => exact dropBytes_append before tail
  | cons t ts ih =>
    have hx : before ++ (Tokens.source (t :: ts) ++ tail)
        = before ++ (t.gap ++ (t.text ++ (Tokens.source ts ++ tail))) := by simp
    have hgap : byteSlice (byteSize before) (byteSize before + byteSize t.gap)
        (before ++ (Tokens.source (t :: ts) ++ tail)) = t.gap := by
      rw [hx, byteSlice_append]
    have htext : byteSlice (byteSize before + byteSize t.gap) (byteSize before + byteSize t.gap + byteSize t.text)
        (before ++ (Tokens.source (t :: ts) ++ tail)) = t.text := by
      rw [hx, ← List.append_assoc before t.gap, ← byteSize_append, byteSlice_append]
    have hrest := ih (before ++ t.gap ++ t.text)
    have hx' : before ++ t.gap ++ t.text ++ (Tokens.source ts ++ tail)
        = before ++ (Tokens.source (t :: ts) ++ tail) := by simp
    rw [hx', byteSize_append, byteSize_append] at hrest
    rw [extents.go, List.map_cons, List.zip_cons_cons, substitute, hgap, htext, hrest, List.flatMap_cons,
      Token.render, Token.rendered]
    simp

/-- Of the text, `before` has been copied, and `held` lies between that and the tokens. -/
theorem splice_extents_go (before held : Text) (ts : List Token) (tail : Text) :
    splice (before ++ (held ++ (Tokens.source ts ++ tail))) (byteSize before)
      ((extents.go (byteSize before + byteSize held) ts).zip (ts.map Token.queued))
      = held ++ (ts.flatMap Token.render ++ tail) := by
  induction ts generalizing before held with
  | nil => exact dropBytes_append before _
  | cons t ts ih =>
    rw [extents.go, List.map_cons, List.zip_cons_cons, List.flatMap_cons, Token.render, Token.rendered]
    cases t.queued with
    | none =>
      have hrest := ih before (held ++ t.gap ++ t.text)
      simp only [byteSize_append, List.append_assoc, ← Nat.add_assoc] at hrest
      rw [splice, Tokens.source_cons]
      simpa using hrest
    | some r =>
      have hrest := ih (before ++ (held ++ t.gap) ++ t.text) []
      have hx : before ++ (held ++ t.gap) ++ t.text ++ ([] ++ (Tokens.source ts ++ tail))
          = before ++ (held ++ (Tokens.source (t :: ts) ++ tail)) := by simp
      have hheld : byteSlice (byteSize before) (byteSize before + byteSize held + byteSize t.gap)
          (before ++ (held ++ (Tokens.source (t :: ts) ++ tail))) = held ++ t.gap := by
        rw [← hx, Nat.add_assoc, ← byteSize_append, List.append_assoc (before ++ _), List.append_assoc before,
          byteSlice_append]
      rw [hx, byteSize_append, byteSize_append, byteSize_append, byteSize_nil, Nat.add_zero,
        ← Nat.add_assoc] at hrest
      rw [splice, hheld, hrest]
      simp

/-! ### The last replacement -/

/-- A value in which tokens have been replaced one after the other. -/
def replaceAll {n : Nat} (v : Value) (calls : List (Fin n × Text)) : Value :=
  calls.foldl (fun v call => v.replace call.1 call.2) v

/-- Of the texts for the token at place `i`, the last one that is not its own. -/
def lastFor {n : Nat} (calls : List (Fin n × Text)) (i : Nat) (own : Text) : Option Text :=
  (calls.filter fun call => call.1.val = i ∧ call.2 ≠ own).getLast?.map Prod.snd

/-- The last of some texts counts, unless it is the token's own. -/
theorem lastFor_concat {n : Nat} (calls : List (Fin n × Text)) (j : Fin n) (r : Text) (i : Nat) (own : Text) :
    lastFor (calls ++ [(j, r)]) i own = if j.val = i ∧ r ≠ own then some r else lastFor calls i own := by
  by_cases h : j.val = i ∧ r ≠ own
  · rw [if_pos h, lastFor, List.filter_append, List.filter_cons_of_pos (by simpa using h)]
    simp
  · rw [if_neg h, lastFor, List.filter_append, List.filter_cons_of_neg (by simpa using h)]
    simp [lastFor]

/-- There is a text that counts if one of them is not the token's own. -/
theorem lastFor_isSome_iff {n : Nat} {calls : List (Fin n × Text)} {i : Nat} {own : Text} :
    (lastFor calls i own).isSome = true ↔ ∃ call ∈ calls, call.1.val = i ∧ call.2 ≠ own := by
  rw [lastFor, Option.isSome_map, Option.isSome_iff_ne_none, ne_eq, List.getLast?_eq_none_iff, List.filter_eq_nil_iff]
  simp

/-- **Each token has the last replacement that is not its own text.** -/
theorem tokens_replaceAll {n : Nat} {v : Value} (hfresh : ∀ t ∈ v.tokens, t.queued = none)
    (calls : List (Fin n × Text)) :
    (v.replaceAll calls).tokens = v.tokens.mapIdx fun i t => { t with queued := lastFor calls i t.text } := by
  induction calls using List.reverseRecOn with
  | nil =>
    apply List.ext_getElem?
    intro i
    rw [List.getElem?_mapIdx]
    cases h : v.tokens[i]? with
    | none => exact h
    | some t =>
      refine h.trans ?_
      rw [Option.map_some, lastFor, List.filter_nil, List.getLast?_nil, Option.map_none,
        ← hfresh t (List.mem_of_getElem? h)]
  | append_singleton calls call ih =>
    obtain ⟨j, r⟩ := call
    have hstep : (v.replaceAll (calls ++ [(j, r)])).tokens
        = (v.replaceAll calls).tokens.modify j fun t => t.queue r := by
      rw [replaceAll, List.foldl_append]
      rfl
    rw [hstep, ih]
    apply List.ext_getElem?
    intro i
    rw [List.getElem?_modify, List.getElem?_mapIdx, List.getElem?_mapIdx]
    cases h : v.tokens[i]? with
    | none => rfl
    | some t =>
      simp only [Option.map_some, Option.map_eq_map, lastFor_concat]
      by_cases hj : j.val = i
      · by_cases hr : r = t.text
        · simp [hj, hr, Token.queue]
        · simp [hj, hr, Token.queue]
      · simp [hj]

/-- Replacing changes neither the texts of the tokens nor where they stand. -/
theorem extents_go_mapIdx (f : Nat → Token → Option Text) (offset : Nat) (ts : List Token) :
    extents.go offset (ts.mapIdx fun i t => { t with queued := f i t }) = extents.go offset ts := by
  induction ts generalizing offset f with
  | nil => rfl
  | cons t ts ih =>
    rw [List.mapIdx_cons, extents.go, extents.go]
    exact congrArg _ (ih (fun i => f (i + 1)) _)

/-- What is queued does not change the text of tokens. -/
theorem source_mapIdx (f : Nat → Token → Option Text) (ts : List Token) :
    Tokens.source (ts.mapIdx fun i t => { t with queued := f i t }) = Tokens.source ts := by
  induction ts generalizing f with
  | nil => rfl
  | cons t ts ih =>
    rw [List.mapIdx_cons, Tokens.source_cons, Tokens.source_cons]
    exact congrArg _ (ih fun i => f (i + 1))

/-- What is queued does not change the blanks at the end. -/
theorem tail_replaceAll {n : Nat} (v : Value) (calls : List (Fin n × Text)) : (v.replaceAll calls).tail = v.tail := by
  induction calls generalizing v with
  | nil => rfl
  | cons call calls ih => exact ih _

/-- Where some token of a value is replaced by another text, the value counts as changed. -/
theorem isChanged_replaceAll_iff {v : Value} (hfresh : ∀ t ∈ v.tokens, t.queued = none)
    (calls : List (Fin v.tokens.length × Text)) :
    (v.replaceAll calls).isChanged = true ↔ ∃ call ∈ calls, call.2 ≠ (v.tokens.get call.1).text := by
  rw [isChanged, tokens_replaceAll hfresh, List.any_eq_true]
  constructor
  · rintro ⟨u, hu, hsome⟩
    obtain ⟨i, hi, rfl⟩ := List.mem_mapIdx.mp hu
    obtain ⟨call, hcall, rfl, hne⟩ := lastFor_isSome_iff.mp hsome
    exact ⟨call, hcall, hne⟩
  · rintro ⟨call, hcall, hne⟩
    refine ⟨_, List.mem_mapIdx.mpr ⟨call.1, call.1.isLt, rfl⟩, ?_⟩
    exact lastFor_isSome_iff.mpr ⟨call, hcall, rfl, hne⟩

/-- **The tokens of a text partition it, and rendering replaces them in their places.** Whatever texts are queued in
whatever order, each token is written as the last of them that is not its own text, and as it is if there is none. A
change is reported exactly if there is such a text for some token. -/
theorem read_partitions (x : Text) :
    (read x).Partitions x ∧
    ∀ calls : List (Fin (read x).tokens.length × Text),
      let v := read x
      let w := v.replaceAll calls
      let placed := v.extents.zip (v.tokens.mapIdx fun i t => lastFor calls i t.text)
      w.render = substitute x 0 placed ∧ w.render = splice x 0 placed ∧
      (w.isChanged = true ↔ ∃ call ∈ calls, call.2 ≠ (v.tokens.get call.1).text) := by
  refine ⟨partitions_read x, fun calls => ?_⟩
  intro v w placed
  have hfresh : ∀ t ∈ v.tokens, t.queued = none := fun t => queued_of_mem_read
  have htokens := tokens_replaceAll hfresh calls
  have hx : Tokens.source w.tokens ++ w.tail = x := by
    rw [htokens, source_mapIdx, tail_replaceAll]
    exact source_tokens_read x
  have hqueued : w.tokens.map Token.queued = v.tokens.mapIdx fun i t => lastFor calls i t.text := by
    rw [htokens]
    apply List.ext_getElem?
    intro i
    simp [Function.comp_def]
  have hplaced : w.extents.zip (w.tokens.map Token.queued) = placed := by
    rw [hqueued, extents, htokens, extents_go_mapIdx]
    rfl
  have hsubstitute := substitute_extents_go [] w.tokens w.tail
  have hsplice := splice_extents_go [] [] w.tokens w.tail
  rw [List.nil_append, hx] at hsubstitute
  rw [List.nil_append, List.nil_append, hx] at hsplice
  refine ⟨?_, ?_, isChanged_replaceAll_iff hfresh calls⟩
  · rw [← hplaced]
    exact hsubstitute.symm
  · rw [← hplaced]
    exact hsplice.symm

end Value

end BidiSheet
