import BidiSheet.Proofs.Byte
import BidiSheet.Proofs.Unit

/-!
# Extents in bytes

The scanners may be run over the characters of a text or over its bytes. A character that a scanner reacts
to is one byte with the same sign; every other character is a run of bytes that no scanner reacts to. So
what is read of the bytes are the bytes of what is read of the text (`comment_bytes`, `target_bytes`), and
the end of it lies between two characters, although a backslash takes along only the first byte of the
character after it.
-/

namespace BidiSheet

open HasSign (sign)

namespace Byte

/-- A byte has the sign of the character that it stands for. -/
theorem sign_eq {b : UInt8} {c : Char} (h : StandsFor b c) : sign b = sign c := by
  by_cases hc : c.toNat < 0x80
  · exact congrArg Sign.ofCode (h.ascii hc)
  · exact (Sign.ofCode_eq_other (h.beyond (Nat.not_lt.mp hc))).trans
      (Sign.ofCode_eq_other (Nat.not_lt.mp hc)).symm

/-- The first byte of a character has its sign, and no scanner reacts to the others. A character that a
scanner reacts to is a single byte. -/
theorem exists_bytes_cons (c : Char) :
    ∃ b bs, (∀ t, bytes (c :: t) = b :: (bs ++ bytes t)) ∧ c.utf8Size = bs.length + 1 ∧
      sign b = sign c ∧ (∀ x ∈ bs, sign x = .other) ∧ (sign c ≠ .other → bs = []) := by
  obtain ⟨b, bs, henc, hstands, hbeyond⟩ := exists_utf8EncodeChar_eq c
  refine ⟨b, bs, fun t => by rw [bytes_cons, henc, List.cons_append], ?_, sign_eq hstands,
    fun x hx => Sign.ofCode_eq_other (hbeyond x hx), fun hsign => ?_⟩
  · rw [← String.length_utf8EncodeChar, henc, List.length_cons]
  · have hc : c.toNat < 0x80 := by
      by_contra hc
      exact hsign (Sign.ofCode_eq_other (Nat.not_lt.mp hc))
    rw [utf8EncodeChar_ascii hc] at henc
    exact (List.cons.inj henc).2.symm

end Byte

namespace Extent

/-- A scanner goes past letters that it does not react to. -/
def Passes (f : List UInt8 → Nat) : Prop := ∀ x r, sign x = .other → f (x :: r) = f r + 1

/-- A scanner goes past several letters as it goes past one. -/
theorem Passes.append {f : List UInt8 → Nat} (hf : Passes f) {bs : List UInt8}
    (hbs : ∀ x ∈ bs, sign x = .other) (r : List UInt8) : f (bs ++ r) = bs.length + f r := by
  induction bs with
  | nil => simp
  | cons x bs ih =>
    rw [List.cons_append, hf x _ (hbs x List.mem_cons_self),
      ih fun y hy => hbs y (List.mem_cons_of_mem x hy), List.length_cons]
    omega

/-- A scanner goes past the bytes of a character that it does not react to. -/
theorem Passes.bytes_cons {f : List UInt8 → Nat} (hf : Passes f) {c : Char} (hc : sign c = .other)
    (t : Text) : f (bytes (c :: t)) = c.utf8Size + f (bytes t) := by
  obtain ⟨b, bs, hbytes, hsize, hsign, hbs, -⟩ := Byte.exists_bytes_cons c
  rw [hbytes, hf b _ (hsign.trans hc), hf.append hbs, hsize]
  omega

/-- A character that a scanner reacts to is one byte with its sign. -/
theorem exists_single {c : Char} (hc : sign c ≠ .other) :
    c.utf8Size = 1 ∧ ∃ b, sign b = sign c ∧ ∀ t, bytes (c :: t) = b :: bytes t := by
  obtain ⟨b, bs, hbytes, hsize, hsign, -, hsingle⟩ := Byte.exists_bytes_cons c
  obtain rfl := hsingle hc
  exact ⟨hsize, b, hsign, hbytes⟩

/-- Behind the first byte of a character a scanner goes past its other bytes. -/
theorem exists_bytes_tail (c : Char) :
    ∃ b r, (∀ t, bytes (c :: t) = b :: (r ++ bytes t)) ∧
      ∀ f, Passes f → ∀ t, f (r ++ bytes t) + 1 = c.utf8Size + f (bytes t) := by
  obtain ⟨b, bs, hbytes, hsize, -, hbs, -⟩ := Byte.exists_bytes_cons c
  refine ⟨b, bs, hbytes, fun f hf t => ?_⟩
  rw [hf.append hbs, hsize]
  omega

/-- The bytes of what is left of a text. -/
theorem drop_bytes_take (t : Text) (n : Nat) : (bytes t).drop (byteSize (t.take n)) = bytes (t.drop n) := by
  have h := drop_bytes (t.take n) (t.drop n)
  rwa [List.take_append_drop] at h

/-- The first character of a text adds its own bytes. -/
theorem byteSize_take_succ (c : Char) (t : Text) (n : Nat) :
    byteSize ((c :: t).take (n + 1)) = c.utf8Size + byteSize (t.take n) := by
  rw [List.take_succ_cons, byteSize_cons]

/-! ### Strings and comments -/

/-- A string goes past letters that are no signs. -/
theorem passes_string {quote : Sign} (hq : quote ≠ .other) : Passes (string quote) := by
  intro x r hx
  exact string_other (by simp [hx]) (by rw [hx]; exact hq.symm) r

/-- A string takes the bytes of what it takes of the text. -/
theorem string_bytes {quote : Sign} (hq : quote ≠ .other) (t : Text) :
    string quote (bytes t) = byteSize (t.take (string quote t)) := by
  fun_induction string quote t with
  | case1 => simp [string.eq_def]
  | case2 c hc =>
    obtain ⟨hsize, b, hb, hbytes⟩ := exists_single (c := c) (by simp [hc])
    rw [hbytes, bytes_nil, byteSize_take_succ, hsize, string.eq_def]
    simp [hb, hc]
  | case3 c hc d ds ih =>
    obtain ⟨hsize, b, hb, hbytes⟩ := exists_single (c := c) (by simp [hc])
    obtain ⟨b', r, htail, hpast⟩ := exists_bytes_tail d
    have hrest := hpast _ (passes_string hq) ds
    rw [hbytes, htail, string_escape (hb.trans hc), byteSize_take_succ, byteSize_take_succ, hsize, ← ih]
    omega
  | case4 c cs hb hc =>
    obtain ⟨hsize, b, hsign, hbytes⟩ := exists_single (hc ▸ hq)
    rw [hbytes, string_quote (hsign ▸ hb) (hsign.trans hc), byteSize_take_succ, hsize]
    rfl
  | case5 c cs hb hc ih =>
    rw [byteSize_take_succ, ← ih]
    by_cases hother : sign c = .other
    · exact (passes_string hq).bytes_cons hother cs
    · obtain ⟨hsize, b, hsign, hbytes⟩ := exists_single hother
      rw [hbytes, string_other (hsign ▸ hb) (hsign ▸ hc), hsize]
      omega

/-- A comment goes past a letter that does not end it. -/
theorem comment_cons {α : Type} [HasSign α] {c : α} {cs : List α}
    (h : ¬ (sign c = .star ∧ ∃ d ∈ cs.head?, sign d = .slash)) : comment (c :: cs) = comment cs + 1 := by
  cases cs with
  | nil => rfl
  | cons d cs =>
    rw [comment, if_neg]
    rintro ⟨hc, hd⟩
    exact h ⟨hc, d, rfl, hd⟩

/-- A comment goes past letters that are no signs. -/
theorem passes_comment : Passes comment := by
  intro x r hx
  exact comment_cons (by simp [hx])

/-- A comment takes the bytes of what it takes of the text. -/
theorem comment_bytes (t : Text) : comment (bytes t) = byteSize (t.take (comment t)) := by
  fun_induction comment t with
  | case1 => rfl
  | case2 c =>
    by_cases hother : sign c = .other
    · rw [passes_comment.bytes_cons hother]
      rfl
    · obtain ⟨hsize, b, -, hbytes⟩ := exists_single hother
      rw [hbytes, bytes_nil, byteSize_take_succ, hsize]
      rfl
  | case3 c d cs he =>
    obtain ⟨hsize, b, hb, hbytes⟩ := exists_single (c := c) (by simp [he.1])
    obtain ⟨hsize', b', hb', hbytes'⟩ := exists_single (c := d) (by simp [he.2])
    rw [hbytes, hbytes', comment, if_pos ⟨hb.trans he.1, hb'.trans he.2⟩, byteSize_take_succ,
      byteSize_take_succ, hsize, hsize']
    rfl
  | case4 c d cs hne ih =>
    rw [byteSize_take_succ, ← ih]
    by_cases hother : sign c = .other
    · exact passes_comment.bytes_cons hother (d :: cs)
    · obtain ⟨hsize, b, hb, hbytes⟩ := exists_single hother
      rw [hbytes, comment_cons, hsize, Nat.add_comm]
      rintro ⟨hstar, e, he, hslash⟩
      obtain ⟨b', bs, hcons, -, hsign, -⟩ := Byte.exists_bytes_cons d
      rw [hcons, List.head?_cons, Option.mem_some_iff] at he
      exact hne ⟨hb ▸ hstar, by rw [← hsign, he, hslash]⟩

/-! ### Urls -/

section

variable {α : Type} [HasSign α] {c : α}

/-- A closing bracket ends a url. -/
theorem url_close (h : sign c = .closeRound) (cs : List α) : url (c :: cs) = 1 := by
  rw [url, if_pos h]

/-- A string within a url is read whole. -/
theorem url_quote (h : (sign c).isQuote = true) (cs : List α) :
    url (c :: cs) = string (sign c) cs + url (cs.drop (string (sign c) cs)) + 1 := by
  have hne : sign c ≠ .closeRound := by
    intro hc
    simp [hc, Sign.isQuote] at h
  rw [url, if_neg hne, if_pos h]

/-- A backslash in a url takes the next letter along, if there is one. -/
theorem url_escape (h : sign c = .backslash) (cs : List α) :
    url (c :: cs) = min 1 cs.length + url (cs.drop 1) + 1 := by
  rw [url, if_neg (by simp [h]), if_neg (by simp [h, Sign.isQuote]), if_pos h]

/-- Any other letter belongs to the url. -/
theorem url_other (hc : sign c ≠ .closeRound) (hq : (sign c).isQuote = false) (hb : sign c ≠ .backslash)
    (cs : List α) : url (c :: cs) = url cs + 1 := by
  rw [url, if_neg hc, if_neg (by simp [hq]), if_neg hb]

end

/-- A url goes past letters that are no signs. -/
theorem passes_url : Passes url := by
  intro x r hx
  exact url_other (by simp [hx]) (by simp [hx, Sign.isQuote]) (by simp [hx]) r

/-- A url takes the bytes of what it takes of the text. -/
theorem url_bytes (t : Text) : url (bytes t) = byteSize (t.take (url t)) := by
  fun_induction url t with
  | case1 => simp [url]
  | case2 c cs hc =>
    obtain ⟨hsize, b, hb, hbytes⟩ := exists_single (c := c) (by simp [hc])
    rw [hbytes, url_close (hb.trans hc), byteSize_take_succ, hsize]
    rfl
  | case3 c cs hc hq ih =>
    have hne : sign c ≠ .other := by
      intro hother
      simp [hother, Sign.isQuote] at hq
    obtain ⟨hsize, b, hb, hbytes⟩ := exists_single hne
    rw [hbytes, url_quote (hb ▸ hq), hb, string_bytes hne, drop_bytes_take, ih, byteSize_take_succ, hsize,
      List.take_add, byteSize_append]
    omega
  | case4 c cs hc hq hb ih =>
    obtain ⟨hsize, b, hsign, hbytes⟩ := exists_single (c := c) (by simp [hb])
    rw [hbytes, url_escape (hsign.trans hb), byteSize_take_succ, hsize]
    cases cs with
    | nil => simp [url]
    | cons d ds =>
      -- only the first byte of the character behind the backslash is taken along
      obtain ⟨b', r, htail, hpast⟩ := exists_bytes_tail d
      have hrest := hpast _ passes_url ds
      rw [List.drop_succ_cons, List.drop_zero] at ih
      rw [htail, List.drop_succ_cons, List.drop_zero, List.drop_succ_cons, List.drop_zero, List.length_cons,
        List.length_cons, Nat.min_eq_left (Nat.le_add_left 1 _), Nat.min_eq_left (Nat.le_add_left 1 _),
        Nat.add_comm 1 (url ds), byteSize_take_succ, ← ih]
      omega
  | case5 c cs hc hq hb ih =>
    rw [byteSize_take_succ, ← ih]
    by_cases hother : sign c = .other
    · exact passes_url.bytes_cons hother cs
    · obtain ⟨hsize, b, hsign, hbytes⟩ := exists_single hother
      rw [hbytes, url_other (hsign ▸ hc) (by simpa [hsign] using hq) (hsign ▸ hb), hsize]
      omega

/-! ### Units -/

/-- Whether a comment opens is seen from the bytes. -/
theorem opensComment_bytes {b : UInt8} {c : Char} (hsign : sign b = sign c) (cs : Text) :
    opensComment b (bytes cs) = opensComment c cs := by
  rw [opensComment, opensComment, hsign]
  congr 1
  cases cs with
  | nil => rfl
  | cons d cs =>
    obtain ⟨b', bs, hcons, -, hd, -⟩ := Byte.exists_bytes_cons d
    rw [hcons, List.head?_cons, List.head?_cons, Option.any_some, Option.any_some, hd]

/-- A unit, and what a scanner reads behind it, end alike in a text and in its bytes. -/
theorem unit_bytes_add {f : List UInt8 → Nat} (hf : Passes f) {b : UInt8} {c : Char}
    (hsign : sign b = sign c) (cs : Text) :
    unit b (bytes cs) + f ((bytes cs).drop (unit b (bytes cs)))
      = byteSize (cs.take (unit c cs)) + f (bytes (cs.drop (unit c cs))) := by
  by_cases hq : (sign c).isQuote = true
  · have hne : sign c ≠ .other := by
      intro hother
      rw [hother] at hq
      cases hq
    rw [unit_string (hsign ▸ hq), unit_string hq, hsign, string_bytes hne, drop_bytes_take]
  by_cases hb : sign c = .backslash
  · rw [unit_escape (hsign.trans hb), unit_escape hb]
    cases cs with
    | nil => rfl
    | cons d ds =>
      obtain ⟨b', r, htail, hpast⟩ := exists_bytes_tail d
      have hrest := hpast f hf ds
      simp only [htail, List.length_cons, Nat.le_add_left, Nat.min_eq_left, List.drop_succ_cons,
        List.drop_zero, byteSize_take_succ, List.take_zero, byteSize_nil]
      omega
  by_cases ho : opensComment c cs = true
  · cases cs with
    | nil => simp [opensComment] at ho
    | cons d ds =>
      obtain ⟨hslash, hstar⟩ : sign c = .slash ∧ sign d = .star := by simpa [opensComment] using ho
      obtain ⟨hsize, b', hb', hbytes⟩ := exists_single (c := d) (by simp [hstar])
      rw [hbytes, unit_comment (hsign.trans hslash) (hb'.trans hstar), unit_comment hslash hstar,
        byteSize_take_succ, hsize, List.drop_succ_cons, List.drop_succ_cons, comment_bytes,
        drop_bytes_take]
      omega
  · have hletter : unit b (bytes cs) = 0 := by
      apply unit_letter (by simpa [hsign] using hq) (hsign ▸ hb)
      rw [opensComment_bytes hsign]
      simpa using ho
    rw [hletter, unit_letter (by simpa using hq) hb (by simpa using ho)]
    simp

/-- A scanner that reads a unit first reads alike of a text and of its bytes, if it does so behind the
unit. -/
theorem bytes_unit {f : List UInt8 → Nat} (hf : Passes f) {c : Char} {cs : Text}
    (hunit : ∀ b r, sign b = sign c → f (b :: r) = unit b r + f (r.drop (unit b r)) + 1) {n : Nat}
    (hrest : f (bytes (cs.drop (unit c cs))) = byteSize ((cs.drop (unit c cs)).take n)) :
    f (bytes (c :: cs)) = byteSize ((c :: cs).take (unit c cs + n + 1)) := by
  rw [byteSize_take_succ, List.take_add, byteSize_append, ← hrest]
  by_cases hother : sign c = .other
  · rw [hf.bytes_cons hother,
      unit_eq_zero (by simp [hother, Sign.isQuote]) (by simp [hother]) (by simp [hother])]
    simp
  · obtain ⟨hsize, b, hb, hbytes⟩ := exists_single hother
    rw [hbytes, hunit b _ hb, unit_bytes_add hf hb, hsize]
    omega

/-! ### Blocks, rules and targets -/

/-- A block goes past letters that are no signs. -/
theorem passes_block (inner : Nat) : Passes (block inner) := by
  intro x r hx
  rw [block_unit (by simp [hx]) (by simp [hx]),
    unit_eq_zero (by simp [hx, Sign.isQuote]) (by simp [hx]) (by simp [hx])]
  simp

/-- A block takes the bytes of what it takes of the text. -/
theorem block_bytes (inner : Nat) (t : Text) :
    block inner (bytes t) = byteSize (t.take (block inner t)) := by
  fun_induction block inner t with
  | case1 => simp [block]
  | case2 inner c cs hc ih =>
    obtain ⟨hsize, b, hb, hbytes⟩ := exists_single (c := c) (by simp [hc])
    rw [hbytes, block_open (hb.trans hc), ih, byteSize_take_succ, hsize, Nat.add_comm]
  | case3 c cs ho hc =>
    obtain ⟨hsize, b, hb, hbytes⟩ := exists_single (c := c) (by simp [hc])
    rw [hbytes, block_close_last (hb.trans hc), byteSize_take_succ, hsize]
    rfl
  | case4 c cs ho hc inner ih =>
    obtain ⟨hsize, b, hb, hbytes⟩ := exists_single (c := c) (by simp [hc])
    rw [hbytes, block_close (hb.trans hc), ih, byteSize_take_succ, hsize, Nat.add_comm]
  | case5 inner c cs ho hc ih =>
    refine bytes_unit (passes_block inner) (fun b r hb => ?_) ih
    exact block_unit (hb ▸ ho) (hb ▸ hc) r

/-- A rule goes past letters that are no signs. -/
theorem passes_rule (depth : Nat) : Passes (rule depth) := by
  intro x r hx
  rw [rule_unit (by simp [hx, isRuleSign]),
    unit_eq_zero (by simp [hx, Sign.isQuote]) (by simp [hx]) (by simp [hx])]
  simp

/-- A rule takes the bytes of what it takes of the text. -/
theorem rule_bytes : ∀ (depth : Nat) (t : Text),
    rule depth (bytes t) = byteSize (t.take (rule depth t))
  | depth, [] => by simp [rule]
  | depth, c :: cs => by
    by_cases hs : isRuleSign (sign c) = false
    · rw [rule_unit hs]
      refine bytes_unit (passes_rule depth) (fun b r hb => ?_) (rule_bytes depth _)
      exact rule_unit (hb ▸ hs) r
    rw [Bool.not_eq_false] at hs
    obtain ⟨hsize, b, hb, hbytes⟩ :=
      exists_single (c := c) (by rintro hother; simp [hother, isRuleSign] at hs)
    rw [hbytes]
    rw [← hb] at hs
    rcases sign_cases hs with hs | hs | hs | hs
    · rw [rule_open hs, rule_open (hb ▸ hs), rule_bytes, byteSize_take_succ, hsize, Nat.add_comm]
    · rw [rule_close hs, rule_close (hb ▸ hs), rule_bytes, byteSize_take_succ, hsize, Nat.add_comm]
    · by_cases hdepth : depth = 0
      · subst hdepth
        rcases hs with hs | hs
        · rw [rule_semicolon hs, rule_semicolon (hb ▸ hs), byteSize_take_succ, hsize]
          rfl
        · rw [rule_of_startsClosed (by simp [startsClosed, hs]),
            rule_of_startsClosed (by simp [startsClosed, ← hb, hs])]
          rfl
      · rw [rule_inside hdepth hs, rule_inside hdepth (hb ▸ hs), rule_bytes, byteSize_take_succ, hsize,
          Nat.add_comm]
    · rw [rule_block hs, rule_block (hb ▸ hs), block_bytes, byteSize_take_succ, hsize, Nat.add_comm]
termination_by _ t => t.length
decreasing_by
  all_goals first
    | exact length_drop_lt c cs _
    | exact Nat.lt_succ_self _

/-- Trivia take the bytes of what they take of the text. -/
theorem trivia_bytes (t : Text) : trivia (bytes t) = byteSize (t.take (trivia t)) := by
  fun_induction trivia t with
  | case1 => simp [trivia]
  | case2 c cs hc ih =>
    obtain ⟨hsize, b, hb, hbytes⟩ := exists_single (c := c) (by simp [hc])
    rw [hbytes, trivia_blank (hb.trans hc), ih, byteSize_take_succ, hsize, Nat.add_comm]
  | case3 c cs hblank ho ih =>
    cases cs with
    | nil => simp [opensComment] at ho
    | cons d ds =>
      obtain ⟨hslash, hstar⟩ : sign c = .slash ∧ sign d = .star := by simpa [opensComment] using ho
      obtain ⟨hsize, b, hb, hbytes⟩ := exists_single (c := c) (by simp [hslash])
      obtain ⟨hsize', b', hb', hbytes'⟩ := exists_single (c := d) (by simp [hstar])
      have hopens : opensComment b (b' :: bytes ds) = true := by
        simp [opensComment, hb, hb', hslash, hstar]
      rw [List.tail_cons, List.drop_succ_cons] at ih ⊢
      rw [hbytes, hbytes', trivia_comment hopens, List.tail_cons, List.drop_succ_cons, comment_bytes,
        drop_bytes_take, ih, byteSize_take_succ, hsize,
        show comment ds + 1 + trivia (ds.drop (comment ds)) = comment ds + trivia (ds.drop (comment ds)) + 1
          by omega, byteSize_take_succ, hsize', List.take_add, byteSize_append]
      omega
  | case4 c cs hblank ho =>
    by_cases hother : sign c = .other
    · obtain ⟨b, bs, hbytes, -, hb, -⟩ := Byte.exists_bytes_cons c
      rw [hbytes, trivia_stop (by simp [hb, hother]) (by simp [opensComment, hb, hother])]
      rfl
    · obtain ⟨hsize, b, hb, hbytes⟩ := exists_single hother
      rw [hbytes, trivia_stop (hb ▸ hblank) (by rw [opensComment_bytes hb]; simpa using ho)]
      rfl

/-- **The target of a no-flip comment is the same in a text and in its bytes.** -/
theorem target_bytes (t : Text) : target (bytes t) = byteSize (t.take (target t)) := by
  have hdrop : (bytes t).drop (trivia (bytes t)) = bytes (t.drop (trivia t)) := by
    rw [trivia_bytes, drop_bytes_take]
  have hzero : target (bytes t) = 0 ↔ target t = 0 := by
    rw [target_eq_zero_iff, target_eq_zero_iff, hdrop]
    cases t.drop (trivia t) with
    | nil => simp
    | cons c cs =>
      obtain ⟨b, bs, hbytes, -, hb, -⟩ := Byte.exists_bytes_cons c
      simp [hbytes, startsClosed, hb]
  by_cases h : target t = 0
  · rw [h, hzero.mpr h]
    rfl
  · rw [target_eq fun h' => h (hzero.mp h'), hdrop, rule_bytes, trivia_bytes, target_eq h, List.take_add,
      byteSize_append]

end Extent

end BidiSheet
