import BidiSheet.Bytes
import BidiSheet.Proofs.Piece

/-!
# Bytes of a text

Offsets in a source are counted in bytes of its UTF-8 form (`bytes`). An ASCII character is one byte, of
the same code; all bytes of any other character are beyond ASCII (`Byte.standsFor_of_mem`). So whatever
can be asked of an identifier, a keyword or a single ASCII character is answered alike by a text and by
its bytes (`Byte.isIdent_eq`, `Byte.beginsWith_bytes`, `Byte.eq_code_iff`).

A text can be read back from its bytes, and other bytes cannot be read (`text?_eq_some_iff`).
-/

namespace BidiSheet

@[simp] theorem bytes_nil : bytes [] = [] := rfl

/-- The bytes of a text are those of its characters. -/
theorem bytes_cons (c : Char) (t : Text) : bytes (c :: t) = String.utf8EncodeChar c ++ bytes t := rfl

/-- The bytes of two texts follow one another. -/
@[simp] theorem bytes_append (s t : Text) : bytes (s ++ t) = bytes s ++ bytes t :=
  List.flatMap_append

/-- A text has as many bytes as its size says. -/
@[simp] theorem length_bytes (t : Text) : (bytes t).length = byteSize t := by
  induction t with
  | nil => rfl
  | cons c t ih => rw [bytes_cons, List.length_append, String.length_utf8EncodeChar, ih, byteSize_cons]

/-- A text that is not empty has bytes. -/
theorem byteSize_pos {t : Text} (h : t ≠ []) : 0 < byteSize t := by
  obtain ⟨c, u, rfl⟩ := List.exists_cons_of_ne_nil h
  rw [byteSize_cons]
  exact Nat.add_pos_left c.utf8Size_pos _

/-- What follows a text in a longer one begins behind its bytes. -/
theorem drop_bytes (s t : Text) : (bytes (s ++ t)).drop (byteSize s) = bytes t := by
  rw [bytes_append, ← length_bytes, List.drop_left]

/-- A longer text begins with the bytes of its front. -/
theorem take_bytes (s t : Text) : (bytes (s ++ t)).take (byteSize s) = bytes s := by
  rw [bytes_append, ← length_bytes, List.take_left]

namespace Byte

/-- A byte of the UTF-8 form of a character: the code of the character if it is ASCII, and otherwise a
byte beyond ASCII. -/
structure StandsFor (b : UInt8) (c : Char) : Prop where
  ascii : c.toNat < 0x80 → b.toNat = c.toNat
  beyond : 0x80 ≤ c.toNat → 0x80 ≤ b.toNat

/-- An ASCII character is one byte, its code. -/
theorem utf8EncodeChar_ascii {c : Char} (h : c.toNat < 0x80) :
    String.utf8EncodeChar c = [UInt8.ofNat c.toNat] := by
  have hle : c.val.toNat ≤ 127 := Nat.le_of_lt_succ h
  simp only [String.utf8EncodeChar, hle, if_true]
  rfl

/-- The bytes of a character beyond ASCII are beyond ASCII. -/
theorem le_of_mem_utf8EncodeChar {c : Char} (h : 0x80 ≤ c.toNat) {b : UInt8}
    (hb : b ∈ String.utf8EncodeChar c) : 0x80 ≤ b.toNat := by
  have hlt : ¬ c.val.toNat ≤ 127 := Nat.not_le.mpr h
  simp only [String.utf8EncodeChar, hlt, if_false] at hb
  split at hb
  · simp only [List.mem_cons, List.not_mem_nil, or_false] at hb
    rcases hb with rfl | rfl <;> simp only [UInt8.toNat_ofNat'] <;> omega
  split at hb
  · simp only [List.mem_cons, List.not_mem_nil, or_false] at hb
    rcases hb with rfl | rfl | rfl <;> simp only [UInt8.toNat_ofNat'] <;> omega
  · simp only [List.mem_cons, List.not_mem_nil, or_false] at hb
    rcases hb with rfl | rfl | rfl | rfl <;> simp only [UInt8.toNat_ofNat'] <;> omega

/-- The bytes of a character stand for it. -/
theorem standsFor_of_mem {c : Char} {b : UInt8} (h : b ∈ String.utf8EncodeChar c) : StandsFor b c where
  ascii hc := by
    rw [utf8EncodeChar_ascii hc, List.mem_singleton] at h
    rw [h, UInt8.toNat_ofNat']
    omega
  beyond hc := le_of_mem_utf8EncodeChar hc h

/-- The first byte of a character stands for it, and the others are beyond ASCII. -/
theorem exists_utf8EncodeChar_eq (c : Char) :
    ∃ b bs, String.utf8EncodeChar c = b :: bs ∧ StandsFor b c ∧ ∀ x ∈ bs, 0x80 ≤ x.toNat := by
  cases h : String.utf8EncodeChar c with
  | nil =>
    have hlen := String.length_utf8EncodeChar c
    rw [h, List.length_nil] at hlen
    exact absurd c.utf8Size_pos (by omega)
  | cons b bs =>
    refine ⟨b, bs, rfl, standsFor_of_mem (by rw [h]; exact List.mem_cons_self), ?_⟩
    intro x hx
    by_cases hc : c.toNat < 0x80
    · rw [utf8EncodeChar_ascii hc] at h
      cases h
      exact absurd hx List.not_mem_nil
    · exact le_of_mem_utf8EncodeChar (Nat.not_lt.mp hc) (by rw [h]; exact List.mem_cons_of_mem b hx)

/-- An ASCII byte of a text is an ASCII character of it. -/
theorem exists_of_ascii {t : Text} {i : Nat} {b : UInt8} (h : (bytes t)[i]? = some b) (hb : b.toNat < 0x80) :
    ∃ u c v, t = u ++ c :: v ∧ i = byteSize u ∧ StandsFor b c := by
  induction t generalizing i with
  | nil => cases h
  | cons c t ih =>
    rw [bytes_cons] at h
    by_cases hi : i < (String.utf8EncodeChar c).length
    · rw [List.getElem?_append_left hi] at h
      have hstands := standsFor_of_mem (List.mem_of_getElem? h)
      have hc : c.toNat < 0x80 := by
        by_contra hc
        exact absurd (hstands.beyond (Nat.not_lt.mp hc)) (Nat.not_le.mpr hb)
      rw [utf8EncodeChar_ascii hc, List.length_singleton, Nat.lt_one_iff] at hi
      exact ⟨[], c, t, rfl, hi, hstands⟩
    · rw [List.getElem?_append_right (Nat.not_lt.mp hi)] at h
      obtain ⟨u, d, v, rfl, hu, hstands⟩ := ih h
      rw [String.length_utf8EncodeChar] at hi hu
      exact ⟨c :: u, d, v, rfl, by rw [byteSize_cons]; omega, hstands⟩

/-! ### Single bytes -/

/-- A byte is an ASCII character exactly if the character that it stands for is. -/
theorem eq_code_iff {b : UInt8} {c : Char} (h : StandsFor b c) (d : Char) (hd : d.toNat < 0x80) :
    b = UInt8.ofNat d.toNat ↔ c = d := by
  have hcode : (UInt8.ofNat d.toNat).toNat = d.toNat := by
    rw [UInt8.toNat_ofNat']
    omega
  rw [← UInt8.toNat_inj, hcode, ← Char.toNat_inj]
  by_cases hc : c.toNat < 0x80
  · rw [h.ascii hc]
  · have hbeyond := h.beyond (Nat.not_lt.mp hc)
    omega

/-- The bytes of an identifier: ASCII letters and digits, hyphen, underscore, and all beyond ASCII. -/
def isIdent (b : UInt8) : Bool :=
  (0x30 ≤ b && b ≤ 0x39) || (0x41 ≤ b && b ≤ 0x5A) || (0x61 ≤ b && b ≤ 0x7A) || b = 0x2D ||
    b = 0x5F || 0x80 ≤ b

/-- The codes of the characters, and of the bytes, of an identifier. -/
def IsIdentCode (n : Nat) : Prop :=
  0x30 ≤ n ∧ n ≤ 0x39 ∨ 0x41 ≤ n ∧ n ≤ 0x5A ∨ 0x61 ≤ n ∧ n ≤ 0x7A ∨ n = 0x2D ∨ n = 0x5F ∨ 0x80 ≤ n

/-- A byte belongs to an identifier exactly if its code does. -/
theorem isIdent_iff (b : UInt8) : isIdent b = true ↔ IsIdentCode b.toNat := by
  simp only [isIdent, Bool.or_eq_true, Bool.and_eq_true, decide_eq_true_eq, UInt8.le_iff_toNat_le,
    ← UInt8.toNat_inj, or_assoc]
  rfl

/-- A character belongs to an identifier exactly if its code does. -/
theorem isIdentCode_char (c : Char) : BidiSheet.isIdent c = true ↔ IsIdentCode c.toNat := by
  simp only [BidiSheet.isIdent, Char.isAlphanum, Char.isAlpha, Char.isUpper, Char.isLower, Char.isDigit,
    Bool.or_eq_true, Bool.and_eq_true, decide_eq_true_eq, UInt32.le_iff_toNat_le, ge_iff_le,
    ← Char.toNat_inj]
  show ((((0x41 ≤ c.toNat ∧ c.toNat ≤ 0x5A ∨ 0x61 ≤ c.toNat ∧ c.toNat ≤ 0x7A) ∨
    0x30 ≤ c.toNat ∧ c.toNat ≤ 0x39) ∨ c.toNat = 0x2D) ∨ c.toNat = 0x5F) ∨ 0x80 ≤ c.toNat ↔ _
  unfold IsIdentCode
  omega

/-- A byte belongs to an identifier exactly if the character does that it stands for. -/
theorem isIdent_eq {b : UInt8} {c : Char} (h : StandsFor b c) : isIdent b = BidiSheet.isIdent c := by
  rw [Bool.eq_iff_iff, isIdent_iff, isIdentCode_char]
  by_cases hc : c.toNat < 0x80
  · rw [h.ascii hc]
  · have hbeyond := h.beyond (Nat.not_lt.mp hc)
    unfold IsIdentCode
    omega

/-- An ASCII letter made small. -/
def lower (b : UInt8) : UInt8 := if 0x41 ≤ b ∧ b ≤ 0x5A then b + 0x20 else b

/-- The code of a byte that is made small. -/
theorem toNat_lower (b : UInt8) :
    (lower b).toNat = if 0x41 ≤ b.toNat ∧ b.toNat ≤ 0x5A then b.toNat + 0x20 else b.toNat := by
  unfold lower
  simp only [UInt8.le_iff_toNat_le]
  change (if 0x41 ≤ b.toNat ∧ b.toNat ≤ 0x5A then b + 0x20 else b).toNat = _
  split
  · rw [UInt8.toNat_add]
    change (b.toNat + 0x20) % 256 = _
    omega
  · rfl

/-- The code of a character that is made small. -/
theorem toNat_toLower (c : Char) :
    c.toLower.toNat = if 0x41 ≤ c.toNat ∧ c.toNat ≤ 0x5A then c.toNat + 0x20 else c.toNat := by
  unfold Char.toLower
  simp only [UInt32.le_iff_toNat_le, ge_iff_le]
  change Char.toNat (if h : 0x41 ≤ c.toNat ∧ c.toNat ≤ 0x5A then _ else _) = _
  split
  · change (c.val + 0x20).toNat = _
    rw [UInt32.toNat_add]
    change (c.toNat + 0x20) % 2 ^ 32 = _
    omega
  · rfl

/-- A byte that is made small stands for the character that is made small. -/
theorem StandsFor.lower {b : UInt8} {c : Char} (h : StandsFor b c) : StandsFor (lower b) c.toLower := by
  by_cases hc : c.toNat < 0x80
  · have hb := h.ascii hc
    constructor <;> rw [toNat_lower, toNat_toLower, hb] <;> split <;> omega
  · have hb := h.beyond (Nat.not_lt.mp hc)
    constructor <;> rw [toNat_lower, toNat_toLower] <;> split <;> split <;> omega

/-! ### Words -/

/-- Whether bytes begin with a word, which is written in small letters. -/
def beginsWith (word bs : List UInt8) : Bool := (bs.take word.length).map lower = word

/-- Bytes begin with a word if they do so byte by byte. -/
theorem beginsWith_cons (y : UInt8) (word : List UInt8) (b : UInt8) (bs : List UInt8) :
    beginsWith (y :: word) (b :: bs) = (decide (lower b = y) && beginsWith word bs) := by
  simp [beginsWith]

theorem beginsWith_nil (y : UInt8) (word : List UInt8) : beginsWith (y :: word) [] = false := by
  simp [beginsWith]

/-- Whether all characters of a word are ASCII. -/
def isAscii (word : Text) : Bool := word.all (·.toNat < 0x80)

/-- A word is ASCII if its characters are. -/
theorem isAscii_cons {y : Char} {word : Text} :
    isAscii (y :: word) = true ↔ y.toNat < 0x80 ∧ isAscii word = true := by
  simp [isAscii]

/-- Whether an ASCII character, made small, is the first one is seen from the first byte. -/
theorem lower_eq_code_iff {b : UInt8} {c y : Char} (h : StandsFor b c) (hy : y.toNat < 0x80) :
    lower b = UInt8.ofNat y.toNat ↔ c.toLower = y :=
  eq_code_iff h.lower y hy

/-- **A text begins with an ASCII word exactly if its bytes do.** -/
theorem beginsWith_bytes {word : Text} (hword : isAscii word = true) (t : Text) :
    beginsWith (bytes word) (bytes t) = BidiSheet.beginsWith word t := by
  induction word generalizing t with
  | nil => rfl
  | cons y word ih =>
    obtain ⟨hy, htail⟩ := isAscii_cons.mp hword
    rw [bytes_cons, utf8EncodeChar_ascii hy, List.singleton_append]
    cases t with
    | nil => rw [bytes_nil, beginsWith_nil, BidiSheet.beginsWith_nil]
    | cons c t =>
      by_cases hc : c.toNat < 0x80
      · have hstands : StandsFor (UInt8.ofNat c.toNat) c :=
          standsFor_of_mem (by rw [utf8EncodeChar_ascii hc]; exact List.mem_singleton_self _)
        rw [bytes_cons, utf8EncodeChar_ascii hc, List.singleton_append, beginsWith_cons,
          BidiSheet.beginsWith_cons, ih htail]
        simp only [lower_eq_code_iff hstands hy]
      · -- neither the character nor its first byte is a letter of the word
        obtain ⟨b, bs, henc, hstands, -⟩ := exists_utf8EncodeChar_eq c
        have hne : c.toLower ≠ y := by
          intro heq
          rw [← Char.toNat_inj, toNat_toLower] at heq
          split at heq <;> omega
        rw [bytes_cons, henc, List.cons_append, beginsWith_cons, BidiSheet.beginsWith_cons]
        simp [lower_eq_code_iff hstands hy, hne]

/-- A word that is ASCII takes as many bytes as characters. -/
theorem drop_of_beginsWith {word t : Text} (hword : isAscii word = true)
    (h : BidiSheet.beginsWith word t = true) :
    (bytes t).drop word.length = bytes (t.drop word.length) := by
  induction word generalizing t with
  | nil => rfl
  | cons y word ih =>
    obtain ⟨hy, htail⟩ := isAscii_cons.mp hword
    cases t with
    | nil => rfl
    | cons c t =>
      rw [BidiSheet.beginsWith_cons, Bool.and_eq_true, decide_eq_true_eq] at h
      have hc : c.toNat < 0x80 := by
        rw [← h.1, toNat_toLower] at hy
        split at hy <;> omega
      rw [bytes_cons, utf8EncodeChar_ascii hc, List.singleton_append, List.length_cons,
        List.drop_succ_cons, List.drop_succ_cons, ih htail h.2]

end Byte

/-! ### Reading and showing bytes -/

/-- A text can be read back from its bytes. -/
theorem text?_bytes (t : Text) : text? (bytes t) = some t := by
  have hvalid : (bytes t).toByteArray.IsValidUTF8 := ByteArray.isValidUTF8_utf8Encode (l := t)
  have hstring : String.fromUTF8? (bytes t).toByteArray = some (String.ofList t) := by
    rw [String.fromUTF8?, dif_pos hvalid]
    rfl
  rw [text?, hstring, Option.map_some, String.toList_ofList]

/-- Arrays of the same bytes come from the same list. -/
theorem toByteArray_inj {bs bs' : Bytes} (h : bs.toByteArray = bs'.toByteArray) : bs = bs' := by
  have hdata := congrArg ByteArray.data h
  rw [List.data_toByteArray, List.data_toByteArray] at hdata
  simpa using hdata

/-- **Bytes are read as the text whose bytes they are**, and only then. -/
theorem text?_eq_some_iff {bs : Bytes} {t : Text} : text? bs = some t ↔ bs = bytes t := by
  constructor
  · intro h
    obtain ⟨s, hs, rfl⟩ := Option.map_eq_some_iff.mp h
    unfold String.fromUTF8? at hs
    split at hs
    · cases hs
      apply toByteArray_inj
      show bs.toByteArray = (String.fromUTF8 bs.toByteArray _).toList.utf8Encode
      rw [String.utf8Encode_toList]
      rfl
    · cases hs
  · rintro rfl
    exact text?_bytes t

/-- The first character of a text is the one that its bytes begin with. -/
theorem firstChar?_bytes (c : Char) (t : Text) : firstChar? (bytes (c :: t)) = some c := by
  have hsize : (String.utf8EncodeChar c).length ≤ 4 := by
    rw [String.length_utf8EncodeChar]
    exact c.utf8Size_le_four
  rw [firstChar?, bytes_cons, List.take_append, List.take_of_length_le hsize, List.toByteArray_append]
  exact ByteArray.utf8DecodeChar?_utf8EncodeChar_append

/-- **A text is shown as it is.** -/
theorem shown_bytes (t : Text) : shown (bytes t) = t := by
  induction t with
  | nil => simp [shown]
  | cons c t ih =>
    obtain ⟨b, bs, hc, -, -⟩ := Byte.exists_utf8EncodeChar_eq c
    have hfirst := firstChar?_bytes c t
    have hlength : bs.length = c.utf8Size - 1 := by
      rw [← String.length_utf8EncodeChar, hc]
      rfl
    rw [bytes_cons, hc, List.cons_append] at hfirst ⊢
    rw [shown, hfirst]
    simp only
    rw [← hlength, List.drop_left, ih]

-- Bytes that no character begins with are shown as one replacement character for each stretch.
example : shown [0x61, 0xFF, 0x62, 0xE2, 0x82, 0x63] = "a�b�c".toList := by cbv

/-- An ASCII character is in a text exactly if its byte is among the bytes of the text. -/
theorem mem_bytes_iff {c : Char} (hc : c.toNat < 0x80) {t : Text} : UInt8.ofNat c.toNat ∈ bytes t ↔ c ∈ t := by
  rw [bytes, List.mem_flatMap]
  constructor
  · rintro ⟨d, hd, hmem⟩
    rwa [← (Byte.eq_code_iff (Byte.standsFor_of_mem hmem) c hc).mp rfl]
  · intro h
    refine ⟨c, h, ?_⟩
    rw [Byte.utf8EncodeChar_ascii hc]
    exact List.mem_singleton_self _

end BidiSheet
