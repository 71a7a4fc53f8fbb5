/-!
# Text

A text is a list of characters. Positions that are shown to a user are counted in bytes of the
UTF-8 form, so `byteSize` measures a text and `byteSlice` cuts one at byte offsets. The rest of the
library takes texts apart from the front: a reading answers how many letters it takes, and what is left
is what remains when so many are dropped.

* `byteSize_append`: sizes add up.
-/

namespace BidiSheet

/-- A text, as the list of its characters. -/
abbrev Text := List Char

/-- The number of bytes of the UTF-8 form of a text. -/
def byteSize (t : Text) : Nat := t.foldr (fun c n => c.utf8Size + n) 0

@[simp] theorem byteSize_nil : byteSize [] = 0 := rfl

/-- The first character adds its own bytes. -/
@[simp] theorem byteSize_cons (c : Char) (t : Text) :
    byteSize (c :: t) = c.utf8Size + byteSize t := rfl

/-- Sizes add up. -/
@[simp] theorem byteSize_append (s t : Text) : byteSize (s ++ t) = byteSize s + byteSize t := by
  induction s with
  | nil => simp
  | cons c s ih => simp [ih, Nat.add_assoc]

/-- What is left of a text once its first `n` bytes are dropped. A character that only begins
inside those bytes is dropped whole. -/
def dropBytes : Nat → Text → Text
  | 0, t => t
  | _ + 1, [] => []
  | n + 1, c :: t => dropBytes (n + 1 - c.utf8Size) t

/-- The first `n` bytes of a text. A character that only begins inside those bytes is taken
whole. -/
def takeBytes : Nat → Text → Text
  | 0, _ => []
  | _ + 1, [] => []
  | n + 1, c :: t => c :: takeBytes (n + 1 - c.utf8Size) t

/-- The stretch of a text from byte `start` up to byte `stop`. -/
def byteSlice (start stop : Nat) (t : Text) : Text :=
  takeBytes (stop - start) (dropBytes start t)

/-! ### Reading from the front -/

section front

variable {α : Type}

/-- Skipping letters behind the first one leaves less than the whole. -/
theorem length_drop_lt (c : α) (cs : List α) (n : Nat) : (cs.drop n).length < (c :: cs).length :=
  Nat.lt_succ_of_le (List.drop_suffix n cs).length_le

/-- What is read behind `n` skipped letters stays within the input. -/
theorem skip_le {cs : List α} {n m : Nat} (hn : n ≤ cs.length) (hm : m ≤ (cs.drop n).length) :
    n + m ≤ cs.length := by
  rw [List.length_drop] at hm
  omega

end front

/-! ### Characters -/

/-- The five blanks that separate the parts of a stylesheet: space, tab, line feed, form feed and
carriage return. A vertical tab is no blank. -/
def isBlank (c : Char) : Bool :=
  c = ' ' || c = '\t' || c = '\n' || c = '\x0c' || c = '\r'

/-- What holds of the five blanks holds of every blank. -/
theorem of_isBlank {p : Char → Bool} (h : [' ', '\t', '\n', '\x0c', '\r'].all p = true) {c : Char}
    (hc : isBlank c = true) : p c = true := by
  simp only [isBlank, Bool.or_eq_true, decide_eq_true_eq] at hc
  simp only [List.all_cons, List.all_nil, Bool.and_eq_true] at h
  obtain ⟨h1, h2, h3, h4, h5, -⟩ := h
  rcases hc with (((rfl | rfl) | rfl) | rfl) | rfl <;> assumption

/-- The characters with the Unicode property `White_Space`. -/
def isSpace (c : Char) : Bool :=
  let n := c.toNat
  (0x9 ≤ n && n ≤ 0xD) || n = 0x20 || n = 0x85 || n = 0xA0 || n = 0x1680 ||
    (0x2000 ≤ n && n ≤ 0x200A) || n = 0x2028 || n = 0x2029 || n = 0x202F || n = 0x205F || n = 0x3000

/-- The characters of an identifier: ASCII letters and digits, hyphen, underscore, and everything
beyond ASCII. -/
def isIdent (c : Char) : Bool :=
  c.isAlphanum || c = '-' || c = '_' || 0x80 ≤ c.toNat

/-- A text without the white space at its two ends. -/
def trim (t : Text) : Text :=
  ((t.dropWhile isSpace).reverse.dropWhile isSpace).reverse

end BidiSheet
