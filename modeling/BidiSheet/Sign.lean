/-!
# Signs

The scanners of a stylesheet react to a handful of ASCII characters and to nothing else. What a
scanner sees of a letter is its *sign*. Characters have signs, and so do bytes: the bytes of a
character beyond ASCII all have the sign `other`, so a scan over the bytes of a text and a scan over
its characters see the same signs in the same order, up to runs of `other`.
-/

namespace BidiSheet

/-- What a scanner sees of a letter. -/
inductive Sign where
  | doubleQuote
  | singleQuote
  | backslash
  | slash
  | star
  | openRound
  | closeRound
  | openSquare
  | closeSquare
  | openBrace
  | closeBrace
  | semicolon
  | blank
  | other
  deriving DecidableEq, Repr

namespace Sign

/-- The sign of the character, or of the byte, with code `n`. -/
def ofCode (n : Nat) : Sign :=
  match n with
  | 0x09 | 0x0A | 0x0C | 0x0D | 0x20 => .blank
  | 0x22 => .doubleQuote
  | 0x27 => .singleQuote
  | 0x28 => .openRound
  | 0x29 => .closeRound
  | 0x2A => .star
  | 0x2F => .slash
  | 0x3B => .semicolon
  | 0x5B => .openSquare
  | 0x5C => .backslash
  | 0x5D => .closeSquare
  | 0x7B => .openBrace
  | 0x7D => .closeBrace
  | _ => .other

/-- Only ASCII codes have a sign that a scanner reacts to. -/
theorem ofCode_eq_other {n : Nat} (h : 0x80 ≤ n) : ofCode n = .other := by
  unfold ofCode
  split <;> first | omega | rfl

/-- Whether a sign opens, and closes, a string. -/
def isQuote (s : Sign) : Bool := s = .doubleQuote || s = .singleQuote

end Sign

/-- The alphabets that the scanners read. -/
class HasSign (α : Type) where
  /-- What a scanner sees of a letter. -/
  sign : α → Sign

instance : HasSign Char := ⟨fun c => .ofCode c.toNat⟩

instance : HasSign UInt8 := ⟨fun b => .ofCode b.toNat⟩

end BidiSheet
