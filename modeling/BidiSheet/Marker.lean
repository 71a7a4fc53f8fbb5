import BidiSheet.Text

/-!
# Markers

A marker stands for a stretch of text that has been put aside: an opening control character, the
decimal number of the stretch, and a closing control character. Neither control character occurs in
what a stylesheet can express, so a marker is never mistaken for content.

* `Marker.text` writes a marker, `Marker.read` reads one from the front of a text.
-/

namespace BidiSheet

namespace Marker

/-- The control character that opens a marker. -/
def opener : Char := '\x02'

/-- The control character that closes a marker. -/
def closer : Char := '\x03'

/-- Whether a character is one of the two that delimit markers. -/
def isControl (c : Char) : Bool := c = opener || c = closer

/-- The marker with number `id`. -/
def text (id : Nat) : Text := opener :: (Nat.toDigits 10 id ++ [closer])

/-- Numbers of markers are below this bound. -/
def bound : Nat := Nat.pow 2 64

/-- Why no marker could be read. -/
inductive Reason where
  /-- The text does not begin with an opening character. -/
  | noOpener
  /-- No digit follows the opening character. -/
  | noDigit
  /-- No closing character follows the digits. -/
  | noCloser
  /-- The number is not below the bound. -/
  | tooLarge
  deriving DecidableEq, Repr

/-- A failed reading: the reason, and the text that was left where reading stopped. -/
structure Failure where
  reason : Reason
  rest : Text
  deriving DecidableEq, Repr

/-- A marker that was read: its number, and how many digits it was written with. -/
structure Found where
  id : Nat
  digits : Nat
  deriving DecidableEq, Repr

/-- The number of characters, and of bytes, of a marker. -/
def Found.size (found : Found) : Nat := found.digits + 2

/-- Reads a marker from the front of a text. -/
def read (t : Text) : Except Failure Found :=
  match t with
  | [] => .error ⟨.noOpener, t⟩
  | c :: cs =>
    let digits := cs.takeWhile Char.isDigit
    let rest := cs.dropWhile Char.isDigit
    let id := Nat.ofDigitChars 10 digits 0
    if c ≠ opener then .error ⟨.noOpener, t⟩
    else if digits = [] then .error ⟨.noDigit, cs⟩
    else if rest.head? ≠ some closer then .error ⟨.noCloser, rest⟩
    else if bound ≤ id then .error ⟨.tooLarge, t⟩
    else .ok ⟨id, digits.length⟩

/-- Reads a marker from the front of a text, if one stands there. -/
def read? (t : Text) : Option Found := (read t).toOption

@[simp] theorem read?_nil : read? [] = none := rfl

/-- A marker begins with its opening character. -/
theorem read?_of_ne_opener {c : Char} {cs : Text} (h : c ≠ opener) : read? (c :: cs) = none := by
  simp [read?, read, h, Except.toOption]

end Marker

end BidiSheet
