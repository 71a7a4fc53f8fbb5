import BidiSheet.Text

/-!
# Numerals

A numeral is a decimal number as it is written: an optional sign, digits, and digits after a point.
Either the digits before the point or the point with its digits may be missing, never both, and a
point is always followed by a digit. A quantity is a numeral with its unit.
-/

namespace BidiSheet

/-- A decimal number as it is written, but for a plus sign. -/
structure Numeral where
  negative : Bool
  /-- The digits before the point. -/
  whole : Text
  /-- The digits after the point. -/
  fraction : Text
  deriving DecidableEq, Repr

namespace Numeral

/-- The number of decimal places. -/
def places (n : Numeral) : Nat := n.fraction.length

/-- The digits before and after the point, read as one natural number. -/
def digits (n : Numeral) : Nat := Nat.ofDigitChars 10 (n.whole ++ n.fraction) 0

/-- The numeral without its point: `scaled` over ten to the power `places` is its value. -/
def scaled (n : Numeral) : Int := if n.negative then -(n.digits : Int) else n.digits

/-- Reads a sign from the front of a text: whether it is a minus, and what follows. -/
def readSign : Text → Bool × Text
  | '-' :: t => (true, t)
  | '+' :: t => (false, t)
  | t => (false, t)

/-- Reads a point and the digits after it from the front of a text. Where no digit follows the point,
nothing is read. -/
def readFraction : Text → Text × Text
  | '.' :: t =>
    if t.takeWhile Char.isDigit = [] then ([], '.' :: t)
    else (t.takeWhile Char.isDigit, t.dropWhile Char.isDigit)
  | t => ([], t)

/-- Reads a numeral from the front of a text, and answers what follows it. -/
def read? (t : Text) : Option (Numeral × Text) :=
  let (negative, unsigned) := readSign t
  let whole := unsigned.takeWhile Char.isDigit
  let (fraction, rest) := readFraction (unsigned.dropWhile Char.isDigit)
  if whole = [] ∧ fraction = [] then none else some (⟨negative, whole, fraction⟩, rest)

end Numeral

/-- What a number counts. -/
inductive Measure where
  /-- Hundredths of some whole. -/
  | percent
  /-- Units with this name, which is empty for a pure number. -/
  | unit (name : Text)
  deriving DecidableEq, Repr

/-- A numeral with its unit. -/
structure Quantity where
  numeral : Numeral
  measure : Measure
  deriving DecidableEq, Repr

/-- Reads a whole word as a quantity: a numeral, then nothing, a percent sign or ASCII letters. -/
def Quantity.read? (word : Text) : Option Quantity :=
  match Numeral.read? word with
  | none => none
  | some (n, rest) =>
    if rest = ['%'] then some ⟨n, .percent⟩
    else if rest.all Char.isAlpha then some ⟨n, .unit rest⟩
    else none

end BidiSheet
