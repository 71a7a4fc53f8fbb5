import BidiSheet.Number.Numeral

/-!
# Numbers in binary64

Offsets are numbers of the binary64 format, so whether an offset is zero is decided after rounding: a
numeral below half the least positive number counts as zero. A magnitude is given by its bit pattern
without the sign bit. Rounding goes to the nearest number, ties go to the even pattern, and what is too
large becomes infinity. All arithmetic is exact.
-/

namespace BidiSheet

namespace Binary64

/-- The quotient `num / den`, rounded to the nearest natural number, a tie to the even one. -/
def roundQuotient (num den : Nat) : Nat :=
  let q := num / den
  let r := num % den
  if 2 * r < den then q
  else if den < 2 * r then q + 1
  else q + q % 2

/-- The quotient `num / den`, divided by two to the power `e` and rounded. -/
def roundScaled (num den : Nat) (e : Int) : Nat :=
  if 0 ≤ e then roundQuotient num (den * Nat.pow 2 e.toNat) else roundQuotient (num * Nat.pow 2 (-e).toNat) den

/-- The exponent of the greatest power of two that is not above `num / den`. -/
def exponent (num den : Nat) : Int :=
  let e : Int := (num.log2 : Int) - (den.log2 : Int)
  let below : Bool :=
    if 0 ≤ e then num < den * Nat.pow 2 e.toNat else num * Nat.pow 2 (-e).toNat < den
  if below then e - 1 else e

/-- The pattern of infinity. -/
def infinity : Nat := 0x7FF * Nat.pow 2 52

/-- The pattern of the magnitude nearest to `num / den`. -/
def ofRatio (num den : Nat) : Nat :=
  if num = 0 then 0
  else
    let e := max (exponent num den - 52) (-1074)
    min ((e + 1074).toNat * Nat.pow 2 52 + roundScaled num den e) infinity

end Binary64

namespace Numeral

/-- The binary64 pattern of the magnitude of a numeral. -/
def magnitude (n : Numeral) : Nat := Binary64.ofRatio n.digits (Nat.pow 10 n.places)

/-- The binary64 pattern of a numeral, sign bit included. -/
def bits (n : Numeral) : Nat := if n.negative then Nat.pow 2 63 + n.magnitude else n.magnitude

/-- Whether a numeral is zero as a binary64 number, of either sign. -/
def isZero (n : Numeral) : Bool := n.magnitude = 0

end Numeral

end BidiSheet
