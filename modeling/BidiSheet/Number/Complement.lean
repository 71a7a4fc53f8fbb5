import BidiSheet.Number.Numeral

/-!
# Complements of percentages

A position of `p` percent from one side is a position of `100 - p` percent from the other. The
complement is taken on the decimal digits, so it has exactly as many places as the percentage and the
complement of a complement is the percentage again. Numbers are held in 128 bits; what does not fit has
no complement.
-/

namespace BidiSheet

namespace Percentage

/-- The greatest number that is held. -/
def limit : Nat := Nat.pow 2 127 - 1

/-- A whole number of units of which ten to the power `places` make one percent, as a percentage. -/
def render (places : Nat) (n : Int) : Text :=
  let sign := if n < 0 then ['-'] else []
  let size := n.natAbs
  let scale := Nat.pow 10 places
  if places = 0 then sign ++ Nat.toDigits 10 size ++ ['%']
  else
    sign ++ Nat.toDigits 10 (size / scale) ++ ['.'] ++
      (Nat.toDigits 10 (size % scale)).leftpad places '0' ++ ['%']

/-- The complement of a percentage, if the word is one and all numbers on the way can be held. -/
def complement? (word : Text) : Option Text :=
  match Numeral.read? word with
  | some (n, ['%']) =>
    let hundred := 100 * Nat.pow 10 n.places
    if hundred ≤ limit ∧ n.digits ≤ limit ∧ (hundred : Int) - n.scaled ≤ limit then
      some (render n.places (hundred - n.scaled))
    else none
  | _ => none

end Percentage

end BidiSheet
