/-!
# Calculator.Decimal — decimal numbers and their reading

A `Decimal` is a natural number times a power of ten. This module reads digits and numbers with a point, and
rounds a decimal number to the nearest float.
-/

namespace Calculator

/-- The number `digits · 10 ^ exponent`. -/
structure Decimal where
  digits : Nat
  exponent : Int
deriving DecidableEq, Repr

namespace Decimal

/-- The float nearest to a decimal number. Of two that are equally near, the one with the even significand is
taken; a number beyond the greatest float becomes infinite. -/
def toFloat (d : Decimal) : Float := .ofModel (.ofScientific d.digits d.exponent)

/-- The number written by a nonempty run of ASCII digits. -/
def natural? (cs : List Char) : Option Nat :=
  if cs ≠ [] ∧ cs.all Char.isDigit then some (Nat.ofDigitChars 10 cs 0) else none

/-- The number written by digits, a point and possibly more digits. -/
def ofChars? (cs : List Char) : Option Decimal :=
  let whole := cs.takeWhile Char.isDigit
  match cs.dropWhile Char.isDigit with
  | '.' :: fraction =>
    if whole ≠ [] ∧ fraction.all Char.isDigit then
      some ⟨Nat.ofDigitChars 10 (whole ++ fraction) 0, -fraction.length⟩
    else none
  | _ => none

end Decimal

end Calculator
