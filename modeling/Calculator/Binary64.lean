/-!
# Calculator.Binary64 — exact values of binary floating-point numbers

A finite `Float` is an integer times a power of two. `Binary64.decode` gives the two, and with them the
questions of this library about floats become questions about integers.

* `decode`: sign, significand and exponent of a finite float.
* `wholeValue?`: the integer that a float is, if it is one.
* `ofInt64`: the float nearest to an integer, with ties to the even significand.
-/

namespace Calculator

/-- The number `± significand · 2 ^ exponent`. The sign is kept for zero, too. -/
structure Dyadic where
  negative : Bool
  significand : Nat
  exponent : Int
deriving DecidableEq, Repr

/-- The integer that a dyadic number is, if it is one. -/
def Dyadic.wholeValue? (d : Dyadic) : Option Int :=
  let signed (n : Nat) : Int := if d.negative then -n else n
  match d.exponent with
  | .ofNat k => some (signed (d.significand <<< k))
  | .negSucc k =>
    if d.significand % (1 <<< (k + 1)) = 0 then some (signed (d.significand >>> (k + 1))) else none

namespace Binary64

def leastExponent : Int := -1074

/-- The significand of a power of two that is not subnormal. -/
def leastNormal : Nat := 1 <<< 52

/-- The exact value of a finite float; `none` for infinities and for what is not a number. -/
def decode (x : Float) : Option Dyadic :=
  match x.toModel.unpack with
  | .notANumber => none
  | .infinity _ => none
  | .zero s => some ⟨s == .negative, 0, leastExponent⟩
  | .finite s m e _ => some ⟨s == .negative, m, e⟩

def wholeValue? (x : Float) : Option Int := (decode x).bind Dyadic.wholeValue?

/-- The float nearest to an integer. Of two that are equally near, the one with the even significand is taken. -/
def ofInt64 (n : Int64) : Float := .ofModel (.ofInt64 n)

end Binary64

end Calculator
