import Calculator.Decimal.Shortest

/-!
# Calculator.Decimal.Style — how floats are written

A float is written with the fewest digits that read back. A `Style` decides the rest: from which magnitudes on
an exponent is written, and what marks a whole value. The library has two styles.

* `Style.plain`, for results: no exponent whatever the magnitude, and nothing after a whole value.
* `Style.literal`, for expressions: a whole value keeps `.0`, and an exponent is written for magnitudes below
  `10 ^ -4` and from `10 ^ 16` on.
-/

namespace Calculator
namespace Decimal

structure Style where
  /-- The least and the greatest exponent of the leading digit that are written without an exponent. With
  `none` no exponent is ever written. -/
  positional : Option (Int × Int)
  wholeMark : List Char

namespace Style

/-- Results: always positional. -/
def plain : Style := ⟨none, []⟩

/-- Literals of expressions: between `10 ^ -4` and `10 ^ 16` positional, with a fraction in any case. -/
def literal : Style := ⟨some (-4, 15), ['.', '0']⟩

/-- Whether a number whose leading digit has exponent `lead` is written without an exponent. -/
def isPositional (style : Style) (lead : Int) : Bool :=
  match style.positional with
  | none => true
  | some (least, greatest) => least ≤ lead && lead ≤ greatest

end Style

/-- The digits of an integer, with a sign in front of a negative one. -/
def integerChars : Int → List Char
  | .ofNat n => Nat.toDigits 10 n
  | .negSucc n => '-' :: Nat.toDigits 10 (n + 1)

/-- The digits `ds` with the point `places` places from the right, and at least one digit before it. -/
def withPoint (ds : List Char) (places : Nat) : List Char :=
  let padded := List.replicate (places + 1 - ds.length) '0' ++ ds
  let whole := padded.length - places
  padded.take whole ++ '.' :: padded.drop whole

/-- The number with the digits `ds` and the unit `10 ^ k`, without an exponent. -/
def positionalChars (style : Style) (ds : List Char) : Int → List Char
  | .ofNat zeros => ds ++ List.replicate zeros '0' ++ style.wholeMark
  | .negSucc places => withPoint ds (places + 1)

/-- The number with the digits `ds` and the leading exponent `lead`, with one digit before the point. -/
def exponentialChars (ds : List Char) (lead : Int) : List Char :=
  let fraction := ds.drop 1
  ds.take 1 ++ (if fraction = [] then [] else '.' :: fraction) ++ 'e' :: integerChars lead

def chars (style : Style) (d : Decimal) : List Char :=
  let ds := Nat.toDigits 10 d.digits
  let lead := d.exponent + (ds.length - 1 : Nat)
  if style.isPositional lead then positionalChars style ds d.exponent else exponentialChars ds lead

end Decimal

namespace Binary64

open Decimal in
/-- A float in the given style. The sign of zero is written, and what is not a number has no sign. -/
def chars (style : Style) (x : Float) : List Char :=
  match x.toModel.unpack with
  | .notANumber => ['N', 'a', 'N']
  | .infinity s => signed s ['i', 'n', 'f']
  | .zero s => signed s (Decimal.chars style ⟨0, 0⟩)
  | .finite s m e _ => signed s (Decimal.chars style (shortest m e))
where
  /-- A text with the sign in front, if it is negative. -/
  signed (s : Float.Model.UnpackedFloat.Sign) (cs : List Char) : List Char :=
    match s with
    | .negative => '-' :: cs
    | .positive => cs

def plainText (x : Float) : String := String.ofList (chars .plain x)

def literalText (x : Float) : String := String.ofList (chars .literal x)

end Binary64

end Calculator
