import Calculator.Decimal
import Calculator.Binary64

/-!
# Calculator.Decimal.Shortest — the fewest digits that read back

Every real number in an interval around a float rounds to that float. The interval reaches half way to each
neighbour, and its ends belong to it when the significand is even. Below a power of two the neighbour is half as
far away as above it.

`Decimal.shortest` looks for a decimal number in this interval on grids that get finer by a factor of ten.
The first grid that meets the interval decides the number of digits. The value itself lies between two points
of a grid; if both are in the interval the nearer is taken, and of two equally near ones the greater. The
finest grid contains the value itself, so the search needs no bound but that grid.
-/

namespace Calculator
namespace Decimal

/-- The positive numbers that round to `significand · 2 ^ exponent`, in quarters of `2 ^ exponent`. -/
structure Interval where
  low : Nat
  value : Nat
  high : Nat
  /-- Whether the ends belong to the interval. -/
  closed : Bool
deriving DecidableEq, Repr

namespace Interval

/-- The interval around the float `m · 2 ^ e`. -/
def around (m : Nat) (e : Int) : Interval where
  low := if m = Binary64.leastNormal ∧ Binary64.leastExponent < e then 4 * m - 1 else 4 * m - 2
  value := 4 * m
  high := 4 * m + 2
  closed := m % 2 == 0

/-- Membership of a number that is given in quarters over the denominator `den`. -/
def contains (i : Interval) (num den : Nat) : Bool :=
  if i.closed then i.low * den ≤ num && num ≤ i.high * den else i.low * den < num && num < i.high * den

end Interval

/-- One unit of the grid `10 ^ k` is `(grid k e).1 / (grid k e).2` quarters of `2 ^ e`. -/
def grid (k e : Int) : Nat × Nat :=
  ((4 * Nat.pow 10 k.toNat) <<< (-e).toNat, Nat.pow 10 (-k).toNat <<< e.toNat)

/-- The point of the grid `10 ^ k` that is in the interval and nearest to its value, if there is one. -/
def candidate? (i : Interval) (k e : Int) : Option Nat :=
  let (unit, den) := grid k e
  let lower := i.value * den / unit
  let upper := lower + 1
  match i.contains (lower * unit) den, i.contains (upper * unit) den with
  | true, true => if 2 * (i.value * den - lower * unit) < unit then some lower else some upper
  | true, false => some lower
  | false, true => some upper
  | false, false => none

/-- The finest grid needed: it contains `m · 2 ^ e` for every natural number `m`. -/
def finest (e : Int) : Int := min e 0

/-- The first point found on the grids from `10 ^ (finest e + n)` to the finest, which contains the value. -/
def search (m : Nat) (e : Int) : Nat → Decimal
  | 0 => ⟨(m * Nat.pow 5 (-e).toNat) <<< e.toNat, finest e⟩
  | n + 1 =>
    let k := finest e + (n + 1)
    match candidate? (.around m e) k e with
    | some d => ⟨d, k⟩
    | none => search m e n

/-- A grid that is coarser than twice the value `m · 2 ^ e`. The factor is a little more than the decimal
logarithm of two. -/
def coarsest (m : Nat) (e : Int) : Int := (m.log2 + 2 + e) * 30103 / 100000 + 1

/-- The decimal number with the fewest digits that rounds to the float `m · 2 ^ e`, and the one nearest to it
among those. -/
def shortest (m : Nat) (e : Int) : Decimal := search m e (coarsest m e - finest e).toNat

end Decimal
end Calculator
