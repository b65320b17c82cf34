/-!
# Calculator.Arithmetic.Scaling — powers of ten, one at a time

Scaling multiplies or divides by ten as often as the exponent says, and rounds at every step. A zero, an
infinity and what is not a number do not change any more, so there it ends early.
-/

namespace Calculator
namespace Scaling

/-- One step toward a positive exponent multiplies by ten, any other divides by it. -/
def step (upward : Bool) (x : Float) : Float := if upward then x * 10.0 else x / 10.0

/-- Whether a float stays what it is under every further step. -/
def isSettled (x : Float) : Bool := x == 0.0 || !x.isFinite

/-- At most `count` steps, up to the first float that stays what it is. -/
def steps (upward : Bool) : (count : Nat) → (x : Float) → Float
  | 0, x => x
  | count + 1, x => if isSettled x then x else steps upward count (step upward x)

end Scaling

def scale (mantissa : Float) (exponent : Int64) : Float :=
  Scaling.steps (0 < exponent) exponent.toInt.natAbs mantissa

end Calculator
