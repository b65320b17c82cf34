import Calculator.Operator

/-!
# Calculator.Arithmetic.Angle — procedures on floats

Which function of floats a procedure is, and in which measure it takes its argument. All trigonometric
procedures read their argument in degrees, the inverse ones included: `arcsin x` is the arc sine of
`x * π / 180`.
-/

namespace Calculator

/-- The ratio of a circle's circumference to its diameter, as a float. -/
def pi : Float := 3.141592653589793

def degreesToRadians (x : Float) : Float := x * pi / 180.0

def radiansToDegrees (x : Float) : Float := x * 180.0 / pi

/-- In which measure a function takes its argument and gives its result. -/
inductive AngleMode where
  /-- Neither is an angle. -/
  | direct
  /-- The argument is turned from degrees into radians. -/
  | degreesIn
  /-- The result is turned from radians into degrees. -/
  | degreesOut
deriving DecidableEq, Repr

def AngleMode.wrap (mode : AngleMode) (f : Float → Float) (x : Float) : Float :=
  match mode with
  | .direct => f x
  | .degreesIn => f (degreesToRadians x)
  | .degreesOut => radiansToDegrees (f x)

namespace Procedure

/-- The measure in which a procedure takes its argument. -/
def angle : Procedure → AngleMode
  | .sin | .cos | .tan | .arcsin | .arccos | .arctan => .degreesIn
  | .log | .ln | .sqrt => .direct

def function : Procedure → Float → Float
  | .sin => Float.sin
  | .cos => Float.cos
  | .tan => Float.tan
  | .arcsin => Float.asin
  | .arccos => Float.acos
  | .arctan => Float.atan
  | .log => Float.log10
  | .ln => Float.log
  | .sqrt => Float.sqrt

end Procedure

end Calculator
