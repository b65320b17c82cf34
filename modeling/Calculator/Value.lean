import Calculator.Decimal.Style
import Calculator.Integer

/-!
# Calculator.Value — results of a calculation

A value is a 64-bit integer, a float, or the message of a calculation that failed. `normalize` is where floats
become integers: every whole float in the range of the integers does, whatever it was computed from.
-/

namespace Calculator

inductive Value where
  | integer (n : Int64)
  | float (x : Float)
  | error (message : String)
deriving DecidableEq

namespace Value

def typeName : Value → String
  | .integer _ => "INT"
  | .float _ => "FLOAT"
  | .error _ => "ERROR"

def render : Value → String
  | .integer n => String.ofList (Decimal.integerChars n.toInt)
  | .float x => Binary64.plainText x
  | .error message => "ERROR: " ++ message

def isInteger : Value → Bool
  | .integer _ => true
  | _ => false

def isFloat : Value → Bool
  | .float _ => true
  | _ => false

def isError : Value → Bool
  | .error _ => true
  | _ => false

/-- Makes two numbers comparable: an integer beside a float becomes a float. All other pairs stay as they are. -/
def promote : Value → Value → Value × Value
  | .float x, .integer n => (.float x, .float (Binary64.ofInt64 n))
  | .integer n, .float x => (.float (Binary64.ofInt64 n), .float x)
  | left, right => (left, right)

end Value

/-- The 64-bit integer that a float is, if it is one. -/
def exactInteger? (x : Float) : Option Int64 := (Binary64.wholeValue? x).bind narrow?

/-- A float as a value: an integer if it is one, and itself otherwise. -/
def normalize (x : Float) : Value :=
  match exactInteger? x with
  | some n => .integer n
  | none => .float x

end Calculator
