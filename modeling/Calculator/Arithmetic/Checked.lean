import Calculator.EvalError

/-!
# Calculator.Arithmetic.Checked — exact integer arithmetic

Sums, differences, products, quotients and factorials of 64-bit integers. Each is computed without bounds and
then brought back into the range of the integers, so a result is exact or refused.
-/

namespace Calculator

/-- An integer that was computed without bounds, if it is in range. -/
def checked (n : Int) : Except EvalError Int64 :=
  match narrow? n with
  | some m => .ok m
  | none => .error .overflow

namespace Checked

def neg (n : Int64) : Except EvalError Int64 := checked (-n.toInt)

def add (a b : Int64) : Except EvalError Int64 := checked (a.toInt + b.toInt)

def sub (a b : Int64) : Except EvalError Int64 := checked (a.toInt - b.toInt)

def mul (a b : Int64) : Except EvalError Int64 := checked (a.toInt * b.toInt)

/-- The quotient toward zero. -/
def div (a b : Int64) : Except EvalError Int64 :=
  if b = 0 then .error .divisionByZero else checked (a.toInt.tdiv b.toInt)

/-- The product of `acc` and the `count` integers from `next` on, which ends at the first product out of
range. -/
def risingProduct : (count next : Nat) → (acc : Int64) → Except EvalError Int64
  | 0, _, acc => .ok acc
  | count + 1, next, acc =>
    match checked (acc.toInt * next) with
    | .ok product => risingProduct count (next + 1) product
    | .error error => .error error

/-- The factorial: the product of the integers from two on. -/
def factorial (n : Int64) : Except EvalError Int64 :=
  if n < 0 then .error (.invalidArgument (.negativeFactorial n)) else risingProduct (n.toInt.toNat - 1) 2 1

end Checked

end Calculator
