import Calculator.Expr
import Calculator.Arithmetic.Checked
import Calculator.Arithmetic.Scaling
import Calculator.Arithmetic.Angle

/-!
# Calculator.Evaluation — what expressions amount to

The operations on values, and the evaluation of expressions and programs. Operands are evaluated from left to
right, and the first failure is the outcome.

* Both signs negate: `+x` is `-x`.
* Integers are computed exactly, and overflow is a failure; powers, roots and procedures work on floats.
* Every computed float is normalized, so a whole result is an integer again.
* The exponent of scientific notation has to be an integer, and that is checked before anything else.
-/

namespace Calculator
namespace Evaluation

/-- A sign in front of a value. Both signs negate. -/
def applySign (s : Sign) : Value → Except EvalError Value
  | .integer n => (Checked.neg n).map .integer
  | .float x => .ok (.float (-x))
  | .error message => .error (.typeError (.sign s (.error message)))

/-- The factorial of a value, which has to be an integer. -/
def applyFactorial : Value → Except EvalError Value
  | .integer n => (Checked.factorial n).map .integer
  | v => .error (.typeError (.factorial v))

def power (base exponent : Float) : Value := normalize (base.pow exponent)

/-- A root of floats, as a power with the reciprocal of the degree. -/
def root (degree radicand : Float) : Value := normalize (radicand.pow (1.0 / degree))

/-- Scientific notation. The exponent is checked before the mantissa. -/
def scientific (mantissa : Value) : Value → Except EvalError Value
  | .integer exponent => mantissa.toFloat.map fun m => normalize (scale m exponent)
  | exponent => .error (.typeError (.exponent exponent))

def applyToFloats (op : BinaryOperator) (a b : Float) : Except EvalError Value :=
  match op with
  | .add => .ok (normalize (a + b))
  | .sub => .ok (normalize (a - b))
  | .mul => .ok (normalize (a * b))
  | .div => .ok (normalize (a / b))
  | .power => .ok (power a b)
  | .root => .ok (root a b)
  | .exponent => scientific (.float a) (.float b)

/-- An operator between integers. Powers and roots are taken of the nearest floats. -/
def applyToIntegers (op : BinaryOperator) (a b : Int64) : Except EvalError Value :=
  match op with
  | .add => (Checked.add a b).map .integer
  | .sub => (Checked.sub a b).map .integer
  | .mul => (Checked.mul a b).map .integer
  | .div => (Checked.div a b).map .integer
  | .exponent => scientific (.integer a) (.integer b)
  | .power | .root => applyToFloats op (Binary64.ofInt64 a) (Binary64.ofInt64 b)

/-- An operator between values. Scientific notation takes its operands as they are; for all others an integer
beside a float becomes a float first. -/
def applyBinary (op : BinaryOperator) (left right : Value) : Except EvalError Value :=
  if op = .exponent then scientific left right
  else
    match left.promote right with
    | (.integer a, .integer b) => applyToIntegers op a b
    | (.float a, .float b) => applyToFloats op a b
    | (l, r) => .error (.typeError (.operands l op r))

/-- A function of floats applied to a value, in the given measure. -/
def applyFunction (f : Float → Float) (mode : AngleMode) (argument : Value) : Except EvalError Value :=
  argument.toFloat.map fun x => normalize (mode.wrap f x)

def applyProcedure (p : Procedure) (argument : Value) : Except EvalError Value :=
  applyFunction p.function p.angle argument

end Evaluation

open Evaluation

def Expr.eval : Expr → Except EvalError Value
  | .integer n => .ok (.integer n)
  | .float x => .ok (.float x)
  | .signed s e => do applySign s (← e.eval)
  | .factorial e => do applyFactorial (← e.eval)
  | .binary op l r => do
    let left ← l.eval
    let right ← r.eval
    applyBinary op left right
  | .call p e => do applyProcedure p (← e.eval)

/-- The value of the last statement, after all statements before it. -/
def Program.eval (p : Program) : Except EvalError Value := do
  let values ← p.statements.mapM Expr.eval
  match values.getLast? with
  | some v => .ok v
  | none => .error .emptyProgram

/-- The value of a program, where a failure is a value, too. -/
def Program.value (p : Program) : Value := .ofOutcome p.eval

end Calculator
