import Calculator.Operator
import Calculator.Value

/-!
# Calculator.EvalError — why a calculation failed

The failures of an evaluation by their causes. `EvalError.message` is their only wording, and `Value.ofError`
makes a value of a failure, which keeps nothing but the wording.
-/

namespace Calculator

/-- An operand of a type that the operation does not take. -/
inductive TypeFault where
  /-- A sign in front of something that is no number. -/
  | sign (s : Sign) (operand : Value)
  | factorial (operand : Value)
  /-- An operator between operands of which one is no number. -/
  | operands (left : Value) (op : BinaryOperator) (right : Value)
  /-- The message of an earlier failure where a number was due. -/
  | number (message : String)
  /-- An exponent of scientific notation that is no integer. -/
  | exponent (exponent : Value)
  /-- A fault in the words of the caller. -/
  | described (details : String)
deriving DecidableEq

/-- An operand of the right type for which the operation is not defined. -/
inductive ArgumentFault where
  | negativeFactorial (n : Int64)
  /-- A fault in the words of the caller. -/
  | described (details : String)
deriving DecidableEq

/-- Why an evaluation failed. -/
inductive EvalError where
  | typeError (fault : TypeFault)
  | invalidArgument (fault : ArgumentFault)
  | divisionByZero
  | overflow
  | emptyProgram
deriving DecidableEq

namespace TypeFault

def details : TypeFault → String
  | .sign s operand => "Cannot apply " ++ s.symbol ++ " to " ++ operand.render
  | .factorial operand => "Factorial not defined for " ++ operand.render ++ " of type " ++ operand.typeName
  | .operands left op right => "Invalid operands: " ++ left.render ++ " " ++ op.symbol ++ " " ++ right.render
  | .number message => "expected a number, found error '" ++ message ++ "'"
  | .exponent e => "exp should be of type INT, instead got " ++ e.render ++ " of type " ++ e.typeName
  | .described text => text

end TypeFault

namespace ArgumentFault

def details : ArgumentFault → String
  | .negativeFactorial n => "Factorial not defined for negative integer " ++ (Value.integer n).render
  | .described text => text

end ArgumentFault

namespace EvalError

def message : EvalError → String
  | .typeError fault => "Type error: " ++ fault.details ++ "."
  | .invalidArgument fault => "Invalid argument: " ++ fault.details ++ "."
  | .divisionByZero => "Division by zero."
  | .overflow => "Integer overflow while trying to compute result."
  | .emptyProgram => "Nothing to evaluate."

end EvalError

namespace Value

def ofError (e : EvalError) : Value := .error e.message

/-- The outcome of an evaluation as a value. -/
def ofOutcome : Except EvalError Value → Value
  | .ok v => v
  | .error e => .ofError e

def toFloat : Value → Except EvalError Float
  | .integer n => .ok (Binary64.ofInt64 n)
  | .float x => .ok x
  | .error message => .error (.typeError (.number message))

end Value

end Calculator
