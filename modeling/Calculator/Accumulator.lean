import Calculator.Evaluation

/-!
# Calculator.Accumulator — calculations in steps

A running value to which operations are applied one after the other. A step that fails leaves the message of its
failure as the value, and the run goes on.
-/

namespace Calculator

/-- One step of a run, applied to the running value. -/
inductive Step where
  | sign (s : Sign)
  | factorial
  | call (p : Procedure)
  /-- The running value on the left of an operator. -/
  | withRight (op : BinaryOperator) (right : Value)
  /-- The running value on the right of an operator. -/
  | withLeft (op : BinaryOperator) (left : Value)
  /-- The running value on both sides of an operator. -/
  | withItself (op : BinaryOperator)
  /-- The running value made comparable with another. -/
  | promote (other : Value)
  | replace (v : Value)
deriving DecidableEq

namespace Step

open Evaluation

def outcome (v : Value) : Step → Except EvalError Value
  | .sign s => applySign s v
  | .factorial => applyFactorial v
  | .call p => applyProcedure p v
  | .withRight op right => applyBinary op v right
  | .withLeft op left => applyBinary op left v
  | .withItself op => applyBinary op v v
  | .promote other => .ok (v.promote other).1
  | .replace w => .ok w

def next (v : Value) (s : Step) : Value := .ofOutcome (s.outcome v)

/-- The running values after each step of a run. -/
def run (start : Value) : List Step → List Value
  | [] => []
  | s :: steps => next start s :: run (next start s) steps

end Step

end Calculator
