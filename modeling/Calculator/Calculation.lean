import Calculator.Parser
import Calculator.Evaluation

/-!
# Calculator.Calculation — from a source to its value

`calculate` reads a source and evaluates it. Reading and evaluation fail in ways of their own: reading reports
all its diagnostics, evaluation the first failure.
-/

namespace Calculator

/-- Why a source has no value. -/
inductive CalcError where
  | reading (diagnostics : List Diagnostic)
  | evaluation (error : EvalError)
deriving DecidableEq

/-- The wording: one line for each diagnostic, or the failure of the evaluation. -/
def CalcError.message : CalcError → String
  | .reading diagnostics => "\n".intercalate (diagnostics.map Diagnostic.message)
  | .evaluation error => error.message

def calculate (source : String) : Except CalcError Value :=
  match parse source with
  | .error diagnostics => .error (.reading diagnostics)
  | .ok program => program.eval.mapError .evaluation

end Calculator
