import Mathlib
import Calculator.Calculation

/-!
# Calculator.Proofs.Evaluating — the order of an evaluation

The value of an expression, node by node: operands come first, from left to right, and the first failure is the
outcome. Operations fail for reasons of their own; that there is nothing to evaluate is never one of them
(`Expr.eval_ne_emptyProgram`), so a source has this failure only if its program is empty.
-/

namespace Calculator

open Evaluation

/-! ## One node -/

namespace Expr

theorem eval_signed (s : Sign) (e : Expr) : (signed s e).eval = e.eval.bind (applySign s) := rfl

theorem eval_factorial (e : Expr) : (factorial e).eval = e.eval.bind applyFactorial := rfl

theorem eval_binary (op : BinaryOperator) (l r : Expr) :
    (binary op l r).eval = l.eval.bind fun v => r.eval.bind fun w => applyBinary op v w := rfl

theorem eval_call (p : Procedure) (e : Expr) : (call p e).eval = e.eval.bind (applyProcedure p) := rfl

end Expr

/-! ## Failures of operations -/

namespace Evaluation

theorem checked_ne_emptyProgram (n : Int) : checked n ≠ .error .emptyProgram := by
  unfold checked
  split <;> simp

theorem risingProduct_ne_emptyProgram (count next : Nat) (acc : Int64) :
    Checked.risingProduct count next acc ≠ .error .emptyProgram := by
  induction count generalizing next acc with
  | zero => simp [Checked.risingProduct]
  | succ count ih =>
    unfold Checked.risingProduct
    split
    · exact ih _ _
    · next error h =>
      intro he
      obtain rfl := Except.error.inj he
      exact checked_ne_emptyProgram _ h

theorem map_ne_emptyProgram {α : Type} {x : Except EvalError α} (f : α → Value)
    (h : x ≠ .error .emptyProgram) : x.map f ≠ .error .emptyProgram := by
  cases x with
  | ok a => simp [Except.map]
  | error error => simpa [Except.map] using h

theorem applySign_ne_emptyProgram (s : Sign) (v : Value) : applySign s v ≠ .error .emptyProgram := by
  cases v with
  | integer n => exact map_ne_emptyProgram _ (checked_ne_emptyProgram _)
  | float x => simp [applySign]
  | error message => simp [applySign]

theorem applyFactorial_ne_emptyProgram (v : Value) : applyFactorial v ≠ .error .emptyProgram := by
  cases v with
  | integer n =>
    refine map_ne_emptyProgram _ ?_
    unfold Checked.factorial
    split
    · simp
    · exact risingProduct_ne_emptyProgram _ _ _
  | float x => simp [applyFactorial]
  | error message => simp [applyFactorial]

theorem toFloat_ne_emptyProgram (v : Value) : v.toFloat ≠ .error .emptyProgram := by
  cases v <;> simp [Value.toFloat]

theorem scientific_ne_emptyProgram (m e : Value) : scientific m e ≠ .error .emptyProgram := by
  cases e with
  | integer n => exact map_ne_emptyProgram _ (toFloat_ne_emptyProgram m)
  | float x => simp [scientific]
  | error message => simp [scientific]

theorem applyToFloats_ne_emptyProgram (op : BinaryOperator) (a b : Float) :
    applyToFloats op a b ≠ .error .emptyProgram := by
  cases op <;> simp [applyToFloats, scientific]

theorem applyToIntegers_ne_emptyProgram (op : BinaryOperator) (a b : Int64) :
    applyToIntegers op a b ≠ .error .emptyProgram := by
  cases op with
  | add | sub | mul => exact map_ne_emptyProgram _ (checked_ne_emptyProgram _)
  | div =>
    refine map_ne_emptyProgram _ ?_
    unfold Checked.div
    split
    · simp
    · exact checked_ne_emptyProgram _
  | exponent => exact scientific_ne_emptyProgram (.integer a) (.integer b)
  | power => exact applyToFloats_ne_emptyProgram .power (Binary64.ofInt64 a) (Binary64.ofInt64 b)
  | root => exact applyToFloats_ne_emptyProgram .root (Binary64.ofInt64 a) (Binary64.ofInt64 b)

theorem applyBinary_ne_emptyProgram (op : BinaryOperator) (v w : Value) :
    applyBinary op v w ≠ .error .emptyProgram := by
  unfold applyBinary
  split
  · exact scientific_ne_emptyProgram v w
  · split
    · exact applyToIntegers_ne_emptyProgram _ _ _
    · exact applyToFloats_ne_emptyProgram _ _ _
    · simp

theorem applyProcedure_ne_emptyProgram (p : Procedure) (v : Value) :
    applyProcedure p v ≠ .error .emptyProgram :=
  map_ne_emptyProgram _ (toFloat_ne_emptyProgram v)

end Evaluation

theorem bind_ne_emptyProgram {x : Except EvalError Value} {f : Value → Except EvalError Value}
    (hx : x ≠ .error .emptyProgram) (hf : ∀ v, f v ≠ .error .emptyProgram) :
    x.bind f ≠ .error .emptyProgram := by
  cases x with
  | ok v => exact hf v
  | error error => exact hx

/-- An expression is something to evaluate. -/
theorem Expr.eval_ne_emptyProgram (e : Expr) : e.eval ≠ .error .emptyProgram := by
  induction e with
  | integer n => simp [eval]
  | float x => simp [eval]
  | signed s e ih => exact bind_ne_emptyProgram ih (applySign_ne_emptyProgram s)
  | factorial e ih => exact bind_ne_emptyProgram ih applyFactorial_ne_emptyProgram
  | binary op l r ihl ihr =>
    exact bind_ne_emptyProgram ihl fun v => bind_ne_emptyProgram ihr (applyBinary_ne_emptyProgram op v)
  | call p e ih => exact bind_ne_emptyProgram ih (applyProcedure_ne_emptyProgram p)

/-! ## Programs of one statement -/

theorem Program.eval_nil : Program.eval ⟨[]⟩ = .error .emptyProgram := rfl

theorem Program.eval_singleton (e : Expr) : Program.eval ⟨[e]⟩ = e.eval := by
  unfold Program.eval
  cases h : e.eval <;> simp [h, bind, Except.bind, pure, Except.pure]

section Calculate

variable {source : String}

theorem calculate_of_parse_ok {p : Program} (h : parse source = .ok p) :
    calculate source = p.eval.mapError .evaluation := by
  unfold calculate
  rw [h]

theorem calculate_of_parse_error {ds : List Diagnostic} (h : parse source = .error ds) :
    calculate source = .error (.reading ds) := by
  unfold calculate
  rw [h]

end Calculate

end Calculator
