import Calculator.Proofs.Normalization
import Calculator.Proofs.Failures
import Calculator.Proofs.FirstFault

/-!
# Calculator.Proofs.NormalForm — computed values are in normal form

A value is in normal form if it is an integer, or a float that is none. Every operation ends in checked integer
arithmetic or in `normalize`, so its values are in normal form whatever its operands are (`applyBinary_gives` and the
like). Signs are the exception: they keep floats as they are, and all that can be said of their values is that they are
numbers.

So a whole float in range is a literal or a signed operand. A computed operand that is refused for its type, by a
factorial or as the exponent of scientific notation, has no integer for its value (`type_fault_of_computed`).
-/

namespace Calculator

open Evaluation

/-! ## Kinds of values -/

namespace Value

/-- An integer, or a float that is none. -/
inductive IsNormal : Value → Prop where
  | integer (n : Int64) : IsNormal (.integer n)
  | float {x : Float} : exactInteger? x = none → IsNormal (.float x)

theorem IsNormal.isNumber {v : Value} (h : v.IsNormal) : v.IsNumber := by
  cases h with
  | integer n => exact .integer n
  | float _ => exact .float _

end Value

theorem normalize_isNormal (x : Float) : (normalize x).IsNormal := by
  cases h : exactInteger? x with
  | some n =>
    rw [normalize_of_some h]
    exact .integer n
  | none =>
    rw [normalize_of_none h]
    exact .float h

/-! ## Values of outcomes -/

/-- If the outcome is a value, the value satisfies `P`. -/
def Gives (P : Value → Prop) (r : Except EvalError Value) : Prop := ∀ v, r = .ok v → P v

section Gives

variable {P Q : Value → Prop} {r : Except EvalError Value}

theorem gives_ok {v : Value} (h : P v) : Gives P (.ok v) := by
  rintro w ⟨⟩
  exact h

theorem gives_error (error : EvalError) : Gives P (.error error) := by
  rintro w ⟨⟩

theorem gives_map {α : Type} {f : α → Value} (h : ∀ a, P (f a)) (x : Except EvalError α) : Gives P (x.map f) := by
  cases x with
  | ok a => exact gives_ok (h a)
  | error error => exact gives_error error

theorem gives_bind {f : Value → Except EvalError Value} (h : ∀ v, Gives P (f v)) (r : Except EvalError Value) :
    Gives P (r.bind f) := by
  cases r with
  | ok v => exact h v
  | error error => exact gives_error error

theorem Gives.mono (h : Gives P r) (hPQ : ∀ v, P v → Q v) : Gives Q r := fun v hv => hPQ v (h v hv)

end Gives

/-! ## Operations -/

namespace Evaluation

theorem gives_integer (x : Except EvalError Int64) : Gives Value.IsNormal (x.map .integer) := gives_map .integer x

theorem applySign_gives (s : Sign) (v : Value) : Gives Value.IsNumber (applySign s v) := by
  cases v with
  | integer n => exact gives_map .integer _
  | float x => exact gives_ok (.float _)
  | error message => exact gives_error _

theorem applyFactorial_gives (v : Value) : Gives Value.IsNormal (applyFactorial v) := by
  cases v with
  | integer n => exact gives_integer _
  | float x => exact gives_error _
  | error message => exact gives_error _

theorem scientific_gives (m e : Value) : Gives Value.IsNormal (scientific m e) := by
  cases e with
  | integer n => exact gives_map (fun _ => normalize_isNormal _) m.toFloat
  | float x => exact gives_error _
  | error message => exact gives_error _

theorem applyToFloats_gives (op : BinaryOperator) (a b : Float) : Gives Value.IsNormal (applyToFloats op a b) := by
  cases op with
  | exponent => exact scientific_gives (.float a) (.float b)
  | add | sub | mul | div | power | root => exact gives_ok (normalize_isNormal _)

theorem applyToIntegers_gives (op : BinaryOperator) (a b : Int64) :
    Gives Value.IsNormal (applyToIntegers op a b) := by
  cases op with
  | add | sub | mul | div => exact gives_integer _
  | exponent => exact scientific_gives (.integer a) (.integer b)
  | power => exact applyToFloats_gives .power (Binary64.ofInt64 a) (Binary64.ofInt64 b)
  | root => exact applyToFloats_gives .root (Binary64.ofInt64 a) (Binary64.ofInt64 b)

theorem applyBinary_gives (op : BinaryOperator) (v w : Value) : Gives Value.IsNormal (applyBinary op v w) := by
  unfold applyBinary
  split
  · exact scientific_gives v w
  · split
    · exact applyToIntegers_gives _ _ _
    · exact applyToFloats_gives _ _ _
    · exact gives_error _

theorem applyProcedure_gives (p : Procedure) (v : Value) : Gives Value.IsNormal (applyProcedure p v) :=
  gives_map (fun _ => normalize_isNormal _) v.toFloat

end Evaluation

/-! ## Expressions -/

namespace Expr

variable {e t : Expr}

/-- The root computes its value: it is neither a literal nor a sign. -/
def IsComputed : Expr → Prop
  | .integer _ | .float _ | .signed _ _ => False
  | .factorial _ | .binary _ _ _ | .call _ _ => True

theorem eval_isNormal (h : e.IsComputed) : Gives Value.IsNormal e.eval := by
  cases e with
  | integer n => exact h.elim
  | float x => exact h.elim
  | signed s e => exact h.elim
  | factorial e => exact gives_bind applyFactorial_gives _
  | binary op l r => exact gives_bind (fun v => gives_bind (applyBinary_gives op v) _) _
  | call p e => exact gives_bind (applyProcedure_gives p) _

/-- A failure is never the value of an expression. -/
theorem eval_isNumber (e : Expr) : Gives Value.IsNumber e.eval := by
  have hcomputed (h : e.IsComputed) : Gives Value.IsNumber e.eval := (eval_isNormal h).mono fun v hv => hv.isNumber
  cases e with
  | integer n => exact gives_ok (.integer n)
  | float x => exact gives_ok (.float x)
  | signed s e => exact gives_bind (applySign_gives s) _
  | factorial e => exact hcomputed trivial
  | binary op l r => exact hcomputed trivial
  | call p e => exact hcomputed trivial

end Expr

/-! ## Main result -/

section Main

open Binary64

variable {t : Expr} {v : Value} {fault : TypeFault}

/-- An operand that is refused for its type has no integer for its value. -/
theorem Value.IsNormal.not_whole {x : Float} (h : (Value.float x).IsNormal) (a : ℤ) (ha : toRat? x = some (a : ℚ)) :
    ¬ InRange a := by
  cases h with
  | float hx => exact exactInteger?_eq_none_iff.mp hx a ha

theorem eq_float_of_factorial (hv : v.IsNormal) (h : applyFactorial v = .error (.typeError fault)) :
    ∃ x, v = .float x ∧ fault = .factorial (.float x) := by
  cases hv with
  | integer n =>
    rcases factorial_eq_error_iff.mp (map_eq_error_iff.mp h) with ⟨-, h⟩ | ⟨-, -, h⟩
    · cases h
    · cases h
  | @float x _ =>
    cases h
    exact ⟨x, rfl, rfl⟩

/-- **Normal form.** A computed value is an integer, or a float that is none. So a computed operand that a factorial or
scientific notation refuses for its type is a float whose exact value is no integer in range. -/
theorem type_fault_of_computed (h : t.IsComputed) :
    (∀ v, t.eval = .ok v → v.IsNormal) ∧
      (∀ fault, (Expr.factorial t).fault? = some (.typeError fault) →
        ∃ x, t.eval = .ok (.float x) ∧ fault = .factorial (.float x) ∧ ∀ a : ℤ, toRat? x = some (a : ℚ) → ¬ InRange a) ∧
      ∀ m fault, (Expr.binary .exponent m t).fault? = some (.typeError fault) →
        ∃ x, t.eval = .ok (.float x) ∧ fault = .exponent (.float x) ∧
          ∀ a : ℤ, toRat? x = some (a : ℚ) → ¬ InRange a := by
  refine ⟨Expr.eval_isNormal h, ?_, ?_⟩
  · intro fault hfault
    obtain ⟨v, hv, herror⟩ := Expr.fault?_factorial_iff.mp hfault
    have hnormal := Expr.eval_isNormal h v hv
    obtain ⟨x, rfl, rfl⟩ := eq_float_of_factorial hnormal herror
    exact ⟨x, hv, rfl, hnormal.not_whole⟩
  · intro m fault hfault
    obtain ⟨u, hu, v, hv, herror⟩ := Expr.fault?_binary_iff.mp hfault
    have hnormal := Expr.eval_isNormal h v hv
    obtain ⟨x, rfl, hx⟩ := (scientific_eq_error_iff (m.eval_isNumber u hu) hnormal.isNumber).mp herror
    obtain rfl : fault = .exponent (.float x) := by simpa using hx
    exact ⟨x, hv, rfl, hnormal.not_whole⟩

/-- The factorial of `2.5 - 0.25` is refused, and the operand is no integer. The factorial of `4.0 / 2.0` is not refused:
the operand is an integer. -/
theorem type_fault_of_difference :
    let t : Expr := .binary .sub (.float 2.5) (.float 0.25)
    let u : Expr := .binary .div (.float 4.0) (.float 2.0)
    t.IsComputed ∧ (Expr.factorial t).fault? = some (.typeError (.factorial (.float 2.25))) ∧
      (∀ a : ℤ, toRat? 2.25 = some (a : ℚ) → ¬ InRange a) ∧
      u.IsComputed ∧ u.eval = .ok (.integer 2) ∧ (Value.integer 2).IsNormal ∧
      (Expr.factorial u).eval = .ok (.integer 2) := by
  intro t u
  have hfault : (Expr.factorial t).fault? = some (.typeError (.factorial (.float 2.25))) := by decide +kernel
  obtain ⟨x, -, hx, hwhole⟩ := (type_fault_of_computed (t := t) trivial).2.1 _ hfault
  obtain rfl : 2.25 = x := by simpa using hx
  have heval : u.eval = .ok (.integer 2) := by decide +kernel
  have hnormal := (type_fault_of_computed (t := u) trivial).1 _ heval
  exact ⟨trivial, hfault, hwhole, trivial, heval, hnormal, by decide +kernel⟩

end Main

end Calculator
