import Calculator.Proofs.NormalForm

/-!
# Calculator.Proofs.Safety — the failures of an evaluation

The values of operands are numbers, so of all the ways in which an operation can refuse its operands few are left.
`Expr.Fault` lists them, and a node is at fault exactly as the list says (`Expr.fault?_eq_some_iff`). An evaluation
fails if and only if a node of the expression does, and no procedure, power or root is among them (`eval_fails_iff`).
-/

open scoped Nat

namespace Calculator

open Evaluation

variable {error : EvalError}

/-! ## Faults of nodes -/

namespace Expr

/-- The ways in which the operation of a node fails on the values of its operands. -/
inductive Fault : Expr → EvalError → Prop where
  | sign {s : Sign} {e : Expr} {n : Int64} : e.eval = .ok (.integer n) → ¬ InRange (-n.toInt) →
      Fault (.signed s e) .overflow
  /-- A sum, difference, product or quotient of integers that is out of range. -/
  | arithmetic {op : BinaryOperator} {l r : Expr} {a b : Int64} {c : ℤ} : op.IsExact →
      l.eval = .ok (.integer a) → r.eval = .ok (.integer b) → op.exactResult? a.toInt b.toInt = some c →
      ¬ InRange c → Fault (.binary op l r) .overflow
  | divisor {l r : Expr} {a : Int64} : l.eval = .ok (.integer a) → r.eval = .ok (.integer 0) →
      Fault (.binary .div l r) .divisionByZero
  | factorial {e : Expr} {n : Int64} : e.eval = .ok (.integer n) → 0 ≤ n.toInt → ¬ InRange (n.toInt.toNat ! : ℕ) →
      Fault (.factorial e) .overflow
  | negativeFactorial {e : Expr} {n : Int64} : e.eval = .ok (.integer n) → n.toInt < 0 →
      Fault (.factorial e) (.invalidArgument (.negativeFactorial n))
  | floatFactorial {e : Expr} {x : Float} : e.eval = .ok (.float x) →
      Fault (.factorial e) (.typeError (.factorial (.float x)))
  | floatExponent {l r : Expr} {v : Value} {x : Float} : l.eval = .ok v → r.eval = .ok (.float x) →
      Fault (.binary .exponent l r) (.typeError (.exponent (.float x)))

theorem isExact_of_exactResult? {op : BinaryOperator} {a b c : ℤ} (h : op.exactResult? a b = some c) :
    op.IsExact := by
  unfold BinaryOperator.IsExact
  cases op <;> simp [BinaryOperator.exactResult?] at h ⊢

theorem fault_signed_iff {s : Sign} {e : Expr} : (signed s e).fault? = some error ↔ Fault (signed s e) error := by
  rw [fault?_signed_iff]
  constructor
  · rintro ⟨v, hv, h⟩
    obtain ⟨n, rfl, hr, rfl⟩ := (applySign_eq_error_iff (e.eval_isNumber v hv)).mp h
    exact .sign hv hr
  · intro h
    cases h with
    | sign hv hr => exact ⟨_, hv, (applySign_eq_error_iff (.integer _)).mpr ⟨_, rfl, hr, rfl⟩⟩

theorem fault_factorial_iff {e : Expr} : (factorial e).fault? = some error ↔ Fault (factorial e) error := by
  rw [fault?_factorial_iff]
  constructor
  · rintro ⟨v, hv, h⟩
    cases e.eval_isNumber v hv with
    | integer n =>
      rcases factorial_eq_error_iff.mp (map_eq_error_iff.mp h) with ⟨hn, rfl⟩ | ⟨hn, hr, rfl⟩
      · exact .negativeFactorial hv hn
      · exact .factorial hv hn hr
    | float x =>
      cases h
      exact .floatFactorial hv
  · intro h
    cases h with
    | factorial hv hn hr =>
      exact ⟨_, hv, map_eq_error_iff.mpr (factorial_eq_error_iff.mpr (Or.inr ⟨hn, hr, rfl⟩))⟩
    | negativeFactorial hv hn => exact ⟨_, hv, map_eq_error_iff.mpr (factorial_eq_error_iff.mpr (Or.inl ⟨hn, rfl⟩))⟩
    | floatFactorial hv => exact ⟨_, hv, rfl⟩

theorem fault_binary_iff {op : BinaryOperator} {l r : Expr} :
    (binary op l r).fault? = some error ↔ Fault (binary op l r) error := by
  rw [fault?_binary_iff]
  constructor
  · rintro ⟨v, hv, w, hw, h⟩
    rcases (applyBinary_eq_error_iff (l.eval_isNumber v hv) (r.eval_isNumber w hw)).mp h with
      ⟨a, b, c, rfl, rfl, hc, hr, rfl⟩ | ⟨rfl, ⟨a, rfl⟩, rfl, rfl⟩ | ⟨rfl, x, rfl, rfl⟩
    · exact .arithmetic (isExact_of_exactResult? hc) hv hw hc hr
    · exact .divisor hv hw
    · exact .floatExponent hv hw
  · intro h
    cases h with
    | arithmetic hop hv hw hc hr =>
      exact ⟨_, hv, _, hw, (applyBinary_eq_error_iff (.integer _) (.integer _)).mpr
        (Or.inl ⟨_, _, _, rfl, rfl, hc, hr, rfl⟩)⟩
    | divisor hv hw =>
      exact ⟨_, hv, _, hw, (applyBinary_eq_error_iff (.integer _) (.integer _)).mpr
        (Or.inr (Or.inl ⟨rfl, ⟨_, rfl⟩, rfl, rfl⟩))⟩
    | floatExponent hv hw =>
      exact ⟨_, hv, _, hw, (applyBinary_eq_error_iff (l.eval_isNumber _ hv) (.float _)).mpr
        (Or.inr (Or.inr ⟨rfl, _, rfl, rfl⟩))⟩

theorem fault_call_iff {p : Procedure} {e : Expr} : (call p e).fault? = some error ↔ Fault (call p e) error := by
  rw [fault?_call_iff]
  constructor
  · rintro ⟨v, hv, h⟩
    obtain ⟨u, hu⟩ := exists_applyProcedure (p := p) (e.eval_isNumber v hv)
    rw [hu] at h
    cases h
  · rintro ⟨⟩

/-- A node is at fault exactly if it is in the list. -/
theorem fault?_eq_some_iff {e : Expr} : e.fault? = some error ↔ e.Fault error := by
  cases e with
  | integer n => exact ⟨nofun, nofun⟩
  | float x => exact ⟨nofun, nofun⟩
  | signed s e => exact fault_signed_iff
  | factorial e => exact fault_factorial_iff
  | binary op l r => exact fault_binary_iff
  | call p e => exact fault_call_iff

theorem not_fault_of_power_or_root {op : BinaryOperator} {l r : Expr} (hop : op = .power ∨ op = .root) :
    ¬ Fault (binary op l r) error := by
  intro h
  cases h with
  | arithmetic hexact _ _ _ _ => rcases hop with rfl | rfl <;> simp [BinaryOperator.IsExact] at hexact
  | divisor _ _ => rcases hop with h | h <;> cases h
  | floatExponent _ _ => rcases hop with h | h <;> cases h

/-- The types of failures that a fault can have. -/
theorem Fault.typeError_cases {e : Expr} {fault : TypeFault} (h : e.Fault (.typeError fault)) :
    (∃ x, fault = .factorial (.float x)) ∨ ∃ x, fault = .exponent (.float x) := by
  cases h with
  | @floatFactorial e x _ => exact Or.inl ⟨x, rfl⟩
  | @floatExponent l r v x _ _ => exact Or.inr ⟨x, rfl⟩

/-- The first fault among the nodes is the failure of the evaluation. -/
theorem eval_eq_error_iff {e : Expr} : e.eval = .error error ↔
    ∃ before n after, e.postorder = before ++ n :: after ∧ n.Fault error ∧ ∀ m ∈ before, ∀ error', ¬ m.Fault error' := by
  have hnone (m : Expr) : m.fault? = none ↔ ∀ error', ¬ m.Fault error' := by
    simp only [Option.eq_none_iff_forall_ne_some, ne_eq, fault?_eq_some_iff]
  rw [← failureOf?_eq_some_iff, failureOf?_eval, List.findSome?_eq_some_iff]
  simp only [fault?_eq_some_iff, hnone]

end Expr

/-! ## Main result -/

/-- **Safety.** A failure is never the value of an expression. An evaluation has the failure of the first node at fault,
and there is none without one. The only operands that are refused for their type are floats, by a factorial or as the
exponent of scientific notation: the values of two expressions are of one type once they are promoted, and procedures,
powers and roots have a value whenever their operands do. -/
theorem eval_fails_iff (e : Expr) :
    (∀ message, e.eval ≠ .ok (.error message)) ∧
      (∀ error, e.eval = .error error ↔ ∃ before n after, e.postorder = before ++ n :: after ∧ n.Fault error ∧
        ∀ m ∈ before, ∀ error', ¬ m.Fault error') ∧
      (∀ fault, e.eval = .error (.typeError fault) →
        (∃ x, fault = .factorial (.float x)) ∨ ∃ x, fault = .exponent (.float x)) ∧
      (∀ l r v w, Expr.eval l = .ok v → Expr.eval r = .ok w →
        (∃ a b, v.promote w = (.integer a, .integer b)) ∨ ∃ a b, v.promote w = (.float a, .float b)) ∧
      (∀ p a v, Expr.eval a = .ok v → ∃ u, (Expr.call p a).eval = .ok u) ∧
      ∀ op l r v w, op = .power ∨ op = .root → Expr.eval l = .ok v → Expr.eval r = .ok w →
        ∃ u, (Expr.binary op l r).eval = .ok u := by
  refine ⟨?_, fun error => Expr.eval_eq_error_iff, ?_, ?_, ?_, ?_⟩
  · intro message h
    cases e.eval_isNumber _ h
  · intro fault h
    obtain ⟨before, n, after, -, hn, -⟩ := Expr.eval_eq_error_iff.mp h
    exact hn.typeError_cases
  · intro l r v w hv hw
    exact Value.promote_isNumber (l.eval_isNumber v hv) (r.eval_isNumber w hw)
  · intro p a v hv
    rw [Expr.eval_call, hv]
    exact exists_applyProcedure (a.eval_isNumber v hv)
  · intro op l r v w hop hv hw
    rw [Expr.eval_binary, hv, hw]
    cases h : applyBinary op v w with
    | ok u => exact ⟨u, h⟩
    | error error =>
      have hfault : (Expr.binary op l r).fault? = some error := Expr.fault?_binary_iff.mpr ⟨v, hv, w, hw, h⟩
      exact absurd (Expr.fault_binary_iff.mp hfault) (Expr.not_fault_of_power_or_root hop)

end Calculator
