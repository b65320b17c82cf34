import Calculator.Proofs.Exactness

/-!
# Calculator.Proofs.Failures — when an operation on numbers fails

What an operation makes of numbers is a number or one of few failures, and each of these lemmas names the operands that
lead to them. Integers overflow, a divisor is zero, and the argument of a factorial is negative; a factorial and the
exponent of scientific notation have to be integers. There is no other failure: two numbers are both integers or both
floats once they are promoted (`Value.promote_isNumber`), and powers, roots and procedures have a value for all floats.
-/

open scoped Nat

namespace Calculator

/-- An integer or a float. -/
inductive Value.IsNumber : Value → Prop where
  | integer (n : Int64) : IsNumber (.integer n)
  | float (x : Float) : IsNumber (.float x)

theorem map_eq_error_iff {α β : Type} {x : Except EvalError α} {f : α → β} {error : EvalError} :
    x.map f = .error error ↔ x = .error error := by
  cases x <;> simp [Except.map]

theorem checked_eq_error_iff {n : ℤ} {error : EvalError} :
    checked n = .error error ↔ ¬ InRange n ∧ error = .overflow := by
  by_cases h : InRange n
  · simp [checked_of_inRange h, h]
  · simp [checked_of_not_inRange h, h, eq_comm]

/-- Promoted numbers are of one type. -/
theorem Value.promote_isNumber {v w : Value} (hv : v.IsNumber) (hw : w.IsNumber) :
    (∃ a b, v.promote w = (.integer a, .integer b)) ∨ ∃ a b, v.promote w = (.float a, .float b) := by
  cases hv with
  | integer n =>
    cases hw with
    | integer m => exact Or.inl ⟨n, m, rfl⟩
    | float y => exact Or.inr ⟨_, y, rfl⟩
  | float x =>
    cases hw with
    | integer m => exact Or.inr ⟨x, _, rfl⟩
    | float y => exact Or.inr ⟨x, y, rfl⟩

theorem Value.exists_toFloat {v : Value} (hv : v.IsNumber) : ∃ x, v.toFloat = .ok x := by
  cases hv with
  | integer n => exact ⟨_, rfl⟩
  | float x => exact ⟨x, rfl⟩

namespace Evaluation

variable {s : Sign} {op : BinaryOperator} {p : Procedure} {v w : Value} {a b n : Int64} {error : EvalError}

/-! ## Operations on one number -/

theorem applySign_eq_error_iff (hv : v.IsNumber) :
    applySign s v = .error error ↔ ∃ n, v = .integer n ∧ ¬ InRange (-n.toInt) ∧ error = .overflow := by
  cases hv with
  | integer n =>
    have h : applySign s (.integer n) = .error error ↔ _ := map_eq_error_iff.trans checked_eq_error_iff
    simpa using h
  | float x => simp [applySign]

theorem factorial_eq_error_iff : Checked.factorial n = .error error ↔
    (n.toInt < 0 ∧ error = .invalidArgument (.negativeFactorial n)) ∨
      (0 ≤ n.toInt ∧ ¬ InRange (n.toInt.toNat ! : ℕ) ∧ error = .overflow) := by
  rw [Checked.factorial_eq]
  by_cases hn : n.toInt < 0
  · have hneg : ¬ 0 ≤ n.toInt := by omega
    simp [hn, hneg, eq_comm]
  · have hpos : 0 ≤ n.toInt := by omega
    simp [hn, hpos, checked_eq_error_iff]

theorem exists_applyProcedure (hv : v.IsNumber) : ∃ u, applyProcedure p v = .ok u := by
  obtain ⟨x, hx⟩ := Value.exists_toFloat hv
  unfold applyProcedure applyFunction
  rw [hx]
  exact ⟨_, rfl⟩

/-! ## Operations on two numbers -/

theorem exists_applyToFloats (hop : op ≠ .exponent) (x y : Float) : ∃ u, applyToFloats op x y = .ok u := by
  cases op with
  | exponent => exact absurd rfl hop
  | add | sub | mul | div | power | root => exact ⟨_, rfl⟩

theorem div_eq_error_iff : Checked.div a b = .error error ↔
    (b.toInt ≠ 0 ∧ ¬ InRange (a.toInt.tdiv b.toInt) ∧ error = .overflow) ∨ (b.toInt = 0 ∧ error = .divisionByZero) := by
  rw [Checked.div_eq]
  by_cases hb : b.toInt = 0
  · simp [hb, eq_comm]
  · simp [hb, checked_eq_error_iff]

theorem applyToIntegers_eq_error_iff (hop : op ≠ .exponent) : applyToIntegers op a b = .error error ↔
    (∃ c, op.exactResult? a.toInt b.toInt = some c ∧ ¬ InRange c ∧ error = .overflow) ∨
      (op = .div ∧ b.toInt = 0 ∧ error = .divisionByZero) := by
  cases op with
  | exponent => exact absurd rfl hop
  | add | sub | mul =>
    refine (map_eq_error_iff.trans checked_eq_error_iff).trans ?_
    simp [BinaryOperator.exactResult?]
  | div =>
    refine (map_eq_error_iff.trans div_eq_error_iff).trans ?_
    by_cases hb : b.toInt = 0
    · simp [BinaryOperator.exactResult?, hb]
    · simp [BinaryOperator.exactResult?, hb]
  | power | root =>
    obtain ⟨u, hu⟩ := exists_applyToFloats hop (Binary64.ofInt64 a) (Binary64.ofInt64 b)
    simp [applyToIntegers, hu, BinaryOperator.exactResult?]

theorem scientific_eq_error_iff (hv : v.IsNumber) (hw : w.IsNumber) : scientific v w = .error error ↔
    ∃ x, w = .float x ∧ error = .typeError (.exponent (.float x)) := by
  obtain ⟨m, hm⟩ := Value.exists_toFloat hv
  cases hw with
  | integer n => simp [scientific, hm, Except.map]
  | float x => simp [scientific, eq_comm]

theorem applyBinary_eq_error_iff (hv : v.IsNumber) (hw : w.IsNumber) : applyBinary op v w = .error error ↔
    (∃ a b c, v = .integer a ∧ w = .integer b ∧ op.exactResult? a.toInt b.toInt = some c ∧ ¬ InRange c ∧
        error = .overflow) ∨
      (op = .div ∧ (∃ a, v = .integer a) ∧ w = .integer 0 ∧ error = .divisionByZero) ∨
      (op = .exponent ∧ ∃ x, w = .float x ∧ error = .typeError (.exponent (.float x))) := by
  unfold applyBinary
  by_cases hop : op = .exponent
  · subst hop
    simp [scientific_eq_error_iff hv hw, BinaryOperator.exactResult?]
  · rw [if_neg hop]
    -- of floats only a float exponent would be refused, and that is no case here
    have hfloats (x y : Float) : applyToFloats op x y ≠ .error error := by
      obtain ⟨u, hu⟩ := exists_applyToFloats hop x y
      simp [hu]
    cases hv with
    | integer a =>
      cases hw with
      | integer b =>
        refine (applyToIntegers_eq_error_iff hop).trans ?_
        simp [hop, toInt_eq_zero_iff]
      | float y => simpa [hop, Value.promote] using hfloats _ y
    | float x =>
      cases hw with
      | integer b => simpa [hop, Value.promote] using hfloats x _
      | float y => simpa [hop, Value.promote] using hfloats x y

end Evaluation

end Calculator
