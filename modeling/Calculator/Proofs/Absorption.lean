import Calculator.Accumulator

/-!
# Calculator.Proofs.Absorption — a failure is never computed away

The message of a failed calculation is a value, but no operation takes it for a number: whatever stands beside it,
the outcome is a type error. Neither a divisor of zero nor a float for an exponent comes first, since types are
looked at before values. In a run the failure of a step is the next value, so from the first failure on all running
values are failures (`Step.isError_of_mem_run`), until one is replaced.
-/

namespace Calculator

/-- The operands are of types that the operation does not take. -/
def IsTypeError (outcome : Except EvalError Value) : Prop := ∃ fault, outcome = .error (.typeError fault)

namespace Evaluation

variable {v w : Value}

theorem exists_of_isError (h : v.isError) : ∃ message, v = .error message := by
  cases v with
  | integer n => cases h
  | float x => cases h
  | error message => exact ⟨message, rfl⟩

/-! ## Operations on one value -/

theorem applySign_isTypeError (s : Sign) (h : v.isError) : IsTypeError (applySign s v) := by
  obtain ⟨message, rfl⟩ := exists_of_isError h
  exact ⟨_, rfl⟩

theorem applyFactorial_isTypeError (h : v.isError) : IsTypeError (applyFactorial v) := by
  obtain ⟨message, rfl⟩ := exists_of_isError h
  exact ⟨_, rfl⟩

theorem applyProcedure_isTypeError (p : Procedure) (h : v.isError) : IsTypeError (applyProcedure p v) := by
  obtain ⟨message, rfl⟩ := exists_of_isError h
  exact ⟨_, rfl⟩

/-! ## Operators -/

/-- No promotion is made beside a failure. -/
theorem promote_of_isError (h : v.isError ∨ w.isError) : v.promote w = (v, w) := by
  rcases h with h | h
  · obtain ⟨message, rfl⟩ := exists_of_isError h
    rfl
  · obtain ⟨message, rfl⟩ := exists_of_isError h
    cases v <;> rfl

/-- The exponent is looked at first, and an integer exponent leaves the mantissa to fail. -/
theorem scientific_isTypeError (h : v.isError ∨ w.isError) : IsTypeError (scientific v w) := by
  cases w with
  | integer n =>
    have hv : v.isError := by simpa [Value.isError] using h
    obtain ⟨message, rfl⟩ := exists_of_isError hv
    exact ⟨_, rfl⟩
  | float x => exact ⟨_, rfl⟩
  | error message => exact ⟨_, rfl⟩

theorem applyBinary_isTypeError (op : BinaryOperator) (h : v.isError ∨ w.isError) :
    IsTypeError (applyBinary op v w) := by
  unfold applyBinary
  by_cases hop : op = .exponent
  · rw [if_pos hop]
    exact scientific_isTypeError h
  · rw [if_neg hop, promote_of_isError h]
    split
    · next hpair =>
      obtain ⟨rfl, rfl⟩ := Prod.mk.inj hpair
      simp [Value.isError] at h
    · next hpair =>
      obtain ⟨rfl, rfl⟩ := Prod.mk.inj hpair
      simp [Value.isError] at h
    · exact ⟨_, rfl⟩

end Evaluation

open Evaluation

/-! ## Runs -/

namespace Step

variable {v : Value}

theorem isError_ofOutcome {outcome : Except EvalError Value} (h : IsTypeError outcome) :
    (Value.ofOutcome outcome).isError := by
  obtain ⟨fault, rfl⟩ := h
  rfl

/-- One step keeps a failure. -/
theorem isError_next {s : Step} (h : v.isError) (hs : ∀ w, s ≠ .replace w) : (next v s).isError := by
  cases s with
  | sign s => exact isError_ofOutcome (applySign_isTypeError s h)
  | factorial => exact isError_ofOutcome (applyFactorial_isTypeError h)
  | call p => exact isError_ofOutcome (applyProcedure_isTypeError p h)
  | withRight op right => exact isError_ofOutcome (applyBinary_isTypeError op (Or.inl h))
  | withLeft op left => exact isError_ofOutcome (applyBinary_isTypeError op (Or.inr h))
  | withItself op => exact isError_ofOutcome (applyBinary_isTypeError op (Or.inl h))
  | promote other =>
    show (v.promote other).1.isError
    rw [promote_of_isError (Or.inl h)]
    exact h
  | replace w => exact absurd rfl (hs w)

/-- So does a run. -/
theorem isError_of_mem_run {w : Value} {steps : List Step} (h : v.isError) (hsteps : ∀ u, replace u ∉ steps)
    (hw : w ∈ run v steps) : w.isError := by
  induction steps generalizing v with
  | nil => simp [run] at hw
  | cons s steps ih =>
    have hnext : (next v s).isError := isError_next h fun u hu => hsteps u (by simp [hu])
    rcases List.mem_cons.mp hw with rfl | hw
    · exact hnext
    · exact ih hnext (fun u hu => hsteps u (List.mem_cons_of_mem s hu)) hw

theorem pairwise_isError_run (start : Value) {steps : List Step} (hsteps : ∀ u, replace u ∉ steps) :
    (start :: run start steps).Pairwise fun v w => v.isError → w.isError := by
  induction steps generalizing start with
  | nil => simp [run]
  | cons s steps ih =>
    rw [List.pairwise_cons]
    constructor
    · intro w hw h
      exact isError_of_mem_run h hsteps hw
    · exact ih (next start s) fun u hu => hsteps u (List.mem_cons_of_mem s hu)

end Step

/-! ## Main result -/

/-- **Absorption.** With a failure among its operands every operation is a type error. In a run without
replacements a failure is therefore followed by failures only. -/
theorem failures_absorbed :
    (∀ (s : Sign) (v : Value), v.isError → IsTypeError (applySign s v)) ∧
      (∀ v : Value, v.isError → IsTypeError (applyFactorial v)) ∧
      (∀ (p : Procedure) (v : Value), v.isError → IsTypeError (applyProcedure p v)) ∧
      (∀ (op : BinaryOperator) (v w : Value), v.isError ∨ w.isError → IsTypeError (applyBinary op v w)) ∧
      ∀ (start : Value) (steps : List Step), (∀ u, Step.replace u ∉ steps) →
        (start :: Step.run start steps).Pairwise fun v w => v.isError → w.isError := by
  refine ⟨fun s v h => applySign_isTypeError s h, fun v h => applyFactorial_isTypeError h,
    fun p v h => applyProcedure_isTypeError p h, fun op v w h => applyBinary_isTypeError op h, ?_⟩
  exact fun start steps hsteps => Step.pairwise_isError_run start hsteps

/-- A failure over zero, and what follows a division by zero. -/
theorem failures_absorbed_after_division :
    let rest : List Step := [.factorial, .promote (.float 0.5), .withLeft .exponent (.integer 2), .call .sqrt,
      .withItself .add]
    IsTypeError (applyBinary .div (.error "failed") (.integer 0)) ∧ (∀ u, Step.replace u ∉ rest) ∧
      (Step.next (.integer 1) (.withRight .div (.integer 0))).isError ∧
      ∀ v ∈ Step.run (Step.next (.integer 1) (.withRight .div (.integer 0))) rest, v.isError := by
  intro rest
  obtain ⟨-, -, -, hbinary, hrun⟩ := failures_absorbed
  have hrest : ∀ u, Step.replace u ∉ rest := by simp [rest]
  have hzero : (Step.next (.integer 1) (.withRight .div (.integer 0))).isError := rfl
  have hlater := (List.pairwise_cons.mp (hrun (Step.next (.integer 1) (.withRight .div (.integer 0))) rest hrest)).1
  exact ⟨hbinary .div (.error "failed") (.integer 0) (Or.inl rfl), hrest, hzero, fun v hv => hlater v hv hzero⟩

end Calculator
