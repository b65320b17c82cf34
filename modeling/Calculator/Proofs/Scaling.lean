import Calculator.Proofs.Normalization
import Calculator.Proofs.Failures

/-!
# Calculator.Proofs.Scaling — powers of ten add up

Scaling takes one step after the other and ends at a float that is settled, so a number of steps can be taken in two
parts (`Scaling.steps_add`). With exponents on one side of zero all steps have one direction, and a scaling is two
scalings (`scale_add`).

In scientific notation the value between the two is normalized. What becomes an integer becomes the same float again,
except for a negative zero, and a zero of either sign ends as the integer zero (`normalize_scale_zero`).
-/

namespace Calculator

/-! ## Steps -/

namespace Scaling

variable {upward : Bool} {x : Float}

/-- Only the finite floats beside the zeros are not settled. -/
theorem isSettled_iff : isSettled x = true ↔
    x.toModel.unpack = .notANumber ∨ (∃ s, x.toModel.unpack = .infinity s) ∨ ∃ s, x.toModel.unpack = .zero s := by
  show (x.toModel.unpack.beq (0.0 : Float).toModel.unpack || !x.toModel.unpack.isFinite) = true ↔ _
  cases x.toModel.unpack with
  | notANumber => exact iff_of_true rfl (Or.inl rfl)
  | infinity s => exact iff_of_true (by cases s <;> rfl) (Or.inr (Or.inl ⟨s, rfl⟩))
  | zero s => exact iff_of_true rfl (Or.inr (Or.inr ⟨s, rfl⟩))
  | finite s m e hm => exact iff_of_false (by cases s <;> exact Bool.false_ne_true) (by simp)

theorem steps_of_isSettled (h : isSettled x = true) (count : ℕ) : steps upward count x = x := by
  cases count with
  | zero => rfl
  | succ count => rw [steps, if_pos h]

/-- Steps can be interrupted. If the first part ends early, so does the whole. -/
theorem steps_add (upward : Bool) (m n : ℕ) (x : Float) :
    steps upward (m + n) x = steps upward n (steps upward m x) := by
  induction m generalizing x with
  | zero => rw [Nat.zero_add, steps]
  | succ m ih =>
    by_cases h : isSettled x = true
    · rw [steps_of_isSettled h, steps_of_isSettled h, steps_of_isSettled h]
    · rw [Nat.succ_add_eq_add_succ, Nat.add_succ, steps, if_neg h, ih, steps, if_neg h]

end Scaling

/-! ## Exponents -/

section Exponents

open Scaling

variable {a b c : Int64}

theorem scale_of_nonneg (h : 0 ≤ a.toInt) (x : Float) : scale x a = steps true a.toInt.natAbs x := by
  unfold scale
  by_cases ha : 0 < a
  · rw [decide_eq_true ha]
  · have hzero : a.toInt = 0 := by
      rw [← toInt_pos_iff] at ha
      omega
    rw [hzero]
    rfl

theorem scale_of_nonpos (h : a.toInt ≤ 0) (x : Float) : scale x a = steps false a.toInt.natAbs x := by
  unfold scale
  have ha : ¬ 0 < a := by
    rw [← toInt_pos_iff]
    omega
  rw [decide_eq_false ha]

/-- Exponents on one side of zero add up. -/
theorem scale_add (h : 0 ≤ a.toInt ∧ 0 ≤ b.toInt ∨ a.toInt ≤ 0 ∧ b.toInt ≤ 0) (hc : c.toInt = a.toInt + b.toInt)
    (x : Float) : scale (scale x a) b = scale x c := by
  rcases h with ⟨ha, hb⟩ | ⟨ha, hb⟩
  · have hcount : c.toInt.natAbs = a.toInt.natAbs + b.toInt.natAbs := by omega
    rw [scale_of_nonneg ha, scale_of_nonneg hb, scale_of_nonneg (by omega), hcount, steps_add]
  · have hcount : c.toInt.natAbs = a.toInt.natAbs + b.toInt.natAbs := by omega
    rw [scale_of_nonpos ha, scale_of_nonpos hb, scale_of_nonpos (by omega), hcount, steps_add]

theorem toInt_add_of_inRange (h : InRange (a.toInt + b.toInt)) : (a + b).toInt = a.toInt + b.toInt := by
  rw [inRange_iff] at h
  rw [Int64.toInt_add, Int.bmod_eq_of_le (by omega) (by omega)]

end Exponents

/-! ## Scientific notation -/

open Evaluation

variable {v : Value} {a b : Int64}

theorem scientific_of_toFloat {x : Float} (h : v.toFloat = .ok x) (a : Int64) :
    scientific v (.integer a) = .ok (normalize (scale x a)) := by
  unfold scientific
  rw [h]
  rfl

/-- A zero of either sign is settled, and it is the integer zero. -/
theorem normalize_scale_zero (a : Int64) : normalize (scale 0.0 a) = normalize (scale (-0.0) a) := by
  unfold scale
  rw [Scaling.steps_of_isSettled (by decide), Scaling.steps_of_isSettled (by decide)]
  decide

/-- **Exponents add up.** Scientific notation with one exponent after the other is scientific notation with their sum,
if both are on one side of zero and the sum is in range. -/
theorem scientific_add (hv : v.IsNumber) (h : 0 ≤ a.toInt ∧ 0 ≤ b.toInt ∨ a.toInt ≤ 0 ∧ b.toInt ≤ 0)
    (hr : InRange (a.toInt + b.toInt)) :
    ∃ w, scientific v (.integer a) = .ok w ∧ scientific w (.integer b) = scientific v (.integer (a + b)) := by
  obtain ⟨x, hx⟩ := Value.exists_toFloat hv
  refine ⟨_, scientific_of_toFloat hx a, ?_⟩
  rw [scientific_of_toFloat hx, ← scale_add h (toInt_add_of_inRange hr)]
  rcases toFloat_normalize (scale x a) with hw | ⟨hzero, hw⟩
  · exact scientific_of_toFloat hw b
  · rw [scientific_of_toFloat hw, hzero, normalize_scale_zero]

/-- Downward from `-1.0` all digits are lost after 324 steps. The negative zero becomes the integer zero, and one step
more from there makes no difference. -/
theorem scientific_add_of_underflow :
    let v : Value := .float (-1.0)
    v.IsNumber ∧ InRange ((-324 : Int64).toInt + (-1 : Int64).toInt) ∧
      scientific v (.integer (-324)) = .ok (.integer 0) ∧
      scientific (.integer 0) (.integer (-1)) = scientific v (.integer (-325)) := by
  intro v
  have hlost : scientific v (.integer (-324)) = .ok (.integer 0) := by decide +kernel
  have hr : InRange ((-324 : Int64).toInt + (-1 : Int64).toInt) := by decide
  obtain ⟨w, hw, hadd⟩ := scientific_add (.float (-1.0)) (Or.inr ⟨by decide, by decide⟩) hr
  obtain rfl : w = .integer 0 := Except.ok.inj (hw.symm.trans hlost)
  exact ⟨.float _, hr, hlost, hadd⟩

end Calculator
