import Calculator.Proofs.Scaling

/-!
# Calculator.Proofs.EarlyExit — ending a scaling early changes nothing

A scaling looks at its float before every step and ends at one that is settled: a zero, an infinity, or what is not a
number. Multiplied or divided by ten each of these is itself again, with its sign (`Scaling.step_of_isSettled`). So all
the steps that are left out would have given the same float, and a scaling is the plain iteration that takes as many
steps as the exponent says (`scale_eq_iterate`). There can be `2 ^ 63` of them.

Floats are compared as such here. There is one float that is not a number, so it needs no exception.
-/

namespace Calculator

namespace Scaling

open Binary64
open Float.Model (UnpackedFloat)

variable {x : Float}

/-! ## One step -/

theorem exists_unpack_ten : ∃ m e hm, (10.0 : Float).toModel.unpack = .finite .positive m e hm :=
  ⟨5 * 2 ^ 50, -49, by decide, rfl⟩

theorem step_eq (upward : Bool) (x : Float) : step upward x =
    .ofModel (.pack ((if upward then UnpackedFloat.mul .binary64 else UnpackedFloat.div .binary64)
      x.toModel.unpack (10.0 : Float).toModel.unpack)) := by
  cases upward <;> rfl

/-- What is settled is fixed by the steps of both directions. -/
theorem step_of_isSettled (h : isSettled x = true) (upward : Bool) : step upward x = x := by
  obtain ⟨m, e, hm, hten⟩ := exists_unpack_ten
  -- ten is finite and not negative, so neither the kind of the other operand changes nor its sign
  have hsame : (if upward then UnpackedFloat.mul .binary64 else UnpackedFloat.div .binary64)
      x.toModel.unpack (.finite .positive m e hm) = x.toModel.unpack := by
    rcases isSettled_iff.mp h with hx | ⟨s, hx⟩ | ⟨s, hx⟩
    · rw [hx]
      cases upward <;> rfl
    · rw [hx]
      cases upward <;> cases s <;> rfl
    · rw [hx]
      cases upward <;> cases s <;> rfl
  rw [step_eq, hten, hsame, ofModel_pack_unpack]

/-! ## All steps -/

/-- Steps that end early give what all of them give. -/
theorem steps_eq_iterate (upward : Bool) (count : ℕ) (x : Float) :
    steps upward count x = (step upward)^[count] x := by
  induction count generalizing x with
  | zero => rfl
  | succ count ih =>
    rw [steps, Function.iterate_succ_apply]
    by_cases h : isSettled x = true
    · have hfixed := step_of_isSettled h upward
      rw [if_pos h, hfixed, Function.iterate_fixed hfixed]
    · rw [if_neg h, ih]

end Scaling

/-! ## Main result -/

/-- **The early exit.** A scaling is the loop that has none: it multiplies by ten, or divides by ten unless the exponent
is positive, exactly as often as the magnitude of the exponent says. -/
theorem scale_eq_iterate (x : Float) (k : Int64) :
    scale x k = (fun y => if 0 < k.toInt then y * 10.0 else y / 10.0)^[k.toInt.natAbs] x := by
  by_cases hk : 0 < k.toInt
  · simp only [if_pos hk]
    rw [scale_of_nonneg hk.le, Scaling.steps_eq_iterate]
    rfl
  · simp only [if_neg hk]
    rw [scale_of_nonpos (not_lt.mp hk), Scaling.steps_eq_iterate]
    rfl

/-- Of `2 ^ 63` steps only the first is taken. -/
example : scale 5e-324 Int64.minValue = 0.0 := by decide +kernel

end Calculator
