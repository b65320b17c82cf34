/-!
# Calculator.Integer — the range of 64-bit integers

Integers are computed without bounds and then brought back to 64 bits by `narrow?`, which gives the integer of
the same value or none: nothing ever wraps (`narrow?_eq_some_iff`, `narrow?_eq_none_iff`).
-/

namespace Calculator

/-- Whether an integer is in the range of 64-bit integers. -/
def InRange (n : Int) : Prop := Int64.minValue.toInt ≤ n ∧ n ≤ Int64.maxValue.toInt

instance (n : Int) : Decidable (InRange n) := inferInstanceAs (Decidable (_ ∧ _))

/-- The 64-bit integer of the given value, if it is in range. -/
def narrow? (n : Int) : Option Int64 := if InRange n then some (Int64.ofInt n) else none

theorem inRange_toInt (m : Int64) : InRange m.toInt := ⟨m.minValue_le_toInt, m.toInt_le⟩

theorem narrow?_toInt (m : Int64) : narrow? m.toInt = some m := by
  unfold narrow?
  rw [if_pos (inRange_toInt m), Int64.ofInt_toInt]

/-- What is narrowed keeps its value. -/
theorem narrow?_eq_some_iff {n : Int} {m : Int64} : narrow? n = some m ↔ m.toInt = n := by
  constructor
  · intro h
    unfold narrow? at h
    split at h
    · next hn =>
      obtain rfl := Option.some.inj h
      rw [InRange, Int64.toInt_minValue, Int64.toInt_maxValue] at hn
      exact Int64.toInt_ofInt_of_le hn.1 (Int.lt_of_le_sub_one hn.2)
    · simp at h
  · intro h
    rw [← h, narrow?_toInt]

theorem narrow?_eq_none_iff {n : Int} : narrow? n = none ↔ ¬ InRange n := by
  unfold narrow?
  split <;> simp_all

end Calculator
