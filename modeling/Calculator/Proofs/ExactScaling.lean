import Calculator.Proofs.Scaling

/-!
# Calculator.Proofs.ExactScaling — integers that are scaled without rounding

An integer of at most 53 bits is a float (`exists_normal_of_le`), so neither widening nor a product whose exact value
is such an integer is rounded (`toRat?_ofInt64`, `toRat?_mul`). Scaling up multiplies by ten again and again, and all
powers on the way are smaller than the last one. So if the last one has no more than 53 bits, every step is exact
(`toRat?_steps`), and scientific notation gives the integer that it stands for (`scientific_exact`).
-/

namespace Calculator

namespace Dyadic

variable {m m' : ℕ} {e e' : ℤ}

theorem toRat_congr (h : (m * 2 ^ e : ℚ) = m' * 2 ^ e') (negative : Bool) :
    (⟨negative, m, e⟩ : Dyadic).toRat = (⟨negative, m', e'⟩ : Dyadic).toRat := by
  unfold toRat
  dsimp only
  rw [h]

theorem abs_toRat (negative : Bool) (m : ℕ) (e : ℤ) : |(⟨negative, m, e⟩ : Dyadic).toRat| = m * 2 ^ e := by
  have hpos : (0 : ℚ) ≤ m * 2 ^ e := by positivity
  cases negative with
  | false => exact abs_of_nonneg hpos
  | true => exact (abs_neg _).trans (abs_of_nonneg hpos)

/-- The sign of a product, and its magnitude. -/
theorem toRat_mul (s₁ s₂ : Float.Model.UnpackedFloat.Sign) (m₁ m₂ : ℕ) (e₁ e₂ : ℤ) :
    (⟨s₁ * s₂ == .negative, m₁ * m₂, e₁ + e₂⟩ : Dyadic).toRat =
      (⟨s₁ == .negative, m₁, e₁⟩ : Dyadic).toRat * (⟨s₂ == .negative, m₂, e₂⟩ : Dyadic).toRat := by
  have hvalue : ((m₁ * m₂ : ℕ) * 2 ^ (e₁ + e₂) : ℚ) = m₁ * 2 ^ e₁ * (m₂ * 2 ^ e₂) := by
    rw [zpow_add₀ two_ne_zero]
    push_cast
    ring
  cases s₁ with
  | positive =>
    cases s₂ with
    | positive => exact hvalue
    | negative => exact (congrArg Neg.neg hvalue).trans (mul_neg _ _).symm
  | negative =>
    cases s₂ with
    | positive => exact (congrArg Neg.neg hvalue).trans (neg_mul _ _).symm
    | negative => exact hvalue.trans (neg_mul_neg _ _).symm

end Dyadic

namespace Binary64

open Float.Model (UnpackedFloat)

/-! ## Integers of at most 53 bits -/

section Integers

variable {n m : ℕ} {e : ℤ} {s : UnpackedFloat.Sign}

theorem canonical_of_normal (hlow : leastNormal ≤ m) (hhigh : m < 2 * leastNormal) (he : leastExponent ≤ e) :
    Canonical m e where
  pos := by
    rw [leastNormal_eq] at hlow
    omega
  lt := hhigh
  leastExponent_le := he
  normal := Or.inl hlow

/-- Shifting to the left until the first bit is the 53rd. -/
theorem shift_bounds {i : ℕ} (hn : n ≠ 0) (hi : 52 = n.log2 + i) :
    leastNormal ≤ n * 2 ^ i ∧ n * 2 ^ i < 2 * leastNormal := by
  constructor
  · calc leastNormal = 2 ^ n.log2 * 2 ^ i := by rw [← pow_add, ← hi, leastNormal_eq]
      _ ≤ n * 2 ^ i := Nat.mul_le_mul_right _ (Nat.log2_self_le hn)
  · calc n * 2 ^ i < 2 ^ (n.log2 + 1) * 2 ^ i := Nat.mul_lt_mul_of_pos_right Nat.lt_log2_self (Nat.two_pow_pos i)
      _ = 2 * leastNormal := by rw [← pow_add, leastNormal_eq, ← pow_succ']; congr 1; omega

/-- The significand and the exponent of an integer of at most 53 bits, or of `2 ^ 53`. -/
theorem exists_normal_of_le (hn : 0 < n) (h : n ≤ 2 ^ 53) :
    ∃ m e, Canonical m e ∧ leastNormal ≤ m ∧ e ≤ greatestExponent ∧ (m * 2 ^ e : ℚ) = n := by
  by_cases htop : n = 2 ^ 53
  · have hlow : leastNormal ≤ 2 ^ 52 := Nat.le_refl _
    have hhigh : 2 ^ 52 < 2 * leastNormal := by
      rw [leastNormal_eq]
      omega
    refine ⟨2 ^ 52, 1, canonical_of_normal hlow hhigh (by decide), hlow, by decide, ?_⟩
    rw [htop]
    norm_num
  · have hlog : n.log2 ≤ 52 := by
      have := (Nat.log2_lt hn.ne').mpr (show n < 2 ^ 53 by omega)
      omega
    obtain ⟨i, hi⟩ := Nat.exists_eq_add_of_le hlog
    obtain ⟨hlow, hhigh⟩ := shift_bounds hn.ne' hi
    refine ⟨n * 2 ^ i, -i, canonical_of_normal hlow hhigh ?_, hlow, ?_, ?_⟩
    · rw [leastExponent]
      omega
    · rw [greatestExponent]
      omega
    · push_cast
      rw [zpow_neg, zpow_natCast, mul_inv_cancel_right₀ (pow_ne_zero i two_ne_zero)]

theorem toRat?_ofModel_pack (hc : Canonical m e) (hlow : leastNormal ≤ m) (he : e ≤ greatestExponent) :
    toRat? (.ofModel (.pack (.finite s m e hc.pos))) = some (⟨s == .negative, m, e⟩ : Dyadic).toRat := by
  have hunpack : (Float.Model.pack (.finite s m e hc.pos)).unpack = .finite s m e hc.pos :=
    unpack_pack_of_normal hc hlow he
  unfold toRat? decode
  dsimp only
  rw [hunpack]
  rfl

/-- Integers of at most 53 bits are widened without rounding. -/
theorem toRat?_ofInt64 {n : Int64} (h : |n.toInt| ≤ 2 ^ 53) : toRat? (ofInt64 n) = some (n.toInt : ℚ) := by
  by_cases hn : n = 0
  · subst hn
    exact toRat?_of_unpack_zero (s := .positive) rfl
  · have hne : n.toInt ≠ 0 := fun h0 => hn (Int64.toInt_inj.mp h0)
    rw [Int.abs_eq_natAbs] at h
    obtain ⟨m, e, hc, hlow, he, hvalue⟩ := exists_normal_of_le (n := n.toInt.natAbs) (by omega) (by omega)
    rw [Nat.cast_natAbs, Int.cast_abs] at hvalue
    obtain ⟨s, hs⟩ : ∃ s : UnpackedFloat.Sign, (⟨s == .negative, m, e⟩ : Dyadic).toRat = n.toInt := by
      rcases abs_choice (n.toInt : ℚ) with hsign | hsign
      · exact ⟨.positive, hvalue.trans hsign⟩
      · exact ⟨.negative, neg_eq_iff_eq_neg.mpr (hvalue.trans hsign)⟩
    have hround : ofInt64 n = .ofModel (.pack (.finite s m e hc.pos)) := by
      rw [← normalize_of_toRat hc hs .positive]
      rfl
    rw [hround, toRat?_ofModel_pack hc hlow he, hs]

end Integers

/-! ## Products -/

section Products

variable {x y : Float} {p q : ℚ} {a : ℤ} {m₁ m₂ : ℕ} {e₁ e₂ : ℤ}

/-- A product of significands has at least 53 bits, or is below the least exponent. -/
theorem product_starts (h₁ : Canonical m₁ e₁) (h₂ : Canonical m₂ e₂) :
    leastNormal ≤ m₁ * m₂ ∨ e₁ + e₂ ≤ leastExponent := by
  rcases h₁.normal with hm₁ | he₁
  · exact Or.inl (hm₁.trans (Nat.le_mul_of_pos_right _ h₂.pos))
  · rcases h₂.normal with hm₂ | he₂
    · exact Or.inl (hm₂.trans (Nat.le_mul_of_pos_left _ h₁.pos))
    · right
      rw [he₁, he₂, leastExponent]
      omega

theorem toRat?_zero (s : UnpackedFloat.Sign) : toRat? (.ofModel (.pack (.zero s))) = some ((0 : ℤ) : ℚ) := by
  rw [Int.cast_zero]
  exact toRat?_of_unpack_zero (s := s) (by cases s <;> rfl)

/-- A product is exact if its value is an integer of at most 53 bits. -/
theorem toRat?_mul (hx : toRat? x = some p) (hy : toRat? y = some q) (ha : p * q = a) (h : |a| ≤ 2 ^ 53) :
    toRat? (x * y) = some (a : ℚ) := by
  have hmul : x * y = .ofModel (.pack (UnpackedFloat.mul .binary64 x.toModel.unpack y.toModel.unpack)) := rfl
  rcases unpack_of_toRat? hx with ⟨s₁, hux, rfl⟩ | ⟨s₁, m₁, e₁, hm₁, hux, rfl⟩
  · obtain rfl : a = 0 := by exact_mod_cast (ha.symm.trans (zero_mul q))
    rw [hmul, hux]
    rcases unpack_of_toRat? hy with ⟨s₂, huy, -⟩ | ⟨s₂, m₂, e₂, hm₂, huy, -⟩
    · rw [huy]
      exact toRat?_zero _
    · rw [huy]
      exact toRat?_zero _
  · rcases unpack_of_toRat? hy with ⟨s₂, huy, rfl⟩ | ⟨s₂, m₂, e₂, hm₂, huy, rfl⟩
    · obtain rfl : a = 0 := by exact_mod_cast (ha.symm.trans (mul_zero _))
      rw [hmul, hux, huy]
      exact toRat?_zero _
    · have hc₁ := canonical_of_unpack hux
      have hc₂ := canonical_of_unpack huy
      rw [← Dyadic.toRat_mul] at ha
      have habs : ((m₁ * m₂ : ℕ) * 2 ^ (e₁ + e₂) : ℚ) = (a.natAbs : ℕ) := by
        rw [← Dyadic.abs_toRat (s₁ * s₂ == .negative), ha, Nat.cast_natAbs, Int.cast_abs]
      have hpos : 0 < a.natAbs := by
        have hproduct : (0 : ℚ) < (m₁ * m₂ : ℕ) * 2 ^ (e₁ + e₂) := by
          have : 0 < m₁ * m₂ := Nat.mul_pos hm₁ hm₂
          positivity
        rw [habs] at hproduct
        exact_mod_cast hproduct
      rw [Int.abs_eq_natAbs] at h
      obtain ⟨m, e, hc, hlow, he, hvalue⟩ := exists_normal_of_le hpos (by omega)
      have hround : UnpackedFloat.mul .binary64 x.toModel.unpack y.toModel.unpack = .finite (s₁ * s₂) m e hc.pos := by
        rw [hux, huy]
        exact roundWithAccuracy_of_canonical hc (habs.trans hvalue.symm) (product_starts hc₁ hc₂)
      rw [hmul, hround, toRat?_ofModel_pack hc hlow he, Dyadic.toRat_congr (hvalue.trans habs.symm), ha]

end Products

end Binary64

/-! ## Steps -/

namespace Scaling

open Binary64

variable {x : Float} {p : ℚ} {a : ℤ} {count : ℕ}

/-- Of the finite floats only the zeros are settled. -/
theorem eq_zero_of_isSettled (hx : toRat? x = some p) (h : isSettled x = true) : p = 0 := by
  rcases unpack_of_toRat? hx with ⟨s, -, hp⟩ | ⟨s, m, e, hm, hu, -⟩
  · exact hp
  · rw [isSettled_iff, hu] at h
    simp at h

/-- No power on the way is greater than the last one. -/
theorem abs_le_of_mul_pow_le (h : |a| * 10 ^ count ≤ 2 ^ 53) : |a| ≤ 2 ^ 53 :=
  le_trans (le_mul_of_one_le_right (abs_nonneg a) (one_le_pow₀ (by norm_num))) h

/-- Every step multiplies by ten without rounding, if the last power has at most 53 bits. -/
theorem toRat?_steps (hx : toRat? x = some (a : ℚ)) (h : |a| * 10 ^ count ≤ 2 ^ 53) :
    toRat? (steps true count x) = some ((a * 10 ^ count : ℤ) : ℚ) := by
  induction count generalizing x a with
  | zero => rw [steps, pow_zero, mul_one, hx]
  | succ count ih =>
    by_cases hs : isSettled x = true
    · have ha : a = 0 := by exact_mod_cast eq_zero_of_isSettled hx hs
      rw [steps_of_isSettled hs, hx, ha, zero_mul]
    · have hten : toRat? 10.0 = some 10 := by
        have hdecode : decode 10.0 = some ⟨false, 5 * 2 ^ 50, -49⟩ := by decide +kernel
        rw [toRat?, hdecode]
        norm_num [Dyadic.toRat]
      have hlast : |a * 10| * 10 ^ count ≤ 2 ^ 53 := by
        rw [abs_mul, mul_assoc]
        rw [pow_succ'] at h
        exact h
      have hstep : toRat? (step true x) = some ((a * 10 : ℤ) : ℚ) :=
        toRat?_mul hx hten (by push_cast; ring) (abs_le_of_mul_pow_le hlast)
      rw [steps, if_neg hs, ih hstep hlast, pow_succ', mul_assoc]

end Scaling

/-! ## Main result -/

open Evaluation Binary64

/-- **Exact scaling.** Scientific notation with an integer mantissa and an exponent that is not negative gives the
integer that it stands for, if that is at most `2 ^ 53`, and with a zero mantissa it gives zero whatever the exponent
is. -/
theorem scientific_exact (m k : Int64) :
    (0 ≤ k.toInt → |m.toInt| * 10 ^ k.toInt.toNat ≤ 2 ^ 53 →
        ∃ n : Int64, n.toInt = m.toInt * 10 ^ k.toInt.toNat ∧ scientific (.integer m) (.integer k) = .ok (.integer n)) ∧
      scientific (.integer 0) (.integer k) = .ok (.integer 0) := by
  constructor
  · intro hk h
    have hm := toRat?_ofInt64 (Scaling.abs_le_of_mul_pow_le h)
    have hcount : k.toInt.natAbs = k.toInt.toNat := by omega
    have hrange : InRange (m.toInt * 10 ^ k.toInt.toNat) := by
      rw [inRange_iff]
      have habs : |m.toInt * 10 ^ k.toInt.toNat| ≤ 2 ^ 53 := by
        rw [abs_mul, abs_pow]
        exact h
      rw [abs_le] at habs
      omega
    have hn := toInt_ofInt_of_inRange hrange
    refine ⟨Int64.ofInt (m.toInt * 10 ^ k.toInt.toNat), hn, ?_⟩
    rw [scientific_of_toFloat rfl, scale_of_nonneg hk, hcount, normalize_of_some]
    rw [exactInteger?_eq_some_iff, hn]
    exact Scaling.toRat?_steps hm h
  · have hzero : ofInt64 0 = 0.0 := by decide
    rw [scientific_of_toFloat rfl, hzero, scale, Scaling.steps_of_isSettled (by decide)]
    decide

/-- `-9E15` is the integer, and a zero is scaled down to a zero. -/
theorem scientific_exact_of_quadrillions :
    0 ≤ (15 : Int64).toInt ∧ |(-9 : Int64).toInt| * 10 ^ (15 : Int64).toInt.toNat ≤ 2 ^ 53 ∧
      scientific (.integer (-9)) (.integer 15) = .ok (.integer (-9000000000000000)) ∧
      scientific (.integer 0) (.integer Int64.minValue) = .ok (.integer 0) := by
  have hnonneg : 0 ≤ (15 : Int64).toInt := by decide
  have hbound : |(-9 : Int64).toInt| * 10 ^ (15 : Int64).toInt.toNat ≤ 2 ^ 53 := by decide
  obtain ⟨n, hn, hvalue⟩ := (scientific_exact (-9) 15).1 hnonneg hbound
  obtain rfl : n = -9000000000000000 := Int64.toInt_inj.mp (hn.trans (by decide))
  exact ⟨hnonneg, hbound, hvalue, (scientific_exact 0 Int64.minValue).2⟩

end Calculator
