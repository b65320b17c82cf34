import Calculator.Proofs.Rounding
import Calculator.EvalError

/-!
# Calculator.Proofs.Normalization — which floats are integers

`Binary64.toRat?` is the exact value of a finite float. `normalize` makes an integer of a float exactly if this value
is an integer of 64 bits (`exactInteger?_eq_some_iff`), however the significand and the exponent are written. All other
floats stay as they are: fractions, whole numbers out of range, infinities and what is not a number.

An integer that came from a float has a significand of 53 bits, so it is not rounded when it becomes a float again
(`Binary64.ofInt64_of_toRat?`). Nothing but the sign of zero gets lost on the way (`toFloat_normalize`).
-/

namespace Calculator

/-! ## Exact values -/

namespace Dyadic

/-- The number that a dyadic number is. -/
def toRat (d : Dyadic) : ℚ :=
  let magnitude : ℚ := d.significand * 2 ^ d.exponent
  if d.negative then -magnitude else magnitude

section Shifts

variable {m k : ℕ}

theorem natCast_shiftLeft (m k : ℕ) : ((m <<< k : ℕ) : ℚ) = m * 2 ^ (k : ℤ) := by
  rw [Nat.shiftLeft_eq, zpow_natCast]
  push_cast
  rfl

theorem natCast_shiftRight (h : m % 2 ^ k = 0) : ((m >>> k : ℕ) : ℚ) = m * 2 ^ (-k : ℤ) := by
  have hdiv : m = m >>> k * 2 ^ k := by
    rw [Nat.shiftRight_eq_div_pow]
    exact (Nat.div_mul_cancel (Nat.dvd_of_mod_eq_zero h)).symm
  have hcast : (m : ℚ) = (m >>> k : ℕ) * 2 ^ k := by exact_mod_cast hdiv
  rw [hcast, zpow_neg, zpow_natCast, mul_inv_cancel_right₀ (pow_ne_zero k two_ne_zero)]

/-- Bits behind the point are a fraction. -/
theorem ne_intCast_of_mod_ne_zero (h : m % 2 ^ k ≠ 0) (n : ℤ) : (m * 2 ^ (-k : ℤ) : ℚ) ≠ n := by
  intro hn
  have hcast : (m : ℚ) = n * 2 ^ k := by
    rw [← hn, zpow_neg, zpow_natCast, inv_mul_cancel_right₀ (pow_ne_zero k two_ne_zero)]
  have hdvd : (2 ^ k : ℤ) ∣ m := ⟨n, by rw [mul_comm]; exact_mod_cast hcast⟩
  exact h (Nat.mod_eq_zero_of_dvd (by exact_mod_cast hdvd))

end Shifts

theorem toRat_of_magnitude {m a : ℕ} {e : ℤ} (h : (m * 2 ^ e : ℚ) = a) (negative : Bool) :
    (⟨negative, m, e⟩ : Dyadic).toRat = ((if negative then -(a : ℤ) else a : ℤ) : ℚ) := by
  unfold toRat
  dsimp only
  rw [h]
  cases negative <;> simp

/-- The shifts find the integer that the number is, and they find none for a fraction. -/
theorem wholeValue?_eq_some_iff {d : Dyadic} {n : ℤ} : d.wholeValue? = some n ↔ d.toRat = n := by
  obtain ⟨negative, m, k | k⟩ := d
  · have hwhole : (⟨negative, m, .ofNat k⟩ : Dyadic).wholeValue? =
        some (if negative then -((m <<< k : ℕ) : ℤ) else (m <<< k : ℕ)) := rfl
    rw [hwhole, Int.ofNat_eq_natCast, toRat_of_magnitude (natCast_shiftLeft m k).symm, Option.some_inj, Int.cast_inj]
  · have hexponent : Int.negSucc k = -((k + 1 : ℕ) : ℤ) := rfl
    have hwhole : (⟨negative, m, .negSucc k⟩ : Dyadic).wholeValue? =
        if m % 2 ^ (k + 1) = 0 then some (if negative then -((m >>> (k + 1) : ℕ) : ℤ) else (m >>> (k + 1) : ℕ))
        else none := by
      rw [← Nat.one_shiftLeft]
      rfl
    rw [hwhole, hexponent]
    by_cases hmod : m % 2 ^ (k + 1) = 0
    · rw [if_pos hmod, toRat_of_magnitude (natCast_shiftRight hmod).symm, Option.some_inj, Int.cast_inj]
    · have hne := ne_intCast_of_mod_ne_zero hmod
      rw [if_neg hmod]
      cases negative
      · simpa [toRat] using hne n
      · simpa [toRat, neg_eq_iff_eq_neg] using hne (-n)

end Dyadic

namespace Binary64

open Float.Model (UnpackedFloat)

variable {x : Float} {s : UnpackedFloat.Sign}

/-- The exact value of a finite float. -/
def toRat? (x : Float) : Option ℚ := (decode x).map Dyadic.toRat

theorem wholeValue?_eq_some_iff {n : ℤ} : wholeValue? x = some n ↔ toRat? x = some (n : ℚ) := by
  simp only [wholeValue?, toRat?, Option.bind_eq_some_iff, Option.map_eq_some_iff, Dyadic.wholeValue?_eq_some_iff]

theorem toRat?_of_unpack_zero (h : x.toModel.unpack = .zero s) : toRat? x = some 0 := by
  unfold toRat? decode
  simp [h, Dyadic.toRat]

/-- Only zeros and the finite floats beside them have a value. -/
theorem unpack_of_toRat? {p : ℚ} (h : toRat? x = some p) : (∃ s, x.toModel.unpack = .zero s ∧ p = 0) ∨
    ∃ s m e hm, x.toModel.unpack = .finite s m e hm ∧ p = (⟨s == .negative, m, e⟩ : Dyadic).toRat := by
  unfold toRat? decode at h
  cases hx : x.toModel.unpack with
  | notANumber => simp [hx] at h
  | infinity s => simp [hx] at h
  | zero s =>
    have hp : 0 = p := by simpa [hx, Dyadic.toRat] using h
    exact Or.inl ⟨s, rfl, hp.symm⟩
  | finite s m e hm =>
    rw [hx] at h
    exact Or.inr ⟨s, m, e, hm, rfl, (Option.some.inj h).symm⟩

/-! ## Widening -/

theorem eq_of_unpack_zero (h : x.toModel.unpack = .zero s) : x = if s == .negative then -0.0 else 0.0 := by
  rw [← ofModel_pack_unpack x, h]
  cases s <;> rfl

/-- An integer that is a float is rounded to that float. -/
theorem normalize_of_toRat {m : ℕ} {e n : ℤ} (hc : Canonical m e) (h : (⟨s == .negative, m, e⟩ : Dyadic).toRat = n)
    (zero : UnpackedFloat.Sign) : UnpackedFloat.normalize .binary64 n 0 zero = .finite s m e hc.pos := by
  have hm : (0 : ℚ) < m := by exact_mod_cast hc.pos
  have hpos : (0 : ℚ) < m * 2 ^ e := by positivity
  unfold UnpackedFloat.normalize
  cases s with
  | positive =>
    have hn : (n : ℚ) = m * 2 ^ e := h.symm
    have hsign : 0 < n := by exact_mod_cast hn ▸ hpos
    have habs : ((n.toNat : ℕ) : ℚ) = n := by exact_mod_cast Int.toNat_of_nonneg hsign.le
    rw [Int.compare_eq_gt.mpr hsign]
    exact round_of_canonical hc (by rw [habs, hn, zpow_zero, mul_one])
  | negative =>
    have hn : (n : ℚ) = -(m * 2 ^ e) := h.symm
    have hsign : n < 0 := by exact_mod_cast hn ▸ neg_neg_of_pos hpos
    have habs : (((-n).toNat : ℕ) : ℚ) = -n := by exact_mod_cast Int.toNat_of_nonneg (by omega : 0 ≤ -n)
    rw [Int.compare_eq_lt.mpr hsign]
    exact round_of_canonical hc (by rw [habs, hn, neg_neg, zpow_zero, mul_one])

/-- An integer that is the value of a float is widened to that float. The integer zero has no sign, and it is widened
to the zero that is not negative. -/
theorem ofInt64_of_toRat? {n : Int64} (h : toRat? x = some (n.toInt : ℚ)) :
    ofInt64 n = x ∨ x = -0.0 ∧ ofInt64 n = 0.0 := by
  rcases unpack_of_toRat? h with ⟨s, hx, hzero⟩ | ⟨s, m, e, hm, hx, hvalue⟩
  · obtain rfl : n = 0 := Int64.toInt_inj.mp (by exact_mod_cast hzero)
    rw [eq_of_unpack_zero hx]
    cases s
    · exact Or.inr ⟨rfl, by decide⟩
    · exact Or.inl (by decide)
  · left
    have hround := normalize_of_toRat (canonical_of_unpack hx) hvalue.symm .positive
    rw [← ofModel_pack_unpack x, hx, ← hround]
    rfl

/-- A float equals itself, unless it is not a number. -/
theorem beq_self_or_isNaN (x : Float) : (x == x) = true ∨ x.isNaN = true := by
  show x.toModel.unpack.beq x.toModel.unpack = true ∨ x.toModel.unpack.isNaN = true
  cases x.toModel.unpack with
  | notANumber => exact Or.inr rfl
  | infinity s => cases s <;> exact Or.inl rfl
  | zero s => cases s <;> exact Or.inl rfl
  | finite s m e hm => cases s <;> simp [UnpackedFloat.beq, UnpackedFloat.compare]

end Binary64

/-! ## Normalization -/

section Normalize

open Binary64

variable {x y : Float} {n : Int64}

theorem inRange_iff {n : ℤ} : InRange n ↔ -2 ^ 63 ≤ n ∧ n < 2 ^ 63 := by
  rw [InRange, Int64.toInt_minValue, Int64.toInt_maxValue]
  omega

theorem exactInteger?_eq_some_iff : exactInteger? x = some n ↔ toRat? x = some (n.toInt : ℚ) := by
  unfold exactInteger?
  rw [Option.bind_eq_some_iff]
  constructor
  · rintro ⟨a, ha, hn⟩
    rw [narrow?_eq_some_iff.mp hn]
    exact wholeValue?_eq_some_iff.mp ha
  · intro h
    exact ⟨n.toInt, wholeValue?_eq_some_iff.mpr h, narrow?_toInt n⟩

theorem exactInteger?_eq_none_iff : exactInteger? x = none ↔ ∀ a : ℤ, toRat? x = some (a : ℚ) → ¬ InRange a := by
  constructor
  · intro h a ha hr
    have hsome : exactInteger? x = some (Int64.ofInt a) := by
      rw [exactInteger?_eq_some_iff, narrow?_eq_some_iff.mp (if_pos hr)]
      exact ha
    rw [h] at hsome
    cases hsome
  · intro h
    cases hx : exactInteger? x with
    | none => rfl
    | some n => exact absurd (inRange_toInt n) (h n.toInt (exactInteger?_eq_some_iff.mp hx))

theorem normalize_of_some (h : exactInteger? x = some n) : normalize x = .integer n := by
  unfold normalize
  rw [h]

theorem normalize_of_none (h : exactInteger? x = none) : normalize x = .float x := by
  unfold normalize
  rw [h]

theorem normalize_eq_integer_iff : normalize x = .integer n ↔ exactInteger? x = some n := by
  cases hx : exactInteger? x with
  | none => simp [normalize_of_none hx]
  | some m => simp [normalize_of_some hx]

theorem normalize_eq_float_iff : normalize x = .float y ↔ exactInteger? x = none ∧ x = y := by
  cases hx : exactInteger? x with
  | none => simp [normalize_of_none hx]
  | some m => simp [normalize_of_some hx]

/-- Widening undoes normalization, but for the sign of zero. -/
theorem toFloat_normalize (x : Float) :
    (normalize x).toFloat = .ok x ∨ x = -0.0 ∧ (normalize x).toFloat = .ok 0.0 := by
  cases hx : exactInteger? x with
  | none =>
    rw [normalize_of_none hx]
    exact Or.inl rfl
  | some n =>
    rw [normalize_of_some hx]
    rcases ofInt64_of_toRat? (exactInteger?_eq_some_iff.mp hx) with h | ⟨hzero, h⟩
    · exact Or.inl (congrArg Except.ok h)
    · exact Or.inr ⟨hzero, congrArg Except.ok h⟩

end Normalize

end Calculator
