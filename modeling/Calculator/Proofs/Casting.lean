import Calculator.Proofs.Normalization

/-!
# Calculator.Proofs.Casting — the cast behind the integers

A float is cast to an integer by cutting its fraction off, and what is out of range then becomes the least or the
greatest integer of 64 bits. `exactInteger?` is this cast behind guards, for a finite float without a fraction that is
not below `-2 ^ 63` and is below `2 ^ 63` (`exactInteger?_eq_cast`). The bounds are compared as floats. Significands of
53 bits are ordered by their exponents first, so such a comparison is one of exact values (`lt_iff_toRat_lt`).

The module ends with the main result on normalization: which floats become integers, what is lost, and the cast that
does it.
-/

namespace Calculator

namespace Binary64

open Float.Model (UnpackedFloat)
open Float.Model.UnpackedFloat (ExtendedMantissa)

/-! ## Comparison -/

section Comparison

variable {m m' : ℕ} {e e' : ℤ} {x y : Float} {p q : ℚ}

theorem Canonical.lt_of_exponent_lt (h : Canonical m e) (h' : Canonical m' e') (he : e < e') :
    (m * 2 ^ e : ℚ) < m' * 2 ^ e' := by
  have hle := h.leastExponent_le
  have hm' : leastNormal ≤ m' := h'.normal.resolve_right (by omega)
  have hlow : (m : ℚ) < 2 * leastNormal := by exact_mod_cast h.lt
  have hhigh : (leastNormal : ℚ) ≤ m' := by exact_mod_cast hm'
  calc (m * 2 ^ e : ℚ) < 2 * leastNormal * 2 ^ e := by gcongr
    _ = leastNormal * 2 ^ (e + 1) := by rw [zpow_add_one₀ two_ne_zero]; ring
    _ ≤ m' * 2 ^ e' := by
      gcongr
      · norm_num
      · omega

/-- The order of exponents and then of significands is the order of the numbers. -/
theorem Canonical.compare_eq (h : Canonical m e) (h' : Canonical m' e') :
    (compare e e').then (compare m m') = compare (m * 2 ^ e : ℚ) (m' * 2 ^ e') := by
  rcases lt_trichotomy e e' with he | rfl | he
  · rw [compare_lt_iff_lt.mpr he, compare_lt_iff_lt.mpr (h.lt_of_exponent_lt h' he)]
    rfl
  · have hmono : StrictMono fun n : ℕ => (n * 2 ^ e : ℚ) := fun a b hab => by
      dsimp only
      gcongr
    rw [compare_eq_iff_eq.mpr (rfl : e = e), ← cmp_eq_compare, ← cmp_eq_compare]
    exact (hmono.cmp_map_eq m m').symm
  · rw [compare_gt_iff_gt.mpr he, compare_gt_iff_gt.mpr (h'.lt_of_exponent_lt h he)]
    rfl

theorem compare_neg_neg (p q : ℚ) : compare (-p) (-q) = (compare p q).swap := by
  have hanti : StrictAnti fun r : ℚ => -r := fun a b hab => neg_lt_neg hab
  rw [← cmp_eq_compare, ← cmp_eq_compare, cmp_swap]
  exact hanti.cmp_map_eq p q

/-- Floats are compared by their exact values. -/
theorem compare_eq (hx : toRat? x = some p) (hy : toRat? y = some q) :
    x.toModel.unpack.compare y.toModel.unpack = some (compare p q) := by
  have hpos {m : ℕ} (hm : 0 < m) (e : ℤ) : (0 : ℚ) < m * 2 ^ e := by positivity
  rcases unpack_of_toRat? hx with ⟨s, hux, rfl⟩ | ⟨s, m, e, hm, hux, rfl⟩
  · rcases unpack_of_toRat? hy with ⟨s', huy, rfl⟩ | ⟨s', m', e', hm', huy, rfl⟩
    · rw [hux, huy]
      rfl
    · rw [hux, huy]
      cases s' with
      | positive => exact congrArg some (compare_lt_iff_lt.mpr (hpos hm' e')).symm
      | negative => exact congrArg some (compare_gt_iff_gt.mpr (neg_neg_of_pos (hpos hm' e'))).symm
  · rcases unpack_of_toRat? hy with ⟨s', huy, rfl⟩ | ⟨s', m', e', hm', huy, rfl⟩
    · rw [hux, huy]
      cases s with
      | positive => exact congrArg some (compare_gt_iff_gt.mpr (hpos hm e)).symm
      | negative => exact congrArg some (compare_lt_iff_lt.mpr (neg_neg_of_pos (hpos hm e))).symm
    · have horder := (canonical_of_unpack hux).compare_eq (canonical_of_unpack huy)
      have hneg := neg_neg_of_pos (hpos hm e)
      have hneg' := neg_neg_of_pos (hpos hm' e')
      rw [hux, huy]
      -- negative floats are in the opposite order of their magnitudes
      cases s with
      | positive =>
        cases s' with
        | positive => exact congrArg some horder
        | negative => exact congrArg some (compare_gt_iff_gt.mpr (hneg'.trans (hpos hm e))).symm
      | negative =>
        cases s' with
        | positive => exact congrArg some (compare_lt_iff_lt.mpr (hneg.trans (hpos hm' e'))).symm
        | negative =>
          show some ((compare e e').then (compare m m')).swap = some (compare (-(m * 2 ^ e : ℚ)) (-(m' * 2 ^ e')))
          rw [horder, compare_neg_neg]

/-- A float is less than another if its exact value is. -/
theorem lt_iff_toRat_lt (hx : toRat? x = some p) (hy : toRat? y = some q) : x < y ↔ p < q := by
  have hlt : x < y ↔ x.toModel.unpack.compare y.toModel.unpack = some .lt := by
    show decide (x.toModel < y.toModel) = true ↔ _
    rw [decide_eq_true_iff]
    exact beq_iff_eq
  rw [hlt, compare_eq hx hy, Option.some_inj, compare_lt_iff_lt]

end Comparison

/-! ## Truncation -/

section Truncation

theorem mantissa_shiftRight (em : ExtendedMantissa) (n : ℕ) : (em >>> n).mantissa = em.mantissa >>> n := by
  induction n with
  | zero => rfl
  | succ n ih =>
    rw [Nat.shiftRight_succ, ← ih]
    rfl

/-- Truncation shifts to the exponent zero. -/
theorem roundToInt_eq (s : UnpackedFloat.Sign) (m : ℕ) (e : ℤ) :
    UnpackedFloat.roundToInt s m e = s.apply (m <<< e.toNat >>> (-e).toNat : ℕ) := by
  unfold UnpackedFloat.roundToInt UnpackedFloat.decreaseExponent UnpackedFloat.shiftToExponent
  have hleft : (e - 0).toNat = e.toNat := by omega
  have hright : (0 - (e - (e.toNat : ℤ))).toNat = (-e).toNat := by omega
  dsimp only
  rw [mantissa_shiftRight, hleft, hright]
  rfl

/-- A whole number has no fraction to cut off. -/
theorem roundToInt_of_wholeValue? {s : UnpackedFloat.Sign} {m : ℕ} {e a : ℤ}
    (h : (⟨s == .negative, m, e⟩ : Dyadic).wholeValue? = some a) : UnpackedFloat.roundToInt s m e = a := by
  rw [roundToInt_eq]
  cases e with
  | ofNat k =>
    have hk : (-Int.ofNat k).toNat = 0 := Int.toNat_of_nonpos (neg_nonpos.mpr k.cast_nonneg)
    rw [hk]
    cases s <;> exact Option.some.inj h
  | negSucc k =>
    rw [Dyadic.wholeValue?, Option.ite_none_right_eq_some] at h
    obtain ⟨-, h⟩ := h
    cases s <;> exact Option.some.inj h

/-- The cast is exact for an integer in range. -/
theorem toInt64_of_toRat? {x : Float} {n : Int64} (h : toRat? x = some (n.toInt : ℚ)) : x.toModel.toInt64 = n := by
  have hrange := inRange_toInt n
  have htrunc : UnpackedFloat.toInt Int64.minValue.toInt Int64.maxValue.toInt x.toModel.unpack = n.toInt := by
    rcases unpack_of_toRat? h with ⟨s, hx, hzero⟩ | ⟨s, m, e, hm, hx, hvalue⟩
    · rw [hx]
      exact_mod_cast hzero.symm
    · rw [hx]
      exact roundToInt_of_wholeValue? (Dyadic.wholeValue?_eq_some_iff.mpr hvalue.symm)
  rw [Float.Model.toInt64, UnpackedFloat.toInt64, htrunc]
  exact Int64.toInt_inj.mp (Int64.toInt_ofIntClamp hrange.1 hrange.2)

end Truncation

end Binary64

open Binary64

/-! ## The cast behind its guards -/

section Guards

variable {x : Float}

/-- The part of a number behind the point, with the sign of the number. -/
def fractionalPart (p : ℚ) : ℚ := p - (p.num.tdiv p.den : ℤ)

theorem fractionalPart_eq_zero_iff {p : ℚ} : fractionalPart p = 0 ↔ ∃ a : ℤ, p = a := by
  constructor
  · intro h
    exact ⟨p.num.tdiv p.den, sub_eq_zero.mp h⟩
  · rintro ⟨a, rfl⟩
    simp [fractionalPart]

theorem isFinite_of_toRat? {p : ℚ} (h : toRat? x = some p) : x.isFinite := by
  show x.toModel.unpack.isFinite = true
  rcases unpack_of_toRat? h with ⟨s, hx, -⟩ | ⟨s, m, e, hm, hx, -⟩ <;> rw [hx] <;> rfl

/-- The whole floats are those that are finite and have no fraction. -/
theorem isSome_wholeValue?_iff :
    (wholeValue? x).isSome ↔ x.isFinite ∧ (toRat? x).map fractionalPart = some 0 := by
  rw [Option.isSome_iff_exists]
  simp only [wholeValue?_eq_some_iff, Option.map_eq_some_iff, fractionalPart_eq_zero_iff]
  constructor
  · rintro ⟨a, ha⟩
    exact ⟨isFinite_of_toRat? ha, a, ha, a, rfl⟩
  · rintro ⟨-, p, hp, a, rfl⟩
    exact ⟨a, hp⟩

/-- Behind its guards the cast gives the integer that the float is. -/
theorem exactInteger?_eq_cast (x : Float) : exactInteger? x =
    if (x.isFinite ∧ (toRat? x).map fractionalPart = some 0) ∧
      ¬ x < -9223372036854775808.0 ∧ x < 9223372036854775808.0 then some x.toModel.toInt64
    else none := by
  have hlow : toRat? (-9223372036854775808.0) = some (-2 ^ 63) := by
    have hdecode : decode (-9223372036854775808.0) = some ⟨true, 2 ^ 52, 11⟩ := by decide +kernel
    rw [toRat?, hdecode]
    norm_num [Dyadic.toRat]
  have hhigh : toRat? 9223372036854775808.0 = some (2 ^ 63) := by
    have hdecode : decode 9223372036854775808.0 = some ⟨false, 2 ^ 52, 11⟩ := by decide +kernel
    rw [toRat?, hdecode]
    norm_num [Dyadic.toRat]
  cases ha : wholeValue? x with
  | none =>
    have hwhole : ¬ (x.isFinite ∧ (toRat? x).map fractionalPart = some 0) := fun h => by
      rw [← isSome_wholeValue?_iff, ha] at h
      cases h
    rw [if_neg fun h => hwhole h.1, exactInteger?, ha]
    rfl
  | some a =>
    have hwhole := isSome_wholeValue?_iff.mp (Option.isSome_of_eq_some ha)
    have hx := wholeValue?_eq_some_iff.mp ha
    have hguard : (¬ x < -9223372036854775808.0 ∧ x < 9223372036854775808.0) ↔ InRange a := by
      rw [lt_iff_toRat_lt hx hlow, lt_iff_toRat_lt hx hhigh, inRange_iff, not_lt]
      norm_cast
    have hnarrow : exactInteger? x = narrow? a := by rw [exactInteger?, ha, Option.bind_some]
    rw [hnarrow]
    by_cases hr : InRange a
    · have hn : (Int64.ofInt a).toInt = a := narrow?_eq_some_iff.mp (if_pos hr)
      rw [if_pos ⟨hwhole, hguard.mpr hr⟩, toInt64_of_toRat? (hn.symm ▸ hx)]
      exact if_pos hr
    · rw [if_neg (fun h => hr (hguard.mp h.2))]
      exact narrow?_eq_none_iff.mpr hr

end Guards

/-! ## Main result -/

/-- **Normalization.** A float becomes an integer exactly if its exact value is that integer and in range; otherwise it
stays as it is. Made a float again it equals what it was, or is not a number as before, and only a negative zero comes
back as another float. The integer is found by the cast, behind guards for a finite float without a fraction that is not
below `-2 ^ 63` and is below `2 ^ 63`. -/
theorem normalize_lossless (x : Float) :
    (∀ a : ℤ, (∃ n : Int64, n.toInt = a ∧ normalize x = .integer n) ↔
        toRat? x = some (a : ℚ) ∧ -2 ^ 63 ≤ a ∧ a < 2 ^ 63) ∧
      (normalize x = .float x ↔ ¬ ∃ a : ℤ, toRat? x = some (a : ℚ) ∧ -2 ^ 63 ≤ a ∧ a < 2 ^ 63) ∧
      (∃ y, (normalize x).toFloat = .ok y ∧ toRat? y = toRat? x ∧ ((y == x) = true ∨ y.isNaN ∧ x.isNaN) ∧
        (y = x ∨ x = -0.0 ∧ y = 0.0)) ∧
      exactInteger? x =
        if (x.isFinite ∧ (toRat? x).map fractionalPart = some 0) ∧
          ¬ x < -9223372036854775808.0 ∧ x < 9223372036854775808.0 then some x.toModel.toInt64
        else none := by
  refine ⟨?_, ?_, ?_, exactInteger?_eq_cast x⟩
  · intro a
    rw [← inRange_iff]
    constructor
    · rintro ⟨n, rfl, hn⟩
      exact ⟨exactInteger?_eq_some_iff.mp (normalize_eq_integer_iff.mp hn), inRange_toInt n⟩
    · rintro ⟨ha, hr⟩
      have hn : (Int64.ofInt a).toInt = a := narrow?_eq_some_iff.mp (if_pos hr)
      refine ⟨Int64.ofInt a, hn, normalize_of_some ?_⟩
      rw [exactInteger?_eq_some_iff, hn]
      exact ha
  · simp only [normalize_eq_float_iff, and_true, exactInteger?_eq_none_iff, ← inRange_iff]
    push Not
    rfl
  · rcases toFloat_normalize x with h | ⟨rfl, h⟩
    · refine ⟨x, h, rfl, ?_, Or.inl rfl⟩
      exact (beq_self_or_isNaN x).imp_right fun hnan => ⟨hnan, hnan⟩
    · have hvalue : toRat? 0.0 = toRat? (-0.0) :=
        (toRat?_of_unpack_zero (s := .positive) rfl).trans (toRat?_of_unpack_zero (s := .negative) rfl).symm
      exact ⟨0.0, h, hvalue, Or.inl (by decide), Or.inr ⟨rfl, rfl⟩⟩

end Calculator
