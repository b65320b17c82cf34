import Calculator.Proofs.Encoding

/-!
# Calculator.Proofs.Rounding — rounding to floats

A float is rounded from a significand that is longer than it has to be, with two bits for what is beyond its last
digit. `Extends` says for which number such a significand stands. A shift to the right keeps this relation, so the
rounded significand is the integer that is `Nearest` to the number, at the exponent where it has 53 bits
(`roundWithAccuracy_of_nearest`). A decimal number is rounded from a quotient of two integers that is long enough for
this (`ofScientific_eq_roundWithAccuracy`).
-/

namespace Calculator
namespace Binary64

open Float.Model hiding unpack pack ofScientific
open Float.Model.UnpackedFloat

/-! ## Nearest integers -/

section Nearest

variable {x : ℚ} {r r' : ℕ}

/-- The natural number `r` is nearest to `x`; of two that are equally near it is the even one. -/
structure Nearest (x : ℚ) (r : ℕ) : Prop where
  le : r - 1 / 2 ≤ x
  ge : x ≤ r + 1 / 2
  even : x = r - 1 / 2 ∨ x = r + 1 / 2 → Even r

theorem Nearest.of_lt (hl : r - 1 / 2 < x) (hh : x < r + 1 / 2) : Nearest x r where
  le := hl.le
  ge := hh.le
  even := by
    rintro (h | h)
    · exact absurd h hl.ne'
    · exact absurd h hh.ne

theorem Nearest.unique (h : Nearest x r) (h' : Nearest x r') : r = r' := by
  wlog hlt : r < r' generalizing r r'
  · by_contra hne
    exact hne (this h' h (by omega)).symm
  have hle : (r : ℚ) + 1 ≤ r' := by exact_mod_cast hlt
  have hlow := h'.le
  have hhigh := h.ge
  have hr' : r' = r + 1 := by
    have hcast : (r' : ℚ) = r + 1 := by linarith
    exact_mod_cast hcast
  have heven := h.even (Or.inr (by linarith))
  have heven' := h'.even (Or.inl (by linarith))
  rw [hr'] at heven'
  exact absurd heven (Nat.even_add_one.mp heven')

end Nearest

/-! ## Parts of a unit -/

section Locates

variable {d x : ℚ} {m : ℕ} {a : Accuracy} {em : ExtendedMantissa}

/-- The part `d` of a unit, as far as an accuracy tells it. -/
inductive Locates (d : ℚ) : Accuracy → Prop where
  | whole : d = 0 → Locates d .exact
  | below : 0 < d → d < 1 / 2 → Locates d (.inexact .lt)
  | half : d = 1 / 2 → Locates d (.inexact .eq)
  | above : 1 / 2 < d → d < 1 → Locates d (.inexact .gt)

theorem Locates.bounds (h : Locates d a) : 0 ≤ d ∧ d < 1 := by
  cases h <;> constructor <;> linarith

theorem Locates.nearest (h : Locates (x - m) a) : Nearest x (a.roundToNearestEven m) := by
  cases h with
  | whole h =>
    show Nearest x m
    exact .of_lt (by linarith) (by linarith)
  | below hpos hlt =>
    show Nearest x m
    exact .of_lt (by linarith) (by linarith)
  | half h =>
    show Nearest x (m + m % 2)
    rcases Nat.mod_two_eq_zero_or_one m with hm | hm <;> rw [hm]
    · exact ⟨by push_cast; linarith, by push_cast; linarith, fun _ => Nat.even_iff.mpr hm⟩
    · exact ⟨by push_cast; linarith, by push_cast; linarith, fun _ => Nat.even_iff.mpr (by omega)⟩
  | above hlt hlt' =>
    show Nearest x (m + 1)
    exact .of_lt (by push_cast; linarith) (by push_cast; linarith)

theorem exists_locates (hx : 0 ≤ x) : ∃ (q : ℕ) (a : Accuracy), Locates (x - q) a := by
  have hle := Nat.floor_le hx
  have hlt := Nat.lt_floor_add_one x
  refine ⟨⌊x⌋₊, ?_⟩
  by_cases hwhole : x - ⌊x⌋₊ = 0
  · exact ⟨_, .whole hwhole⟩
  · have hpos : 0 < x - ⌊x⌋₊ := lt_of_le_of_ne (by linarith) (Ne.symm hwhole)
    rcases lt_trichotomy (x - ⌊x⌋₊) (1 / 2) with h | h | h
    · exact ⟨_, .below hpos h⟩
    · exact ⟨_, .half h⟩
    · exact ⟨_, .above h (by linarith)⟩

theorem locates_accuracyOfFraction {n den : ℕ} (h : n < den) : Locates (n / den) (accuracyOfFraction n den) := by
  have hden : (0 : ℚ) < den := by exact_mod_cast Nat.zero_lt_of_lt h
  unfold accuracyOfFraction
  split
  · next hn => exact .whole (by simp [hn])
  · next hn =>
    have hpos : (0 : ℚ) < n := by exact_mod_cast Nat.pos_of_ne_zero hn
    rcases lt_trichotomy (2 * n) den with hlt | heq | hgt
    · rw [Nat.compare_eq_lt.mpr hlt]
      refine .below (by positivity) ?_
      rw [div_lt_div_iff₀ hden two_pos]
      exact_mod_cast (by omega : n * 2 < 1 * den)
    · rw [Nat.compare_eq_eq.mpr heq]
      refine .half ?_
      rw [div_eq_div_iff hden.ne' two_ne_zero]
      exact_mod_cast (by omega : n * 2 = 1 * den)
    · rw [Nat.compare_eq_gt.mpr hgt]
      refine .above ?_ ?_
      · rw [div_lt_div_iff₀ two_pos hden]
        exact_mod_cast (by omega : 1 * den < n * 2)
      · rw [div_lt_one hden]
        exact_mod_cast h

/-- The extended significand `em` stands for `x`. -/
def Extends (em : ExtendedMantissa) (x : ℚ) : Prop := Locates (x - em.mantissa) em.accuracy

theorem extends_ofMantissaAndAccuracy (h : Locates (x - m) a) : Extends (.ofMantissaAndAccuracy m a) x := by
  cases h with
  | whole h => exact .whole h
  | below hpos hlt => exact .below hpos hlt
  | half h => exact .half h
  | above hlt hlt' => exact .above hlt hlt'

/-- The two bits tell whether anything was cut off. -/
theorem Extends.cases_bits (h : Extends em x) :
    ((em.roundBit || em.stickyBit) = false ∧ x = em.mantissa) ∨
      ((em.roundBit || em.stickyBit) = true ∧ em.mantissa < x ∧ x < em.mantissa + 1) := by
  obtain ⟨m, round, sticky⟩ := em
  cases round <;> cases sticky <;> cases h
  · exact Or.inl ⟨rfl, by linarith⟩
  all_goals exact Or.inr ⟨rfl, by linarith, by linarith⟩

theorem Extends.shiftRightOne (h : Extends em x) : Extends em.shiftRightOne (x / 2) := by
  have hdiv := Nat.div_add_mod em.mantissa 2
  unfold Extends ExtendedMantissa.shiftRightOne
  rcases Nat.mod_two_eq_zero_or_one em.mantissa with hm | hm
  · have hm' : (em.mantissa : ℚ) = 2 * (em.mantissa / 2 : ℕ) := by exact_mod_cast (by omega)
    rcases h.cases_bits with ⟨hbits, hx⟩ | ⟨hbits, hlt, hlt'⟩
    · rw [hm, hbits]
      exact .whole (by simp only; linarith)
    · rw [hm, hbits]
      exact .below (by simp only; linarith) (by simp only; linarith)
  · have hm' : (em.mantissa : ℚ) = 2 * (em.mantissa / 2 : ℕ) + 1 := by exact_mod_cast (by omega)
    rcases h.cases_bits with ⟨hbits, hx⟩ | ⟨hbits, hlt, hlt'⟩
    · rw [hm, hbits]
      exact .half (by simp only; linarith)
    · rw [hm, hbits]
      exact .above (by simp only; linarith) (by simp only; linarith)

theorem Extends.shiftRight (h : Extends em x) (n : ℕ) : Extends (em >>> n) (x / 2 ^ n) := by
  induction n with
  | zero => simpa [HShiftRight.hShiftRight, Nat.repeat] using h
  | succ n ih =>
    rw [pow_succ, ← div_div]
    exact ih.shiftRightOne

end Locates

/-! ## Rounding to floats -/

section Target

variable {v : ℚ} {q m r : ℕ} {t e T : ℤ} {a : Accuracy}

theorem targetExponent_eq_max (te : ℤ) : Format.binary64.targetExponent te = max (te - 53) leastExponent := rfl

/-- The number `v` is rounded at the exponent `T` if there it has 53 bits before the point, or at the least exponent
if it has fewer. The significand `q` that is cut off at the exponent `t` tells which case it is, if it has 53 bits
itself. -/
theorem targetExponent_eq (hq : q ≤ v / 2 ^ t) (hq' : v / 2 ^ t < q + 1) (hstart : leastNormal ≤ q ∨ t ≤ leastExponent)
    (hT : leastExponent ≤ T) (hlow : (leastNormal : ℚ) ≤ v / 2 ^ T ∨ T = leastExponent)
    (hhigh : v / 2 ^ T < 2 * leastNormal) :
    t ≤ T ∧ Format.binary64.targetExponent (totalExponent q t) = T := by
  have hle : t ≤ T := by
    rcases hstart with hstart | hstart
    · by_contra! hlt
      have hstart' : (leastNormal : ℚ) ≤ v / 2 ^ t := le_trans (by exact_mod_cast hstart) hq
      have hpow : (2 : ℚ) ^ T * 2 ≤ 2 ^ t := by
        rw [← zpow_add_one₀ two_ne_zero]
        exact zpow_le_zpow_right₀ one_le_two hlt
      rw [le_div_iff₀ (by positivity)] at hstart'
      rw [div_lt_iff₀ (by positivity)] at hhigh
      have hnormal : (0 : ℚ) ≤ leastNormal := by positivity
      nlinarith
    · omega
  refine ⟨hle, ?_⟩
  -- `q` has the 53 bits of the significand and `n` more, or fewer at the least exponent.
  obtain ⟨n, rfl⟩ := Int.le.dest hle
  have hv : v / 2 ^ t = v / 2 ^ (t + n) * 2 ^ n := by
    rw [zpow_add₀ two_ne_zero, zpow_natCast]
    field_simp
  have hupper : q < 2 ^ (53 + n) := by
    have hcast : (q : ℚ) < 2 ^ (53 + n) := by
      calc (q : ℚ) ≤ v / 2 ^ (t + n) * 2 ^ n := hv ▸ hq
        _ < (2 * leastNormal) * 2 ^ n := by gcongr
        _ = 2 ^ (53 + n) := by rw [pow_add]; norm_num [leastNormal_eq]
    exact_mod_cast hcast
  have hlower : t + n = leastExponent ∨ 2 ^ (52 + n) ≤ q := by
    refine hlow.symm.imp_right fun hlow => Nat.lt_succ_iff.mp ?_
    have hcast : (2 : ℚ) ^ (52 + n) < q + 1 := by
      calc (2 : ℚ) ^ (52 + n) = leastNormal * 2 ^ n := by rw [pow_add]; norm_num [leastNormal_eq]
        _ ≤ v / 2 ^ (t + n) * 2 ^ n := by gcongr
        _ < q + 1 := hv ▸ hq'
    exact_mod_cast hcast
  have hlog : q.log2 ≤ 52 + n := by
    rcases Nat.eq_zero_or_pos q with rfl | hpos
    · simp
    · have := (Nat.log2_lt hpos.ne').mpr hupper
      omega
  have hlog' : t + n = leastExponent ∨ 52 + n ≤ q.log2 := by
    refine hlower.imp_right fun hlower => (Nat.le_log2 ?_).mpr hlower
    have := Nat.two_pow_pos (52 + n)
    omega
  rw [targetExponent_eq_max, totalExponent]
  omega

theorem shiftToTargetExponent_eq {n : ℕ} (h : (Format.binary64.targetExponent (totalExponent q t) - t).toNat = n) :
    shiftToTargetExponent .binary64 q t a = (ExtendedMantissa.ofMantissaAndAccuracy q a >>> n, t + n) := by
  subst h
  rfl

theorem shiftToTargetExponent_of_lt (hr : r < 2 * leastNormal) (he : leastExponent ≤ e) :
    shiftToTargetExponent .binary64 r e .exact = (⟨r, false, false⟩, e) := by
  have hlog : r.log2 ≤ 52 := by
    rcases Nat.eq_zero_or_pos r with rfl | hpos
    · simp
    · exact Nat.le_of_lt_succ ((Nat.log2_lt hpos.ne').mpr hr)
  have htarget : (Format.binary64.targetExponent (totalExponent r e) - e).toNat = 0 := by
    rw [targetExponent_eq_max, totalExponent]
    omega
  rw [shiftToTargetExponent_eq htarget]
  simp only [Nat.cast_zero, add_zero]
  rfl

theorem shiftToTargetExponent_carry (he : leastExponent ≤ e) :
    shiftToTargetExponent .binary64 (2 * leastNormal) e .exact = (⟨leastNormal, false, false⟩, e + 1) := by
  have htarget : (Format.binary64.targetExponent (totalExponent (2 * leastNormal) e) - e).toNat = 1 := by
    have hlog : (2 * leastNormal).log2 = 53 := Nat.log2_two_pow (n := 53)
    rw [targetExponent_eq_max, totalExponent, hlog]
    omega
  rw [shiftToTargetExponent_eq htarget]
  rfl

/-- The significand `q` with the accuracy `a` is rounded to the integer that is nearest at the exponent `T`. -/
theorem roundWithAccuracy_of_nearest (ha : Locates (v / 2 ^ t - q) a) (hstart : leastNormal ≤ q ∨ t ≤ leastExponent)
    (hT : leastExponent ≤ T) (hlow : (leastNormal : ℚ) ≤ v / 2 ^ T ∨ T = leastExponent)
    (hhigh : v / 2 ^ T < 2 * leastNormal) (hr : Nearest (v / 2 ^ T) r) {s : Sign} (hm : 0 < m)
    (hcarry : shiftToTargetExponent .binary64 r T .exact = (⟨m, false, false⟩, e)) :
    roundWithAccuracy .binary64 s q t a = .finite s m e hm := by
  obtain ⟨hq, hq'⟩ := ha.bounds
  obtain ⟨hle, htarget⟩ := targetExponent_eq (by linarith) (by linarith) hstart hT hlow hhigh
  obtain ⟨n, rfl⟩ := Int.le.dest hle
  have hv : v / 2 ^ (t + n) = v / 2 ^ t / 2 ^ n := by
    rw [zpow_add₀ two_ne_zero, zpow_natCast, div_div]
  have hrounded : (ExtendedMantissa.ofMantissaAndAccuracy q a >>> n).roundedMantissa = r :=
    ((extends_ofMantissaAndAccuracy ha).shiftRight n).nearest.unique (hv ▸ hr)
  unfold roundWithAccuracy
  rw [shiftToTargetExponent_eq (n := n) (by omega)]
  simp only [hrounded, hcarry, hm.ne', dite_false]

end Target

/-! ## What is a float already -/

section Exact

variable {m n q : ℕ} {e k t : ℤ} {s : Sign}

theorem roundWithAccuracy_of_canonical (hc : Canonical m e) (hq : (q * 2 ^ t : ℚ) = m * 2 ^ e)
    (hstart : leastNormal ≤ q ∨ t ≤ leastExponent) :
    roundWithAccuracy .binary64 s q t .exact = .finite s m e hc.pos := by
  have hm : (q * 2 ^ t : ℚ) / 2 ^ e = m := by
    rw [hq, mul_div_cancel_right₀ _ (zpow_ne_zero e two_ne_zero)]
  have hexact : Locates ((q * 2 ^ t : ℚ) / 2 ^ t - q) .exact := by
    apply Locates.whole
    rw [mul_div_cancel_right₀ _ (zpow_ne_zero t two_ne_zero), sub_self]
  refine roundWithAccuracy_of_nearest (r := m) hexact hstart hc.leastExponent_le ?_ ?_ ?_ hc.pos
    (shiftToTargetExponent_of_lt hc.lt hc.leastExponent_le)
  · rw [hm]
    exact hc.normal.imp_left fun h => by exact_mod_cast h
  · rw [hm]
    exact_mod_cast hc.lt
  · rw [hm]
    exact .of_lt (by linarith) (by linarith)

/-- A number that is a float is rounded to that float, whatever its significand and exponent are. -/
theorem round_of_canonical (hc : Canonical m e) (h : (n * 2 ^ k : ℚ) = m * 2 ^ e) :
    UnpackedFloat.round .binary64 s n k = .finite s m e hc.pos := by
  have hn : n ≠ 0 := by
    rintro rfl
    have hm : (m : ℚ) ≠ 0 := by exact_mod_cast hc.pos.ne'
    have hpow : (2 : ℚ) ^ e ≠ 0 := zpow_ne_zero e two_ne_zero
    simp [hm, hpow] at h
  unfold UnpackedFloat.round decreaseExponent
  dsimp only
  -- first the significand is made longer, until it has 53 bits
  generalize hshift : (k - Format.binary64.targetExponent (totalExponent n k)).toNat = i
  apply roundWithAccuracy_of_canonical hc
  · rw [← h, Nat.shiftLeft_eq]
    push_cast
    rw [mul_assoc, ← zpow_natCast, ← zpow_add₀ two_ne_zero]
    congr 2
    omega
  · by_cases hleast : k - i ≤ leastExponent
    · exact Or.inr hleast
    · left
      have hlog : 52 ≤ n.log2 + i := by
        rw [targetExponent_eq_max, totalExponent] at hshift
        omega
      calc leastNormal ≤ 2 ^ (n.log2 + i) := Nat.pow_le_pow_right two_pos hlog
        _ = 2 ^ n.log2 * 2 ^ i := pow_add _ _ _
        _ ≤ n * 2 ^ i := Nat.mul_le_mul_right _ (Nat.log2_self_le hn)
        _ = n <<< i := (Nat.shiftLeft_eq n i).symm

end Exact

/-! ## Quotients -/

section Quotient

variable {n den : ℕ} {t : ℤ}

/-- The exponent at which a quotient of integers is computed. -/
def quotientExponent (n den : ℕ) : ℤ :=
  min 0 (Format.binary64.targetExponent (totalExponent n 0 - totalExponent den 0))

theorem divCore_eq (n den : ℕ) :
    divCore .binary64 n 0 den 0 =
      (n * 2 ^ (-quotientExponent n den).toNat / den, quotientExponent n den,
        accuracyOfFraction (n * 2 ^ (-quotientExponent n den).toNat % den) den) := by
  simp only [divCore, quotientExponent, Nat.shiftLeft_eq, sub_zero, zero_sub]

theorem locates_quotient (hden : 0 < den) (ht : t ≤ 0) :
    Locates ((n / den : ℚ) / 2 ^ t - (n * 2 ^ (-t).toNat / den : ℕ))
      (accuracyOfFraction (n * 2 ^ (-t).toNat % den) den) := by
  obtain ⟨k, rfl⟩ := Int.exists_eq_neg_ofNat ht
  have hcast : (0 : ℚ) < den := by exact_mod_cast hden
  have hpart : (n / den : ℚ) / 2 ^ (-(k : ℤ)) - (n * 2 ^ k / den : ℕ) = (n * 2 ^ k % den : ℕ) / den := by
    have hdiv : (den : ℚ) * (n * 2 ^ k / den : ℕ) + (n * 2 ^ k % den : ℕ) = n * 2 ^ k := by
      exact_mod_cast Nat.div_add_mod (n * 2 ^ k) den
    rw [zpow_neg, zpow_natCast]
    field_simp
    linarith
  rw [neg_neg, Int.toNat_natCast, hpart]
  exact locates_accuracyOfFraction (Nat.mod_lt _ hden)

/-- A quotient is computed with at least 53 bits, or at the least exponent. -/
theorem quotient_starts (hn : 0 < n) (hden : 0 < den) :
    leastNormal ≤ n * 2 ^ (-quotientExponent n den).toNat / den ∨ quotientExponent n den ≤ leastExponent := by
  by_cases hleast : quotientExponent n den ≤ leastExponent
  · exact Or.inr hleast
  left
  have hexponent : den.log2 + 53 ≤ n.log2 + (-quotientExponent n den).toNat := by
    rw [quotientExponent, targetExponent_eq_max, totalExponent, totalExponent] at *
    omega
  rw [Nat.le_div_iff_mul_le hden]
  calc leastNormal * den ≤ 2 ^ 52 * 2 ^ (den.log2 + 1) := Nat.mul_le_mul_left _ Nat.lt_log2_self.le
    _ = 2 ^ (den.log2 + 53) := by rw [← pow_add]; congr 1; omega
    _ ≤ 2 ^ (n.log2 + (-quotientExponent n den).toNat) := Nat.pow_le_pow_right two_pos hexponent
    _ = 2 ^ n.log2 * 2 ^ (-quotientExponent n den).toNat := pow_add _ _ _
    _ ≤ n * 2 ^ (-quotientExponent n den).toNat := Nat.mul_le_mul_right _ (Nat.log2_self_le hn.ne')

theorem ofScientific_eq_roundWithAccuracy {d p : ℕ} (hd : 0 < d) (hp : 0 < p) (hrange : p ≤ 2 ^ 11 + d.log2) :
    ∃ (q : ℕ) (t : ℤ) (a : Accuracy),
      ofScientific .binary64 d (-p) = roundWithAccuracy .binary64 .positive q t a ∧
        Locates ((d / 10 ^ p : ℚ) / 2 ^ t - q) a ∧ (leastNormal ≤ q ∨ t ≤ leastExponent) := by
  have hten : 0 < 10 ^ p := Nat.pow_pos (by decide)
  have hexponent : quotientExponent d (10 ^ p) ≤ 0 := min_le_left _ _
  have hlocates := locates_quotient (n := d) hten hexponent
  push_cast at hlocates
  refine ⟨_, _, _, ?_, hlocates, quotient_starts hd hten⟩
  unfold ofScientific
  rw [dif_neg hd.ne', if_neg (by norm_num), if_neg (by norm_num; omega), if_neg (by omega)]
  simp only [UnpackedFloat.div, neg_neg, Int.toNat_natCast, divCore_eq]
  rfl

end Quotient

end Binary64
end Calculator
