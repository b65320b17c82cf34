import Calculator.Proofs.Rounding
import Calculator.Decimal.Shortest

/-!
# Calculator.Proofs.ShortestReading — the fewest digits read back

The decimal number that is written for a float lies in the interval around it (`shortest_mem`), since the search only
takes points that do. Every number of the interval is rounded to that float: its nearest integer at the exponent of
the float is the significand, except just below a power of two, where rounding carries (`roundWithAccuracy_of_mem`).
So the float is read back (`toFloat_of_mem`).
-/

namespace Calculator
namespace Decimal

open Binary64 Float.Model.UnpackedFloat

/-- The number that a decimal writes. -/
def toRat (d : Decimal) : ℚ := d.digits * 10 ^ d.exponent

/-! ## Intervals of numbers -/

/-- Membership of a number that is given in quarters. -/
def Interval.Mem (i : Interval) (y : ℚ) : Prop :=
  if i.closed then i.low ≤ y ∧ y ≤ i.high else i.low < y ∧ y < i.high

theorem Interval.mem_of_contains {i : Interval} {num den : ℕ} (hden : 0 < den) (h : i.contains num den = true) :
    i.Mem (num / den) := by
  have hcast : (0 : ℚ) < den := by exact_mod_cast hden
  unfold contains at h
  unfold Mem
  split at h
  · next hc =>
    rw [if_pos hc, le_div_iff₀ hcast, div_le_iff₀ hcast]
    exact_mod_cast by simpa using h
  · next hc =>
    rw [if_neg hc, lt_div_iff₀ hcast, div_lt_iff₀ hcast]
    exact_mod_cast by simpa using h

section Around

variable {m : ℕ} {e : ℤ} {w : ℚ}

theorem low_around_bounds (hm : 0 < m) (e : ℤ) :
    4 * (m : ℚ) - 2 ≤ (Interval.around m e).low ∧ ((Interval.around m e).low : ℚ) < 4 * m := by
  have hlow : 4 * m ≤ (Interval.around m e).low + 2 ∧ (Interval.around m e).low < 4 * m := by
    unfold Interval.around
    dsimp only
    split <;> omega
  have hcast : (4 * m : ℚ) ≤ (Interval.around m e).low + 2 := by exact_mod_cast hlow.1
  exact ⟨by linarith, by exact_mod_cast hlow.2⟩

theorem high_around (m : ℕ) (e : ℤ) : ((Interval.around m e).high : ℚ) = 4 * m + 2 := by
  simp [Interval.around]

theorem Interval.Mem.bounds {i : Interval} {y : ℚ} (h : i.Mem y) : i.low ≤ y ∧ y ≤ i.high := by
  unfold Mem at h
  split at h
  · exact h
  · exact ⟨h.1.le, h.2.le⟩

theorem nearest_of_mem_around (hm : 0 < m) (h : (Interval.around m e).Mem (4 * w)) : Nearest w m := by
  obtain ⟨hlow, -⟩ := low_around_bounds hm e
  have hhigh := high_around m e
  obtain ⟨hl, hh⟩ := h.bounds
  refine ⟨by linarith, by linarith, fun hend => ?_⟩
  by_contra hodd
  have hopen : ¬ (Interval.around m e).closed = true := by simpa [Interval.around, Nat.even_iff] using hodd
  rw [Interval.Mem, if_neg hopen] at h
  obtain ⟨hl, hh⟩ := h
  rcases hend with hend | hend <;> linarith

theorem pos_of_mem_around (hm : 0 < m) (h : (Interval.around m e).Mem (4 * (w / 2 ^ e))) : 0 < w := by
  have hone : (1 : ℚ) ≤ m := by exact_mod_cast hm
  have hle := (nearest_of_mem_around hm h).le
  have hpos : 0 < w / 2 ^ e := by linarith
  exact (div_pos_iff_of_pos_right (by positivity)).mp hpos

theorem mem_around_self (hm : 0 < m) (e : ℤ) : (Interval.around m e).Mem (4 * m) := by
  obtain ⟨-, hlow⟩ := low_around_bounds hm e
  have hhigh := high_around m e
  unfold Interval.Mem
  split
  · exact ⟨hlow.le, by linarith⟩
  · exact ⟨hlow, by linarith⟩

end Around

/-! ## Grids -/

theorem zpow_eq_div (a : ℚ) (k : ℤ) : a ^ k = a ^ k.toNat / a ^ (-k).toNat := by
  obtain ⟨n, rfl | rfl⟩ := k.eq_nat_or_neg
  · simp
  · simp

theorem grid_eq (k e : ℤ) : grid k e = (4 * 10 ^ k.toNat * 2 ^ (-e).toNat, 10 ^ (-k).toNat * 2 ^ e.toNat) := by
  simp only [grid, Nat.shiftLeft_eq, Nat.pow_eq]

theorem search_zero (m : ℕ) (e : ℤ) : search m e 0 = ⟨m * 5 ^ (-e).toNat * 2 ^ e.toNat, finest e⟩ := by
  simp only [search, Nat.shiftLeft_eq, Nat.pow_eq]

theorem grid_ratio (k e : ℤ) : ((grid k e).1 / (grid k e).2 : ℚ) = 4 * (10 ^ k / 2 ^ e) := by
  rw [zpow_eq_div 10 k, zpow_eq_div 2 e, grid_eq]
  push_cast
  field_simp

theorem candidate?_mem {i : Interval} {k e : ℤ} {d : ℕ} (h : candidate? i k e = some d) :
    i.Mem (4 * (d * 10 ^ k / 2 ^ e)) := by
  have hcontains : i.contains (d * (grid k e).1) (grid k e).2 = true := by
    rcases hgrid : grid k e with ⟨unit, den⟩
    simp only [candidate?, hgrid] at h
    split at h
    · next hl hu =>
      split at h
      · exact Option.some.inj h ▸ hl
      · exact Option.some.inj h ▸ hu
    · next hl _ => exact Option.some.inj h ▸ hl
    · next _ hu => exact Option.some.inj h ▸ hu
    · simp at h
  have hden : 0 < (grid k e).2 := by
    rw [grid_eq]
    positivity
  have hmem := Interval.mem_of_contains hden hcontains
  push_cast at hmem
  rwa [mul_div_assoc, grid_ratio, mul_left_comm, ← mul_div_assoc] at hmem

theorem search_mem {m : ℕ} (hm : 0 < m) (e : ℤ) (n : ℕ) :
    (Interval.around m e).Mem (4 * ((search m e n).toRat / 2 ^ e)) := by
  induction n with
  | zero =>
    have hvalue : (search m e 0).toRat / 2 ^ e = m := by
      obtain ⟨n, rfl | rfl⟩ := e.eq_nat_or_neg
      · simp [search_zero, finest, toRat]
      · have hten : (10 : ℚ) ^ n = 5 ^ n * 2 ^ n := by
          rw [← mul_pow]
          norm_num
        have hread : (search m (-n) 0).toRat = m * 5 ^ n / 10 ^ n := by
          simp [search_zero, finest, toRat, div_eq_mul_inv]
        rw [hread, hten, zpow_neg, zpow_natCast]
        field_simp
    rw [hvalue]
    exact mem_around_self hm e
  | succ n ih =>
    unfold search
    dsimp only
    split
    · next d hd => exact candidate?_mem hd
    · exact ih

theorem shortest_mem {m : ℕ} (hm : 0 < m) (e : ℤ) :
    (Interval.around m e).Mem (4 * ((shortest m e).toRat / 2 ^ e)) := search_mem hm e _

/-! ## Reading back -/

section Reading

variable {m q : ℕ} {e t : ℤ} {v : ℚ} {a : Accuracy}

/-- Every number in the interval around a float is rounded to that float. -/
theorem roundWithAccuracy_of_mem (hc : Canonical m e) (hv : (Interval.around m e).Mem (4 * (v / 2 ^ e)))
    (ha : Locates (v / 2 ^ t - q) a) (hstart : leastNormal ≤ q ∨ t ≤ leastExponent) :
    roundWithAccuracy .binary64 .positive q t a = .finite .positive m e hc.pos := by
  have hnearest := nearest_of_mem_around hc.pos hv
  have hlow := hnearest.le
  have hhigh := hnearest.ge
  have hm : (m : ℚ) + 1 ≤ 2 * leastNormal := by exact_mod_cast hc.lt
  by_cases hcase : (leastNormal : ℚ) ≤ v / 2 ^ e ∨ e = leastExponent
  · exact roundWithAccuracy_of_nearest ha hstart hc.leastExponent_le hcase (by linarith) hnearest hc.pos
      (shiftToTargetExponent_of_lt hc.lt hc.leastExponent_le)
  -- Just below a power of two there is one more bit, and rounding carries.
  · obtain ⟨hbelow, hne⟩ : v / 2 ^ e < leastNormal ∧ e ≠ leastExponent := by simpa using hcase
    have hle := hc.leastExponent_le
    obtain rfl : m = leastNormal := by
      have hlt : (m : ℚ) < leastNormal + 1 := by linarith
      have hlt' : m < leastNormal + 1 := by exact_mod_cast hlt
      have := hc.normal.resolve_right hne
      omega
    have hhalf : v / 2 ^ (e - 1) = 2 * (v / 2 ^ e) := by
      rw [zpow_sub_one₀ two_ne_zero]
      field_simp
    have hquarter : (4 * leastNormal : ℚ) - 1 ≤ 4 * (v / 2 ^ e) := by
      have hcast : ((Interval.around leastNormal e).low : ℚ) = 4 * leastNormal - 1 := by
        rw [Interval.around]
        simp only [true_and, if_pos (lt_of_le_of_ne hle hne.symm)]
        norm_num [leastNormal_eq]
      have := hv.bounds.1
      linarith
    have hcarry : shiftToTargetExponent .binary64 (2 * leastNormal) (e - 1) .exact = (⟨leastNormal, false, false⟩, e) := by
      rw [shiftToTargetExponent_carry (by omega), sub_add_cancel]
    refine roundWithAccuracy_of_nearest ha hstart (T := e - 1) (by omega) (Or.inl ?_) ?_ ?_ hc.pos hcarry
    · rw [hhalf]
      have : (1 : ℚ) ≤ leastNormal := by norm_num [leastNormal_eq]
      linarith
    · rw [hhalf]
      linarith
    · rw [hhalf]
      refine ⟨by push_cast; linarith, by push_cast; linarith, fun _ => even_two_mul _⟩

/-- The intervals around different floats have no number in common, since a number is rounded to one float only. -/
theorem eq_of_mem_around {m' : ℕ} {e' : ℤ} (hc : Canonical m e) (hc' : Canonical m' e')
    (h : (Interval.around m e).Mem (4 * (v / 2 ^ e))) (h' : (Interval.around m' e').Mem (4 * (v / 2 ^ e'))) :
    m = m' ∧ e = e' := by
  have hpos := pos_of_mem_around hc.pos h
  obtain ⟨q, a, ha⟩ := exists_locates (show 0 ≤ v / 2 ^ leastExponent by positivity)
  have hround := roundWithAccuracy_of_mem hc h ha (Or.inr le_rfl)
  rw [roundWithAccuracy_of_mem hc' h' ha (Or.inr le_rfl)] at hround
  injection hround with _ hm he
  exact ⟨hm.symm, he.symm⟩

/-- A number that is not too small for a float is not written with too many places. -/
theorem places_le {d p k : ℕ} (hk : k < 2 ^ 11) (h : (2 : ℚ) ^ (-k : ℤ) ≤ 2 * (d / 10 ^ p)) : p ≤ 2 ^ 11 + d.log2 := by
  by_contra! hp
  have hd : d < 2 ^ p := lt_of_lt_of_le Nat.lt_log2_self (Nat.pow_le_pow_right two_pos (by omega))
  have hten : 2 ^ p * 2 ^ p ≤ 10 ^ p := by
    rw [← mul_pow]
    exact Nat.pow_le_pow_left (by norm_num) p
  have hle : 10 ^ p ≤ 2 ^ (k + 1) * d := by
    have hcast : (10 : ℚ) ^ p ≤ 2 ^ (k + 1) * d := by
      rw [zpow_neg, zpow_natCast, ← mul_div_assoc, inv_le_iff_one_le_mul₀ (by positivity), div_mul_eq_mul_div,
        one_le_div₀ (by positivity)] at h
      rw [pow_succ]
      linarith
    exact_mod_cast hcast
  have hlt : 2 ^ (k + 1) * d < 2 ^ p * 2 ^ p :=
    Nat.mul_lt_mul_of_le_of_lt (Nat.pow_le_pow_right two_pos (by omega)) hd (Nat.two_pow_pos p)
  exact absurd (hlt.trans_le hten) (Nat.not_lt.mpr hle)

theorem toFloat_of_mem {x : Float} {d : Decimal} {hm : 0 < m} (hx : x.toModel.unpack = .finite .positive m e hm)
    (hd : d.exponent < 0) (hmem : (Interval.around m e).Mem (4 * (d.toRat / 2 ^ e))) : d.toFloat = x := by
  have hc := canonical_of_unpack hx
  obtain ⟨n, k⟩ := d
  obtain ⟨p, rfl⟩ : ∃ p : ℕ, k = -p := Int.exists_eq_neg_ofNat (le_of_lt hd)
  have hvalue : (⟨n, -p⟩ : Decimal).toRat = n / 10 ^ p := by
    rw [toRat, zpow_neg, zpow_natCast, div_eq_mul_inv]
  rw [hvalue] at hmem
  have hhalf : (1 : ℚ) / 2 ≤ n / 10 ^ p / 2 ^ e := by
    have hone : (1 : ℚ) ≤ m := by exact_mod_cast hm
    have := (nearest_of_mem_around hm hmem).le
    linarith
  have hsize : (2 : ℚ) ^ e ≤ 2 * (n / 10 ^ p) := by
    rw [le_div_iff₀ (by positivity)] at hhalf
    linarith
  have hn : 0 < n := by
    rcases Nat.eq_zero_or_pos n with rfl | hn
    · norm_num at hhalf
    · exact hn
  have hrange : p ≤ 2 ^ 11 + n.log2 :=
    places_le (k := 1074) (by norm_num) ((zpow_le_zpow_right₀ one_le_two hc.leastExponent_le).trans hsize)
  obtain ⟨q, t, a, hround, ha, hstart⟩ := ofScientific_eq_roundWithAccuracy hn (by simpa using hd) hrange
  rw [toFloat, Float.Model.ofScientific, hround, roundWithAccuracy_of_mem hc hmem ha hstart, ← hx, ofModel_pack_unpack]

end Reading

end Decimal
end Calculator
