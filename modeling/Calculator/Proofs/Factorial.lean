import Mathlib
import Calculator.Arithmetic.Checked

/-!
# Calculator.Proofs.Factorial — checked arithmetic against unbounded integers

`checked` keeps an integer within the range and refuses any other. The loop of the factorial multiplies up to
`k !` after `k` factors. Its products only grow, so a product out of range in the middle of the loop means that the
factorial itself is out of range (`risingProduct_eq_checked`). Behind such a product the loop does not go on
(`risingProduct_eq_error`), and from 21 on there always is one. So a factorial is exact or refused
(`factorial_exact_or_refused`).
-/

open scoped Nat

namespace Calculator

theorem checked_of_inRange {n : Int} (h : InRange n) : checked n = .ok (Int64.ofInt n) := by
  unfold checked narrow?
  rw [if_pos h]

theorem checked_of_not_inRange {n : Int} (h : ¬ InRange n) : checked n = .error .overflow := by
  unfold checked
  rw [narrow?_eq_none_iff.mpr h]

theorem checked_toInt (m : Int64) : checked m.toInt = .ok m := by
  unfold checked
  rw [narrow?_toInt]

theorem checked_eq_ok_iff {n : Int} {m : Int64} : checked n = .ok m ↔ m.toInt = n := by
  rw [← narrow?_eq_some_iff]
  unfold checked
  cases narrow? n <;> simp

theorem toInt_ofInt_of_inRange {n : Int} (h : InRange n) : (Int64.ofInt n).toInt = n :=
  narrow?_eq_some_iff.mp (if_pos h)

theorem toInt_eq_zero_iff {n : Int64} : n.toInt = 0 ↔ n = 0 := by
  rw [← Int64.toInt_inj, Int64.toInt_zero]

theorem toInt_neg_iff {n : Int64} : n.toInt < 0 ↔ n < 0 := by
  rw [Int64.lt_iff_toInt_lt, Int64.toInt_zero]

theorem toInt_pos_iff {n : Int64} : 0 < n.toInt ↔ 0 < n := by
  rw [Int64.lt_iff_toInt_lt, Int64.toInt_zero]

/-- An integer that is not negative has only one bound. -/
theorem inRange_natCast_iff_le {a : Nat} : InRange a ↔ (a : Int) ≤ Int64.maxValue.toInt := by
  have hlow := Int64.toInt_minValue_lt_zero
  exact ⟨fun h => h.2, fun h => ⟨by omega, h⟩⟩

theorem InRange.of_le {a b : Nat} (h : InRange b) (hab : a ≤ b) : InRange a := by
  rw [inRange_natCast_iff_le] at *
  omega

namespace Checked

/-! ## The loop -/

/-- Behind `k !` the next `count` factors give `(k + count) !`, or there is no such integer. -/
theorem risingProduct_eq_checked (count k : Nat) (acc : Int64) (hacc : acc.toInt = (k ! : Nat)) :
    risingProduct count (k + 1) acc = checked ((k + count)! : Nat) := by
  induction count generalizing k acc with
  | zero => rw [risingProduct, Nat.add_zero, ← hacc, checked_toInt]
  | succ count ih =>
    have hprod : acc.toInt * ((k + 1 : Nat) : Int) = ((k + 1)! : Nat) := by
      rw [hacc, Nat.factorial_succ, Nat.mul_comm]
      push_cast
      rfl
    have hle : (k + 1)! ≤ (k + (count + 1))! := Nat.factorial_le (by omega)
    unfold risingProduct
    rw [hprod]
    by_cases hr : InRange ((k + 1)! : Nat)
    · rw [checked_of_inRange hr]
      have hnext := ih (k + 1) (Int64.ofInt ((k + 1)! : Nat)) (toInt_ofInt_of_inRange hr)
      rw [show k + (count + 1) = k + 1 + count by omega]
      exact hnext
    · have hbig : ¬ InRange ((k + (count + 1))! : Nat) := fun h => hr (h.of_le hle)
      rw [checked_of_not_inRange hr, checked_of_not_inRange hbig]

/-- A loop can be interrupted. What comes behind a product that was refused is not begun. -/
theorem risingProduct_add (first rest next : Nat) (acc : Int64) :
    risingProduct (first + rest) next acc = (risingProduct first next acc).bind (risingProduct rest (next + first)) := by
  induction first generalizing next acc with
  | zero =>
    rw [Nat.zero_add]
    rfl
  | succ first ih =>
    rw [Nat.succ_add, risingProduct, risingProduct]
    cases checked (acc.toInt * next) with
    | error error => rfl
    | ok product =>
      rw [show next + (first + 1) = next + 1 + first by omega]
      exact ih (next + 1) product

theorem risingProduct_eq_error {first next : Nat} {acc : Int64} {error : EvalError}
    (h : risingProduct first next acc = .error error) (rest : Nat) :
    risingProduct (first + rest) next acc = .error error := by
  rw [risingProduct_add, h]
  rfl

/-! ## Factorials and quotients -/

variable {n : Int64}

theorem factorial_of_neg (h : n.toInt < 0) : factorial n = .error (.invalidArgument (.negativeFactorial n)) := by
  unfold factorial
  rw [if_pos (toInt_neg_iff.mp h)]

theorem factorial_of_nonneg (h : 0 ≤ n.toInt) : factorial n = risingProduct (n.toInt.toNat - 1) 2 1 := by
  unfold factorial
  rw [if_neg (fun hn => h.not_gt (toInt_neg_iff.mpr hn))]

theorem factorial_eq_checked (h : 0 ≤ n.toInt) : factorial n = checked (n.toInt.toNat ! : Nat) := by
  rw [factorial_of_nonneg h, risingProduct_eq_checked (n.toInt.toNat - 1) 1 1 rfl]
  rcases Nat.eq_zero_or_pos n.toInt.toNat with hz | hpos
  · rw [hz]
    rfl
  · rw [show 1 + (n.toInt.toNat - 1) = n.toInt.toNat by omega]

theorem factorial_eq (n : Int64) : factorial n =
    if n.toInt < 0 then .error (.invalidArgument (.negativeFactorial n))
    else checked (n.toInt.toNat ! : Nat) := by
  by_cases h : n.toInt < 0
  · rw [factorial_of_neg h, if_pos h]
  · rw [factorial_eq_checked (not_lt.mp h), if_neg h]

theorem div_eq (a b : Int64) : div a b =
    if b.toInt = 0 then .error .divisionByZero else checked (a.toInt.tdiv b.toInt) := by
  unfold div
  by_cases h : b.toInt = 0
  · rw [if_pos (toInt_eq_zero_iff.mp h), if_pos h]
  · rw [if_neg (fun hb => h (toInt_eq_zero_iff.mpr hb)), if_neg h]

/-! ## Main result -/

/-- A refused product on the way to a factorial refuses the factorial. -/
theorem factorial_eq_error {count : Nat} {error : EvalError} (hcount : count < n.toInt.toNat)
    (h : risingProduct count 2 1 = .error error) : factorial n = .error error := by
  have hsplit : n.toInt.toNat - 1 = count + (n.toInt.toNat - 1 - count) := by omega
  rw [factorial_of_nonneg (by omega), hsplit]
  exact risingProduct_eq_error h _

/-- **Factorials.** A negative integer has none. Otherwise there is a value exactly if the factorial without bounds is
at most the greatest integer, and it is that factorial; if it is greater, the failure is overflow. A product that is
refused on the way is the end of the loop, so from 21 on no integer has a value. -/
theorem factorial_exact_or_refused (n : Int64) :
    (n.toInt < 0 → factorial n = .error (.invalidArgument (.negativeFactorial n))) ∧
      (0 ≤ n.toInt →
        ((∃ m, factorial n = .ok m) ↔ (n.toInt.toNat ! : Nat) ≤ Int64.maxValue.toInt) ∧
        (∀ m, factorial n = .ok m → m.toInt = (n.toInt.toNat ! : Nat)) ∧
        (Int64.maxValue.toInt < (n.toInt.toNat ! : Nat) → factorial n = .error .overflow)) ∧
      (∀ count < n.toInt.toNat, ∀ error, risingProduct count 2 1 = .error error → factorial n = .error error) ∧
      (21 ≤ n.toInt → factorial n = .error .overflow) := by
  refine ⟨factorial_of_neg, fun hn => ?_, fun _ hcount _ h => factorial_eq_error hcount h, fun hlarge => ?_⟩
  · rw [← not_le, ← inRange_natCast_iff_le, factorial_eq_checked hn]
    refine ⟨⟨?_, fun hr => ⟨_, checked_of_inRange hr⟩⟩, fun m hm => checked_eq_ok_iff.mp hm, checked_of_not_inRange⟩
    rintro ⟨m, hm⟩
    rw [← checked_eq_ok_iff.mp hm]
    exact inRange_toInt m
  · -- the factors from 2 to 21 are twenty
    have hrefused : risingProduct 20 2 1 = .error .overflow := by decide
    exact factorial_eq_error (by omega) hrefused

/-- The last factorial in range is that of 20. The product that is refused for 21 is refused for 22, too, and no loop is
longer than the one up to the greatest integer. -/
theorem factorial_exact_or_refused_around_twenty :
    Int64.maxValue.toInt < (21 ! : Nat) ∧ risingProduct 20 2 1 = .error .overflow ∧
      factorial (-1) = .error (.invalidArgument (.negativeFactorial (-1))) ∧
      factorial 20 = .ok 2432902008176640000 ∧ factorial 21 = .error .overflow ∧ factorial 22 = .error .overflow ∧
      factorial Int64.maxValue = .error .overflow := by
  have hover : Int64.maxValue.toInt < (21 ! : Nat) := by decide
  have hrefused : risingProduct 20 2 1 = .error .overflow := by decide
  obtain ⟨hneg, -⟩ := factorial_exact_or_refused (-1)
  obtain ⟨-, hvalue, -⟩ := factorial_exact_or_refused 20
  obtain ⟨-, hoverflow, -⟩ := factorial_exact_or_refused 21
  obtain ⟨-, -, hends, -⟩ := factorial_exact_or_refused 22
  obtain ⟨-, -, -, hlarge⟩ := factorial_exact_or_refused Int64.maxValue
  obtain ⟨hsome, hexact, -⟩ := hvalue (by decide)
  obtain ⟨m, hm⟩ := hsome.mpr (by decide)
  obtain rfl : m = 2432902008176640000 := Int64.toInt_inj.mp ((hexact m hm).trans (by decide))
  exact ⟨hover, hrefused, hneg (by decide), hm, (hoverflow (by decide)).2.2 hover,
    hends 20 (by decide) .overflow hrefused, hlarge (by decide)⟩

end Checked

end Calculator
