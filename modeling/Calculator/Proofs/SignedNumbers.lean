import Calculator.Proofs.Composition
import Calculator.Proofs.Factorial
import Calculator.Proofs.Literals

/-!
# Calculator.Proofs.SignedNumbers — digits behind signs

A run of signs in front of digits. Each sign is a token of its own and negates what stands behind it, a plus as well
as a minus, so only the number of signs counts (`eval_inFront`). The digits are one token. Their number has to be in
range by itself, since that is checked before any sign takes part. So the least integer, whose magnitude is out of
range, is the one integer that is not read back from its text.
-/

namespace Calculator

open Evaluation Token

/-! ## Runs of signs -/

namespace Sign

/-- The signs, one after the other. -/
def run (signs : List Sign) : String := String.join (signs.map symbol)

/-- The tokens of a run of signs. -/
def tokens (signs : List Sign) : List Token := signs.map fun s => ⟨s.kind, s.symbol⟩

/-- A tree behind signs. -/
def inFront (signs : List Sign) (e : Tree) : Tree := signs.foldr .signed e

/-- An integer behind so many signs. -/
def negated (count : Nat) (n : Int) : Int := if Even count then n else -n

theorem negated_succ (count : Nat) (n : Int) : negated (count + 1) n = -negated count n := by
  unfold negated
  by_cases h : Even count
  · rw [if_pos h, if_neg (by simpa [Nat.even_add_one] using h)]
  · rw [if_neg h, if_pos (Nat.even_add_one.mpr h), Int.neg_neg]

theorem tokenize_run_append (signs : List Sign) (a : String) :
    tokenize (run signs ++ a) = tokens signs ++ tokenize a := by
  induction signs with
  | nil => simp [run, tokens]
  | cons s signs ih =>
    have hrun : run (s :: signs) = s.symbol ++ run signs := String.join_cons
    rw [hrun, String.append_assoc, s.tokenize_append, ih]
    rfl

variable {e : Tree} {ts : List Token}

theorem spells_inFront (h : e.Spells ts) (signs : List Sign) : (inFront signs e).Spells (tokens signs ++ ts) := by
  induction signs with
  | nil => exact h
  | cons s signs ih => exact .signed rfl ih

theorem leftTiers_inFront (h : e.leftTiers = []) (signs : List Sign) : (inFront signs e).leftTiers = [] := by
  cases signs with
  | nil => exact h
  | cons s signs => rfl

theorem tiered_inFront (h : e.Tiered) (hleft : e.leftTiers = []) (signs : List Sign) : (inFront signs e).Tiered := by
  induction signs with
  | nil => exact h
  | cons s signs ih =>
    refine ⟨?_, ih⟩
    show ∀ q ∈ (inFront signs e).leftTiers, Tier.sum < q
    simp [leftTiers_inFront hleft signs]

/-- Signs are followed to the operand behind them. -/
theorem follow?_tokens (signs : List Sign) (frames : List Frame) : ∃ frames',
    Reading.follow? .lowest (.operand frames) (tokens signs) = some (.operand frames') := by
  induction signs generalizing frames with
  | nil => exact ⟨frames, rfl⟩
  | cons s signs ih =>
    obtain ⟨frames', h⟩ := ih (.sign s :: frames)
    have hstep : Reading.Step .lowest (.operand frames) ⟨s.kind, s.symbol⟩ (.operand (.sign s :: frames)) := .sign rfl
    exact ⟨frames', (hstep.follow?_cons (tokens signs)).trans h⟩

end Sign

open Sign

section SignedDigits

variable {signs : List Sign} {ds : List Char}

theorem Operand.inFront {a : String} {e : Tree} (h : Operand a e) (signs : List Sign) :
    Written (run signs ++ a) (Sign.inFront signs e) where
  spells := by
    rw [tokenize_run_append]
    exact spells_inFront h.spells signs
  tiered := tiered_inFront h.tiered h.left signs

/-! ## Values -/

theorem applySign_of_inRange {n : Int64} (s : Sign) (h : InRange (-n.toInt)) :
    applySign s (.integer n) = .ok (.integer (Int64.ofInt (-n.toInt))) := by
  rw [applySign, Checked.neg, checked_of_inRange h]
  rfl

/-- Within the greatest integer every sign negates, and no negation is refused. -/
theorem eval_inFront {n : Int64} (hn : 0 ≤ n.toInt) (signs : List Sign) : ∃ v : Int64,
    v.toInt = negated signs.length n.toInt ∧ (Sign.inFront signs (.integer n)).erase.eval = .ok (.integer v) := by
  induction signs with
  | nil => exact ⟨n, rfl, rfl⟩
  | cons s signs ih =>
    obtain ⟨v, hv, heval⟩ := ih
    have hrange : InRange (-v.toInt) := by
      have hmax := n.toInt_le
      rw [InRange, Int64.toInt_minValue, Int64.toInt_maxValue] at *
      rw [hv, negated]
      split <;> omega
    refine ⟨Int64.ofInt (-v.toInt), ?_, ?_⟩
    · rw [toInt_ofInt_of_inRange hrange, List.length_cons, negated_succ, hv]
    · have hsigned : (Sign.inFront (s :: signs) (.integer n)).erase =
          .signed s (Sign.inFront signs (.integer n)).erase := rfl
      rw [hsigned, Expr.eval_signed, heval]
      exact applySign_of_inRange s hrange

/-! ## Digits -/

/-- The token of a run of digits. -/
def digitsToken (ds : List Char) : Token := ⟨.integer, String.ofList ds⟩

theorem tokenize_digits (hne : ds ≠ []) (hds : ds.all Char.isDigit) :
    tokenize (String.ofList ds) = [digitsToken ds] := by
  rw [tokenize, String.toList_ofList]
  exact ofChars_digits_self hne hds

theorem integer?_digitsToken (hne : ds ≠ []) (hds : ds.all Char.isDigit) :
    (digitsToken ds).integer? = narrow? (Nat.ofDigitChars 10 ds 0) := by
  rw [Token.integer?, digitsToken, String.toList_ofList, Decimal.natural?, if_pos ⟨hne, hds⟩, Option.bind_some]

theorem calculate_digits_in_range (hne : ds ≠ []) (hds : ds.all Char.isDigit)
    (hrange : (Nat.ofDigitChars 10 ds 0 : Int) ≤ Int64.maxValue.toInt) (signs : List Sign) : ∃ v : Int64,
    v.toInt = negated signs.length (Nat.ofDigitChars 10 ds 0) ∧
      calculate (run signs ++ String.ofList ds) = .ok (.integer v) := by
  have hin : InRange (Nat.ofDigitChars 10 ds 0 : Nat) := by
    have hlow := Int64.toInt_minValue_lt_zero
    exact ⟨by omega, hrange⟩
  have hvalue := toInt_ofInt_of_inRange hin
  have hoperand : Operand (String.ofList ds) (.integer (Int64.ofInt (Nat.ofDigitChars 10 ds 0 : Nat))) := by
    refine ⟨⟨?_, trivial⟩, rfl, rfl⟩
    rw [tokenize_digits hne hds]
    refine .integer rfl ?_
    rw [integer?_digitsToken hne hds, narrow?_eq_some_iff, hvalue]
  obtain ⟨v, hv, heval⟩ := eval_inFront (by rw [hvalue]; omega) signs
  refine ⟨v, by rw [hv, hvalue], ?_⟩
  rw [(hoperand.inFront signs).calculate_eq, heval]
  rfl

/-- Digits out of range are refused behind any signs, and the source ends with them. -/
theorem calculate_digits_out_of_range (hne : ds ≠ []) (hds : ds.all Char.isDigit)
    (hrange : Int64.maxValue.toInt < (Nat.ofDigitChars 10 ds 0 : Nat)) (signs : List Sign) :
    calculate (run signs ++ String.ofList ds) = .error (.reading [.invalidLiteral (String.ofList ds) .integer]) := by
  have htokens : tokenize (run signs ++ String.ofList ds) = tokens signs ++ [digitsToken ds] := by
    rw [tokenize_run_append, tokenize_digits hne hds]
  have hnone : (digitsToken ds).integer? = none := by
    rw [integer?_digitsToken hne hds, narrow?_eq_none_iff]
    intro hin
    exact absurd hin.2 (Int.not_le.mpr hrange)
  obtain ⟨frames, hfollow⟩ := follow?_tokens signs []
  have hrefused : ∀ t ∈ [digitsToken ds].head?, Reading.accept? .lowest (.operand frames) t = none := by
    intro t ht
    obtain rfl : digitsToken ds = t := by simpa using ht
    show ((digitsToken ds).integer?.map _ : Option Reading) = none
    rw [hnone, Option.map_none]
  have hread : readExpr .lowest (tokenize (run signs ++ String.ofList ds)) =
      (.error (.invalidLiteral (String.ofList ds) .integer), [digitsToken ds]) := by
    rw [htokens, readExpr_eq_read, Reading.read_of_follow? [digitsToken ds] hrefused hfollow]
    rfl
  have hne' : tokenize (run signs ++ String.ofList ds) ≠ [] := by simp [htokens]
  exact calculate_of_parse_error (parse_of_readExpr_error_last hne' hread)

/-! ## Main result -/

/-- The text of an integer is that of its magnitude, with a minus in front of a negative one. -/
theorem exists_run_render (n : Int64) : ∃ signs : List Sign,
    (Value.integer n).render = run signs ++ String.ofList (Nat.toDigits 10 n.toInt.natAbs) ∧
      negated signs.length n.toInt.natAbs = n.toInt := by
  rcases Int.lt_or_le n.toInt 0 with hn | hn
  · obtain ⟨k, hk⟩ := Int.eq_negSucc_of_lt_zero hn
    refine ⟨[.minus], ?_, ?_⟩
    · rw [Value.render, hk, Decimal.integerChars, ← List.singleton_append, String.ofList_append]
      rfl
    · rw [negated, if_neg (by decide)]
      omega
  · obtain ⟨k, hk⟩ := Int.eq_ofNat_of_zero_le hn
    refine ⟨[], ?_, ?_⟩
    · rw [Value.render, hk]
      exact (String.empty_append).symm
    · rw [negated, if_pos (by decide)]
      omega

theorem calculate_render_integer (n : Int64) : calculate (Value.integer n).render =
    if n = Int64.minValue then .error (.reading [.invalidLiteral "9223372036854775808" .integer])
    else .ok (.integer n) := by
  obtain ⟨signs, htext, hvalue⟩ := exists_run_render n
  have hne : Nat.toDigits 10 n.toInt.natAbs ≠ [] := Nat.toDigits_ne_nil
  have hds := Decimal.all_toDigits n.toInt.natAbs
  have hdigits : Nat.ofDigitChars 10 (Nat.toDigits 10 n.toInt.natAbs) 0 = n.toInt.natAbs :=
    Nat.ofDigitChars_ten_toDigits
  have hmin : n = Int64.minValue ↔ n.toInt = -2 ^ 63 := by rw [← Int64.toInt_inj, Int64.toInt_minValue]
  have hlow := n.le_toInt
  have hhigh := n.toInt_lt
  by_cases h : n = Int64.minValue
  · subst h
    rw [if_pos rfl, htext]
    exact calculate_digits_out_of_range hne hds (by rw [hdigits]; decide) signs
  · have hrange : (Nat.ofDigitChars 10 (Nat.toDigits 10 n.toInt.natAbs) 0 : Int) ≤ Int64.maxValue.toInt := by
      rw [hmin] at h
      rw [hdigits, Int64.toInt_maxValue]
      omega
    obtain ⟨v, hv, hcalculate⟩ := calculate_digits_in_range hne hds hrange signs
    obtain rfl : v = n := by rw [← Int64.toInt_inj, hv, hdigits, hvalue]
    rw [if_neg h, htext, hcalculate]

/-- **Signed numbers.** Digits behind signs amount to their number, with one negation for each sign, or the
digits are refused as a literal. So every integer is read back from its text, except for the least. -/
theorem calculate_signed_digits :
    (∀ (signs : List Sign) (ds : List Char), ds ≠ [] → ds.all Char.isDigit →
      ((Nat.ofDigitChars 10 ds 0 : Int) ≤ Int64.maxValue.toInt → ∃ v : Int64,
        v.toInt = (if Even signs.length then (Nat.ofDigitChars 10 ds 0 : Int) else -(Nat.ofDigitChars 10 ds 0 : Int)) ∧
          calculate (run signs ++ String.ofList ds) = .ok (.integer v)) ∧
      (Int64.maxValue.toInt < (Nat.ofDigitChars 10 ds 0 : Int) →
        calculate (run signs ++ String.ofList ds) =
          .error (.reading [.invalidLiteral (String.ofList ds) .integer]))) ∧
    ∀ n : Int64, calculate (Value.integer n).render =
      if n = Int64.minValue then .error (.reading [.invalidLiteral "9223372036854775808" .integer])
      else .ok (.integer n) := by
  refine ⟨fun signs ds hne hds => ⟨fun hrange => ?_, fun hrange => ?_⟩, calculate_render_integer⟩
  · exact calculate_digits_in_range hne hds hrange signs
  · exact calculate_digits_out_of_range hne hds hrange signs

/-- Three signs before a seven, and two before the first number out of range. -/
theorem calculate_signed_digits_of_runs :
    ['0', '0', '7'].all Char.isDigit ∧ calculate "+-+007" = .ok (.integer (-7)) ∧
      calculate "--9223372036854775808" = .error (.reading [.invalidLiteral "9223372036854775808" .integer]) ∧
      calculate (Value.integer (-7)).render = .ok (.integer (-7)) := by
  obtain ⟨hread, hrender⟩ := calculate_signed_digits
  obtain ⟨hin, -⟩ := hread [.plus, .minus, .plus] ['0', '0', '7'] (by decide) (by decide)
  obtain ⟨-, hout⟩ := hread [.minus, .minus] "9223372036854775808".toList (by decide) (by decide)
  obtain ⟨v, hv, hseven⟩ := hin (by decide)
  obtain rfl : v = -7 := by rw [← Int64.toInt_inj, hv]; decide
  exact ⟨by decide, hseven, hout (by decide), hrender (-7)⟩

end SignedDigits

end Calculator
