import Calculator.Proofs.Evaluating
import Calculator.Proofs.Factorial

/-!
# Calculator.Proofs.Exactness — expressions of integers are computed exactly

`Expr.exactValue?` is the value of an expression of integers without any bounds. The evaluation computes with 64
bits. It agrees as long as no subexpression leaves the range, and otherwise stops at the first one that does:

* `Expr.postorder`: the subexpressions in the order of their evaluation.
* `Expr.Fails`: the operands are in bounds, the expression is not; `Expr.failure` says why.
* `exact_or_failsAt`: an evaluation is exact, or it has the failure of the first subexpression that fails. A node
  adds itself behind the subexpressions of its operands, so the induction needs only one step of arithmetic
  (`exact_or_failsAt_of_node`).
-/

open scoped Nat

namespace Calculator

open Evaluation

/-! ## Integers without bounds -/

def exactFactorial? (n : Int) : Option Int := if n < 0 then none else some (n.toNat ! : Nat)

namespace BinaryOperator

/-- The operators that keep to integers. -/
def IsExact (op : BinaryOperator) : Prop := op = .add ∨ op = .sub ∨ op = .mul ∨ op = .div

/-- What an operator makes of integers, without bounds. Quotients are taken toward zero. -/
def exactResult? : BinaryOperator → Int → Int → Option Int
  | .add, a, b => some (a + b)
  | .sub, a, b => some (a - b)
  | .mul, a, b => some (a * b)
  | .div, a, b => if b = 0 then none else some (a.tdiv b)
  | .exponent, _, _ | .power, _, _ | .root, _, _ => none

end BinaryOperator

namespace Expr

/-- Built from integers, signs, factorials, sums, differences, products and quotients. -/
def IsIntegral : Expr → Prop
  | .integer _ => True
  | .float _ | .call _ _ => False
  | .signed _ e | .factorial e => e.IsIntegral
  | .binary op l r => op.IsExact ∧ l.IsIntegral ∧ r.IsIntegral

/-- The value without bounds, where there is one. Both signs negate. -/
def exactValue? : Expr → Option Int
  | .integer n => some n.toInt
  | .float _ | .call _ _ => none
  | .signed _ e => e.exactValue?.map fun a => -a
  | .factorial e => e.exactValue?.bind exactFactorial?
  | .binary op l r => l.exactValue?.bind fun a => r.exactValue?.bind fun b => op.exactResult? a b

/-! ## Subexpressions -/

def operands : Expr → List Expr
  | .integer _ | .float _ => []
  | .signed _ e | .factorial e | .call _ e => [e]
  | .binary _ l r => [l, r]

/-- All subexpressions: those of the operands, from left to right, and then the expression itself. -/
def postorder : Expr → List Expr
  | .integer n => [.integer n]
  | .float x => [.float x]
  | .signed s e => e.postorder ++ [.signed s e]
  | .factorial e => e.postorder ++ [.factorial e]
  | .binary op l r => l.postorder ++ (r.postorder ++ [.binary op l r])
  | .call p e => e.postorder ++ [.call p e]

/-- There is a value without bounds, and it is in range. -/
def InBounds (e : Expr) : Prop := ∃ n ∈ e.exactValue?, InRange n

instance (e : Expr) : Decidable e.InBounds := inferInstanceAs (Decidable (∃ n ∈ e.exactValue?, InRange n))

/-- The operands are in bounds, but the expression itself is not. -/
def Fails (e : Expr) : Prop := (∀ o ∈ e.operands, o.InBounds) ∧ ¬ e.InBounds

instance (e : Expr) : Decidable e.Fails := inferInstanceAs (Decidable (_ ∧ _))

/-- The reason of an expression that fails: a divisor of zero, the factorial of a negative integer, or overflow. -/
def failure : Expr → EvalError
  | .binary .div _ r => if r.exactValue? = some 0 then .divisionByZero else .overflow
  | .factorial e =>
    match e.exactValue? with
    | some n => if n < 0 then .invalidArgument (.negativeFactorial (Int64.ofInt n)) else .overflow
    | none => .overflow
  | _ => .overflow

def firstFailing? (e : Expr) : Option Expr := e.postorder.find? fun s => decide s.Fails

end Expr

/-! ## The two ways an evaluation ends -/

/-- Every subexpression is in bounds, and the evaluation gives the value without bounds. -/
structure Exact (e : Expr) (n : Int64) : Prop where
  eval : e.eval = .ok (.integer n)
  value : e.exactValue? = some n.toInt
  inBounds : ∀ s ∈ e.postorder, s.InBounds

/-- The subexpression `s` is the first that fails, and the evaluation has its failure. -/
structure FailsAt (e s : Expr) : Prop where
  eval : e.eval = .error s.failure
  first : e.firstFailing? = some s

section Outcomes

variable {e s l r : Expr} {op : BinaryOperator} {n : Int64} {before : List Expr}

theorem Exact.self_inBounds (h : Exact e n) : e.InBounds :=
  ⟨n.toInt, h.value, inRange_toInt n⟩

theorem find?_fails_eq_none {ss : List Expr} (h : ∀ s ∈ ss, s.InBounds) :
    ss.find? (fun s => decide s.Fails) = none := by
  rw [List.find?_eq_none]
  intro s hs hfail
  exact (of_decide_eq_true hfail).2 (h s hs)

theorem FailsAt.exists_not_inBounds (h : FailsAt e s) : ∃ s ∈ e.postorder, ¬ s.InBounds := by
  have hfirst : e.postorder.find? (fun s => decide s.Fails) = some s := h.first
  have hfails : s.Fails := by simpa using List.find?_some hfirst
  exact ⟨s, List.mem_of_find?_eq_some hfirst, hfails.2⟩

theorem FailsAt.of_first {e' : Expr} {after : List Expr} (h : FailsAt e s)
    (hpost : e'.postorder = e.postorder ++ after) (heval : e'.eval = .error s.failure) : FailsAt e' s := by
  refine ⟨heval, ?_⟩
  have hfirst : e.postorder.find? (fun s => decide s.Fails) = some s := h.first
  unfold Expr.firstFailing?
  rw [hpost, List.find?_append, hfirst]
  rfl

/-- Behind an exact first operand the first failure of the second is that of the expression. -/
theorem FailsAt.of_second (hl : Exact l n) (hr : FailsAt r s) : FailsAt (.binary op l r) s := by
  refine ⟨by rw [Expr.eval_binary, hl.eval, hr.eval]; rfl, ?_⟩
  have hfirst : r.postorder.find? (fun s => decide s.Fails) = some s := hr.first
  unfold Expr.firstFailing? Expr.postorder
  rw [List.find?_append, find?_fails_eq_none hl.inBounds, List.find?_append, hfirst]
  rfl

/-! ## One node -/

/-- What an operation makes of operands in bounds: its exact value, unless that is out of range, or its failure. -/
def ExactNode (e : Expr) : Prop :=
  (∃ a, e.exactValue? = some a ∧ e.eval = (checked a).map .integer ∧ e.failure = .overflow) ∨
    (e.exactValue? = none ∧ e.eval = .error e.failure)

/-- A node whose operands are in bounds is exact, or the first that fails. -/
theorem exact_or_failsAt_of_node (hpost : e.postorder = before ++ [e]) (hbefore : ∀ s ∈ before, s.InBounds)
    (hops : ∀ o ∈ e.operands, o.InBounds) (hop : ExactNode e) : (∃ n, Exact e n) ∨ ∃ s, FailsAt e s := by
  -- nothing before the node fails, so out of bounds it is the first that does
  have hself (hout : ¬ e.InBounds) : e.firstFailing? = some e := by
    have hfails : e.Fails := ⟨hops, hout⟩
    unfold Expr.firstFailing?
    rw [hpost, List.find?_append, find?_fails_eq_none hbefore]
    simp [hfails]
  rcases hop with ⟨a, hvalue, heval, hfailure⟩ | ⟨hvalue, heval⟩
  · by_cases ha : InRange a
    · have hin : e.InBounds := ⟨a, hvalue, ha⟩
      refine Or.inl ⟨Int64.ofInt a, ?_, ?_, ?_⟩
      · rw [heval, checked_of_inRange ha]
        rfl
      · rw [hvalue, toInt_ofInt_of_inRange ha]
      · intro s hs
        rw [hpost, List.mem_append, List.mem_singleton] at hs
        rcases hs with hs | rfl
        · exact hbefore s hs
        · exact hin
    · have hout : ¬ e.InBounds := by
        rintro ⟨b, hb, hr⟩
        obtain rfl := Option.some.inj (hvalue.symm.trans hb)
        exact ha hr
      refine Or.inr ⟨e, ?_, hself hout⟩
      rw [heval, checked_of_not_inRange ha, hfailure]
      rfl
  · have hout : ¬ e.InBounds := by
      rintro ⟨b, hb, -⟩
      rw [hvalue] at hb
      cases hb
    exact Or.inr ⟨e, heval, hself hout⟩

theorem exactNode_signed (s : Sign) (h : Exact e n) : ExactNode (.signed s e) := by
  refine Or.inl ⟨-n.toInt, ?_, ?_, rfl⟩
  · unfold Expr.exactValue?
    rw [h.value]
    rfl
  · rw [Expr.eval_signed, h.eval]
    rfl

theorem exactNode_factorial (h : Exact e n) : ExactNode (.factorial e) := by
  have heval : (Expr.factorial e).eval = (Checked.factorial n).map .integer := by
    rw [Expr.eval_factorial, h.eval]
    rfl
  have hvalue : (Expr.factorial e).exactValue? = exactFactorial? n.toInt := by
    unfold Expr.exactValue?
    rw [h.value]
    rfl
  rw [Checked.factorial_eq] at heval
  by_cases hn : n.toInt < 0
  · refine Or.inr ⟨?_, ?_⟩
    · rw [hvalue, exactFactorial?, if_pos hn]
    · rw [heval, if_pos hn]
      simp [Expr.failure, h.value, hn, Except.map]
  · refine Or.inl ⟨(n.toInt.toNat ! : Nat), ?_, ?_, ?_⟩
    · rw [hvalue, exactFactorial?, if_neg hn]
    · rw [heval, if_neg hn]
    · simp [Expr.failure, h.value, hn]

theorem exactNode_binary {m : Int64} (hop : op.IsExact) (hl : Exact l n) (hr : Exact r m) :
    ExactNode (.binary op l r) := by
  have heval : (Expr.binary op l r).eval = applyBinary op (.integer n) (.integer m) := by
    rw [Expr.eval_binary, hl.eval, hr.eval]
    rfl
  have hvalue : (Expr.binary op l r).exactValue? = op.exactResult? n.toInt m.toInt := by
    unfold Expr.exactValue?
    rw [hl.value, hr.value]
    rfl
  rcases hop with rfl | rfl | rfl | rfl
  · exact Or.inl ⟨n.toInt + m.toInt, hvalue, heval, rfl⟩
  · exact Or.inl ⟨n.toInt - m.toInt, hvalue, heval, rfl⟩
  · exact Or.inl ⟨n.toInt * m.toInt, hvalue, heval, rfl⟩
  · -- only a quotient can fail without overflow
    have hdiv : (Expr.binary .div l r).eval = (Checked.div n m).map .integer := heval
    rw [Checked.div_eq] at hdiv
    by_cases hm : m.toInt = 0
    · refine Or.inr ⟨?_, ?_⟩
      · rw [hvalue, BinaryOperator.exactResult?, if_pos hm]
      · rw [hdiv, if_pos hm]
        simp [Expr.failure, hr.value, hm, Except.map]
    · refine Or.inl ⟨n.toInt.tdiv m.toInt, ?_, ?_, ?_⟩
      · rw [hvalue, BinaryOperator.exactResult?, if_neg hm]
      · rw [hdiv, if_neg hm]
      · simp [Expr.failure, hr.value, hm]

end Outcomes

/-! ## Main results -/

section Main

variable {e : Expr}

/-- An evaluation of integers is exact, or it ends at the first subexpression that fails. -/
theorem exact_or_failsAt (h : e.IsIntegral) : (∃ n, Exact e n) ∨ ∃ s, FailsAt e s := by
  induction e with
  | integer n =>
    refine Or.inl ⟨n, rfl, rfl, ?_⟩
    intro s hs
    obtain rfl := List.mem_singleton.mp hs
    exact ⟨n.toInt, rfl, inRange_toInt n⟩
  | float x => exact h.elim
  | call p e ih => exact h.elim
  | signed s e ih =>
    rcases ih h with ⟨n, he⟩ | ⟨s', he⟩
    · exact exact_or_failsAt_of_node rfl he.inBounds (by simpa [Expr.operands] using he.self_inBounds)
        (exactNode_signed s he)
    · refine Or.inr ⟨s', he.of_first rfl ?_⟩
      rw [Expr.eval_signed, he.eval]
      rfl
  | factorial e ih =>
    rcases ih h with ⟨n, he⟩ | ⟨s', he⟩
    · exact exact_or_failsAt_of_node rfl he.inBounds (by simpa [Expr.operands] using he.self_inBounds)
        (exactNode_factorial he)
    · refine Or.inr ⟨s', he.of_first rfl ?_⟩
      rw [Expr.eval_factorial, he.eval]
      rfl
  | binary op l r ihl ihr =>
    obtain ⟨hop, hlint, hrint⟩ := h
    rcases ihl hlint with ⟨n, hl⟩ | ⟨s', hl⟩
    · rcases ihr hrint with ⟨m, hr⟩ | ⟨s', hr⟩
      · have hpost : (Expr.binary op l r).postorder = (l.postorder ++ r.postorder) ++ [.binary op l r] := by
          rw [Expr.postorder, List.append_assoc]
        refine exact_or_failsAt_of_node hpost ?_ ?_ (exactNode_binary hop hl hr)
        · exact List.forall_mem_append.mpr ⟨hl.inBounds, hr.inBounds⟩
        · simp [Expr.operands, hl.self_inBounds, hr.self_inBounds]
      · exact Or.inr ⟨s', .of_second hl hr⟩
    · refine Or.inr ⟨s', hl.of_first rfl ?_⟩
      rw [Expr.eval_binary, hl.eval]
      rfl

theorem failure_ne_typeError (e : Expr) (fault : TypeFault) : e.failure ≠ .typeError fault := by
  unfold Expr.failure
  split
  · split <;> simp
  · split
    · split <;> simp
    · simp
  · simp

/-- **Exactness.** An expression of integers has a value exactly if every subexpression is in bounds, and its value
is the integer without bounds. Otherwise its failure is that of the first subexpression that fails. -/
theorem eval_eq_exactValue (h : e.IsIntegral) :
    ((∃ v, e.eval = .ok v) ↔ ∀ s ∈ e.postorder, s.InBounds) ∧
      (∀ v, e.eval = .ok v → ∃ n : Int64, v = .integer n ∧ e.exactValue? = some n.toInt) ∧
      ((¬ ∀ s ∈ e.postorder, s.InBounds) → ∃ s, e.firstFailing? = some s ∧ e.eval = .error s.failure) ∧
      ∀ fault, e.eval ≠ .error (.typeError fault) := by
  rcases exact_or_failsAt h with ⟨n, he⟩ | ⟨s, he⟩
  · refine ⟨⟨fun _ => he.inBounds, fun _ => ⟨_, he.eval⟩⟩, ?_, fun hout => absurd he.inBounds hout, ?_⟩
    · intro v hv
      obtain rfl := Except.ok.inj (he.eval.symm.trans hv)
      exact ⟨n, rfl, he.value⟩
    · intro fault hfault
      rw [he.eval] at hfault
      cases hfault
  · obtain ⟨s', hs', hout⟩ := he.exists_not_inBounds
    refine ⟨⟨?_, fun hin => absurd (hin s' hs') hout⟩, ?_, fun _ => ⟨s, he.first, he.eval⟩, ?_⟩
    · rintro ⟨v, hv⟩
      rw [he.eval] at hv
      cases hv
    · intro v hv
      rw [he.eval] at hv
      cases hv
    · intro fault hfault
      rw [he.eval] at hfault
      exact failure_ne_typeError s fault (Except.error.inj hfault)

/-- `(-2 ^ 63 / (+1)) + (-3)!` overflows at the quotient, and the factorial is not looked at. -/
theorem eval_least_quotient :
    let quotient : Expr := .binary .div (.integer Int64.minValue) (.signed .plus (.integer 1))
    let e : Expr := .binary .add quotient (.factorial (.signed .minus (.integer 3)))
    e.IsIntegral ∧ e.firstFailing? = some quotient ∧ e.eval = .error .overflow := by
  intro quotient e
  have hint : e.IsIntegral := by simp [e, quotient, Expr.IsIntegral, BinaryOperator.IsExact]
  have hfirst : e.firstFailing? = some quotient := by decide
  have hout : ¬ ∀ s ∈ e.postorder, s.InBounds := by decide
  obtain ⟨s, hs, heval⟩ := (eval_eq_exactValue hint).2.2.1 hout
  obtain rfl := Option.some.inj (hfirst.symm.trans hs)
  exact ⟨hint, hfirst, heval⟩

end Main

end Calculator
