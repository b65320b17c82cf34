import Calculator.Proofs.Reading

/-!
# Calculator.Proofs.Strategies — strategies and readings

The strategies of `Pratt` and the readings of `Reading` come to the same (`readExpr_eq_read`). Wherever a strategy
is called, in whatever constructs, a reading with these constructs open goes from the first token of the strategy
to its last one, or stops at the same token for the same reason (`Agrees`). There is one lemma for each strategy.
They are assembled by induction on the number of tokens, for all open constructs at once.
-/

namespace Calculator

namespace Pratt

open Reading

variable {m n k : Nat} {base top : Tier} {fs : List Frame} {f : Frame} {c : Tree → Tree} {t last : Token}
  {ts : List Token} {e : Expr} {start : Except Diagnostic Expr × List Token}

/-! ## Where an expression stops -/

/-- The token behind the expression does not join it above `base`. -/
def Span.Stops (base : Tier) (r : Span n) : Prop := ¬ base < nextTier r.rest

theorem extend_of_stops : ∀ {left : Span n}, left.Stops base → extend base left = .ok left
  | ⟨⟨last, [], hl⟩, e⟩, _ => by rw [extend]
  | ⟨⟨last, t :: ts, hl⟩, e⟩, h => by
    have ht : ¬ base < t.kind.joiningTier := h
    rw [extend]
    split
    · next hlt =>
      split
      · next hr =>
        rw [TokenKind.joiningTier_of_infixRule? hr] at ht
        exact absurd hlt ht
      · next hp =>
        rw [TokenKind.joiningTier_of_postfixRule? hp] at ht
        exact absurd hlt ht
      · rfl
    · rfl

theorem extend_of_infixRule? {rule : InfixRule} (hl : (t :: ts).length < n) (h : base < t.kind.joiningTier)
    (hr : t.kind.infixRule? = some rule) :
    extend base (⟨⟨last, t :: ts, hl⟩, e⟩ : Span n) =
      (join rule e ⟨t, ts, Nat.lt_succ_self ts.length⟩).andThen (Nat.le_of_lt hl) fun r =>
        extend base ⟨⟨r.current, r.rest, Nat.lt_trans r.rest_lt hl⟩, r.expr⟩ := by
  rw [TokenKind.joiningTier_of_infixRule? hr] at h
  rw [extend, if_pos h]
  simp only [hr]

theorem extend_of_factorial (hl : (t :: ts).length < n) (h : base < t.kind.joiningTier)
    (hr : t.kind.infixRule? = none) :
    extend base (⟨⟨last, t :: ts, hl⟩, e⟩ : Span n) =
      extend base ⟨⟨t, ts, Nat.lt_of_succ_lt hl⟩, .factorial e⟩ := by
  cases hp : t.kind.postfixRule? with
  | none =>
    rw [TokenKind.joiningTier_of_no_rule hr hp] at h
    exact absurd h (Tier.not_lt_lowest base)
  | some rule =>
    cases rule
    rw [TokenKind.joiningTier_of_postfixRule? hp] at h
    rw [extend, if_pos h]
    simp only [hr, hp]

/-- An extended expression stops where nothing joins it any more. -/
theorem stops_of_extend : ∀ (left : Span n) {r : Span n}, extend base left = .ok r → r.Stops base
  | ⟨⟨last, [], hl⟩, e⟩, r, h => by
    rw [extend] at h
    obtain rfl := Except.ok.inj h
    exact Tier.not_lt_lowest base
  | ⟨⟨last, t :: ts, hl⟩, e⟩, r, h => by
    by_cases ht : base < t.kind.joiningTier
    · cases hr : t.kind.infixRule? with
      | none =>
        rw [extend_of_factorial hl ht hr] at h
        exact stops_of_extend _ h
      | some rule =>
        rw [extend_of_infixRule? hl ht hr] at h
        cases hj : join rule e ⟨t, ts, Nat.lt_succ_self ts.length⟩ with
        | error failure =>
          rw [hj] at h
          cases h
        | ok joined =>
          rw [hj] at h
          have hlt := joined.rest_lt
          exact stops_of_extend _ h
    · have hs : Span.Stops base ⟨⟨last, t :: ts, hl⟩, e⟩ := ht
      rw [extend_of_stops hs] at h
      exact Except.ok.inj h ▸ hs
termination_by left => left.rest.length

theorem stops_of_expression {r : Span ts.length} (h : expression base ts = .ok r) : r.Stops base := by
  cases ts with
  | nil =>
    rw [expression] at h
    cases h
  | cons t ts =>
    rw [expression] at h
    split at h
    · cases h
    · next rule _ =>
      cases ho : operand rule ⟨t, ts, Nat.lt_succ_self ts.length⟩ with
      | error f =>
        rw [ho] at h
        cases h
      | ok left =>
        rw [ho] at h
        exact stops_of_extend left h

/-! ## Readings follow the strategies -/

/-- A result agrees with a reading that comes to `start` in the end: on its way the reading gets behind the operand
that `c` makes of the expression, with the frames `fs` open, or it comes to the failure. -/
def Agrees (top : Tier) (fs : List Frame) (c : Tree → Tree) (start : Except Diagnostic Expr × List Token) :
    Result n → Prop
  | .ok r => ∃ g : Tree, g.erase = r.expr ∧ start = read top (.continuation (c g) r.current fs) r.rest
  | .error f => start = (.error f.diagnostic, f.left)

/-- Expressions of fewer than `k` tokens are read as by their strategies, in whatever constructs. -/
def ReadsBelow (k : Nat) : Prop :=
  ∀ (base top : Tier) (fs : List Frame) (ts : List Token), ts.length < k → innerTier top fs = base →
    Agrees top fs id (read top (.operand fs) ts) (expression base ts)

/-- A strategy that builds its expression around an inner one agrees, if the reading builds it in the same way. -/
theorem Agrees.wrap {gs : List Frame} {r : Result m} {w : Expr → Expr} {d : Tree → Tree} (h : m ≤ n)
    (ha : Agrees top gs c start r) (hw : ∀ g : Tree, (d g).erase = w g.erase)
    (hd : ∀ (s : Span m) (g : Tree), r = .ok s →
      read top (.continuation (c g) s.current gs) s.rest = read top (.continuation (d g) s.current fs) s.rest) :
    Agrees top fs id start (do
      let s ← r.within h
      return (⟨s.toPosition, w s.expr⟩ : Span n)) := by
  cases r with
  | error failure => exact ha
  | ok s =>
    obtain ⟨g, hg, hread⟩ := ha
    exact ⟨d g, (hw g).trans (congrArg w hg), hread.trans (hd s g rfl)⟩

section Operands

variable {p : Position n}

theorem agrees_literal {α : Type} {v : Option α} {g : α → Tree} {w : α → Expr} {kind : TokenKind}
    (hg : ∀ a, (g a).erase = w a)
    (hb : beginOperand? fs p.current = v.map fun a => .continuation (g a) p.current fs)
    (hm : missingOperand p.current = .invalidLiteral p.current.text kind) :
    Agrees top fs id (read top (.operand fs) (p.current :: p.rest)) (literal kind (v.map w) p) := by
  cases v with
  | none => exact (read_of_missing hb p.rest).trans (by rw [hm])
  | some a => exact ⟨g a, hg a, read_of_beginOperand? hb p.rest⟩

theorem agrees_grouping (hk : ReadsBelow k) (hp : p.rest.length < k) (hf : f.Encloses c) :
    Agrees top fs c (read top (.operand (f :: fs)) p.rest) (grouping p) := by
  have hinner := hk .lowest top (f :: fs) p.rest hp (innerTier_encloses hf)
  rw [grouping]
  cases he : expression .lowest p.rest with
  | error failure =>
    rw [he] at hinner
    exact hinner
  | ok r =>
    rw [he] at hinner
    obtain ⟨g, hg, hread⟩ := hinner
    have hstop := stops_of_expression he
    obtain ⟨⟨last, us, hl⟩, e⟩ := r
    cases us with
    | nil => exact hread.trans (read_unclosed hf hstop TokenKind.noConfusion)
    | cons t us =>
      by_cases ht : t.kind = .rightParen
      · simp only [Result.within, Result.andThen, Position.expectNext, if_pos ht, bind, Except.bind]
        exact ⟨g, hg, hread.trans (read_close hf ht us)⟩
      · simp only [Result.within, Result.andThen, Position.expectNext, if_neg ht, bind, Except.bind]
        exact hread.trans (read_unclosed hf hstop ht)

theorem agrees_call (hk : ReadsBelow k) (hp : p.rest.length < k) (hr : p.current.kind.operandRule? = some .call) :
    Agrees top fs id (read top (.operand fs) (p.current :: p.rest)) (call p) := by
  have hbegin : beginOperand? fs p.current =
      (Procedure.ofName? p.current.text).map fun q => .opening q p.current fs := by
    rw [beginOperand?, hr]
  have hmissing : missingOperand p.current = .unexpected p.current.text := by rw [missingOperand, hr]
  rw [call]
  cases hq : Procedure.ofName? p.current.text with
  | none =>
    rw [hq] at hbegin
    exact (read_of_missing hbegin p.rest).trans (by rw [hmissing])
  | some q =>
    rw [hq] at hbegin
    rw [read_of_beginOperand? hbegin]
    obtain ⟨name, ts, hl⟩ := p
    cases ts with
    | nil => exact read_unopened TokenKind.noConfusion
    | cons t ts =>
      by_cases ht : t.kind = .leftParen
      · have hts : ts.length < k := Nat.lt_of_succ_lt hp
        simp only [Position.expectNext, if_pos ht, bind, Except.bind]
        rw [read_opening ht]
        exact (agrees_grouping (p := ⟨t, ts, _⟩) hk hts (.argument q)).wrap (d := .call q) _ (fun _ => rfl)
          fun _ _ _ => rfl
      · simp only [Position.expectNext, if_neg ht, bind, Except.bind]
        exact read_unopened ht

theorem agrees_sign (hk : ReadsBelow k) (hp : p.rest.length < k) (hr : p.current.kind.operandRule? = some .sign) :
    Agrees top fs id (read top (.operand fs) (p.current :: p.rest)) (sign p) := by
  have hbegin : beginOperand? fs p.current = some (.operand (.sign (Sign.ofKind p.current.kind) :: fs)) := by
    rw [beginOperand?, hr]
  have hinner := hk .sum top (.sign (Sign.ofKind p.current.kind) :: fs) p.rest hp rfl
  rw [sign, read_of_beginOperand? hbegin, TokenKind.tier_of_sign hr]
  refine hinner.wrap (d := .signed (Sign.ofKind p.current.kind)) _ (fun _ => rfl) fun r g he => ?_
  exact read_continuation_congr (if_neg (stops_of_expression he))

theorem agrees_operand (hk : ReadsBelow k) (hp : p.rest.length < k) {rule : OperandRule}
    (hr : p.current.kind.operandRule? = some rule) :
    Agrees top fs id (read top (.operand fs) (p.current :: p.rest)) (operand rule p) := by
  rw [operand.eq_def]
  cases rule with
  | integer =>
    have hmissing : missingOperand p.current = .invalidLiteral p.current.text .integer := by
      rw [missingOperand, hr, TokenKind.operandRule?_eq_integer hr]
    exact agrees_literal (g := .integer) (fun _ => rfl) (by rw [beginOperand?, hr]) hmissing
  | float =>
    have hmissing : missingOperand p.current = .invalidLiteral p.current.text .float := by
      rw [missingOperand, hr, TokenKind.operandRule?_eq_float hr]
    exact agrees_literal (g := .float) (fun _ => rfl) (by rw [beginOperand?, hr]) hmissing
  | euler => exact ⟨.euler, rfl, read_of_beginOperand? (by rw [beginOperand?, hr]; rfl) p.rest⟩
  | group =>
    have hinner : Agrees top fs .group (read top (.operand (.group :: fs)) p.rest) (grouping p) :=
      agrees_grouping hk hp .group
    rw [read_of_beginOperand? (by rw [beginOperand?, hr])]
    cases he : grouping p with
    | error failure =>
      rw [he] at hinner
      exact hinner
    | ok r =>
      rw [he] at hinner
      obtain ⟨g, hg, hread⟩ := hinner
      exact ⟨.group g, hg, hread⟩
  | call => exact agrees_call hk hp hr
  | sign => exact agrees_sign hk hp hr

end Operands

/-! ## Behind an operand -/

section Extensions

theorem agrees_binary {p : Position n} (hk : ReadsBelow k) (hp : p.rest.length < k)
    (hr : p.current.kind.infixRule? = some .binary) (hlt : innerTier top fs < p.current.kind.joiningTier) (g : Tree) :
    Agrees top fs id (read top (.continuation g last fs) (p.current :: p.rest)) (binary g.erase p) := by
  have haccept : accept? top (.continuation g last fs) p.current =
      (BinaryOperator.ofToken? p.current).map fun op => .operand (.operator op g :: fs) := by
    rw [accept?_continuation (settle_of_lt hlt g), if_pos hlt, join?, hr]
  rw [binary]
  cases ho : BinaryOperator.ofToken? p.current with
  | none =>
    rw [ho] at haccept
    rw [read_of_refused (by simpa using haccept), List.headD_cons, refuse_continuation (settle_of_lt hlt g), if_pos hlt]
    rfl
  | some op =>
    rw [ho] at haccept
    have htier : p.current.kind.tier = op.tier := by
      rw [← TokenKind.joiningTier_of_infixRule? hr, joiningTier_of_ofToken? ho]
    have hright := hk op.tier top (.operator op g :: fs) p.rest hp rfl
    rw [read_of_accept? haccept, htier]
    refine hright.wrap (d := .binary op g) _ (fun _ => rfl) fun r g' he => ?_
    exact read_continuation_congr (if_neg (stops_of_expression he))

theorem agrees_join {p : Position n} {rule : InfixRule} (hk : ReadsBelow k) (hp : p.rest.length < k)
    (hr : p.current.kind.infixRule? = some rule) (hlt : innerTier top fs < p.current.kind.joiningTier) (g : Tree) :
    Agrees top fs id (read top (.continuation g last fs) (p.current :: p.rest)) (join rule g.erase p) := by
  rw [join.eq_def]
  cases rule with
  | binary => exact agrees_binary hk hp hr hlt g
  | euler =>
    have haccept : accept? top (.continuation g last fs) p.current =
        some (.continuation (.eulerFold g) p.current fs) := by
      rw [accept?_continuation (settle_of_lt hlt g), if_pos hlt, join?, hr]
    exact ⟨.eulerFold g, rfl, read_of_accept? haccept p.rest⟩

theorem agrees_extend (hk : ReadsBelow k) (hb : innerTier top fs = base) :
    ∀ (left : Span n), left.rest.length ≤ k → ∀ g : Tree, g.erase = left.expr →
      Agrees top fs id (read top (.continuation g left.current fs) left.rest) (extend base left)
  | ⟨⟨last, [], hl⟩, e⟩, _, g, hg => by
    rw [extend]
    exact ⟨g, hg, rfl⟩
  | ⟨⟨last, t :: ts, hl⟩, e⟩, hlen, g, hg => by
    obtain rfl : g.erase = e := hg
    by_cases ht : base < t.kind.joiningTier
    · -- the token belongs to the reading and to the strategy, and behind it fewer tokens are left
      have hlt : innerTier top fs < t.kind.joiningTier := hb ▸ ht
      cases hr : t.kind.infixRule? with
      | none =>
        have haccept : accept? top (.continuation g last fs) t = some (.continuation (.factorial g) t fs) := by
          rw [accept?_continuation (settle_of_lt hlt g), if_pos hlt, join?, hr]
        rw [extend_of_factorial hl ht hr, read_of_accept? haccept]
        exact agrees_extend hk hb ⟨⟨t, ts, Nat.lt_of_succ_lt hl⟩, .factorial g.erase⟩ (Nat.le_of_lt hlen)
          (.factorial g) rfl
      | some rule =>
        have hjoin : Agrees top fs id (read top (.continuation g last fs) (t :: ts))
            (join rule g.erase ⟨t, ts, Nat.lt_succ_self ts.length⟩) :=
          agrees_join (p := ⟨t, ts, Nat.lt_succ_self ts.length⟩) hk hlen hr hlt g
        rw [extend_of_infixRule? hl ht hr]
        cases hj : join rule g.erase ⟨t, ts, Nat.lt_succ_self ts.length⟩ with
        | error failure =>
          rw [hj] at hjoin
          exact hjoin
        | ok r =>
          rw [hj] at hjoin
          obtain ⟨g', hg', hread⟩ := hjoin
          have hlt := r.rest_lt
          rw [hread]
          exact agrees_extend hk hb ⟨⟨r.current, r.rest, Nat.lt_trans r.rest_lt hl⟩, r.expr⟩
            (Nat.le_trans (Nat.le_of_lt r.rest_lt) hlen) g' hg'
    · rw [extend_of_stops (show Span.Stops base ⟨⟨last, t :: ts, hl⟩, g.erase⟩ from ht)]
      exact ⟨g, rfl, rfl⟩
termination_by left => left.rest.length

end Extensions

/-! ## Whole expressions -/

/-- Every strategy goes on behind its first token, so the bound on the tokens comes down with each call. -/
theorem readsBelow : ∀ k : Nat, ReadsBelow k
  | 0 => fun _ _ _ ts h => absurd h (Nat.not_lt_zero ts.length)
  | k + 1 => by
    intro base top fs ts hlen hb
    have hk := readsBelow k
    cases ts with
    | nil =>
      rw [expression]
      exact read_of_refused (by simp)
    | cons t ts =>
      have hts : ts.length < k := Nat.lt_of_succ_lt_succ hlen
      rw [expression]
      cases hr : t.kind.operandRule? with
      | none =>
        have hmissing : missingOperand t = .noOperand t.kind t.text := by rw [missingOperand, hr]
        rw [read_of_missing (by rw [beginOperand?, hr]), hmissing]
        rfl
      | some rule =>
        have hop : Agrees top fs id (read top (.operand fs) (t :: ts))
            (operand rule ⟨t, ts, Nat.lt_succ_self ts.length⟩) :=
          agrees_operand (p := ⟨t, ts, Nat.lt_succ_self ts.length⟩) hk hts hr
        dsimp only
        cases ho : operand rule ⟨t, ts, Nat.lt_succ_self ts.length⟩ with
        | error failure =>
          rw [ho] at hop
          exact hop
        | ok left =>
          rw [ho] at hop
          obtain ⟨g, hg, hread⟩ := hop
          have hleft : left.rest.length ≤ k := Nat.le_trans (Nat.le_of_lt_succ left.rest_lt) (Nat.le_of_lt hts)
          rw [hread]
          exact agrees_extend hk hb left hleft g hg

end Pratt

open Pratt Reading in
/-- **Strategies and readings.** What is read by the strategies is read token by token. -/
theorem readExpr_eq_read (base : Tier) (ts : List Token) : readExpr base ts = read base (.operand []) ts := by
  have h := readsBelow (ts.length + 1) base base [] ts (Nat.lt_succ_self ts.length) rfl
  unfold readExpr
  cases he : expression base ts with
  | error failure =>
    rw [he] at h
    exact h.symm
  | ok r =>
    rw [he] at h
    obtain ⟨g, hg, hread⟩ := h
    have hstop : ¬ base < nextTier r.rest := stops_of_expression he
    rw [hread, read_complete hstop, id, hg]

end Calculator
