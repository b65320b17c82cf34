import Calculator.Rules
import Calculator.Expr
import Calculator.Diagnostic

/-!
# Calculator.Pratt — one expression, one strategy for each rule

`Pratt.expression base` reads an operand by the rule of its first token and extends it for as long as the next
token binds tighter than `base`. Each rule has its strategy: `grouping`, `call` and `sign` for operands,
`binary` for the operators between two. A right operand is read at the tier of its operator, so chains of one
tier group to the left; the operand of a sign is read at the tier of the sum, whatever stands before the sign.

A strategy begins on its first token and ends on its last one. Each result carries a bound on the tokens that
are left, and with it the proof that strategies which call each other come to an end.

`readExpr` is one attempt of the parser: what it comes to, and the tokens from the current one on.
-/

namespace Calculator

namespace Pratt

/-- A place among `n` tokens. -/
structure Position (n : Nat) where
  current : Token
  /-- The tokens behind the current one. -/
  rest : List Token
  rest_lt : rest.length < n

/-- An expression read from `n` tokens, up to the current one. -/
structure Span (n : Nat) extends Position n where
  expr : Expr

/-- A failure to read an expression from `n` tokens. -/
structure Failure (n : Nat) where
  diagnostic : Diagnostic
  /-- The tokens from the current one on. -/
  left : List Token
  left_le : left.length ≤ n

abbrev Result (n : Nat) := Except (Failure n) (Span n)

section

variable {m n : Nat}

namespace Result

/-- Goes on from what comes of the last `m` tokens. -/
def andThen (h : m ≤ n) (r : Result m) (next : Span m → Result n) : Result n :=
  match r with
  | .ok s => next s
  | .error f => .error ⟨f.diagnostic, f.left, Nat.le_trans f.left_le h⟩

/-- What comes of the last `m` tokens. -/
def within (h : m ≤ n) (r : Result m) : Result n :=
  r.andThen h fun s => .ok ⟨⟨s.current, s.rest, Nat.lt_of_lt_of_le s.rest_lt h⟩, s.expr⟩

end Result

namespace Position

/-- Fails with the current token left. -/
def fail {α : Type} (p : Position n) (d : Diagnostic) : Except (Failure n) α :=
  .error ⟨d, p.current :: p.rest, p.rest_lt⟩

/-- Moves to the next token, which has to be of the kind `due`. -/
def expectNext (due : TokenKind) : (p : Position n) → Except (Failure n) (Position p.rest.length)
  | ⟨current, [], h⟩ => fail ⟨current, [], h⟩ (.expected due .eof)
  | ⟨current, t :: ts, h⟩ =>
    if t.kind = due then .ok ⟨t, ts, Nat.lt_succ_self ts.length⟩
    else fail ⟨current, t :: ts, h⟩ (.expected due t.kind)

end Position

/-- A number whose value is `e?`, on its only token. -/
def literal (kind : TokenKind) (e? : Option Expr) (p : Position n) : Result n :=
  match e? with
  | some e => .ok ⟨p, e⟩
  | none => p.fail (.invalidLiteral p.current.text kind)

end

mutual

/-- An expression whose operators all bind tighter than `base`. -/
def expression (base : Tier) : (ts : List Token) → Result ts.length
  | [] => .error ⟨.noOperand Token.eof.kind Token.eof.text, [], Nat.le_refl 0⟩
  | t :: ts =>
    match t.kind.operandRule? with
    | none => .error ⟨.noOperand t.kind t.text, t :: ts, Nat.le_refl _⟩
    | some rule => do
      let left ← operand rule ⟨t, ts, Nat.lt_succ_self ts.length⟩
      extend base left
termination_by ts => (ts.length, 0)
decreasing_by
  · exact Prod.Lex.left _ _ (Nat.lt_succ_self ts.length)
  · exact Prod.Lex.left _ _ left.rest_lt

/-- An operand that starts on the current token. -/
def operand {n : Nat} (rule : OperandRule) (p : Position n) : Result n :=
  match rule with
  | .integer => literal .integer (p.current.integer?.map .integer) p
  | .float => literal .float (p.current.float?.map .float) p
  | .euler => .ok ⟨p, .euler⟩
  | .group => grouping p
  | .call => call p
  | .sign => sign p
termination_by (p.rest.length, 3)

/-- `( expression )`, on the opening parenthesis. -/
def grouping {n : Nat} (p : Position n) : Result n := do
  let inner ← (expression .lowest p.rest).within (Nat.le_of_lt p.rest_lt)
  let close ← inner.expectNext .rightParen
  return ⟨⟨close.current, close.rest, Nat.lt_trans close.rest_lt inner.rest_lt⟩, inner.expr⟩
termination_by (p.rest.length, 1)

/-- `procedure ( expression )`, on the name of the procedure. -/
def call {n : Nat} (p : Position n) : Result n :=
  match Procedure.ofName? p.current.text with
  | none => p.fail (.unexpected p.current.text)
  | some f => do
    let paren ← p.expectNext .leftParen
    let argument ← (grouping paren).within (Nat.le_of_lt p.rest_lt)
    return ⟨argument.toPosition, .call f argument.expr⟩
termination_by (p.rest.length, 2)
decreasing_by exact Prod.Lex.left _ _ paren.rest_lt

/-- `+ expression` or `- expression`, on the sign. -/
def sign {n : Nat} (p : Position n) : Result n := do
  let inner ← (expression p.current.kind.tier p.rest).within (Nat.le_of_lt p.rest_lt)
  return ⟨inner.toPosition, .signed (Sign.ofKind p.current.kind) inner.expr⟩
termination_by (p.rest.length, 1)

/-- `left operator expression`, on the operator. -/
def binary {n : Nat} (left : Expr) (p : Position n) : Result n :=
  match BinaryOperator.ofToken? p.current with
  | none => p.fail (.unexpected p.current.text)
  | some op => do
    let right ← (expression p.current.kind.tier p.rest).within (Nat.le_of_lt p.rest_lt)
    return ⟨right.toPosition, .binary op left right.expr⟩
termination_by (p.rest.length, 1)

/-- `left` joined to what stands on the current token and behind it. -/
def join {n : Nat} (rule : InfixRule) (left : Expr) (p : Position n) : Result n :=
  match rule with
  | .binary => binary left p
  | .euler => .ok ⟨p, .binary .mul left .euler⟩
termination_by (p.rest.length, 2)

/-- `left` with all that follows it and binds tighter than `base`. -/
def extend {n : Nat} (base : Tier) (left : Span n) : Result n :=
  match left with
  | ⟨⟨_, [], _⟩, _⟩ => .ok left
  | ⟨⟨_, t :: ts, h⟩, e⟩ =>
    if base < t.kind.tier then
      match t.kind.infixRule?, t.kind.postfixRule? with
      | some rule, _ =>
        (join rule e ⟨t, ts, Nat.lt_succ_self ts.length⟩).andThen (Nat.le_of_lt h) fun r =>
          extend base ⟨⟨r.current, r.rest, Nat.lt_trans r.rest_lt h⟩, r.expr⟩
      | none, some .factorial => extend base ⟨⟨t, ts, Nat.lt_of_succ_lt h⟩, .factorial e⟩
      | none, none => .ok left
    else .ok left
termination_by (left.rest.length, 0)
decreasing_by
  · exact Prod.Lex.left _ _ (Nat.lt_succ_self ts.length)
  · exact Prod.Lex.left _ _ r.rest_lt
  · exact Prod.Lex.left _ _ (Nat.lt_succ_self ts.length)

end

end Pratt

/-- Reads the expression at the start of a token list, with all tokens of tiers above `base` that follow. Gives
the expression, or the one diagnostic, and the tokens from the current one on: the last token of the expression,
or the token that could not be used. -/
def readExpr (base : Tier) (ts : List Token) : Except Diagnostic Expr × List Token :=
  match Pratt.expression base ts with
  | .ok r => (.ok r.expr, r.current :: r.rest)
  | .error f => (.error f.diagnostic, f.left)

theorem readExpr_nil (base : Tier) : readExpr base [] = (.error (.noOperand .eof ""), []) := by
  rw [readExpr, Pratt.expression]
  rfl

/-- Behind the current token fewer tokens are left than before. -/
theorem length_tail_readExpr_lt (base : Tier) (t : Token) (ts : List Token) :
    (readExpr base (t :: ts)).2.tail.length < (t :: ts).length := by
  unfold readExpr
  cases Pratt.expression base (t :: ts) with
  | ok r => exact r.rest_lt
  | error f =>
    have h := f.left_le
    simp only [List.length_tail, List.length_cons] at h ⊢
    omega

end Calculator
