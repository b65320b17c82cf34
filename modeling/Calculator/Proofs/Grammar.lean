import Calculator.Proofs.Scanning

/-!
# Calculator.Proofs.Grammar — the grammar of expressions

    expr    ::= unit (operator unit)*
    unit    ::= sign* suffixed
    suffixed ::= primary postfix*
    primary ::= literal | "e" | "(" expr ")" | procedure "(" expr ")"

The grammar knows no tiers: it says which token lists are expressions, and not how they are grouped.
`Derives` has one rule for each way to build a part, with the repetitions unrolled from the left or from the
right. A token list is viable if it can be completed to an expression (`Viable`).
-/

namespace Calculator

/-! ## Classes of tokens -/

theorem inRange_natCast_iff {n : Nat} : InRange n ↔ n < 2 ^ 63 := by
  rw [InRange, Int64.toInt_minValue, Int64.toInt_maxValue]
  omega

namespace Token

/-- A float, or an integer within the range. -/
def IsLiteral (t : Token) : Prop := t.kind = .float ∨ t.kind = .integer ∧ t.value < 2 ^ 63

def IsSign (t : Token) : Prop := t.kind = .plus ∨ t.kind = .minus

/-- The sign `!`, or Euler's number as a factor. -/
def IsPostfix (t : Token) : Prop := t.kind = .factorial ∨ t.kind = .euler

/-- An operator between two operands. Of the procedures only the radical is one. -/
def IsOperator (t : Token) : Prop :=
  t.kind ∈ [.plus, .minus, .asterisk, .slash, .exponent, .power] ∨ t.kind = .procedure ∧ t.text = "√"

/-- The last token of an operand is of one of these kinds. -/
def EndsOperand (t : Token) : Prop := t.kind ∈ [.integer, .float, .euler, .rightParen, .factorial]

instance (t : Token) : Decidable t.IsLiteral := inferInstanceAs (Decidable (_ ∨ _))

instance (t : Token) : Decidable t.IsSign := inferInstanceAs (Decidable (_ ∨ _))

instance (t : Token) : Decidable t.IsPostfix := inferInstanceAs (Decidable (_ ∨ _))

instance (t : Token) : Decidable t.IsOperator := inferInstanceAs (Decidable (_ ∨ _))

theorem isOperator_iff {t : Token} : t.IsOperator ↔ ∃ op, BinaryOperator.ofToken? t = some op := by
  unfold IsOperator BinaryOperator.ofToken?
  cases t.kind <;> simp

end Token

def Sign.kind : Sign → TokenKind
  | .plus => .plus
  | .minus => .minus

theorem Sign.isSign_of_kind {s : Sign} {t : Token} (h : t.kind = s.kind) : t.IsSign := by
  cases s
  · exact Or.inl h
  · exact Or.inr h

theorem Sign.exists_kind_of_isSign {t : Token} (h : t.IsSign) : ∃ s : Sign, t.kind = s.kind := by
  rcases h with h | h
  · exact ⟨.plus, h⟩
  · exact ⟨.minus, h⟩

def BinaryOperator.kind : BinaryOperator → TokenKind
  | .add => .plus
  | .sub => .minus
  | .mul => .asterisk
  | .div => .slash
  | .exponent => .exponent
  | .power => .power
  | .root => .procedure

theorem BinaryOperator.kind_of_ofToken? {t : Token} {op : BinaryOperator} (h : ofToken? t = some op) :
    t.kind = op.kind := by
  unfold ofToken? at h
  cases hk : t.kind <;> simp [hk] at h
  case procedure =>
    obtain ⟨-, rfl⟩ := h
    rfl
  all_goals
    obtain rfl := h
    rfl

/-! ## Derivations -/

inductive Part where
  | expr
  | unit
  | suffixed
  | primary
deriving DecidableEq, Repr

/-- The token lists that make up a part. -/
inductive Derives : Part → List Token → Prop where
  | literal {t : Token} : t.IsLiteral → Derives .primary [t]
  | euler {t : Token} : t.kind = .euler → Derives .primary [t]
  | group {l r : Token} {ts : List Token} : l.kind = .leftParen → Derives .expr ts → r.kind = .rightParen →
      Derives .primary (l :: (ts ++ [r]))
  | call {name l r : Token} {ts : List Token} : name.kind = .procedure → l.kind = .leftParen →
      Derives .expr ts → r.kind = .rightParen → Derives .primary (name :: l :: (ts ++ [r]))
  | primary {ts : List Token} : Derives .primary ts → Derives .suffixed ts
  | suffix {t : Token} {ts : List Token} : Derives .suffixed ts → t.IsPostfix → Derives .suffixed (ts ++ [t])
  | suffixed {ts : List Token} : Derives .suffixed ts → Derives .unit ts
  | sign {t : Token} {ts : List Token} : t.IsSign → Derives .unit ts → Derives .unit (t :: ts)
  | unit {ts : List Token} : Derives .unit ts → Derives .expr ts
  | operator {t : Token} {ls rs : List Token} : Derives .expr ls → t.IsOperator → Derives .unit rs →
      Derives .expr (ls ++ t :: rs)

/-- A token list that some continuation, possibly an empty one, completes to an expression. -/
def Viable (ts : List Token) : Prop := ∃ rest, (∀ t ∈ rest, t.Scanned) ∧ Derives .expr (ts ++ rest)

namespace Derives

variable {t : Token} {ls rs ts : List Token}

theorem sign_expr (ht : t.IsSign) (h : Derives .expr ts) : Derives .expr (t :: ts) := by
  generalize hn : Part.expr = n at h
  induction h with
  | unit h => exact .unit (.sign ht h)
  | operator _ ho hr ih => exact .operator (ih hn) ho hr
  | literal | euler | group | call | primary | suffix | suffixed | sign => cases hn

theorem suffix_unit (ht : t.IsPostfix) (h : Derives .unit ts) : Derives .unit (ts ++ [t]) := by
  generalize hn : Part.unit = n at h
  induction h with
  | suffixed h => exact .suffixed (.suffix h ht)
  | sign hs _ ih => exact .sign hs (ih hn)
  | literal | euler | group | call | primary | suffix | unit | operator => cases hn

theorem suffix_expr (ht : t.IsPostfix) (h : Derives .expr ts) : Derives .expr (ts ++ [t]) := by
  cases h with
  | unit h => exact .unit (suffix_unit ht h)
  | operator hl ho hr =>
    rw [List.append_assoc, List.cons_append]
    exact .operator hl ho (suffix_unit ht hr)

theorem operator_expr (hl : Derives .expr ls) (ht : t.IsOperator) (hr : Derives .expr rs) :
    Derives .expr (ls ++ t :: rs) := by
  generalize hn : Part.expr = n at hr
  induction hr with
  | unit h => exact .operator hl ht h
  | @operator o ms us _ ho hu ih =>
    have hassoc : ls ++ t :: (ms ++ o :: us) = (ls ++ t :: ms) ++ o :: us := by simp
    rw [hassoc]
    exact .operator (ih hn) ho hu
  | literal | euler | group | call | primary | suffix | suffixed | sign => cases hn

theorem exists_last {n : Part} (h : Derives n ts) :
    ∃ us u, ts = us ++ [u] ∧ u.EndsOperand := by
  induction h with
  | literal h => exact ⟨[], _, rfl, by rcases h with h | ⟨h, -⟩ <;> simp [Token.EndsOperand, h]⟩
  | euler h => exact ⟨[], _, rfl, by simp [Token.EndsOperand, h]⟩
  | group _ _ hr _ => exact ⟨_ :: _, _, rfl, by simp [Token.EndsOperand, hr]⟩
  | call _ _ _ hr _ => exact ⟨_ :: _ :: _, _, rfl, by simp [Token.EndsOperand, hr]⟩
  | suffix _ ht _ => exact ⟨_, _, rfl, by rcases ht with h | h <;> simp [Token.EndsOperand, h]⟩
  | primary _ ih | suffixed _ ih | unit _ ih => exact ih
  | sign _ _ ih =>
    obtain ⟨us, u, rfl, hu⟩ := ih
    exact ⟨_ :: us, u, rfl, hu⟩
  | @operator o ls _ _ _ _ _ ih =>
    obtain ⟨us, u, rfl, hu⟩ := ih
    exact ⟨ls ++ o :: us, u, by simp, hu⟩

theorem ne_nil {n : Part} (h : Derives n ts) : ts ≠ [] := by
  obtain ⟨us, u, rfl, -⟩ := h.exists_last
  simp

theorem exists_unit_suffix (h : Derives .expr ts) : ∃ us, us <:+ ts ∧ Derives .unit us := by
  cases h with
  | unit h => exact ⟨ts, List.suffix_refl ts, h⟩
  | operator _ _ hr => exact ⟨_, (List.suffix_cons _ _).trans (List.suffix_append _ _), hr⟩

end Derives

end Calculator
