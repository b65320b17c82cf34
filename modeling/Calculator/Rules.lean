import Calculator.Operator
import Calculator.Decimal
import Calculator.Integer

/-!
# Calculator.Rules — what a token can do in an expression

By its kind a token starts an operand, joins two operands or completes the operand before it. An `OperandRule`,
an `InfixRule` or a `PostfixRule` says how; a kind may have rules of more than one sort, or none. The tokens of
numbers also denote a value, unless it is out of range.
-/

namespace Calculator

/-- How a token starts an operand. -/
inductive OperandRule where
  | integer
  | float
  | euler
  | group
  | call
  | sign
deriving DecidableEq, Repr

/-- How a token joins the operand before it to one behind it. -/
inductive InfixRule where
  | binary
  | euler
deriving DecidableEq, Repr

/-- How a token completes the operand before it. -/
inductive PostfixRule where
  | factorial
deriving DecidableEq, Repr

namespace TokenKind

def operandRule? : TokenKind → Option OperandRule
  | .integer => some .integer
  | .float => some .float
  | .euler => some .euler
  | .leftParen => some .group
  | .procedure => some .call
  | .plus | .minus => some .sign
  | _ => none

/-- How tokens of a kind join two operands, if they do. A procedure has the rule of an operator, although only
the radical is one. -/
def infixRule? : TokenKind → Option InfixRule
  | .plus | .minus | .asterisk | .slash | .exponent | .power | .procedure => some .binary
  | .euler => some .euler
  | _ => none

def postfixRule? : TokenKind → Option PostfixRule
  | .factorial => some .factorial
  | _ => none

theorem operandRule?_eq_integer {k : TokenKind} (h : k.operandRule? = some .integer) : k = .integer := by
  cases k <;> first | rfl | cases h

theorem operandRule?_eq_float {k : TokenKind} (h : k.operandRule? = some .float) : k = .float := by
  cases k <;> first | rfl | cases h

/-- The operand of a sign is read at the tier of the sum. -/
theorem tier_of_sign {k : TokenKind} (h : k.operandRule? = some .sign) : k.tier = .sum := by
  cases k <;> first | rfl | cases h

end TokenKind

def Sign.ofKind (k : TokenKind) : Sign := if k = .plus then .plus else .minus

/-- The integer that a token denotes, unless it is out of range. -/
def Token.integer? (t : Token) : Option Int64 :=
  (Decimal.natural? t.text.toList).bind fun n => narrow? n

def Token.float? (t : Token) : Option Float := (Decimal.ofChars? t.text.toList).map Decimal.toFloat

end Calculator
