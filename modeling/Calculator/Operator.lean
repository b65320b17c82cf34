import Calculator.Tier

/-!
# Calculator.Operator — signs, operators and procedures

The symbols of expressions: the two signs, the seven binary operators with their tiers, and the nine
procedures with their names. Each is written in one way only.
-/

namespace Calculator

inductive Sign where
  | plus
  | minus
deriving DecidableEq, Repr

def Sign.symbol : Sign → String
  | .plus => "+"
  | .minus => "-"

inductive BinaryOperator where
  | add
  | sub
  | mul
  | div
  /-- Scientific notation: `m E k` is `m` times ten to the `k`. -/
  | exponent
  | power
  /-- The radical between operands: `a √ b` is the `a`-th root of `b`. -/
  | root
deriving DecidableEq, Repr

namespace BinaryOperator

def symbol : BinaryOperator → String
  | .add => "+"
  | .sub => "-"
  | .mul => "*"
  | .div => "/"
  | .exponent => "E"
  | .power => "^"
  | .root => "√"

/-- The tier of an operator, and of its right operand. -/
def tier : BinaryOperator → Tier
  | .add | .sub => .sum
  | .mul | .div | .exponent | .power => .product
  | .root => .call

/-- The operator that a token is between two operands. Of the procedures only the radical is one. -/
def ofToken? (t : Token) : Option BinaryOperator :=
  match t.kind with
  | .plus => some .add
  | .minus => some .sub
  | .asterisk => some .mul
  | .slash => some .div
  | .exponent => some .exponent
  | .power => some .power
  | .procedure => if t.text = "√" then some .root else none
  | _ => none

end BinaryOperator

inductive Procedure where
  | sin
  | cos
  | tan
  | arcsin
  | arccos
  | arctan
  | log
  /-- The natural logarithm. -/
  | ln
  | sqrt
deriving DecidableEq, Repr

namespace Procedure

def name : Procedure → String
  | .sin => "sin"
  | .cos => "cos"
  | .tan => "tan"
  | .arcsin => "arcsin"
  | .arccos => "arccos"
  | .arctan => "arctan"
  | .log => "log"
  | .ln => "ln"
  | .sqrt => "√"

def all : List Procedure := [.sin, .cos, .tan, .arcsin, .arccos, .arctan, .log, .ln, .sqrt]

def ofName? (name : String) : Option Procedure := all.find? fun p => p.name = name

/-- A procedure is found under its name. -/
theorem ofName?_name (p : Procedure) : ofName? p.name = some p := by cases p <;> decide

end Procedure

end Calculator
