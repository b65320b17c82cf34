import Calculator.Operator
import Calculator.Decimal.Style

/-!
# Calculator.Expr — expressions and programs

An expression is a tree of literals, signs, factorials, binary operators and calls. Parentheses leave no node:
`Expr.render` writes every node but literals and calls in parentheses of its own, so the grouping is visible.

A `Program` is what was read from one source. A source without diagnostics gives at most one statement.
-/

namespace Calculator

inductive Expr where
  | integer (value : Int64)
  | float (value : Float)
  | signed (sign : Sign) (operand : Expr)
  | factorial (operand : Expr)
  | binary (operator : BinaryOperator) (left right : Expr)
  | call (procedure : Procedure) (argument : Expr)
deriving DecidableEq

/-- Euler's number to eleven digits. Every result that is built from `e` depends on this very value. -/
def eulerNumber : Float := 2.7182818284

namespace Expr

def euler : Expr := .float eulerNumber

/-- An expression with all its grouping shown. -/
def render : Expr → String
  | .integer n => String.ofList (Decimal.integerChars n.toInt)
  | .float x => Binary64.literalText x
  | .signed s e => "(" ++ s.symbol ++ e.render ++ ")"
  | .factorial e => "(" ++ e.render ++ "!)"
  | .binary op l r => "(" ++ l.render ++ " " ++ op.symbol ++ " " ++ r.render ++ ")"
  | .call p e => p.name ++ "(" ++ e.render ++ ")"

end Expr

/-- The expressions read from one source, in order. -/
structure Program where
  statements : List Expr
deriving DecidableEq

namespace Program

def render (p : Program) : String := "; ".intercalate (p.statements.map Expr.render)

end Program

end Calculator
