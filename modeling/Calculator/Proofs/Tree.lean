import Calculator.Expr

/-!
# Calculator.Proofs.Tree — expressions as they are written

A `Tree` is an expression with its parentheses, in which Euler's number as a factor is told from a product.
`Tree.erase` forgets both and leaves the expression that is meant.
-/

namespace Calculator

/-- An expression as it is written. -/
inductive Tree where
  | integer (value : Int64)
  | float (value : Float)
  | euler
  | group (inner : Tree)
  | call (procedure : Procedure) (argument : Tree)
  | signed (sign : Sign) (operand : Tree)
  | factorial (operand : Tree)
  /-- Euler's number as a factor without a sign. -/
  | eulerFold (operand : Tree)
  | binary (operator : BinaryOperator) (left right : Tree)
deriving DecidableEq

namespace Tree

/-- The expression that is meant. -/
def erase : Tree → Expr
  | .integer n => .integer n
  | .float x => .float x
  | .euler => .euler
  | .group t => t.erase
  | .call p t => .call p t.erase
  | .signed s t => .signed s t.erase
  | .factorial t => .factorial t.erase
  | .eulerFold t => .binary .mul t.erase .euler
  | .binary op l r => .binary op l.erase r.erase

end Tree

end Calculator
