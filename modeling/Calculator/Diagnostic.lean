import Calculator.Token

/-!
# Calculator.Diagnostic — why a source could not be read

A diagnostic names the token that could not be used. `Diagnostic.message` is its only wording.
-/

namespace Calculator

/-- Why a token could not be used. -/
inductive Diagnostic where
  /-- An operand was due, and no operand starts with this token. -/
  | noOperand (kind : TokenKind) (text : String)
  /-- The text of a number denotes no value of its kind. -/
  | invalidLiteral (text : String) (kind : TokenKind)
  /-- A token of one certain kind was due. -/
  | expected (due found : TokenKind)
  /-- The token has no use where it stands. -/
  | unexpected (text : String)
deriving DecidableEq, Repr

namespace Diagnostic

def message : Diagnostic → String
  | .noOperand kind text =>
    "no prefix parse function for " ++ kind.name ++ " found" ++ (if text = "" then "" else " ('" ++ text ++ "')")
  | .invalidLiteral text kind =>
    "could not parse \"" ++ text ++ "\" as " ++ (if kind = .float then "float" else "integer")
  | .expected due found => "next token expected to be " ++ due.name ++ ", got " ++ found.name ++ " instead"
  | .unexpected text => "unexpected token '" ++ text ++ "'"

end Diagnostic

end Calculator
