/-!
# Calculator.Token — the tokens of a calculation

A token is a piece of the source together with its kind. This module holds the kinds, their names in
listings and messages, and the words that name procedures.

* `TokenKind`, `Token`: the two types.
* `Token.eof`: the token that stands for the end of the source, with an empty text.
* `keywords`, `wordKind`: which words are procedures.
-/

namespace Calculator

inductive TokenKind where
  | eof
  | integer
  | float
  | plus
  | minus
  | asterisk
  | slash
  | leftParen
  | rightParen
  | factorial
  /-- The letter `E` of scientific notation. -/
  | exponent
  | power
  /-- The letter `e`, Euler's number. -/
  | euler
  /-- The name of a procedure, or the radical sign. -/
  | procedure
  /-- A word that names nothing, or a character with no meaning. -/
  | illegal
deriving DecidableEq, Repr

/-- The name of a kind in token listings and in messages. -/
def TokenKind.name : TokenKind → String
  | .eof => "EOF"
  | .integer => "INT"
  | .float => "FLOAT"
  | .plus => "+"
  | .minus => "-"
  | .asterisk => "*"
  | .slash => "/"
  | .leftParen => "("
  | .rightParen => ")"
  | .factorial => "!"
  | .exponent => "E"
  | .power => "^"
  | .euler => "e"
  | .procedure => "PROCEDURE"
  | .illegal => "ILLEGAL"

/-- A piece of the source and its kind. -/
@[ext] structure Token where
  kind : TokenKind
  /-- The piece of the source; it is empty only at the end of the source. -/
  text : String
deriving DecidableEq, Repr

def Token.eof : Token := ⟨.eof, ""⟩

def keywords : List String := ["log", "ln", "sin", "cos", "tan", "arcsin", "arccos", "arctan"]

/-- A word is a procedure if it is a keyword and means nothing otherwise. -/
def wordKind (word : String) : TokenKind := if word ∈ keywords then .procedure else .illegal

end Calculator
