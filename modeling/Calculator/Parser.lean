import Calculator.Pratt
import Calculator.Token.Lexer

/-!
# Calculator.Parser — programs and diagnostics

A `Parser` stands on a token of a source, the current one, and keeps the diagnostics recorded so far.
`Parser.expression` reads one expression from the current token on and stays on its last token.
`Parser.program` reads to the end of the source: after each attempt it goes on behind the current token, whether
the attempt gave an expression or failed. A source holds one expression, so every further attempt is itself
reported.

`length_tail_readExpr_lt` is why a program ends: each attempt uses up at least one token.
-/

namespace Calculator

/-- One attempt to read an expression in the course of a program. -/
structure Attempt where
  /-- The token at which the attempt begins. -/
  first : Token
  outcome : Except Diagnostic Expr

namespace Attempt

def expr? (a : Attempt) : Option Expr :=
  match a.outcome with
  | .ok e => some e
  | .error _ => none

def failure? (a : Attempt) : Option Diagnostic :=
  match a.outcome with
  | .ok _ => none
  | .error d => some d

/-- The attempts that use up a list of tokens. -/
def all : List Token → List Attempt
  | [] => []
  | t :: ts =>
    let reading := readExpr .lowest (t :: ts)
    ⟨t, reading.1⟩ :: all reading.2.tail
termination_by ts => ts.length
decreasing_by exact length_tail_readExpr_lt .lowest t ts

/-- The diagnostics of consecutive attempts. An attempt is reported itself if an expression has been read before
it (`seen`), and so is its failure. -/
def diagnostics (seen : Bool) : List Attempt → List Diagnostic
  | [] => []
  | a :: as =>
    (if seen then [.unexpected a.first.text] else []) ++ a.failure?.toList ++
      diagnostics (seen || a.expr?.isSome) as

end Attempt

/-- A place in a source, and the diagnostics recorded on the way to it. -/
structure Parser where
  /-- The tokens from the current one on. -/
  remaining : List Token
  diagnostics : List Diagnostic

namespace Parser

def ofSource (source : String) : Parser := ⟨tokenize source, []⟩

def current (p : Parser) : Token := p.remaining.headD .eof

def peek (p : Parser) : Token := p.remaining.tail.headD .eof

/-- Reads one expression, with all tokens of tiers above `base` that follow. A failure is recorded. -/
def expression (p : Parser) (base : Tier) : Option Expr × Parser :=
  match readExpr base p.remaining with
  | (.ok e, rest) => (some e, ⟨rest, p.diagnostics⟩)
  | (.error d, rest) => (none, ⟨rest, p.diagnostics ++ [d]⟩)

/-- Reads to the end of the source. -/
def program (p : Parser) : Program × Parser :=
  let attempts := Attempt.all p.remaining
  (⟨attempts.filterMap Attempt.expr?⟩, ⟨[], p.diagnostics ++ Attempt.diagnostics false attempts⟩)

end Parser

/-- The program of a source, or all its diagnostics. -/
def parse (source : String) : Except (List Diagnostic) Program :=
  let (program, parser) := (Parser.ofSource source).program
  if parser.diagnostics = [] then .ok program else .error parser.diagnostics

end Calculator
