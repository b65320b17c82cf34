import Calculator.Calculation

/-!
# Calculator.Log — what is told on the way to a value

Reading a source and calculating its value are told step by step: which source is calculated, each diagnostic when it
is recorded, how many expressions and diagnostics a source has given, and the value. A `LogEntry` is one such step.
The steps follow from the source (`parseLog`, `calculationLog`).
-/

namespace Calculator

/-- One step on the way to a value. -/
inductive LogEntry where
  | calculating (source : String)
  | diagnostic (d : Diagnostic)
  /-- A source has been read to its end. -/
  | parsed (statements errors : Nat)
  | evaluated (value : Value)
deriving DecidableEq

def LogEntry.message : LogEntry → String
  | .calculating source => "calculating source=" ++ source.quote
  | .diagnostic d => "parse diagnostic error=" ++ d.message
  | .parsed statements errors => "parsed program statements=" ++ toString statements ++ " errors=" ++ toString errors
  | .evaluated v => "evaluated program value=" ++ v.render

/-- The steps of reading a source. -/
def parseLog (source : String) : List LogEntry :=
  let (program, parser) := (Parser.ofSource source).program
  parser.diagnostics.map .diagnostic ++ [.parsed program.statements.length parser.diagnostics.length]

/-- The steps of a calculation. A source that cannot be read or evaluated has no last one. -/
def calculationLog (source : String) : List LogEntry :=
  .calculating source :: parseLog source ++
    match calculate source with
    | .ok v => [.evaluated v]
    | .error _ => []

end Calculator
