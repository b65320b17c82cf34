import Calculator.Log
import Calculator.Text.Column

/-!
# Calculator.CommandLine — the command `calcula`

The command takes one expression and prints its value. Before it, it prints the tokens (`--tokens`) and the
grouping (`--ast`) on request, and `--verbose` turns on its log. This module says what the command prints and logs
and with which status it ends, as a function of its arguments.

Arguments are read from left to right, and the first one that is wrong, or that asks for the version or for
help, decides. A text that starts with `-` is an option unless it is `-` itself or stands behind `--`. An option
is given at most once. Short options may be joined.
-/

namespace Calculator
namespace CommandLine

/-- What the command has been asked for. -/
structure Options where
  tokens : Bool := false
  ast : Bool := false
  verbose : Bool := false
  expression : Option String := none
deriving DecidableEq, Repr

inductive Flag where
  | tokens
  | ast
  | verbose
  | help
  | version
deriving DecidableEq, Repr

namespace Flag

def letter : Flag → Char
  | .tokens => 't'
  | .ast => 'a'
  | .verbose => 'v'
  | .help => 'h'
  | .version => 'V'

/-- The option spelled in full, without its dashes. -/
def name : Flag → String
  | .tokens => "tokens"
  | .ast => "ast"
  | .verbose => "verbose"
  | .help => "help"
  | .version => "version"

/-- What the help says of the option. -/
def purpose : Flag → String
  | .tokens => "Prints the token stream before evaluating"
  | .ast => "Prints the parsed expression, fully parenthesized, before evaluating"
  | .verbose => "Enables debug logging. `RUST_LOG` takes precedence when set"
  | .help => "Print help"
  | .version => "Print version"

/-- The options in the order of the help. -/
def all : List Flag := [.tokens, .ast, .verbose, .help, .version]

def ofLetter? (c : Char) : Option Flag := all.find? fun flag => flag.letter = c

def ofName? (name : String) : Option Flag := all.find? fun flag => flag.name = name

end Flag

/-- What is wrong with the arguments. -/
inductive UsageError where
  | unexpected (argument : String)
  | repeated (flag : Flag)
  /-- There is no expression. -/
  | missing
deriving DecidableEq, Repr

def UsageError.message : UsageError → String
  | .unexpected argument => "unexpected argument '" ++ argument ++ "' found"
  | .repeated flag => "the argument '--" ++ flag.name ++ "' cannot be used multiple times"
  | .missing => "the following required arguments were not provided:\n  <EXPRESSION>"

/-- Why the arguments are not followed to their end. -/
inductive Stop where
  | version
  | help
  | usage (error : UsageError)
deriving DecidableEq, Repr

namespace Options

def set (o : Options) : Flag → Except Stop Options
  | .tokens => if o.tokens then .error (.usage (.repeated .tokens)) else .ok { o with tokens := true }
  | .ast => if o.ast then .error (.usage (.repeated .ast)) else .ok { o with ast := true }
  | .verbose => if o.verbose then .error (.usage (.repeated .verbose)) else .ok { o with verbose := true }
  | .help => .error .help
  | .version => .error .version

/-- The options after the joined letters of one argument. -/
def setLetters (o : Options) : List Char → Except Stop Options
  | [] => .ok o
  | c :: cs =>
    match Flag.ofLetter? c with
    | none => .error (.usage (.unexpected (String.ofList ['-', c])))
    | some flag => do (← o.set flag).setLetters cs

/-- The options after the name of one option. No option takes a value. -/
def setName (o : Options) (name : String) : Except Stop Options :=
  match Flag.ofName? name with
  | none => .error (.usage (.unexpected ("--" ++ name)))
  | some flag => o.set flag

def setExpression (o : Options) (source : String) : Except Stop Options :=
  match o.expression with
  | none => .ok { o with expression := some source }
  | some _ => .error (.usage (.unexpected source))

def follow (o : Options) : List String → Except Stop Options
  | [] => .ok o
  | argument :: rest =>
    match argument.toList with
    | ['-', '-'] => rest.foldlM setExpression o
    | '-' :: '-' :: name => do (← o.setName (String.ofList name)).follow rest
    | '-' :: c :: cs => do (← o.setLetters (c :: cs)).follow rest
    | _ => do (← o.setExpression argument).follow rest

end Options

/-- What the command leaves behind. -/
structure Outcome where
  exit : Nat
  stdout : String
  stderr : String
  log : List LogEntry := []
deriving DecidableEq

def tokenLine (t : Token) : String :=
  ({ width := 10 } : Text.Column).fit t.kind.name ++ " " ++ t.text ++ "\n"

def tokenListing (source : String) : String := String.join ((tokenize source).map tokenLine)

/-- The answer to a source: its value, or why it has none. -/
def answer (source : String) : Outcome :=
  match calculate source with
  | .ok v => { exit := 0, stdout := v.render ++ "\n", stderr := "", log := calculationLog source }
  | .error error => { exit := 1, stdout := "", stderr := error.message ++ "\n", log := calculationLog source }

/-- The answer to a source behind its grouping. A source that cannot be read has neither, and each of its
diagnostics is one line. -/
def groupedAnswer (source : String) : Outcome :=
  match parse source with
  | .ok program =>
    let value := answer source
    { value with stdout := program.render ++ "\n" ++ value.stdout, log := parseLog source ++ value.log }
  | .error diagnostics =>
    { exit := 1
      stdout := ""
      stderr := String.join (diagnostics.map fun d => d.message ++ "\n")
      log := parseLog source }

/-- The command on a source, with the requested listings in front. Without `verbose` nothing is logged. -/
def evaluate (o : Options) (source : String) : Outcome :=
  let value := if o.ast then groupedAnswer source else answer source
  { value with
    stdout := (if o.tokens then tokenListing source else "") ++ value.stdout
    log := if o.verbose then value.log else [] }

/-! ## Help and wrong arguments -/

def usageText : String := "Usage: calcula [OPTIONS] <EXPRESSION>"

def optionLine (flag : Flag) : String :=
  let spellings := "-" ++ String.singleton flag.letter ++ ", --" ++ flag.name
  "  " ++ ({ width := 13 } : Text.Column).fit spellings ++ "  " ++ flag.purpose ++ "\n"

def helpText : String :=
  "A single-line scientific calculator: Pratt parser and tree-walking evaluator\n\n" ++
    usageText ++ "\n\n" ++
    "Arguments:\n  <EXPRESSION>  The expression to evaluate\n\n" ++
    "Options:\n" ++ String.join (Flag.all.map optionLine)

def versionText : String := "calcula 0.1.0\n"

/-- The answer to wrong arguments. The usage for a missing expression shows what is missing and no options. -/
def wrongUsage (error : UsageError) : Outcome :=
  let usage := if error = .missing then "Usage: calcula <EXPRESSION>" else usageText
  { exit := 2
    stdout := ""
    stderr := "error: " ++ error.message ++ "\n\n" ++ usage ++ "\n\nFor more information, try '--help'.\n" }

def run (arguments : List String) : Outcome :=
  match ({} : Options).follow arguments with
  | .error .version => { exit := 0, stdout := versionText, stderr := "" }
  | .error .help => { exit := 0, stdout := helpText, stderr := "" }
  | .error (.usage error) => wrongUsage error
  | .ok options =>
    match options.expression with
    | none => wrongUsage .missing
    | some source => evaluate options source

end CommandLine
end Calculator
