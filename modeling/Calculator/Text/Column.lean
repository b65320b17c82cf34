/-!
# Calculator.Text.Column — text in columns

A `Column` says how a short text is set into a field of a fixed width: how many characters of it are kept,
on which side it stands, and which character fills the rest. A text that is wider than its field is not cut
unless the column has a limit.
-/

namespace Calculator
namespace Text

inductive Align where
  | left
  | right
  | center
deriving DecidableEq, Repr

/-- A field for a short text. Widths are counted in characters. -/
structure Column where
  width : Nat
  /-- Where the text stands in a field that is wider than it. -/
  align : Align := .left
  fill : Char := ' '
  /-- The greatest number of characters kept of the text, if there is one. -/
  limit : Option Nat := none

namespace Column

def kept (col : Column) (s : String) : List Char :=
  match col.limit with
  | none => s.toList
  | some n => s.toList.take n

/-- How many of `missing` fill characters stand before the text. A centred text leaves the odd one behind it. -/
def before (col : Column) (missing : Nat) : Nat :=
  match col.align with
  | .left => 0
  | .right => missing
  | .center => missing / 2

def fit (col : Column) (s : String) : String :=
  let cs := col.kept s
  let missing := col.width - cs.length
  let lead := col.before missing
  String.ofList (List.replicate lead col.fill ++ cs ++ List.replicate (missing - lead) col.fill)

end Column

end Text
end Calculator
