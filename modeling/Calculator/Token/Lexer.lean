import Calculator.Token

/-!
# Calculator.Token.Lexer — from a source text to its tokens

Blanks separate tokens and are dropped. At any other character the longest token that starts there is taken:

* a number is a run of digits, with at most one point after the first digit: `2`, `2.`, `2.50`;
* a word is a run of letters that starts with neither `e` nor `E`, since these two stand for themselves;
* every other character is a token of its own.

`tokenize` gives the tokens of a text; the end of the source is not listed. A token takes at least the
character that it starts at (`length_scan_le`), so the recursion is on the length of what is left.
`Token.next` gives one token at a time, and the end of the source for ever after (`nextMany_eq`).
-/

namespace Calculator

/-- Blanks: space, tab, carriage return, line feed and form feed. -/
def isBlank (c : Char) : Bool := c == ' ' || c == '\t' || c == '\r' || c == '\n' || c == '\x0c'

/-- Words start with an ASCII letter other than `e` and `E`. -/
def opensWord (c : Char) : Bool := c.isAlpha && c != 'e' && c != 'E'

def symbolKind : Char → TokenKind
  | '+' => .plus
  | '-' => .minus
  | '*' => .asterisk
  | '/' => .slash
  | '(' => .leftParen
  | ')' => .rightParen
  | '!' => .factorial
  | '^' => .power
  | 'E' => .exponent
  | 'e' => .euler
  | '√' => .procedure
  | _ => .illegal

namespace Token

/-- The number whose digits before the point are `digits`, and what follows it in `rest`. -/
def scanNumber (digits rest : List Char) : Token × List Char :=
  match rest with
  | '.' :: more =>
    (⟨.float, String.ofList (digits ++ '.' :: more.takeWhile Char.isDigit)⟩, more.dropWhile Char.isDigit)
  | _ => (⟨.integer, String.ofList digits⟩, rest)

/-- The token that starts at the character `c`, and what follows it in `rest`. -/
def scan (c : Char) (rest : List Char) : Token × List Char :=
  if c.isDigit then
    scanNumber (c :: rest.takeWhile Char.isDigit) (rest.dropWhile Char.isDigit)
  else if opensWord c then
    let word := String.ofList (c :: rest.takeWhile Char.isAlpha)
    (⟨wordKind word, word⟩, rest.dropWhile Char.isAlpha)
  else
    (⟨symbolKind c, String.singleton c⟩, rest)

theorem length_dropWhile_le (p : Char → Bool) (cs : List Char) : (cs.dropWhile p).length ≤ cs.length :=
  (List.dropWhile_suffix p).length_le

theorem length_scanNumber_le (digits rest : List Char) : (scanNumber digits rest).2.length ≤ rest.length := by
  unfold scanNumber
  split
  · exact Nat.le_succ_of_le (length_dropWhile_le _ _)
  · exact Nat.le_refl _

/-- What follows a token is no longer than what followed its first character. -/
theorem length_scan_le (c : Char) (rest : List Char) : (scan c rest).2.length ≤ rest.length := by
  unfold scan
  split
  · exact Nat.le_trans (length_scanNumber_le _ _) (length_dropWhile_le _ _)
  · split
    · exact length_dropWhile_le _ _
    · exact Nat.le_refl _

/-- The next token of a list of characters, and what follows it. At the end it is `eof`, as often as it is asked
for. -/
def next : List Char → Token × List Char
  | [] => (.eof, [])
  | c :: cs => if isBlank c then next cs else scan c cs

def nextMany : (count : Nat) → List Char → List Token
  | 0, _ => []
  | count + 1, cs => (next cs).1 :: nextMany count (next cs).2

def ofChars : List Char → List Token
  | [] => []
  | c :: cs =>
    if isBlank c then ofChars cs
    else (scan c cs).1 :: ofChars (scan c cs).2
termination_by cs => cs.length
decreasing_by
  · exact Nat.lt_succ_self _
  · exact Nat.lt_succ_of_le (length_scan_le _ _)

@[simp] theorem ofChars_nil : ofChars [] = [] := by unfold ofChars; rfl

theorem ofChars_blank {c : Char} (h : isBlank c = true) (cs : List Char) : ofChars (c :: cs) = ofChars cs := by
  rw [ofChars, if_pos h]

theorem ofChars_scan {c : Char} (h : isBlank c = false) (cs : List Char) :
    ofChars (c :: cs) = (scan c cs).1 :: ofChars (scan c cs).2 := by
  rw [ofChars, if_neg (by simp [h])]

theorem nextMany_nil (count : Nat) : nextMany count [] = List.replicate count .eof := by
  induction count with
  | zero => rfl
  | succ n ih => rw [nextMany, next, ih]; rfl

/-- Asking for the next token gives the tokens in order, and then the end. -/
theorem nextMany_eq (count : Nat) (cs : List Char) :
    nextMany count cs = (ofChars cs).take count ++ List.replicate (count - (ofChars cs).length) .eof := by
  induction count generalizing cs with
  | zero => simp [nextMany]
  | succ n ih =>
    induction cs with
    | nil => simp [nextMany_nil]
    | cons c cs ihcs =>
      cases h : isBlank c with
      | true =>
        rw [ofChars_blank h, ← ihcs]
        simp [nextMany, next, h]
      | false =>
        rw [ofChars_scan h, nextMany, next, h, ih]
        simp

end Token

/-- The tokens of a source text, without its end. -/
def tokenize (source : String) : List Token := Token.ofChars source.toList

end Calculator
