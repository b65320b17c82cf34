import Mathlib
import Calculator.Rules
import Calculator.Token.Lexer

/-!
# Calculator.Proofs.Scanning — the forms of tokens

`Token.Scanned` lists the forms in which tokens are cut from a source. The kind of such a token says what its
text is good for: an integer has a value (`integer?_eq`), a float denotes a float, a procedure token names a
procedure.

* `scanned_of_mem_tokenize`: every token of a source has one of these forms.
* `tokenize_eq_nil_iff`: only blanks give no token.
-/

namespace Calculator

/-! ## Characters -/

section Characters

variable {c : Char}

theorem isBlank_of_isAlphanum (h : c.isAlphanum = true) : isBlank c = false := by
  cases hb : isBlank c with
  | false => rfl
  | true =>
    simp only [isBlank, Bool.or_eq_true, beq_iff_eq] at hb
    rcases hb with (((rfl | rfl) | rfl) | rfl) | rfl <;> simp at h

theorem isBlank_of_isDigit (h : c.isDigit = true) : isBlank c = false :=
  isBlank_of_isAlphanum (by simp [Char.isAlphanum, h])

theorem isBlank_of_isAlpha (h : c.isAlpha = true) : isBlank c = false :=
  isBlank_of_isAlphanum (by simp [Char.isAlphanum, h])

theorem isAlpha_of_isDigit (h : c.isDigit = true) : c.isAlpha = false := by
  simp only [Char.isDigit, Char.isAlpha, Char.isUpper, Char.isLower, UInt32.le_iff_toNat_le, ge_iff_le,
    Bool.and_eq_true, decide_eq_true_eq, Bool.or_eq_false_iff, decide_eq_false_iff_not, Bool.and_eq_false_iff] at h ⊢
  have h0 : '0'.val.toNat = 48 := rfl
  have h9 : '9'.val.toNat = 57 := rfl
  have hA : 'A'.val.toNat = 65 := rfl
  have ha : 'a'.val.toNat = 97 := rfl
  omega

theorem isAlpha_of_opensWord (h : opensWord c = true) : c.isAlpha = true := by
  simp only [opensWord, Bool.and_eq_true] at h
  exact h.1.1

end Characters

/-! ## Digits -/

theorem span_of_forall {p : Char → Bool} {cs rest : List Char} (hcs : ∀ c ∈ cs, p c)
    (hrest : ∀ c ∈ rest.head?, p c = false) : (cs ++ rest).takeWhile p = cs ∧ (cs ++ rest).dropWhile p = rest := by
  rw [List.takeWhile_append_of_pos hcs, List.dropWhile_append_of_pos hcs]
  cases rest with
  | nil => simp
  | cons c cs => simp [hrest c rfl]

theorem span_digits {ds rest : List Char} (hds : ds.all Char.isDigit) (hrest : ∀ c ∈ rest.head?, c.isDigit = false) :
    (ds ++ rest).takeWhile Char.isDigit = ds ∧ (ds ++ rest).dropWhile Char.isDigit = rest :=
  span_of_forall (by simpa using hds) hrest

/-- Digits with a point among them are a decimal number. -/
theorem Decimal.ofChars?_point {ds fs : List Char} (hne : ds ≠ []) (hds : ds.all Char.isDigit)
    (hfs : fs.all Char.isDigit) :
    Decimal.ofChars? (ds ++ '.' :: fs) = some ⟨Nat.ofDigitChars 10 (ds ++ fs) 0, -fs.length⟩ := by
  have hpoint : ∀ c ∈ ('.' :: fs).head?, c.isDigit = false := by simp
  obtain ⟨htake, hdrop⟩ := span_digits hds hpoint
  simp only [Decimal.ofChars?, htake, hdrop, if_pos (And.intro hne hfs)]

namespace Token

inductive Scanned : Token → Prop where
  | integer {ds : List Char} : ds ≠ [] → ds.all Char.isDigit → Scanned ⟨.integer, String.ofList ds⟩
  | float {ds fs : List Char} : ds ≠ [] → ds.all Char.isDigit → fs.all Char.isDigit →
      Scanned ⟨.float, String.ofList (ds ++ '.' :: fs)⟩
  | word {c : Char} {cs : List Char} : opensWord c → cs.all Char.isAlpha →
      Scanned ⟨wordKind (String.ofList (c :: cs)), String.ofList (c :: cs)⟩
  | symbol {c : Char} : isBlank c = false → c.isDigit = false → opensWord c = false →
      Scanned ⟨symbolKind c, String.singleton c⟩

/-- The number that the digits of a token write. -/
def value (t : Token) : Nat := Nat.ofDigitChars 10 t.text.toList 0

/-! ## Tokens of a source -/

theorem all_takeWhile (p : Char → Bool) (cs : List Char) : (cs.takeWhile p).all p := by
  simp

theorem scanned_scanNumber {ds rest : List Char} (hne : ds ≠ []) (hds : ds.all Char.isDigit) :
    (scanNumber ds rest).1.Scanned := by
  unfold scanNumber
  split
  · exact .float hne hds (all_takeWhile _ _)
  · exact .integer hne hds

theorem scanned_scan {c : Char} (h : isBlank c = false) (rest : List Char) : (scan c rest).1.Scanned := by
  unfold scan
  split
  · next hd =>
    refine scanned_scanNumber (List.cons_ne_nil _ _) ?_
    simp [hd]
  · next hd =>
    split
    · next hw => exact .word hw (all_takeWhile _ _)
    · next hw => exact .symbol h (by simpa using hd) (by simpa using hw)

theorem scanned_of_mem_ofChars {t : Token} {cs : List Char} (h : t ∈ ofChars cs) : t.Scanned := by
  fun_induction ofChars cs with
  | case1 => simp at h
  | case2 c cs hb ih => exact ih h
  | case3 c cs hb ih =>
    rcases List.mem_cons.mp h with rfl | h
    · exact scanned_scan (by simpa using hb) cs
    · exact ih h

/-- A character that starts neither a number nor a word is a token of its own. -/
theorem ofChars_symbol {c : Char} (hb : isBlank c = false) (hd : c.isDigit = false) (hw : opensWord c = false)
    (cs : List Char) : ofChars (c :: cs) = ⟨symbolKind c, String.singleton c⟩ :: ofChars cs := by
  rw [ofChars_scan hb]
  simp [scan, hd, hw]

theorem ofChars_eq_nil_iff {cs : List Char} : ofChars cs = [] ↔ ∀ c ∈ cs, isBlank c = true := by
  fun_induction ofChars cs with
  | case1 => simp
  | case2 c cs hb ih => simp [ih, hb]
  | case3 c cs hb ih => simp [hb]

/-! ## What a kind says of the text -/

theorem wordKind_spec (w : String) :
    wordKind w ≠ .integer ∧ wordKind w ≠ .float ∧ wordKind w ≠ .eof ∧
      (wordKind w = .procedure → w ∈ keywords) := by
  unfold wordKind
  split <;> simp_all

/-- No character alone is a number, and of the procedures only the radical is one character. -/
theorem symbolKind_spec (c : Char) :
    symbolKind c ≠ .integer ∧ symbolKind c ≠ .float ∧ symbolKind c ≠ .eof ∧
      (symbolKind c = .procedure → c = '√') := by
  unfold symbolKind
  split <;> simp

theorem exists_ofName?_of_mem_keywords {w : String} (h : w ∈ keywords) :
    ∃ p, Procedure.ofName? w = some p := by
  have hall : ∀ w ∈ keywords, (Procedure.ofName? w).isSome := by decide
  exact Option.isSome_iff_exists.mp (hall w h)

namespace Scanned

variable {t : Token}

theorem integer?_eq (h : t.Scanned) (hk : t.kind = .integer) : t.integer? = narrow? t.value := by
  cases h with
  | integer hne hds =>
    unfold integer? value Decimal.natural?
    rw [String.toList_ofList, if_pos ⟨hne, hds⟩, Option.bind_some]
  | float => simp at hk
  | word => exact absurd hk (wordKind_spec _).1
  | symbol => exact absurd hk (symbolKind_spec _).1

theorem kind_ne_eof (h : t.Scanned) : t.kind ≠ .eof := by
  cases h with
  | integer | float => simp
  | word => exact (wordKind_spec _).2.2.1
  | symbol => exact (symbolKind_spec _).2.2.1

theorem exists_float (h : t.Scanned) (hk : t.kind = .float) : ∃ x, t.float? = some x := by
  cases h with
  | integer => simp at hk
  | float hne hds hfs =>
    rw [float?, String.toList_ofList, Decimal.ofChars?_point hne hds hfs]
    exact ⟨_, rfl⟩
  | word => exact absurd hk (wordKind_spec _).2.1
  | symbol => exact absurd hk (symbolKind_spec _).2.1

theorem exists_procedure (h : t.Scanned) (hk : t.kind = .procedure) :
    ∃ p, Procedure.ofName? t.text = some p := by
  cases h with
  | integer => simp at hk
  | float => simp at hk
  | word => exact exists_ofName?_of_mem_keywords ((wordKind_spec _).2.2.2 hk)
  | symbol =>
    obtain rfl := (symbolKind_spec _).2.2.2 hk
    exact ⟨.sqrt, by decide⟩

end Scanned

end Token

theorem scanned_of_mem_tokenize {source : String} : ∀ t ∈ tokenize source, t.Scanned :=
  fun _ h => Token.scanned_of_mem_ofChars h

theorem tokenize_eq_nil_iff {source : String} :
    tokenize source = [] ↔ ∀ c ∈ source.toList, isBlank c = true :=
  Token.ofChars_eq_nil_iff

end Calculator
