import Calculator.Proofs.RoundTrip
import Calculator.Proofs.DistinctLiterals

/-!
# Calculator.Proofs.UniqueReadability — a text belongs to one expression

Without `NaN` different expressions have different texts. What stands behind the text of an expression starts with no
character of a literal (`Ended`), and then the text determines both the expression and where it ends (`Determined`).
The first character tells literals, parentheses and calls apart. Behind a parenthesis a minus may be a sign or
belong to a negative literal; only the character behind the operand tells which it is (`closes_of_sign`).

Reading back is another matter: a text may be no source of its expression.
-/

namespace Calculator

/-! ## Texts and what follows them -/

namespace Expr

/-- No literal is `NaN`. -/
def IsNaNFree : Expr → Prop
  | .integer _ => True
  | .float x => x.isNaN = false
  | .signed _ e | .factorial e | .call _ e => e.IsNaNFree
  | .binary _ l r => l.IsNaNFree ∧ r.IsNaNFree

/-- The characters of the text. -/
def chars (e : Expr) : List Char := e.render.toList

theorem chars_integer (n : Int64) : (integer n).chars = Decimal.integerChars n.toInt := String.toList_ofList

section Append

variable (us : List Char)

theorem chars_signed_append (s : Sign) (e : Expr) :
    (signed s e).chars ++ us = '(' :: (s.symbol.toList ++ (e.chars ++ ')' :: us)) := by
  simp [chars, render_signed, String.toList_append]

theorem chars_factorial_append (e : Expr) : (factorial e).chars ++ us = '(' :: (e.chars ++ '!' :: ')' :: us) := by
  simp [chars, render_factorial, String.toList_append]

theorem chars_binary_append (op : BinaryOperator) (l r : Expr) : (binary op l r).chars ++ us =
    '(' :: (l.chars ++ ' ' :: (op.symbol.toList ++ ' ' :: (r.chars ++ ')' :: us))) := by
  simp [chars, render_binary, String.toList_append]

theorem chars_call_append (p : Procedure) (e : Expr) :
    (call p e).chars ++ us = p.name.toList ++ '(' :: (e.chars ++ ')' :: us) := by
  simp [chars, render_call, String.toList_append]

end Append

end Expr

/-- The text does not go on with a character of a literal. -/
def Ended (us : List Char) : Prop := ∀ c ∈ us.head?, isLiteralChar c = false

theorem ended_nil : Ended [] := by
  intro c hc
  cases hc

theorem ended_cons {c : Char} (h : isLiteralChar c = false) (us : List Char) : Ended (c :: us) := by
  intro d hd
  obtain rfl : c = d := by simpa using hd
  exact h

/-! ## How texts start -/

/-- How the text of an expression starts. -/
inductive Opening where
  | literal
  | parenthesis
  | name

/-- What a first character tells. No expression starts with any other character. -/
def Opening.ofChar? (c : Char) : Option Opening :=
  if isLiteralChar c then some .literal
  else if c = '(' then some .parenthesis
  else if c ∈ ['s', 'c', 't', 'a', 'l', '√'] then some .name
  else none

def Expr.opening : Expr → Opening
  | .integer _ | .float _ => .literal
  | .signed _ _ | .factorial _ | .binary _ _ _ => .parenthesis
  | .call _ _ => .name

section Openings

variable {e f : Expr} {us vs : List Char}

theorem literal_of_opening (h : e.opening = .literal) : (∃ n, e = .integer n) ∨ ∃ x, e = .float x := by
  cases e with
  | integer n => exact Or.inl ⟨n, rfl⟩
  | float x => exact Or.inr ⟨x, rfl⟩
  | signed | factorial | binary | call => cases h

theorem parenthesis_of_opening (h : e.opening = .parenthesis) : (∃ s a, e = .signed s a) ∨ (∃ a, e = .factorial a) ∨
    ∃ op l r, e = .binary op l r := by
  cases e with
  | signed s a => exact Or.inl ⟨s, a, rfl⟩
  | factorial a => exact Or.inr (Or.inl ⟨a, rfl⟩)
  | binary op l r => exact Or.inr (Or.inr ⟨op, l, r, rfl⟩)
  | integer | float | call => cases h

theorem call_of_opening (h : e.opening = .name) : ∃ p a, e = .call p a := by
  cases e with
  | call p a => exact ⟨p, a, rfl⟩
  | integer | float | signed | factorial | binary => cases h

/-- A literal is a magnitude, with a minus in front of a negative one. -/
theorem literal_cases (he : e.IsNaNFree) (ho : e.opening = .literal) : ∃ cs, IsMagnitude cs ∧
    (e.chars = cs ∨ e.chars = '-' :: cs) := by
  rcases literal_of_opening ho with ⟨n, rfl⟩ | ⟨x, rfl⟩
  · rw [Expr.chars_integer]
    rcases Decimal.integerChars_cases n.toInt with h | ⟨cs, h, hcs⟩
    · exact ⟨_, h, Or.inl rfl⟩
    · exact ⟨cs, hcs, Or.inr h⟩
  · obtain ⟨s, d, -, htext⟩ := Binary64.exists_writtenAs he
    refine ⟨_, Binary64.isMagnitude_magnitudeChars d, ?_⟩
    show (Binary64.literalText x).toList = _ ∨ (Binary64.literalText x).toList = _
    rw [htext]
    cases s with
    | positive => exact Or.inl rfl
    | negative => exact Or.inr rfl

theorem isLiteralChar_of_mem_chars (he : e.IsNaNFree) (ho : e.opening = .literal) : ∀ c ∈ e.chars, isLiteralChar c := by
  intro c hc
  obtain ⟨cs, hcs, h | h⟩ := literal_cases he ho
  · exact hcs.literal c (h ▸ hc)
  · rw [h] at hc
    rcases List.mem_cons.mp hc with rfl | hc
    · rfl
    · exact hcs.literal c hc

theorem ofChar?_head (he : e.IsNaNFree) (us : List Char) :
    (e.chars ++ us).head?.bind Opening.ofChar? = some e.opening := by
  have hliteral (ho : e.opening = .literal) : (e.chars ++ us).head?.bind Opening.ofChar? = some e.opening := by
    have hne : e.chars ≠ [] := by
      obtain ⟨cs, hcs, h | h⟩ := literal_cases he ho
      · exact h ▸ hcs.ne_nil
      · simp [h]
    obtain ⟨c, cs, hchars⟩ := List.exists_cons_of_ne_nil hne
    have hc : isLiteralChar c = true := isLiteralChar_of_mem_chars he ho c (by simp [hchars])
    simp [hchars, ho, Opening.ofChar?, hc]
  cases e with
  | integer n => exact hliteral rfl
  | float x => exact hliteral rfl
  | signed s e =>
    rw [Expr.chars_signed_append]
    rfl
  | factorial e =>
    rw [Expr.chars_factorial_append]
    rfl
  | binary op l r =>
    rw [Expr.chars_binary_append]
    rfl
  | call p e =>
    rw [Expr.chars_call_append]
    cases p <;> rfl

theorem opening_eq (he : e.IsNaNFree) (hf : f.IsNaNFree) (h : e.chars ++ us = f.chars ++ vs) :
    e.opening = f.opening := by
  have hhead := ofChar?_head he us
  rw [h, ofChar?_head hf vs] at hhead
  exact (Option.some.inj hhead).symm

theorem opening_of_isMagnitude {cs : List Char} (he : e.IsNaNFree) (hcs : IsMagnitude cs)
    (h : e.chars ++ us = cs ++ vs) : e.opening = .literal := by
  have hhead := ofChar?_head he us
  obtain ⟨c, cs, rfl⟩ := List.exists_cons_of_ne_nil hcs.ne_nil
  have hc : isLiteralChar c = true := hcs.literal c List.mem_cons_self
  rw [h] at hhead
  simpa [Opening.ofChar?, hc, eq_comm] using hhead

theorem literal_injective (he : e.IsNaNFree) (hf : f.IsNaNFree) (ho : e.opening = .literal)
    (ho' : f.opening = .literal) (h : e.chars = f.chars) : e = f := by
  rcases literal_of_opening ho with ⟨n, rfl⟩ | ⟨x, rfl⟩
  · rw [Expr.chars_integer] at h
    rcases literal_of_opening ho' with ⟨m, rfl⟩ | ⟨y, rfl⟩
    · rw [Expr.chars_integer] at h
      exact congrArg Expr.integer (Int64.toInt_inj.mp (Decimal.integerChars_injective h))
    · exact absurd h.symm (Binary64.literalText_ne_integerChars hf n.toInt)
  · rcases literal_of_opening ho' with ⟨m, rfl⟩ | ⟨y, rfl⟩
    · rw [Expr.chars_integer] at h
      exact absurd h (Binary64.literalText_ne_integerChars he m.toInt)
    · exact congrArg Expr.float (Binary64.literalText_injective he hf (String.toList_inj.mp h))

end Openings

/-! ## Constructs -/

/-- The text of `e` is the text of no other expression, however the text goes on. -/
def Determined (e : Expr) : Prop := ∀ (f : Expr) (us vs : List Char), f.IsNaNFree → Ended us → Ended vs →
  e.chars ++ us = f.chars ++ vs → e = f ∧ us = vs

theorem Sign.symbol_append_inj {s s' : Sign} {us vs : List Char}
    (h : s.symbol.toList ++ us = s'.symbol.toList ++ vs) : s = s' ∧ us = vs := by
  cases s with
  | plus =>
    cases s' with
    | plus => exact ⟨rfl, (List.cons.inj h).2⟩
    | minus => exact absurd (List.cons.inj h).1 (by decide)
  | minus =>
    cases s' with
    | plus => exact absurd (List.cons.inj h).1 (by decide)
    | minus => exact ⟨rfl, (List.cons.inj h).2⟩

theorem BinaryOperator.symbol_injective {op op' : BinaryOperator} (h : op.symbol = op'.symbol) : op = op' := by
  cases op <;> cases op' <;> first | rfl | exact absurd h (by decide)

theorem Procedure.name_injective {p q : Procedure} (h : p.name = q.name) : p = q := by
  have hfound := p.ofName?_name
  rw [h, q.ofName?_name] at hfound
  exact (Option.some.inj hfound).symm

section Constructs

variable {e l r : Expr} {us vs : List Char}

theorem determined_literal (he : e.IsNaNFree) (ho : e.opening = .literal) : Determined e := by
  intro f us vs hf hus hvs h
  have ho' : f.opening = .literal := (opening_eq he hf h).symm.trans ho
  obtain ⟨hchars, hrest⟩ := append_inj_of_forall (isLiteralChar_of_mem_chars he ho) (isLiteralChar_of_mem_chars hf ho')
    hus hvs h
  exact ⟨literal_injective he hf ho ho' hchars, hrest⟩

/-- A sign and its operand read as one operand only if a parenthesis closes behind both: the minus of a negative
literal is then the sign. -/
theorem closes_of_sign {s : Sign} {c : Char} (he : e.IsNaNFree) (hl : l.IsNaNFree) (hc : isLiteralChar c = false)
    (h : s.symbol.toList ++ (e.chars ++ ')' :: us) = l.chars ++ c :: vs) : c = ')' := by
  have hhead := ofChar?_head hl (c :: vs)
  rw [← h] at hhead
  cases s with
  | plus => cases hhead
  | minus =>
    have ho : l.opening = .literal := (Option.some.inj hhead).symm
    obtain ⟨cs, hcs, hchars | hchars⟩ := literal_cases hl ho
    · rw [hchars] at h
      obtain ⟨d, cs, rfl⟩ := List.exists_cons_of_ne_nil hcs.ne_nil
      obtain rfl : '-' = d := (List.cons.inj h).1
      exact absurd rfl hcs.unsigned
    -- what is left of the literal behind its minus is the operand of the sign
    · rw [hchars] at h
      have hrest : e.chars ++ ')' :: us = cs ++ c :: vs := (List.cons.inj h).2
      have ho' := opening_of_isMagnitude he hcs hrest
      obtain ⟨-, hbehind⟩ := append_inj_of_forall (isLiteralChar_of_mem_chars he ho') hcs.literal
        (ended_cons (by decide) us) (ended_cons hc vs) hrest
      exact (List.cons.inj hbehind).1.symm

theorem determined_signed (s : Sign) (he : e.IsNaNFree) (h : Determined e) : Determined (.signed s e) := by
  intro f us vs hf hus hvs htext
  have ho : f.opening = .parenthesis := (opening_eq (e := .signed s e) he hf htext).symm
  rw [Expr.chars_signed_append] at htext
  rcases parenthesis_of_opening ho with ⟨s', a, rfl⟩ | ⟨a, rfl⟩ | ⟨op, l, r, rfl⟩
  · rw [Expr.chars_signed_append] at htext
    obtain ⟨rfl, hoperand⟩ := Sign.symbol_append_inj (List.cons.inj htext).2
    obtain ⟨rfl, hrest⟩ := h a _ _ hf (ended_cons (by decide) us) (ended_cons (by decide) vs) hoperand
    exact ⟨rfl, (List.cons.inj hrest).2⟩
  · rw [Expr.chars_factorial_append] at htext
    exact absurd (closes_of_sign (l := a) he hf (by decide) (List.cons.inj htext).2) (by decide)
  · rw [Expr.chars_binary_append] at htext
    exact absurd (closes_of_sign (l := l) he hf.1 (by decide) (List.cons.inj htext).2) (by decide)

theorem determined_factorial (he : e.IsNaNFree) (h : Determined e) : Determined (.factorial e) := by
  intro f us vs hf hus hvs htext
  have ho : f.opening = .parenthesis := (opening_eq (e := .factorial e) he hf htext).symm
  rw [Expr.chars_factorial_append] at htext
  rcases parenthesis_of_opening ho with ⟨s, a, rfl⟩ | ⟨a, rfl⟩ | ⟨op, l, r, rfl⟩
  · rw [Expr.chars_signed_append] at htext
    exact absurd (closes_of_sign (e := a) hf he (by decide) (List.cons.inj htext).2.symm) (by decide)
  · rw [Expr.chars_factorial_append] at htext
    obtain ⟨rfl, hrest⟩ := h a _ _ hf (ended_cons (by decide) _) (ended_cons (by decide) _) (List.cons.inj htext).2
    exact ⟨rfl, by simpa using hrest⟩
  · rw [Expr.chars_binary_append] at htext
    obtain ⟨-, hrest⟩ := h l _ _ hf.1 (ended_cons (by decide) _) (ended_cons (by decide) _) (List.cons.inj htext).2
    exact absurd (List.cons.inj hrest).1 (by decide)

theorem determined_binary (op : BinaryOperator) (he : (Expr.binary op l r).IsNaNFree) (h : Determined l)
    (h' : Determined r) : Determined (.binary op l r) := by
  intro f us vs hf hus hvs htext
  have ho : f.opening = .parenthesis := (opening_eq he hf htext).symm
  rw [Expr.chars_binary_append] at htext
  rcases parenthesis_of_opening ho with ⟨s, a, rfl⟩ | ⟨a, rfl⟩ | ⟨op', l', r', rfl⟩
  · rw [Expr.chars_signed_append] at htext
    exact absurd (closes_of_sign (e := a) hf he.1 (by decide) (List.cons.inj htext).2.symm) (by decide)
  · rw [Expr.chars_factorial_append] at htext
    obtain ⟨-, hrest⟩ := h a _ _ hf (ended_cons (by decide) _) (ended_cons (by decide) _) (List.cons.inj htext).2
    exact absurd (List.cons.inj hrest).1 (by decide)
  · rw [Expr.chars_binary_append] at htext
    obtain ⟨rfl, hrest⟩ := h l' _ _ hf.1 (ended_cons (by decide) _) (ended_cons (by decide) _) (List.cons.inj htext).2
    have hblank (op : BinaryOperator) : ∀ c ∈ op.symbol.toList, (c != ' ') = true := by
      cases op <;> simp [BinaryOperator.symbol]
    obtain ⟨hsymbol, hright⟩ := append_inj_of_forall (hblank op) (hblank op') (by simp) (by simp)
      (List.cons.inj hrest).2
    obtain rfl := BinaryOperator.symbol_injective (String.toList_inj.mp hsymbol)
    obtain ⟨rfl, hbehind⟩ := h' r' _ _ hf.2 (ended_cons (by decide) us) (ended_cons (by decide) vs)
      (List.cons.inj hright).2
    exact ⟨rfl, (List.cons.inj hbehind).2⟩

theorem determined_call (p : Procedure) (he : e.IsNaNFree) (h : Determined e) : Determined (.call p e) := by
  intro f us vs hf hus hvs htext
  have ho : f.opening = .name := (opening_eq (e := .call p e) he hf htext).symm
  obtain ⟨q, a, rfl⟩ := call_of_opening ho
  rw [Expr.chars_call_append, Expr.chars_call_append] at htext
  have hparenthesis (p : Procedure) : ∀ c ∈ p.name.toList, (c != '(') = true := by
    cases p <;> simp [Procedure.name]
  obtain ⟨hname, hoperand⟩ := append_inj_of_forall (hparenthesis p) (hparenthesis q) (by simp) (by simp) htext
  obtain rfl := Procedure.name_injective (String.toList_inj.mp hname)
  obtain ⟨rfl, hrest⟩ := h a _ _ hf (ended_cons (by decide) us) (ended_cons (by decide) vs) (List.cons.inj hoperand).2
  exact ⟨rfl, (List.cons.inj hrest).2⟩

end Constructs

theorem Expr.IsNaNFree.determined {e : Expr} (he : e.IsNaNFree) : Determined e := by
  induction e with
  | integer n => exact determined_literal he rfl
  | float x => exact determined_literal he rfl
  | signed s e ih => exact determined_signed s he (ih he)
  | factorial e ih => exact determined_factorial he (ih he)
  | binary op l r ihl ihr => exact determined_binary op he (ihl he.1) (ihr he.2)
  | call p e ih => exact determined_call p he (ih he)

/-! ## Programs -/

/-- The text of the statements behind the first one. -/
def laterChars (statements : List Expr) : List Char := statements.flatMap fun e => ';' :: ' ' :: e.chars

theorem ended_laterChars (statements : List Expr) : Ended (laterChars statements) := by
  cases statements with
  | nil => exact ended_nil
  | cons e es => exact ended_cons (by decide) _

theorem toList_render_cons (e : Expr) (es : List Expr) :
    (Program.render ⟨e :: es⟩).toList = e.chars ++ laterChars es := by
  induction es generalizing e with
  | nil => simp [Program.render, laterChars, Expr.chars]
  | cons f es ih =>
    have hlater : (Program.render ⟨f :: es⟩).toList = f.chars ++ laterChars es := ih f
    have hrender : Program.render ⟨e :: f :: es⟩ = e.render ++ "; " ++ Program.render ⟨f :: es⟩ :=
      String.intercalate_cons_cons
    rw [hrender, String.toList_append, String.toList_append, hlater, Expr.chars, List.append_assoc]
    rfl

theorem laterChars_injective {es fs : List Expr} (hes : ∀ e ∈ es, e.IsNaNFree) (hfs : ∀ f ∈ fs, f.IsNaNFree)
    (h : laterChars es = laterChars fs) : es = fs := by
  induction es generalizing fs with
  | nil =>
    cases fs with
    | nil => rfl
    | cons f fs => cases h
  | cons e es ih =>
    cases fs with
    | nil => cases h
    | cons f fs =>
      rw [List.forall_mem_cons] at hes hfs
      have htexts : e.chars ++ laterChars es = f.chars ++ laterChars fs := (List.cons.inj (List.cons.inj h).2).2
      obtain ⟨rfl, hlater⟩ := hes.1.determined f _ _ hfs.1 (ended_laterChars es) (ended_laterChars fs) htexts
      exact congrArg (List.cons e) (ih hes.2 hfs.2 hlater)

/-! ## Main result -/

theorem render_ne_nil {e : Expr} (he : e.IsNaNFree) (es : List Expr) :
    Program.render ⟨e :: es⟩ ≠ Program.render ⟨[]⟩ := by
  intro h
  have hhead := ofChar?_head he (laterChars es)
  rw [← toList_render_cons, h] at hhead
  cases hhead

/-- **Unique readability.** Different expressions have different texts, and so have different programs, unless there
is a `NaN` in them. -/
theorem render_unambiguous :
    (∀ s t : Expr, s.IsNaNFree → t.IsNaNFree → s.render = t.render → s = t) ∧
      ∀ p q : Program, (∀ e ∈ p.statements, e.IsNaNFree) → (∀ e ∈ q.statements, e.IsNaNFree) →
        p.render = q.render → p = q := by
  constructor
  · intro s t hs ht h
    have hchars : s.chars ++ [] = t.chars ++ [] := congrArg (fun text : String => text.toList ++ []) h
    exact (hs.determined t [] [] ht ended_nil ended_nil hchars).1
  · rintro ⟨es⟩ ⟨fs⟩ hes hfs h
    cases es with
    | nil =>
      cases fs with
      | nil => rfl
      | cons f fs => exact absurd h.symm (render_ne_nil (hfs f List.mem_cons_self) fs)
    | cons e es =>
      cases fs with
      | nil => exact absurd h (render_ne_nil (hes e List.mem_cons_self) es)
      | cons f fs =>
        rw [List.forall_mem_cons] at hes hfs
        have htexts := congrArg String.toList h
        rw [toList_render_cons, toList_render_cons] at htexts
        obtain ⟨rfl, hlater⟩ := hes.1.determined f _ _ hfs.1 (ended_laterChars es) (ended_laterChars fs) htexts
        rw [laterChars_injective hes.2 hfs.2 hlater]

/-- Two ways to put the same number into a factorial, and a minus inside and outside of one. -/
theorem render_unambiguous_of_factorials :
    let s : Expr := .factorial (.float 0.1)
    let t : Expr := .factorial (.float (Decimal.toFloat ⟨10, -2⟩))
    (s.IsNaNFree ∧ t.IsNaNFree ∧ s.render = t.render ∧ s = t) ∧
      (Program.render ⟨[s, t]⟩ = Program.render ⟨[t, t]⟩ ∧ (⟨[s, t]⟩ : Program) = ⟨[t, t]⟩) ∧
      (Expr.factorial (.integer (-5))).render ≠ (Expr.signed .minus (.factorial (.integer 5))).render := by
  intro s t
  obtain ⟨hexpr, hprogram⟩ := render_unambiguous
  have hs : s.IsNaNFree := by
    show Float.isNaN 0.1 = false
    decide +kernel
  have ht : t.IsNaNFree := by
    show (Decimal.toFloat ⟨10, -2⟩).isNaN = false
    decide +kernel
  have htext : s.render = t.render := by decide +kernel
  have htexts : Program.render ⟨[s, t]⟩ = Program.render ⟨[t, t]⟩ := by simp [Program.render, htext]
  refine ⟨⟨hs, ht, htext, hexpr s t hs ht htext⟩, ⟨htexts, ?_⟩, ?_⟩
  · exact hprogram _ _ (by simp [hs, ht]) (by simp [ht]) htexts
  · intro h
    have heq := hexpr (.factorial (.integer (-5))) (.signed .minus (.factorial (.integer 5))) trivial trivial h
    simp at heq

end Calculator
