import Calculator.Proofs.Seams
import Calculator.Proofs.Grouping
import Calculator.Proofs.Evaluating

/-!
# Calculator.Proofs.Composition — sources that are put together

`Written` ties a source to its tree. A source in parentheses is an `Operand`: its tokens do not run into what
stands around it, and no tier reaches into its tree, which is the one that the source has alone. So operands can be
put together like the trees themselves, and reading and evaluation follow the tree.
-/

namespace Calculator

open Evaluation

/-! ## The texts of signs, operators and procedures -/

theorem BinaryOperator.ofToken?_symbol (op : BinaryOperator) : ofToken? ⟨op.kind, op.symbol⟩ = some op := by
  cases op <;> rfl

theorem BinaryOperator.tokenize_symbol (op : BinaryOperator) : tokenize op.symbol = [⟨op.kind, op.symbol⟩] := by
  cases op <;> cbv

theorem Sign.tokenize_symbol (s : Sign) : tokenize s.symbol = [⟨s.kind, s.symbol⟩] := by cases s <;> cbv

theorem Procedure.tokenize_name (p : Procedure) : tokenize p.name = [⟨.procedure, p.name⟩] := by
  cases p <;> cbv

theorem Sign.tokenize_append (s : Sign) (a : String) : tokenize (s.symbol ++ a) = ⟨s.kind, s.symbol⟩ :: tokenize a := by
  rw [tokenize_append_of_left (by cases s <;> decide), s.tokenize_symbol, List.singleton_append]

theorem tokenize_append_factorial (a : String) : tokenize (a ++ "!") = tokenize a ++ [⟨.factorial, "!"⟩] := by
  rw [tokenize_append_of_right a (by decide), show tokenize "!" = [⟨.factorial, "!"⟩] by cbv]

theorem Procedure.tokenize_call (p : Procedure) (a : String) :
    tokenize (p.name ++ ("(" ++ a ++ ")")) =
      ⟨.procedure, p.name⟩ :: ⟨.leftParen, "("⟩ :: (tokenize a ++ [⟨.rightParen, ")"⟩]) := by
  rw [tokenize_append_parenthesized, p.tokenize_name, tokenize_parenthesized, List.singleton_append]

/-! ## Sources and their trees -/

/-- The source `s` is the text of the tree `e`. -/
structure Written (s : String) (e : Tree) : Prop where
  spells : e.Spells (tokenize s)
  tiered : e.Tiered

/-- The source `s` is the text of the tree `e`, and no construct around it reaches into the tree. -/
structure Operand (s : String) (e : Tree) : Prop extends Written s e where
  left : e.leftTiers = []
  right : e.rightTiers = []

section Written

variable {a b s : String} {e f : Tree} {x : Expr}

theorem Written.parse_eq (h : Written s e) : parse s = .ok ⟨[e.erase]⟩ :=
  parse_eq_ok_iff.mpr (Or.inr ⟨e, h.spells, h.tiered, rfl⟩)

theorem exists_written (h : parse s = .ok ⟨[x]⟩) : ∃ e, Written s e ∧ e.erase = x := by
  rcases parse_eq_ok_iff.mp h with ⟨-, h⟩ | ⟨e, hsp, ht, h⟩
  · simp at h
  · exact ⟨e, ⟨hsp, ht⟩, by simpa using h.symm⟩

theorem Written.calculate_eq (h : Written s e) : calculate s = e.erase.eval.mapError .evaluation := by
  rw [calculate_of_parse_ok h.parse_eq, Program.eval_singleton]

/-! ## Ways to put sources together -/

theorem Written.parenthesized (h : Written a e) : Operand ("(" ++ a ++ ")") (.group e) where
  spells := by
    rw [tokenize_parenthesized]
    exact .group rfl h.spells rfl
  tiered := h.tiered
  left := rfl
  right := rfl

theorem Written.call (h : Written a e) (p : Procedure) : Operand (p.name ++ ("(" ++ a ++ ")")) (.call p e) where
  spells := by
    rw [p.tokenize_call]
    exact .call rfl p.ofName?_name rfl h.spells rfl
  tiered := h.tiered
  left := rfl
  right := rfl

theorem Operand.signed (h : Operand a e) (s : Sign) : Written (s.symbol ++ a) (.signed s e) where
  spells := by
    rw [s.tokenize_append]
    exact .signed rfl h.spells
  tiered := ⟨by simp [h.left], h.tiered⟩

theorem Operand.factorial (h : Operand a e) : Written (a ++ "!") (.factorial e) where
  spells := by
    rw [tokenize_append_factorial]
    exact .factorial h.spells rfl
  tiered := ⟨by simp [h.right], h.tiered⟩

/-- Euler's number has to stand apart from a word that might go on with it. -/
theorem Operand.eulerFold (h : Operand a e) (hs : tokenize (a ++ "e") = tokenize a ++ tokenize "e") :
    Written (a ++ "e") (.eulerFold e) where
  spells := by
    rw [hs, show tokenize "e" = [⟨.euler, "e"⟩] by cbv]
    exact .eulerFold h.spells rfl
  tiered := ⟨by simp [h.right], h.tiered⟩

/-- So have the operands of an operator that is a letter. -/
theorem Operand.binary {op : BinaryOperator} (ha : Operand a e) (hb : Operand b f)
    (hs : tokenize s = tokenize a ++ (tokenize op.symbol ++ tokenize b)) : Written s (.binary op e f) where
  spells := by
    rw [hs, op.tokenize_symbol, List.singleton_append]
    exact .binary ha.spells op.ofToken?_symbol hb.spells
  tiered := ⟨by simp [ha.right], by simp [hb.left], ha.tiered, hb.tiered⟩

end Written

/-! ## Outcomes -/

/-- The source is read, and this is its outcome. -/
def Yields (source : String) (outcome : Except CalcError Value) : Prop :=
  (∃ p, parse source = .ok p) ∧ calculate source = outcome

theorem mapError_bind {α β ε ε' : Type} (f : ε → ε') (x : Except ε α) (g : α → Except ε β) :
    (x.bind g).mapError f = (x.mapError f).bind fun v => (g v).mapError f := by
  cases x <;> rfl

section Yields

variable {a b s : String} {e f : Tree} {outcome : Except CalcError Value}

theorem Written.yields (h : Written s e) (ho : e.erase.eval.mapError .evaluation = outcome) : Yields s outcome :=
  ⟨⟨_, h.parse_eq⟩, h.calculate_eq.trans ho⟩

theorem Written.yields_binary (ha : Written a e) (hb : Written b f) (op : BinaryOperator) :
    Yields ("(" ++ a ++ ")" ++ op.symbol ++ "(" ++ b ++ ")")
      ((calculate a).bind fun v => (calculate b).bind fun w => (applyBinary op v w).mapError .evaluation) := by
  have hseam : tokenize ("(" ++ a ++ ")" ++ op.symbol ++ "(" ++ b ++ ")") =
      tokenize ("(" ++ a ++ ")") ++ (tokenize op.symbol ++ tokenize ("(" ++ b ++ ")")) := by
    rw [← tokenize_append_parenthesized, ← tokenize_parenthesized_append]
    simp only [String.append_assoc]
  refine (ha.parenthesized.binary hb.parenthesized hseam).yields ?_
  simp only [Tree.erase, Expr.eval_binary, mapError_bind, ← ha.calculate_eq, ← hb.calculate_eq]

theorem Written.yields_signed (ha : Written a e) (s : Sign) :
    Yields (s.symbol ++ "(" ++ a ++ ")") ((calculate a).bind fun v => (applySign s v).mapError .evaluation) := by
  have hsigned := ha.parenthesized.signed s
  simp only [← String.append_assoc] at hsigned
  refine hsigned.yields ?_
  simp only [Tree.erase, Expr.eval_signed, mapError_bind, ← ha.calculate_eq]

theorem Written.yields_factorial (ha : Written a e) :
    Yields ("(" ++ a ++ ")!") ((calculate a).bind fun v => (applyFactorial v).mapError .evaluation) := by
  have hfactorial := ha.parenthesized.factorial
  rw [String.append_assoc] at hfactorial
  refine Written.yields hfactorial ?_
  simp only [Tree.erase, Expr.eval_factorial, mapError_bind, ← ha.calculate_eq]

theorem Written.yields_eulerFold (ha : Written a e) :
    Yields ("(" ++ a ++ ")e")
      ((calculate a).bind fun v => (applyBinary .mul v (.float eulerNumber)).mapError .evaluation) := by
  have hfold := ha.parenthesized.eulerFold (tokenize_parenthesized_append a "e")
  rw [String.append_assoc] at hfold
  refine Written.yields hfold ?_
  simp only [Tree.erase, Expr.eval_binary, mapError_bind, ← ha.calculate_eq]
  rfl

theorem Written.yields_call (ha : Written a e) (p : Procedure) :
    Yields (p.name ++ "(" ++ a ++ ")")
      ((calculate a).bind fun v => (applyProcedure p v).mapError .evaluation) := by
  have hcall := (ha.call p).toWritten
  simp only [← String.append_assoc] at hcall
  refine hcall.yields ?_
  simp only [Tree.erase, Expr.eval_call, mapError_bind, ← ha.calculate_eq]

theorem Written.yields_parenthesized (ha : Written a e) : Yields ("(" ++ a ++ ")") (calculate a) :=
  ha.parenthesized.yields ha.calculate_eq.symm

/-! ## Main result -/

/-- **Composition.** Sources of one statement may be put into parentheses and together. The outcome is that of the
sources, from left to right, and then that of the operation on their values. -/
theorem calculate_compositional {x y : Expr} (ha : parse a = .ok ⟨[x]⟩) (hb : parse b = .ok ⟨[y]⟩) :
    (∀ op : BinaryOperator, Yields ("(" ++ a ++ ")" ++ op.symbol ++ "(" ++ b ++ ")")
        ((calculate a).bind fun v => (calculate b).bind fun w => (applyBinary op v w).mapError .evaluation)) ∧
      (∀ s : Sign, Yields (s.symbol ++ "(" ++ a ++ ")")
        ((calculate a).bind fun v => (applySign s v).mapError .evaluation)) ∧
      Yields ("(" ++ a ++ ")!") ((calculate a).bind fun v => (applyFactorial v).mapError .evaluation) ∧
      Yields ("(" ++ a ++ ")e")
        ((calculate a).bind fun v => (applyBinary .mul v (.float eulerNumber)).mapError .evaluation) ∧
      (∀ p : Procedure, Yields (p.name ++ "(" ++ a ++ ")")
        ((calculate a).bind fun v => (applyProcedure p v).mapError .evaluation)) ∧
      Yields ("(" ++ a ++ ")") (calculate a) := by
  obtain ⟨e, he, -⟩ := exists_written ha
  obtain ⟨f, hf, -⟩ := exists_written hb
  exact ⟨he.yields_binary hf, he.yields_signed, he.yields_factorial, he.yields_eulerFold, he.yields_call,
    he.yields_parenthesized⟩

/-- A sum, and a difference in which a sign stands before a factorial. -/
theorem calculate_product_of_parenthesized :
    parse "1+2" = .ok ⟨[.binary .add (.integer 1) (.integer 2)]⟩ ∧
      parse "2--3!" = .ok ⟨[.binary .sub (.integer 2) (.signed .minus (.factorial (.integer 3)))]⟩ ∧
      Yields "(1+2)*(2--3!)" (.ok (.integer 24)) := by
  have ha : parse "1+2" = .ok ⟨[.binary .add (.integer 1) (.integer 2)]⟩ := by cbv
  have hb : parse "2--3!" = .ok ⟨[.binary .sub (.integer 2) (.signed .minus (.factorial (.integer 3)))]⟩ := by cbv
  have hva : calculate "1+2" = .ok (.integer 3) := by cbv
  have hvb : calculate "2--3!" = .ok (.integer 8) := by cbv
  have hproduct := (calculate_compositional ha hb).1 .mul
  rw [hva, hvb] at hproduct
  exact ⟨ha, hb, hproduct⟩

end Yields

end Calculator
