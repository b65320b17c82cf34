import Calculator.Proofs.Grouping

/-!
# Calculator.Proofs.Standing — where an attempt ends

`Ends base ts` lists the ways in which an attempt to read an expression from the tokens `ts` can end, each with its
outcome and with the tokens from the current one on. There are no others (`ends_readExpr`). What comes after an
attempt, within a program or in a further call, depends on its end alone:

* after an expression the current token is its last one;
* where a certain token was due, the current token is the one before the token found in its place;
* after any other failure the current token is the one that the diagnostic names, or the tokens have run out.
-/

namespace Calculator

/-- The token that a diagnostic complains of, as far as the diagnostic tells. -/
def Diagnostic.Names : Diagnostic → Token → Prop
  | .noOperand kind text, t => t.kind = kind ∧ t.text = text
  | .invalidLiteral text kind, t => t.kind = kind ∧ t.text = text
  | .expected _ found, t => t.kind = found
  | .unexpected text, t => t.text = text

/-- Whether a token of one certain kind was due. -/
def Diagnostic.IsExpected : Diagnostic → Prop
  | .expected _ _ => True
  | _ => False

/-- The end of an attempt to read an expression from the tokens `ts`: its outcome, and the tokens from the current
one on. -/
inductive Ends (base : Tier) (ts : List Token) : Except Diagnostic Expr → List Token → Prop where
  | expression {us rest : List Token} {last : Token} {e : Tree} : ts = us ++ last :: rest →
      e.Spells (us ++ [last]) → e.Tiered → (∀ q ∈ e.leftTiers, base < q) → Ends base ts (.ok e.erase) (last :: rest)
  | expected {us rest : List Token} {last : Token} (due : TokenKind) : ts = us ++ last :: rest →
      Ends base ts (.error (.expected due (rest.headD .eof).kind)) (last :: rest)
  | named {us rest : List Token} {t : Token} {d : Diagnostic} : ts = us ++ t :: rest → d.Names t →
      ¬ d.IsExpected → Ends base ts (.error d) (t :: rest)
  | exhausted {d : Diagnostic} : d.Names .eof → ¬ d.IsExpected → Ends base ts (.error d) []

theorem Ends.suffix {base : Tier} {ts left : List Token} {outcome : Except Diagnostic Expr}
    (h : Ends base ts outcome left) : left <:+ ts := by
  cases h with
  | expression h | expected _ h | named h => exact ⟨_, h.symm⟩
  | exhausted => exact List.nil_suffix

namespace Reading

variable {base : Tier} {ts left : List Token} {d : Diagnostic}

theorem names_missingOperand (t : Token) : (missingOperand t).Names t ∧ ¬ (missingOperand t).IsExpected := by
  unfold missingOperand
  split <;> simp [Diagnostic.Names, Diagnostic.IsExpected]

/-- A token that has no use is named, and so is the end of the tokens. -/
theorem ends_named (us rest : List Token) (hd : d.Names (rest.headD .eof)) (hne : ¬ d.IsExpected) :
    Ends base (us ++ rest) (.error d) rest := by
  cases rest with
  | nil => exact .exhausted hd hne
  | cons t rest => exact .named rfl hd hne

theorem ends_of_error (h : readExpr base ts = (.error d, left)) : Ends base ts (.error d) left := by
  obtain ⟨us, rest, r, rfl, hf, hrest⟩ := exists_follow? base (.operand []) ts
  rw [readExpr_eq_read, read_of_follow? rest hrest hf] at h
  obtain ⟨hd, rfl⟩ := Prod.mk.inj h
  cases r with
  | operand fs =>
    obtain rfl := Except.error.inj hd
    obtain ⟨hnames, hne⟩ := names_missingOperand (rest.headD .eof)
    exact ends_named us rest hnames hne
  | opening p name fs =>
    obtain ⟨vs, rfl⟩ := exists_concat_of_last? hf rfl
    obtain rfl := Except.error.inj hd
    exact Ends.expected .leftParen (List.append_assoc vs [name] rest)
  | continuation e last fs =>
    obtain ⟨vs, rfl⟩ := exists_concat_of_last? hf rfl
    rw [refuse_continuation rfl] at hd ⊢
    split at hd
    · next hlt =>
      rw [if_pos hlt]
      obtain rfl := Except.error.inj hd
      exact ends_named _ rest rfl id
    · next hlt =>
      split at hd
      · cases hd
      · next hopen =>
        rw [if_neg hlt, if_neg hopen]
        obtain rfl := Except.error.inj hd
        exact Ends.expected .rightParen (List.append_assoc vs [last] rest)

end Reading

/-- There are no other ends. -/
theorem ends_readExpr (base : Tier) (ts : List Token) : Ends base ts (readExpr base ts).1 (readExpr base ts).2 := by
  cases h : readExpr base ts with
  | mk outcome left =>
    cases outcome with
    | ok x =>
      obtain ⟨us, last, rest, e, rfl, rfl, hsp, ht, hl, rfl⟩ := Reading.exists_spells_of_readExpr h
      exact .expression rfl hsp ht hl
    | error d => exact Reading.ends_of_error h

end Calculator
