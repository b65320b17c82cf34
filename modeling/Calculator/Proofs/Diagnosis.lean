import Calculator.Proofs.Viability

/-!
# Calculator.Proofs.Diagnosis — the first diagnostic points at the first token that does not fit

`Blames ts t d` says which diagnostic `d` belongs to a token `t` behind a viable list `ts`, by what is due there.
A reading that refuses a token blames it so (`blames_of_refused`), and what is due determines the diagnostic
(`Blames.unique`). The refused token stands right behind the longest viable beginning of the source, since no
longer one is followed.
-/

namespace Calculator

open Reading

/-! ## Which diagnostic belongs to a token -/

namespace Token

/-- An integer beyond the range. -/
def IsOversized (t : Token) : Prop := t.kind = .integer ∧ 2 ^ 63 ≤ t.value

/-- A procedure that is no operator. -/
def IsNamedProcedure (t : Token) : Prop := t.kind = .procedure ∧ t.text ≠ "√"

instance (t : Token) : Decidable t.IsOversized := inferInstanceAs (Decidable (_ ∧ _))

instance (t : Token) : Decidable t.IsNamedProcedure := inferInstanceAs (Decidable (_ ∧ _))

end Token

/-- `Blames ts t d`: the token `t`, which does not fit behind the list `ts`, is reported with `d`. -/
inductive Blames (ts : List Token) (t : Token) : Diagnostic → Prop where
  | oversized : OperandDue ts → t.IsOversized → Blames ts t (.invalidLiteral t.text .integer)
  | noOperand : OperandDue ts → ¬ t.IsOversized → Blames ts t (.noOperand t.kind t.text)
  | noArgument : ArgumentDue ts → Blames ts t (.expected .leftParen t.kind)
  | noOperator : EndsOperand ts → t.IsNamedProcedure → Blames ts t (.unexpected t.text)
  | unclosed : EndsOperand ts → Unclosed ts → ¬ t.IsNamedProcedure → Blames ts t (.expected .rightParen t.kind)
  | leftOver : EndsOperand ts → ¬ Unclosed ts → Blames ts t (.unexpected t.text)

section Blames

variable {ts : List Token} {t : Token} {r : Reading} {d d' : Diagnostic}

/-- Behind a viable list one thing is due, and so a token has one diagnostic. -/
theorem Blames.unique (hts : ∀ t ∈ ts, t.Scanned) (hr : follow? .lowest (.operand []) ts = some r)
    (h : Blames ts t d) (h' : Blames ts t d') : d = d' := by
  have hoperand : OperandDue ts → ¬ ArgumentDue ts ∧ ¬ EndsOperand ts := by
    rw [operandDue_iff hts hr, argumentDue_iff hts hr, endsOperand_iff hr]
    rintro ⟨fs, rfl⟩
    simp
  have hargument : ArgumentDue ts → ¬ EndsOperand ts := by
    rw [argumentDue_iff hts hr, endsOperand_iff hr]
    rintro ⟨p, name, fs, rfl⟩
    simp
  cases h <;> cases h' <;> grind

/-! ## Refused tokens -/

theorem not_step_eof {base : Tier} {r' : Reading} : ¬ Reading.Step base r .eof r' := by
  intro h
  cases h with
  | integer hk | float hk | euler hk | group hk | call hk | opening hk | eulerFold hk | factorial hk
  | closeGroup hk | closeCall hk => cases hk
  | @sign _ _ s hk => cases s <;> cases hk
  | operator hop => simp [BinaryOperator.ofToken?, Token.eof] at hop

theorem missingOperand_of_refused {fs : List Frame} (ht : t.Scanned ∨ t = .eof)
    (href : ∀ r', ¬ Reading.Step .lowest (.operand fs) t r') :
    (t.IsOversized ∧ missingOperand t = .invalidLiteral t.text .integer) ∨
      (¬ t.IsOversized ∧ missingOperand t = .noOperand t.kind t.text) := by
  rcases ht with ht | rfl
  · have hlit : ¬ t.IsLiteral := by
      intro h
      obtain ⟨e, hstep⟩ := exists_step_of_isLiteral ht h fs
      exact href _ hstep
    have hsign : ¬ t.IsSign := by
      intro h
      obtain ⟨s, hk⟩ := Sign.exists_kind_of_isSign h
      exact href _ (.sign hk)
    cases hk : t.kind with
    | integer =>
      have hbig : 2 ^ 63 ≤ t.value := by
        rcases Nat.lt_or_ge t.value (2 ^ 63) with hlt | hge
        · exact absurd (Or.inr ⟨hk, hlt⟩) hlit
        · exact hge
      have hmissing : missingOperand t = .invalidLiteral t.text .integer := by
        simp [missingOperand, TokenKind.operandRule?, hk]
      exact Or.inl ⟨⟨hk, hbig⟩, hmissing⟩
    | float => exact absurd (Or.inl hk) hlit
    | plus => exact absurd (Or.inl hk) hsign
    | minus => exact absurd (Or.inr hk) hsign
    | euler => exact absurd (.euler hk) (href _)
    | leftParen => exact absurd (.group hk) (href _)
    | procedure =>
      obtain ⟨p, hp⟩ := ht.exists_procedure hk
      exact absurd (.call hk hp) (href _)
    | eof | asterisk | slash | rightParen | factorial | exponent | power | illegal =>
      have hsmall : ¬ t.IsOversized := by simp [Token.IsOversized, hk]
      have hmissing : missingOperand t = .noOperand t.kind t.text := by
        simp [missingOperand, TokenKind.operandRule?, hk]
      exact Or.inr ⟨hsmall, by rw [hmissing, hk]⟩
  · exact Or.inr ⟨by simp [Token.IsOversized, Token.eof], rfl⟩

theorem joiningTier_of_refused {e : Tree} {last : Token} {fs : List Frame}
    (href : ∀ r', ¬ Reading.Step .lowest (.continuation e last fs) t r') :
    (t.IsNamedProcedure ∧ t.kind.joiningTier = .call) ∨
      (¬ t.IsNamedProcedure ∧ t.kind.joiningTier = .lowest) := by
  have hop : ¬ t.IsOperator := by
    intro h
    obtain ⟨gs, hstep, -⟩ := exists_step_of_isOperator h e last fs
    exact href _ hstep
  have hpost : ¬ t.IsPostfix := by
    intro h
    obtain ⟨g, gs, hstep, -⟩ := exists_step_of_isPostfix h e last fs
    exact href _ hstep
  cases hk : t.kind with
  | procedure =>
    have htext : t.text ≠ "√" := fun h => hop (Or.inr ⟨hk, h⟩)
    exact Or.inl ⟨⟨hk, htext⟩, rfl⟩
  | plus | minus | asterisk | slash | exponent | power => simp [Token.IsOperator, hk] at hop
  | factorial | euler => simp [Token.IsPostfix, hk] at hpost
  | eof | integer | float | leftParen | rightParen | illegal =>
    exact Or.inr ⟨by simp [Token.IsNamedProcedure, hk], rfl⟩

/-- Behind an operand a refused token is an operator that is none, an unclosed parenthesis, or the end. -/
theorem refuse_continuation_of_refused {e : Tree} {last : Token} {fs : List Frame}
    (href : ∀ r', ¬ Reading.Step .lowest (.continuation e last fs) t r') :
    (t.IsNamedProcedure ∧ (refuse .lowest (.continuation e last fs) t).outcome = .error (.unexpected t.text)) ∨
      (¬ t.IsNamedProcedure ∧ openParens fs ≠ [] ∧
        (refuse .lowest (.continuation e last fs) t).outcome = .error (.expected .rightParen t.kind)) ∨
      (openParens fs = [] ∧ ∃ x, (refuse .lowest (.continuation e last fs) t).outcome = .ok x) := by
  cases hs : settle t.kind.joiningTier fs e with
  | mk gs g =>
    rw [refuse_continuation hs]
    rcases joiningTier_of_refused href with ⟨hname, htier⟩ | ⟨hname, htier⟩
    · rw [htier] at hs ⊢
      rw [if_pos (innerTier_lt_of_settle (by decide) hs)]
      exact Or.inl ⟨hname, rfl⟩
    · rw [htier] at hs ⊢
      rw [if_neg (Tier.not_lt_lowest _)]
      by_cases hps : openParens fs = []
      · rw [if_pos (eq_nil_of_settle_lowest hs hps)]
        exact Or.inr (Or.inr ⟨hps, _, rfl⟩)
      · have hgs : gs ≠ [] := by
          rintro rfl
          exact hps (openParens_of_settle hs).symm
        rw [if_neg hgs]
        exact Or.inr (Or.inl ⟨hname, hps, rfl⟩)

/-- A refused token is blamed by what is due. An expression that is complete blames nothing yet, but then the
token is left over. -/
theorem blames_of_refused (hts : ∀ t ∈ ts, t.Scanned) (ht : t.Scanned ∨ t = .eof)
    (hr : follow? .lowest (.operand []) ts = some r) (href : ∀ r', ¬ Reading.Step .lowest r t r') :
    (∃ d, (r.refuse .lowest t).outcome = .error d ∧ Blames ts t d) ∨
      ∃ x, (r.refuse .lowest t).outcome = .ok x ∧ Blames ts t (.unexpected t.text) := by
  cases r with
  | operand fs =>
    have hdue := (operandDue_iff hts hr).mpr ⟨fs, rfl⟩
    refine Or.inl ⟨missingOperand t, rfl, ?_⟩
    rcases missingOperand_of_refused ht href with ⟨hbig, h⟩ | ⟨hbig, h⟩
    · rw [h]
      exact .oversized hdue hbig
    · rw [h]
      exact .noOperand hdue hbig
  | opening p name fs =>
    have hdue := (argumentDue_iff hts hr).mpr ⟨p, name, fs, rfl⟩
    exact Or.inl ⟨_, rfl, .noArgument hdue⟩
  | continuation e last fs =>
    have hend := (endsOperand_iff hr).mpr ⟨e, last, fs, rfl⟩
    have hclosed : Unclosed ts ↔ openParens fs ≠ [] := unclosed_iff hr
    rcases refuse_continuation_of_refused href with ⟨hname, h⟩ | ⟨hname, hps, h⟩ | ⟨hps, x, h⟩
    · exact Or.inl ⟨_, h, .noOperator hend hname⟩
    · exact Or.inl ⟨_, h, .unclosed hend (hclosed.mpr hps) hname⟩
    · exact Or.inr ⟨x, h, .leftOver hend fun hu => hclosed.mp hu hps⟩

end Blames

/-! ## Where the first reading of a source ends -/

/-- Of the tokens of a source the first reading follows `ts` up to `r`, and refuses the first of `rest`. -/
structure Halts (tokens ts rest : List Token) (r : Reading) : Prop where
  split : tokens = ts ++ rest
  followed : follow? .lowest (.operand []) ts = some r
  refused : ∀ t ∈ rest.head?, accept? .lowest r t = none

namespace Halts

variable {tokens ts rest us : List Token} {r : Reading}

theorem scanned (h : Halts tokens ts rest r) (htokens : ∀ t ∈ tokens, t.Scanned) :
    (∀ t ∈ ts, t.Scanned) ∧ ∀ t ∈ rest, t.Scanned :=
  List.forall_mem_append.mp (h.split ▸ htokens)

theorem not_step (h : Halts tokens ts rest r) (r' : Reading) : ¬ Reading.Step .lowest r (rest.headD .eof) r' := by
  cases rest with
  | nil => exact not_step_eof
  | cons t rest =>
    intro hstep
    have haccept : accept? .lowest r t = some r' := accept?_eq_some_iff.mpr hstep
    have hnone := h.refused t rfl
    simp [hnone] at haccept

/-- What is followed of a source is its longest viable beginning. -/
theorem prefix_of_viable (h : Halts tokens ts rest r) (hus : us <+: tokens) (hscan : ∀ t ∈ us, t.Scanned)
    (hv : Viable us) : us <+: ts := by
  have hts : ts <+: tokens := ⟨rest, h.split.symm⟩
  rcases List.prefix_or_prefix_of_prefix hus hts with hle | ⟨ws, rfl⟩
  · exact hle
  · cases ws with
    | nil => simp
    | cons w ws =>
      -- the first token behind `ts` is refused, but a viable list is followed to its end
      obtain ⟨m, hm⟩ := (viable_iff_follow? hscan).mp hv
      obtain ⟨vs, hvs⟩ := hus
      have hrest : w :: (ws ++ vs) = rest := by
        have hsplit := hvs.trans h.split
        simpa using hsplit
      have hw : accept? .lowest r w = none := h.refused w (by simp [← hrest])
      rw [follow?_append_of h.followed, follow?_cons, hw] at hm
      simp at hm

end Halts

/-! ## Main result -/

section Parse

variable {source : String} {ts rest : List Token} {r : Reading} {ds : List Diagnostic}

theorem head?_of_parse_error (h : parse source = .error ds) (hh : Halts (tokenize source) ts rest r) :
    ∃ d, ds.head? = some d ∧ Blames ts (rest.headD .eof) d := by
  have hne : tokenize source ≠ [] := by
    intro hnil
    rw [parse_of_tokenize_nil hnil] at h
    cases h
  have hread : readExpr .lowest (tokenize source) = _ :=
    (readExpr_eq_read .lowest _).trans (hh.split ▸ read_of_follow? rest hh.refused hh.followed)
  obtain ⟨hts, hrest⟩ := hh.scanned scanned_of_mem_tokenize
  have hX : (rest.headD .eof).Scanned ∨ rest.headD .eof = .eof := by
    cases rest with
    | nil => exact Or.inr rfl
    | cons t rest => exact Or.inl (hrest t (by simp))
  rcases blames_of_refused hts hX hh.followed hh.not_step with ⟨d, hd, hb⟩ | ⟨x, hx, hb⟩
  · rw [hd] at hread
    obtain ⟨ds', hds⟩ := parse_of_readExpr_error hne hread
    obtain rfl := Except.error.inj (h.symm.trans hds)
    exact ⟨d, rfl, hb⟩
  · obtain ⟨e, last, fs, g, rfl, -, -, hlast⟩ := refuse_outcome_eq_ok hx
    rw [hx, hlast] at hread
    cases rest with
    | nil =>
      rw [parse_of_readExpr_ok hne hread] at h
      cases h
    | cons u us =>
      obtain ⟨ds', hds⟩ := parse_of_readExpr_left hne hread
      obtain rfl := Except.error.inj (h.symm.trans hds)
      exact ⟨_, rfl, hb⟩

/-- **The first diagnostic.** If a source is not read, its first diagnostic is the one that belongs to the token,
or to the end, right behind the longest viable beginning. -/
theorem first_diagnostic_blames (h : parse source = .error ds) :
    ∃ ts rest, tokenize source = ts ++ rest ∧ Viable ts ∧
      (∀ us, us <+: tokenize source → Viable us → us <+: ts) ∧
      ∀ d, ds.head? = some d ↔ Blames ts (rest.headD .eof) d := by
  obtain ⟨ts, rest, r, hsplit, hr, href⟩ := exists_follow? .lowest (.operand []) (tokenize source)
  have hh : Halts (tokenize source) ts rest r := ⟨hsplit, hr, href⟩
  obtain ⟨hts, -⟩ := hh.scanned scanned_of_mem_tokenize
  obtain ⟨d, hd, hb⟩ := head?_of_parse_error h hh
  refine ⟨ts, rest, hsplit, (viable_iff_follow? hts).mpr ⟨r, hr⟩, ?_, ?_⟩
  · intro us hus hv
    have hscan : ∀ t ∈ us, t.Scanned := fun t ht => scanned_of_mem_tokenize t (hus.mem ht)
    exact hh.prefix_of_viable hus hscan hv
  · intro d'
    constructor
    · intro hd'
      obtain rfl := Option.some.inj (hd.symm.trans hd')
      exact hb
    · intro hb'
      rw [hd, hb.unique hts hr hb']

/-- A procedure without its parenthesis, inside of one: the number behind it is reported first. -/
theorem first_diagnostic_of_missing_parenthesis :
    ∃ ds, parse "2*(3+sin 4)" = .error ds ∧ ds.head? = some (.expected .leftParen .integer) ∧
      ∃ ts rest, tokenize "2*(3+sin 4)" = ts ++ rest ∧ Viable ts ∧
        (∀ us, us <+: tokenize "2*(3+sin 4)" → Viable us → us <+: ts) ∧
        Blames ts (rest.headD .eof) (.expected .leftParen .integer) := by
  have h : parse "2*(3+sin 4)" =
      .error [.expected .leftParen .integer, .unexpected ")", .noOperand .rightParen ")"] := by cbv
  obtain ⟨ts, rest, hsplit, hv, hmax, hd⟩ := first_diagnostic_blames h
  exact ⟨_, h, rfl, ts, rest, hsplit, hv, hmax, (hd _).mp rfl⟩

end Parse

end Calculator
