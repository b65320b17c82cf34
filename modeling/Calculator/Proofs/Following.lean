import Calculator.Proofs.Strategies

/-!
# Calculator.Proofs.Following — how far a reading is followed

`Reading.Step` lists the steps of a reading, one rule for each way in which a token belongs to the expression;
`accept?_eq_some_iff` says that there are no others. `Reading.follow?` follows a reading through all of a token
list. Every list splits into the tokens that are followed and the rest, whose first token is refused
(`exists_follow?`), and `read` comes to what the refusal makes of it (`read_of_follow?`).

For a whole source the first reading decides: the source is read if the reading uses up all tokens, and
otherwise the first diagnostic is the failure of that reading or names the first token left over.
-/

namespace Calculator

namespace Reading

variable {base : Tier} {r r' : Reading}

/-! ## Single steps -/

/-- The steps of a reading. A token behind an operand first closes what it does not join, so there the frames
and the operand are the settled ones. -/
inductive Step (base : Tier) : Reading → Token → Reading → Prop where
  | integer {fs : List Frame} {t : Token} {n : Int64} : t.kind = .integer → t.integer? = some n →
      Step base (.operand fs) t (.continuation (.integer n) t fs)
  | float {fs : List Frame} {t : Token} {x : Float} : t.kind = .float → t.float? = some x →
      Step base (.operand fs) t (.continuation (.float x) t fs)
  | euler {fs : List Frame} {t : Token} : t.kind = .euler →
      Step base (.operand fs) t (.continuation .euler t fs)
  | group {fs : List Frame} {t : Token} : t.kind = .leftParen →
      Step base (.operand fs) t (.operand (.group :: fs))
  | call {fs : List Frame} {t : Token} {p : Procedure} : t.kind = .procedure →
      Procedure.ofName? t.text = some p → Step base (.operand fs) t (.opening p t fs)
  | sign {fs : List Frame} {t : Token} {s : Sign} : t.kind = s.kind →
      Step base (.operand fs) t (.operand (.sign s :: fs))
  | opening {fs : List Frame} {name t : Token} {p : Procedure} : t.kind = .leftParen →
      Step base (.opening p name fs) t (.operand (.argument p :: fs))
  | operator {fs gs : List Frame} {e g : Tree} {last t : Token} {op : BinaryOperator} :
      BinaryOperator.ofToken? t = some op → settle op.tier fs e = (gs, g) → innerTier base gs < op.tier →
      Step base (.continuation e last fs) t (.operand (.operator op g :: gs))
  | eulerFold {fs gs : List Frame} {e g : Tree} {last t : Token} : t.kind = .euler →
      settle .euler fs e = (gs, g) → innerTier base gs < .euler →
      Step base (.continuation e last fs) t (.continuation (.eulerFold g) t gs)
  | factorial {fs gs : List Frame} {e g : Tree} {last t : Token} : t.kind = .factorial →
      settle .call fs e = (gs, g) → innerTier base gs < .call →
      Step base (.continuation e last fs) t (.continuation (.factorial g) t gs)
  | closeGroup {fs gs : List Frame} {e g : Tree} {last t : Token} : t.kind = .rightParen →
      settle .lowest fs e = (.group :: gs, g) →
      Step base (.continuation e last fs) t (.continuation (.group g) t gs)
  | closeCall {fs gs : List Frame} {e g : Tree} {last t : Token} {p : Procedure} : t.kind = .rightParen →
      settle .lowest fs e = (.argument p :: gs, g) →
      Step base (.continuation e last fs) t (.continuation (.call p g) t gs)

theorem step_of_beginOperand? {fs : List Frame} {t : Token} (h : beginOperand? fs t = some r') :
    Step base (.operand fs) t r' := by
  unfold beginOperand? at h
  cases hk : t.kind <;> simp [hk, TokenKind.operandRule?] at h
  case integer =>
    obtain ⟨n, hn, rfl⟩ := h
    exact .integer hk hn
  case float =>
    obtain ⟨x, hx, rfl⟩ := h
    exact .float hk hx
  case procedure =>
    obtain ⟨p, hp, rfl⟩ := h
    exact .call hk hp
  case euler => exact h ▸ .euler hk
  case leftParen => exact h ▸ .group hk
  case plus => exact h ▸ .sign (s := .plus) hk
  case minus => exact h ▸ .sign (s := .minus) hk

theorem step_of_join? {fs gs : List Frame} {e g : Tree} {last t : Token}
    (hs : settle t.kind.joiningTier fs e = (gs, g)) (hlt : innerTier base gs < t.kind.joiningTier)
    (h : join? gs g t = some r') : Step base (.continuation e last fs) t r' := by
  unfold join? at h
  cases hr : t.kind.infixRule? with
  | none =>
    -- of the kinds without a rule only `!` has a tier above the lowest
    have hk : t.kind = .factorial := by
      cases hk : t.kind <;> simp [hk, TokenKind.infixRule?] at hr <;> rw [hk] at hlt <;>
        first | rfl | exact absurd hlt (Nat.not_lt_zero _)
    rw [hr] at h
    rw [hk] at hs hlt
    exact Option.some.inj h ▸ .factorial hk hs hlt
  | some rule =>
    cases rule with
    | binary =>
      rw [hr] at h
      obtain ⟨op, hop, rfl⟩ := Option.map_eq_some_iff.mp h
      rw [joiningTier_of_ofToken? hop] at hs hlt
      exact .operator hop hs hlt
    | euler =>
      have hk : t.kind = .euler := by
        cases hk : t.kind <;> simp [hk, TokenKind.infixRule?] at hr
        rfl
      rw [hr] at h
      rw [hk] at hs hlt
      exact Option.some.inj h ▸ .eulerFold hk hs hlt

theorem step_of_close? {fs gs : List Frame} {e g : Tree} {last t : Token}
    (hs : settle t.kind.joiningTier fs e = (gs, g)) (h : close? gs g t = some r') :
    Step base (.continuation e last fs) t r' := by
  unfold close? at h
  split at h
  · next hk =>
    rw [hk] at hs
    split at h
    · exact Option.some.inj h ▸ .closeGroup hk hs
    · exact Option.some.inj h ▸ .closeCall hk hs
    · simp at h
  · simp at h

/-- There are no other steps. -/
theorem accept?_eq_some_iff {t : Token} : accept? base r t = some r' ↔ Step base r t r' := by
  constructor
  · intro h
    cases r with
    | operand fs => exact step_of_beginOperand? h
    | opening p name fs =>
      simp only [accept?] at h
      split at h
      · next hk => exact Option.some.inj h ▸ .opening hk
      · simp at h
    | continuation e last fs =>
      rw [accept?_continuation rfl] at h
      split at h
      · next hlt => exact step_of_join? rfl hlt h
      · exact step_of_close? rfl h
  · intro h
    cases h with
    | integer hk hn => simp [accept?, beginOperand?, TokenKind.operandRule?, hk, hn]
    | float hk hx => simp [accept?, beginOperand?, TokenKind.operandRule?, hk, hx]
    | euler hk => simp [accept?, beginOperand?, TokenKind.operandRule?, hk]
    | group hk => simp [accept?, beginOperand?, TokenKind.operandRule?, hk]
    | call hk hp => simp [accept?, beginOperand?, TokenKind.operandRule?, hk, hp]
    | @sign _ _ s hk =>
      cases s <;> simp [accept?, beginOperand?, TokenKind.operandRule?, hk, Sign.kind, Sign.ofKind]
    | opening hk => simp [accept?, hk]
    | operator hop hs hlt =>
      rw [← joiningTier_of_ofToken? hop] at hs hlt
      rw [accept?_continuation hs, if_pos hlt, join?, infixRule?_of_ofToken? hop]
      simp [hop]
    | eulerFold hk hs hlt =>
      rw [show Tier.euler = t.kind.joiningTier by rw [hk]; rfl] at hs hlt
      rw [accept?_continuation hs, if_pos hlt, join?, hk]
      rfl
    | factorial hk hs hlt =>
      rw [show Tier.call = t.kind.joiningTier by rw [hk]; rfl] at hs hlt
      rw [accept?_continuation hs, if_pos hlt, join?, hk]
      rfl
    | closeGroup hk hs =>
      rw [show Tier.lowest = t.kind.joiningTier by rw [hk]; rfl] at hs
      rw [accept?_continuation hs, if_neg (by rw [hk]; exact Nat.not_lt_zero _), close?, if_pos hk]
    | closeCall hk hs =>
      rw [show Tier.lowest = t.kind.joiningTier by rw [hk]; rfl] at hs
      rw [accept?_continuation hs, if_neg (by rw [hk]; exact Nat.not_lt_zero _), close?, if_pos hk]

/-! ## Runs -/

/-- The reading after a token list, if all its tokens belong to the expression. -/
def follow? (base : Tier) (r : Reading) (ts : List Token) : Option Reading := ts.foldlM (accept? base) r

@[simp] theorem follow?_nil : follow? base r [] = some r := rfl

theorem follow?_cons (t : Token) (ts : List Token) :
    follow? base r (t :: ts) = (accept? base r t).bind fun r' => follow? base r' ts := by
  simp [follow?]

theorem follow?_cons_of {t : Token} (h : accept? base r t = some r') (ts : List Token) :
    follow? base r (t :: ts) = follow? base r' ts := by
  rw [follow?_cons, h, Option.bind_some]

@[simp] theorem follow?_singleton (t : Token) : follow? base r [t] = accept? base r t := by
  rw [follow?_cons]
  cases accept? base r t <;> rfl

theorem Step.follow?_cons {t : Token} (h : Step base r t r') (ts : List Token) :
    follow? base r (t :: ts) = follow? base r' ts :=
  follow?_cons_of (accept?_eq_some_iff.mpr h) ts

theorem Step.follow?_singleton {t : Token} (h : Step base r t r') : follow? base r [t] = some r' :=
  h.follow?_cons []

theorem follow?_append (ts us : List Token) :
    follow? base r (ts ++ us) = (follow? base r ts).bind fun r' => follow? base r' us := by
  simp [follow?]

theorem follow?_append_of {ts : List Token} (h : follow? base r ts = some r') (us : List Token) :
    follow? base r (ts ++ us) = follow? base r' us := by
  rw [follow?_append, h, Option.bind_some]

theorem exists_follow?_of_append {ts us : List Token} (h : follow? base r (ts ++ us) = some r') :
    ∃ m, follow? base r ts = some m ∧ follow? base m us = some r' := by
  rw [follow?_append] at h
  exact Option.bind_eq_some_iff.mp h

/-- Every list has a longest beginning that is followed. -/
theorem exists_follow? (base : Tier) : ∀ (r : Reading) (ts : List Token), ∃ ps rest r',
    ts = ps ++ rest ∧ follow? base r ps = some r' ∧ ∀ t ∈ rest.head?, accept? base r' t = none
  | r, [] => ⟨[], [], r, rfl, rfl, by simp⟩
  | r, t :: ts => by
    cases h : accept? base r t with
    | none => exact ⟨[], t :: ts, r, rfl, rfl, by simpa using h⟩
    | some m =>
      obtain ⟨ps, rest, r', rfl, hps, hrest⟩ := exists_follow? base m ts
      exact ⟨t :: ps, rest, r', rfl, by rw [follow?_cons_of h, hps], hrest⟩

/-- A reading comes to what the first refused token makes of it. -/
theorem read_of_follow? (rest : List Token) (hrest : ∀ t ∈ rest.head?, accept? base r' t = none) :
    ∀ {ps : List Token} {r : Reading}, follow? base r ps = some r' →
      read base r (ps ++ rest) = ((r'.refuse base (rest.headD .eof)).outcome,
        (r'.refuse base (rest.headD .eof)).last.toList ++ rest)
  | [], r, h => by
    obtain rfl := Option.some.inj h
    exact read_of_refused hrest
  | t :: ps, r, h => by
    rw [follow?_cons] at h
    obtain ⟨m, hm, h⟩ := Option.bind_eq_some_iff.mp h
    rw [List.cons_append, read, hm]
    exact read_of_follow? rest hrest h

/-- The token that a reading keeps: the last one of an operand, or the name of a procedure. -/
def last? : Reading → Option Token
  | .operand _ => none
  | .opening _ name _ => some name
  | .continuation _ last _ => some last

theorem Step.last?_eq {t last : Token} (h : Step base r t r') (hlast : r'.last? = some last) : last = t := by
  cases h with
  | group | sign | opening | operator => simp [last?] at hlast
  | integer | float | euler | call | eulerFold | factorial | closeGroup | closeCall =>
    exact (Option.some.inj hlast).symm

/-- A reading keeps the token that it has come to. -/
theorem exists_concat_of_last? {ts : List Token} {last : Token} (h : follow? base (.operand []) ts = some r)
    (hlast : r.last? = some last) : ∃ us, ts = us ++ [last] := by
  rcases List.eq_nil_or_concat ts with rfl | ⟨us, t, rfl⟩
  · obtain rfl := Option.some.inj h
    simp [last?] at hlast
  · rw [List.concat_eq_append] at h ⊢
    obtain ⟨m, -, hstep⟩ := exists_follow?_of_append h
    rw [follow?_singleton] at hstep
    exact ⟨us, by rw [(accept?_eq_some_iff.mp hstep).last?_eq hlast]⟩

/-- At the end of the tokens an operand is complete if only signs and operators are open. -/
theorem readExpr_of_settle_nil {ts : List Token} {e g : Tree} {last : Token} {fs : List Frame}
    (h : follow? base (.operand []) ts = some (.continuation e last fs)) (hs : settle .lowest fs e = ([], g)) :
    readExpr base ts = (.ok g.erase, [last]) := by
  have hread := read_of_follow? [] (by simp) h
  have hs' : settle Token.eof.kind.joiningTier fs e = ([], g) := hs
  have hend : ¬ innerTier base [] < Token.eof.kind.joiningTier := Tier.not_lt_lowest base
  rw [readExpr_eq_read, ← List.append_nil ts, hread, List.headD_nil, refuse_continuation hs', if_neg hend, if_pos rfl]
  rfl

end Reading

/-! ## A source and its first reading -/

namespace Attempt

theorem all_cons (t : Token) (ts : List Token) :
    all (t :: ts) = ⟨t, (readExpr .lowest (t :: ts)).1⟩ :: all (readExpr .lowest (t :: ts)).2.tail := by
  rw [all]

end Attempt

section Parse

variable {source : String}

theorem parse_eq : parse source =
    if Attempt.diagnostics false (Attempt.all (tokenize source)) = [] then
      .ok ⟨(Attempt.all (tokenize source)).filterMap Attempt.expr?⟩
    else .error (Attempt.diagnostics false (Attempt.all (tokenize source))) := rfl

theorem parse_of_tokenize_nil (h : tokenize source = []) : parse source = .ok ⟨[]⟩ := by
  rw [parse_eq, h]
  simp [Attempt.all, Attempt.diagnostics]

theorem parse_of_readExpr_error {d : Diagnostic} {rest : List Token} (hne : tokenize source ≠ [])
    (h : readExpr .lowest (tokenize source) = (.error d, rest)) :
    ∃ ds, parse source = .error (d :: ds) := by
  obtain ⟨t, ts, hts⟩ := List.exists_cons_of_ne_nil hne
  rw [hts] at h
  rw [parse_eq, hts, Attempt.all_cons, h]
  exact ⟨_, rfl⟩

/-- A failure at the last token is the only diagnostic. -/
theorem parse_of_readExpr_error_last {d : Diagnostic} {last : Token} (hne : tokenize source ≠ [])
    (h : readExpr .lowest (tokenize source) = (.error d, [last])) : parse source = .error [d] := by
  obtain ⟨t, ts, hts⟩ := List.exists_cons_of_ne_nil hne
  rw [hts] at h
  rw [parse_eq, hts, Attempt.all_cons, h]
  simp [Attempt.all, Attempt.diagnostics, Attempt.failure?]

theorem parse_of_readExpr_ok {e : Expr} {last : Token} (hne : tokenize source ≠ [])
    (h : readExpr .lowest (tokenize source) = (.ok e, [last])) : parse source = .ok ⟨[e]⟩ := by
  obtain ⟨t, ts, hts⟩ := List.exists_cons_of_ne_nil hne
  rw [hts] at h
  rw [parse_eq, hts, Attempt.all_cons, h]
  simp [Attempt.all, Attempt.diagnostics, Attempt.failure?, Attempt.expr?]

theorem parse_of_readExpr_left {e : Expr} {last u : Token} {us : List Token} (hne : tokenize source ≠ [])
    (h : readExpr .lowest (tokenize source) = (.ok e, last :: u :: us)) :
    ∃ ds, parse source = .error (.unexpected u.text :: ds) := by
  obtain ⟨t, ts, hts⟩ := List.exists_cons_of_ne_nil hne
  rw [hts] at h
  rw [parse_eq, hts, Attempt.all_cons, h, List.tail_cons, Attempt.all_cons]
  exact ⟨_, rfl⟩

end Parse

end Calculator
