import Calculator.Proofs.Acceptance

/-!
# Calculator.Proofs.Viability — every token that is followed can be completed

Whatever has been followed has a completion: a number where an operand is due, an argument behind the name of a
procedure, and the parentheses that are still open (`exists_completes`). So a list of tokens is followed if and
only if it is viable (`viable_iff_follow?`), and the first token that is refused is the first one that no
completion can contain.

What is due behind a viable list is said without readings: `OperandDue`, `ArgumentDue` and `EndsOperand` are the
three cases, and `Unclosed` counts parentheses.
-/

namespace Calculator

open Reading

/-! ## What is due behind a list of tokens -/

namespace Token

def one : Token := ⟨.integer, "1"⟩

def leftParen : Token := ⟨.leftParen, "("⟩

def rightParen : Token := ⟨.rightParen, ")"⟩

theorem scanned_one : one.Scanned := @Scanned.integer ['1'] (by decide) (by decide)

theorem scanned_leftParen : leftParen.Scanned := @Scanned.symbol '(' (by decide) (by decide) (by decide)

theorem scanned_rightParen : rightParen.Scanned := @Scanned.symbol ')' (by decide) (by decide) (by decide)

end Token

/-- An operand is due: a number may stand there. -/
def OperandDue (ts : List Token) : Prop := Viable (ts ++ [.one])

/-- The list ends with the name of a procedure where an operand was due. -/
def ArgumentDue (ts : List Token) : Prop :=
  ∃ us name, ts = us ++ [name] ∧ name.kind = .procedure ∧ OperandDue us

/-- The list ends with a complete operand. -/
def EndsOperand (ts : List Token) : Prop := ∃ us, us <:+ ts ∧ Derives .unit us

/-- More parentheses have been opened than closed. -/
def Unclosed (ts : List Token) : Prop :=
  ts.countP (·.kind = .rightParen) < ts.countP (·.kind = .leftParen)

/-! ## Completions -/

section Completion

variable {ts rest : List Token} {r r' : Reading} {t : Token}

/-- What has been read is a sentence once an operand is complete and no parenthesis is open. -/
theorem derives_of_follow? {e : Tree} {last : Token} {gs : List Frame}
    (h : follow? .lowest (.operand []) ts = some (.continuation e last gs)) (hgs : openParens gs = []) :
    Derives .expr ts := by
  cases hs : settle .lowest gs e with
  | mk gs' g =>
    obtain ⟨ts', us', rfl, hw, hfit, -⟩ := (reached_of_follow? h).settle hs
    obtain rfl := eq_nil_of_settle_lowest hs hgs
    cases hw with
    | nil => exact hfit.spells.derives

theorem exists_step_one (fs : List Frame) :
    ∃ e, Reading.Step .lowest (.operand fs) .one (.continuation e .one fs) :=
  exists_step_of_isLiteral Token.scanned_one (by decide) fs

/-- The tokens `rest` complete a reading: behind them an operand is complete and no parenthesis is open. -/
structure Completes (r : Reading) (rest : List Token) : Prop where
  scanned : ∀ t ∈ rest, t.Scanned
  complete : ∃ e last gs, follow? .lowest r rest = some (.continuation e last gs) ∧ openParens gs = []

theorem Completes.cons (ht : t.Scanned) (hstep : Reading.Step .lowest r t r') (h : Completes r' rest) :
    Completes r (t :: rest) := by
  obtain ⟨e, last, gs, hf, hgs⟩ := h.complete
  refine ⟨List.forall_mem_cons.mpr ⟨ht, h.scanned⟩, e, last, gs, ?_, hgs⟩
  rw [hstep.follow?_cons, hf]

/-- Open parentheses can be closed one by one. -/
theorem exists_completes_continuation (e : Tree) (last : Token) (fs : List Frame) :
    ∃ rest, Completes (.continuation e last fs) rest := by
  generalize hps : openParens fs = ps
  induction ps generalizing e last fs with
  | nil => exact ⟨[], by simp, e, last, fs, rfl, hps⟩
  | cons f ps ih =>
    obtain ⟨g, gs, hstep, hgs⟩ := exists_step_of_rightParen (t := .rightParen) rfl hps e last
    obtain ⟨rest, hrest⟩ := ih g .rightParen gs hgs
    exact ⟨_, hrest.cons Token.scanned_rightParen hstep⟩

theorem exists_completes_operand (fs : List Frame) : ∃ rest, Completes (.operand fs) rest := by
  obtain ⟨e, hstep⟩ := exists_step_one fs
  obtain ⟨rest, hrest⟩ := exists_completes_continuation e .one fs
  exact ⟨_, hrest.cons Token.scanned_one hstep⟩

theorem exists_completes (r : Reading) : ∃ rest, Completes r rest := by
  cases r with
  | operand fs => exact exists_completes_operand fs
  | continuation e last fs => exact exists_completes_continuation e last fs
  | opening p name fs =>
    obtain ⟨rest, hrest⟩ := exists_completes_operand (.argument p :: fs)
    exact ⟨_, hrest.cons Token.scanned_leftParen (.opening rfl)⟩

theorem viable_iff_follow? (hts : ∀ t ∈ ts, t.Scanned) :
    Viable ts ↔ ∃ r, follow? .lowest (.operand []) ts = some r := by
  constructor
  · rintro ⟨rest, hrest, h⟩
    have hall : ∀ t ∈ ts ++ rest, t.Scanned := List.forall_mem_append.mpr ⟨hts, hrest⟩
    obtain ⟨e, last, gs, hf, -⟩ := h.follow? hall []
    obtain ⟨r, hr, -⟩ := exists_follow?_of_append hf
    exact ⟨r, hr⟩
  · rintro ⟨r, hr⟩
    obtain ⟨rest, hrest, e, last, gs, hf, hgs⟩ := exists_completes r
    have hall : follow? .lowest (.operand []) (ts ++ rest) = some (.continuation e last gs) := by
      rw [follow?_append_of hr, hf]
    exact ⟨rest, hrest, derives_of_follow? hall hgs⟩

end Completion

/-! ## Readings by what is due -/

section Due

variable {ts : List Token} {r : Reading}

theorem exists_follow?_concat {t : Token} {r' : Reading}
    (h : follow? .lowest (.operand []) (ts ++ [t]) = some r') :
    ∃ r, follow? .lowest (.operand []) ts = some r ∧ Reading.Step .lowest r t r' := by
  obtain ⟨r, hr, hstep⟩ := exists_follow?_of_append h
  rw [follow?_singleton] at hstep
  exact ⟨r, hr, accept?_eq_some_iff.mp hstep⟩

theorem operandDue_iff (hts : ∀ t ∈ ts, t.Scanned) (hr : follow? .lowest (.operand []) ts = some r) :
    OperandDue ts ↔ ∃ fs, r = .operand fs := by
  have hts' : ∀ t ∈ ts ++ [.one], t.Scanned :=
    List.forall_mem_append.mpr ⟨hts, List.forall_mem_singleton.mpr Token.scanned_one⟩
  rw [OperandDue, viable_iff_follow? hts']
  constructor
  · rintro ⟨r', hr'⟩
    obtain ⟨m, hm, hstep⟩ := exists_follow?_concat hr'
    obtain rfl := Option.some.inj (hr.symm.trans hm)
    cases hstep with
    | integer | float | euler | group | call | sign => exact ⟨_, rfl⟩
    | opening hk | eulerFold hk | factorial hk | closeGroup hk | closeCall hk => cases hk
    | operator hop => simp [BinaryOperator.ofToken?, Token.one] at hop
  · rintro ⟨fs, rfl⟩
    obtain ⟨e, hstep⟩ := exists_step_one fs
    refine ⟨.continuation e .one fs, ?_⟩
    rw [follow?_append_of hr]
    exact hstep.follow?_singleton

theorem argumentDue_iff (hts : ∀ t ∈ ts, t.Scanned) (hr : follow? .lowest (.operand []) ts = some r) :
    ArgumentDue ts ↔ ∃ p name fs, r = .opening p name fs := by
  constructor
  · rintro ⟨us, name, rfl, hk, hdue⟩
    have hus : ∀ t ∈ us, t.Scanned := fun t ht => hts t (by simp [ht])
    obtain ⟨m, hm, hstep⟩ := exists_follow?_concat hr
    obtain ⟨fs, rfl⟩ := (operandDue_iff hus hm).mp hdue
    cases hstep with
    | call => exact ⟨_, _, _, rfl⟩
    | integer hk' | float hk' | euler hk' | group hk' => simp [hk'] at hk
    | @sign _ _ s hk' => cases s <;> simp [hk', Sign.kind] at hk
  · rintro ⟨p, name, fs, rfl⟩
    rcases List.eq_nil_or_concat ts with rfl | ⟨us, t, rfl⟩
    · simp at hr
    · rw [List.concat_eq_append] at hr ⊢
      have hus : ∀ t ∈ us, t.Scanned := fun t ht => hts t (by simp [ht])
      obtain ⟨m, hm, hstep⟩ := exists_follow?_concat hr
      cases hstep with
      | call hk hp =>
        have hdue : OperandDue us := (operandDue_iff hus hm).mpr ⟨_, rfl⟩
        exact ⟨us, name, rfl, hk, hdue⟩

/-- The last token of an operand completes it. -/
theorem exists_continuation_of_endsOperand {t : Token} {r' : Reading} (h : Reading.Step .lowest r t r')
    (ht : t.EndsOperand) : ∃ e last fs, r' = .continuation e last fs := by
  unfold Token.EndsOperand at ht
  cases h with
  | integer | float | euler | eulerFold | factorial | closeGroup | closeCall => exact ⟨_, _, _, rfl⟩
  | group hk | call hk | opening hk => simp [hk] at ht
  | @sign _ _ s hk => cases s <;> simp [hk, Sign.kind] at ht
  | @operator _ _ _ _ _ _ op hop =>
    cases op <;> simp [BinaryOperator.kind_of_ofToken? hop, BinaryOperator.kind] at ht

theorem endsOperand_iff (hr : follow? .lowest (.operand []) ts = some r) :
    EndsOperand ts ↔ ∃ e last fs, r = .continuation e last fs := by
  constructor
  · rintro ⟨us, ⟨vs, rfl⟩, hunit⟩
    obtain ⟨ws, t, rfl, ht⟩ := hunit.exists_last
    rw [← List.append_assoc] at hr
    obtain ⟨m, -, hstep⟩ := exists_follow?_concat hr
    exact exists_continuation_of_endsOperand hstep ht
  · rintro ⟨e, last, fs, rfl⟩
    cases reached_of_follow? hr with
    | continuation hw hfit =>
      obtain ⟨us, hus, hunit⟩ := hfit.spells.derives.exists_unit_suffix
      exact ⟨us, hus.trans (List.suffix_append _ _), hunit⟩

end Due

/-! ## Parentheses -/

namespace Reading

variable {base : Tier} {r r' : Reading} {t : Token}

/-- The constructs that are open. -/
def frames : Reading → List Frame
  | .operand fs | .opening _ _ fs | .continuation _ _ fs => fs

/-- A step opens or closes a parenthesis with its token, and none with any other. -/
theorem Step.length_openParens (h : Step base r t r') :
    (openParens r.frames).length + [t].countP (·.kind = .leftParen) =
      (openParens r'.frames).length + [t].countP (·.kind = .rightParen) := by
  cases h with
  | integer hk | float hk | euler hk | call hk => simp [frames, hk]
  | group hk | opening hk => simp [frames, hk]
  | @sign _ _ s hk => cases s <;> simp [frames, hk, Sign.kind]
  | operator hop hs =>
    have hl : t.kind ≠ .leftParen := by
      intro hk
      simp [BinaryOperator.ofToken?, hk] at hop
    have hr : t.kind ≠ .rightParen := by
      intro hk
      simp [BinaryOperator.ofToken?, hk] at hop
    simp [frames, openParens_of_settle hs, hl, hr]
  | eulerFold hk hs | factorial hk hs => simp [frames, hk, openParens_of_settle hs]
  | closeGroup hk hs | closeCall hk hs =>
    have hps := openParens_of_settle hs
    simp [frames, hk, ← hps]

theorem length_openParens_of_follow? {ts : List Token} (h : follow? base r ts = some r') :
    (openParens r.frames).length + ts.countP (·.kind = .leftParen) =
      (openParens r'.frames).length + ts.countP (·.kind = .rightParen) := by
  induction ts generalizing r with
  | nil =>
    obtain rfl := Option.some.inj h
    rfl
  | cons t ts ih =>
    rw [follow?_cons] at h
    obtain ⟨m, hm, h⟩ := Option.bind_eq_some_iff.mp h
    have hstep := (accept?_eq_some_iff.mp hm).length_openParens
    have hrest := ih h
    simp only [List.countP_cons, List.countP_nil] at hstep ⊢
    omega

end Reading

theorem unclosed_iff {ts : List Token} {r : Reading} (h : follow? .lowest (.operand []) ts = some r) :
    Unclosed ts ↔ openParens r.frames ≠ [] := by
  have hlen := length_openParens_of_follow? h
  have hnil : (openParens (frames (.operand []))).length = 0 := rfl
  rw [Unclosed, ← List.length_pos_iff]
  omega

end Calculator
