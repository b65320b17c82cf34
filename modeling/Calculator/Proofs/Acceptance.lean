import Calculator.Proofs.Grouping
import Calculator.Proofs.Evaluating

/-!
# Calculator.Proofs.Acceptance — what is read at all

Tiers never decide whether a source is read. An operator closes whatever it does not join and then joins the
rest, so behind an operand every operator and every postfix is taken (`exists_step_of_isOperator`,
`exists_step_of_isPostfix`). What stays open is counted by the parentheses alone: `openParens` is all that a
reading has to remember of its frames.

By induction on its derivation every part of an expression is followed to the end of an operand, and leaves the
parentheses as they were (`Derives.follow?`). So exactly the sentences of the grammar are read.
-/

namespace Calculator

namespace Reading

variable {next : Tier} {fs gs : List Frame} {e g : Tree} {last t : Token}

/-! ## Open parentheses -/

def isParen : Frame → Bool
  | .group | .argument _ => true
  | .sign _ | .operator _ _ => false

/-- The open parentheses, from the innermost. -/
def openParens (fs : List Frame) : List Frame := fs.filter isParen

@[simp] theorem openParens_nil : openParens [] = [] := rfl

@[simp] theorem openParens_sign (s : Sign) (fs : List Frame) : openParens (.sign s :: fs) = openParens fs := rfl

@[simp] theorem openParens_operator (op : BinaryOperator) (l : Tree) (fs : List Frame) :
    openParens (.operator op l :: fs) = openParens fs := rfl

@[simp] theorem openParens_group (fs : List Frame) : openParens (.group :: fs) = .group :: openParens fs := rfl

@[simp] theorem openParens_argument (p : Procedure) (fs : List Frame) :
    openParens (.argument p :: fs) = .argument p :: openParens fs := rfl

/-- Closing signs and operators closes no parenthesis. -/
theorem openParens_of_settle (h : settle next fs e = (gs, g)) : openParens gs = openParens fs := by
  fun_induction settle next fs e with
  | case1 s fs e hlt | case3 op l fs e hlt | case5 fs e =>
    obtain ⟨rfl, rfl⟩ := Prod.mk.inj h
    rfl
  | case2 s fs e hlt ih => exact ih h
  | case4 op l fs e hlt ih => exact ih h

/-- Behind the closed frames a token of a tier above the lowest is joined. -/
theorem innerTier_lt_of_settle (hn : Tier.lowest < next) (h : settle next fs e = (gs, g)) :
    innerTier .lowest gs < next := by
  fun_induction settle next fs e with
  | case1 s fs e hlt | case3 op l fs e hlt =>
    obtain ⟨rfl, rfl⟩ := Prod.mk.inj h
    exact hlt
  | case5 fs e hsign hop =>
    obtain ⟨rfl, rfl⟩ := Prod.mk.inj h
    cases fs with
    | nil => exact hn
    | cons f fs =>
      cases f with
      | sign s => exact (hsign s fs rfl).elim
      | operator op l => exact (hop op l fs rfl).elim
      | group => exact hn
      | argument p => exact hn
  | case2 s fs e hlt ih => exact ih h
  | case4 op l fs e hlt ih => exact ih h

/-- A token that joins nothing closes everything up to the innermost parenthesis. -/
theorem settle_lowest (h : settle .lowest fs e = (gs, g)) :
    gs = [] ∨ ∃ f hs, gs = f :: hs ∧ isParen f = true := by
  fun_induction settle .lowest fs e with
  | case1 s fs e hlt => exact absurd hlt (Tier.not_lt_lowest _)
  | case3 op l fs e hlt => exact absurd hlt (Tier.not_lt_lowest _)
  | case5 fs e hsign hop =>
    obtain ⟨rfl, rfl⟩ := Prod.mk.inj h
    cases fs with
    | nil => exact Or.inl rfl
    | cons f fs =>
      cases f with
      | sign s => exact (hsign s fs rfl).elim
      | operator op l => exact (hop op l fs rfl).elim
      | group => exact Or.inr ⟨_, _, rfl, rfl⟩
      | argument p => exact Or.inr ⟨_, _, rfl, rfl⟩
  | case2 s fs e hlt ih => exact ih h
  | case4 op l fs e hlt ih => exact ih h

theorem eq_nil_of_settle_lowest (h : settle .lowest fs e = (gs, g)) (hp : openParens fs = []) : gs = [] := by
  rcases settle_lowest h with rfl | ⟨f, hs, rfl, hf⟩
  · rfl
  · rw [← openParens_of_settle h] at hp
    simp [openParens, hf] at hp

theorem eq_cons_of_settle_lowest {f : Frame} {ps : List Frame} (h : settle .lowest fs e = (gs, g))
    (hp : openParens fs = f :: ps) : ∃ hs, gs = f :: hs ∧ openParens hs = ps := by
  rw [← openParens_of_settle h] at hp
  rcases settle_lowest h with rfl | ⟨f', hs, rfl, hf⟩
  · simp [openParens] at hp
  · rw [openParens, List.filter_cons_of_pos hf] at hp
    obtain ⟨rfl, rfl⟩ := List.cons.inj hp
    exact ⟨hs, rfl, rfl⟩

/-! ## Tokens behind an operand -/

theorem exists_step_of_isOperator (ht : t.IsOperator) (e : Tree) (last : Token) (fs : List Frame) :
    ∃ gs, Step .lowest (.continuation e last fs) t (.operand gs) ∧ openParens gs = openParens fs := by
  obtain ⟨op, hop⟩ := Token.isOperator_iff.mp ht
  cases hs : settle op.tier fs e with
  | mk gs g =>
    have hlt := innerTier_lt_of_settle op.lowest_lt_tier hs
    exact ⟨.operator op g :: gs, .operator hop hs hlt, by simp [openParens_of_settle hs]⟩

theorem exists_step_of_isPostfix (ht : t.IsPostfix) (e : Tree) (last : Token) (fs : List Frame) :
    ∃ g gs, Step .lowest (.continuation e last fs) t (.continuation g t gs) ∧ openParens gs = openParens fs := by
  rcases ht with hk | hk
  · cases hs : settle .call fs e with
    | mk gs g =>
      have hlt : innerTier .lowest gs < .call := innerTier_lt_of_settle (by decide) hs
      exact ⟨_, _, .factorial hk hs hlt, openParens_of_settle hs⟩
  · cases hs : settle .euler fs e with
    | mk gs g =>
      have hlt : innerTier .lowest gs < .euler := innerTier_lt_of_settle (by decide) hs
      exact ⟨_, _, .eulerFold hk hs hlt, openParens_of_settle hs⟩

theorem exists_step_of_rightParen {f : Frame} {ps : List Frame} (ht : t.kind = .rightParen)
    (hp : openParens fs = f :: ps) (e : Tree) (last : Token) :
    ∃ g gs, Step .lowest (.continuation e last fs) t (.continuation g t gs) ∧ openParens gs = ps := by
  cases hs : settle .lowest fs e with
  | mk gs g =>
    obtain ⟨hs', rfl, hps⟩ := eq_cons_of_settle_lowest hs hp
    have hf : f ∈ openParens fs := by simp [hp]
    cases f with
    | group => exact ⟨_, _, .closeGroup ht hs, hps⟩
    | argument p => exact ⟨_, _, .closeCall ht hs, hps⟩
    | sign s => simp [openParens, isParen] at hf
    | operator op l => simp [openParens, isParen] at hf

end Reading

/-! ## Parts of expressions are followed -/

section Follow

open Reading

variable {n : Part} {ts : List Token}

theorem exists_step_of_isLiteral {t : Token} (hs : t.Scanned) (ht : t.IsLiteral) (fs : List Frame) :
    ∃ e, Reading.Step .lowest (.operand fs) t (.continuation e t fs) := by
  rcases ht with hk | ⟨hk, hlt⟩
  · obtain ⟨x, hx⟩ := hs.exists_float hk
    exact ⟨_, .float hk hx⟩
  · have hr : InRange t.value := inRange_natCast_iff.mpr hlt
    have hn : t.integer? = some (Int64.ofInt t.value) := by
      rw [hs.integer?_eq hk, narrow?, if_pos hr]
    exact ⟨_, .integer hk hn⟩

/-- Every part is followed to the end of an operand, and leaves the open parentheses as they were. -/
theorem Derives.follow? (h : Derives n ts) (hts : ∀ t ∈ ts, t.Scanned) (fs : List Frame) :
    ∃ e last gs, follow? .lowest (.operand fs) ts = some (.continuation e last gs) ∧
      openParens gs = openParens fs := by
  induction h generalizing fs with
  | literal ht =>
    obtain ⟨e, hstep⟩ := exists_step_of_isLiteral (hts _ (by simp)) ht fs
    exact ⟨e, _, fs, hstep.follow?_singleton, rfl⟩
  | euler hk => exact ⟨_, _, fs, Reading.Step.follow?_singleton (.euler hk), rfl⟩
  | @group l r ts hl _ hr ih =>
    have hinner : ∀ t ∈ ts, t.Scanned := fun t ht => hts t (by simp [ht])
    obtain ⟨e, last, gs, hin, hgs⟩ := ih hinner (.group :: fs)
    obtain ⟨g, hs, hstep, hps⟩ := exists_step_of_rightParen hr hgs e last
    refine ⟨g, r, hs, ?_, hps⟩
    rw [Reading.Step.follow?_cons (.group hl), follow?_append_of hin]
    exact hstep.follow?_singleton
  | @call name l r ts hn hl _ hr ih =>
    have hinner : ∀ t ∈ ts, t.Scanned := fun t ht => hts t (by simp [ht])
    have hname : name.Scanned := hts name (by simp)
    obtain ⟨p, hp⟩ := hname.exists_procedure hn
    obtain ⟨e, last, gs, hin, hgs⟩ := ih hinner (.argument p :: fs)
    obtain ⟨g, hs, hstep, hps⟩ := exists_step_of_rightParen hr hgs e last
    refine ⟨g, r, hs, ?_, hps⟩
    rw [Reading.Step.follow?_cons (.call hn hp), Reading.Step.follow?_cons (.opening hl), follow?_append_of hin]
    exact hstep.follow?_singleton
  | primary _ ih | suffixed _ ih | unit _ ih => exact ih hts fs
  | @suffix t ts _ ht ih =>
    have hinner : ∀ t ∈ ts, t.Scanned := fun t ht => hts t (by simp [ht])
    obtain ⟨e, last, gs, hin, hgs⟩ := ih hinner fs
    obtain ⟨g, hs, hstep, hps⟩ := exists_step_of_isPostfix ht e last gs
    refine ⟨g, t, hs, ?_, hps.trans hgs⟩
    rw [follow?_append_of hin]
    exact hstep.follow?_singleton
  | @sign t ts ht _ ih =>
    obtain ⟨s, hk⟩ := Sign.exists_kind_of_isSign ht
    have hinner : ∀ t ∈ ts, t.Scanned := fun t ht => hts t (by simp [ht])
    obtain ⟨e, last, gs, hin, hgs⟩ := ih hinner (.sign s :: fs)
    refine ⟨e, last, gs, ?_, hgs⟩
    rw [Reading.Step.follow?_cons (.sign hk), hin]
  | @operator t ls rs _ ht _ ihl ihr =>
    have hleft : ∀ t ∈ ls, t.Scanned := fun t ht => hts t (by simp [ht])
    have hright : ∀ t ∈ rs, t.Scanned := fun t ht => hts t (by simp [ht])
    obtain ⟨e, last, gs, hin, hgs⟩ := ihl hleft fs
    obtain ⟨hs, hstep, hps⟩ := exists_step_of_isOperator ht e last gs
    obtain ⟨e', last', gs', hin', hgs'⟩ := ihr hright hs
    refine ⟨e', last', gs', ?_, hgs'.trans (hps.trans hgs)⟩
    rw [follow?_append_of hin, hstep.follow?_cons, hin']

end Follow

/-! ## Main result -/

theorem exists_parse_eq_singleton_iff {source : String} :
    (∃ x, parse source = .ok ⟨[x]⟩) ↔ Derives .expr (tokenize source) := by
  constructor
  · rintro ⟨x, h⟩
    rcases parse_eq_ok_iff.mp h with ⟨-, h⟩ | ⟨e, hsp, -, -⟩
    · simp at h
    · exact hsp.derives
  · intro h
    obtain ⟨e, last, gs, hf, hgs⟩ := h.follow? scanned_of_mem_tokenize []
    cases hs : Reading.settle .lowest gs e with
    | mk gs' g =>
      obtain rfl := Reading.eq_nil_of_settle_lowest hs hgs
      exact ⟨g.erase, parse_of_readExpr_ok h.ne_nil (Reading.readExpr_of_settle_nil hf hs)⟩

theorem parse_eq_nil_iff {source : String} : parse source = .ok ⟨[]⟩ ↔ tokenize source = [] := by
  rw [parse_eq_ok_iff]
  simp

/-- **Acceptance.** A source is read if and only if it has no tokens or its tokens are a sentence of the grammar.
Without tokens it has no statement, and a sentence is one statement. There is nothing to evaluate exactly in the
sources of blanks alone. -/
theorem parse_accepts_grammar (source : String) :
    ((∃ p, parse source = .ok p) ↔ tokenize source = [] ∨ Derives .expr (tokenize source)) ∧
      (parse source = .ok ⟨[]⟩ ↔ tokenize source = []) ∧
      ((∃ x, parse source = .ok ⟨[x]⟩) ↔ Derives .expr (tokenize source)) ∧
      (calculate source = .error (.evaluation .emptyProgram) ↔ ∀ c ∈ source.toList, isBlank c = true) := by
  refine ⟨?_, parse_eq_nil_iff, exists_parse_eq_singleton_iff, ?_⟩
  · rw [← parse_eq_nil_iff, ← exists_parse_eq_singleton_iff]
    constructor
    · rintro ⟨p, h⟩
      rcases parse_eq_ok_iff.mp h with ⟨-, rfl⟩ | ⟨e, -, -, rfl⟩
      · exact Or.inl h
      · exact Or.inr ⟨_, h⟩
    · rintro (h | ⟨x, h⟩)
      · exact ⟨_, h⟩
      · exact ⟨_, h⟩
  · rw [← tokenize_eq_nil_iff, ← parse_eq_nil_iff]
    constructor
    · intro h
      cases hp : parse source with
      | error ds => simp [calculate_of_parse_error hp] at h
      | ok p =>
        -- a program of one statement has a failure of its own or a value
        rw [calculate_of_parse_ok hp] at h
        rcases parse_eq_ok_iff.mp hp with ⟨-, rfl⟩ | ⟨e, -, -, rfl⟩
        · rfl
        · rw [Program.eval_singleton] at h
          cases he : e.erase.eval with
          | ok v => simp [he, Except.mapError] at h
          | error error =>
            rw [he] at h
            have herror : error = .emptyProgram := by simpa [Except.mapError] using h
            exact absurd (herror ▸ he) e.erase.eval_ne_emptyProgram
    · intro h
      rw [calculate_of_parse_ok h, Program.eval_nil]
      rfl

end Calculator
