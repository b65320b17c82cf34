import Calculator.Proofs.Standing

/-!
# Calculator.Proofs.Calls — one parser through many calls

A parser may be asked for programs and expressions in any order and as often as one likes. Whatever the calls have
been, it stands on a token of the source, or behind all of them, with the next token in view (`run_suffix`). A
call never goes back and never takes a diagnostic away. `expression_cases` says all that a call for an expression can
do; a call for a program uses up all tokens, and from then on nothing is left to read (`Exhausted`).
-/

namespace Calculator

/-- The tokens of a source, and its end for ever after. -/
def tokenAt (source : String) (i : Nat) : Token := (tokenize source).getD i .eof

/-- The tokens of a source from the position `i` to the position `j`. -/
def segment (source : String) (i j : Nat) : List Token := ((tokenize source).drop i).take (j + 1 - i)

namespace Parser

inductive Call where
  | program
  | expression (base : Tier)

/-- The parser after a call. -/
def after (p : Parser) : Call → Parser
  | .program => p.program.2
  | .expression base => (p.expression base).2

/-- The parser after a list of calls. -/
def run (p : Parser) (calls : List Call) : Parser := calls.foldl after p

/-- The parser of a source after the first `k` calls of a list. -/
def stateAt (source : String) (calls : List Call) (k : Nat) : Parser := run (.ofSource source) (calls.take k)

/-- Nothing is left to read. -/
structure Exhausted (p : Parser) : Prop where
  current : p.current = .eof
  program : p.program = (⟨[]⟩, p)
  expression : ∀ base, p.expression base = (none, ⟨p.remaining, p.diagnostics ++ [.noOperand .eof ""]⟩)

variable {p : Parser} {base : Tier} {source : String} {calls : List Call}

/-! ## One call -/

/-- A call for an expression reads a tree up to its last token and records nothing, or it records one diagnostic. -/
theorem expression_cases (p : Parser) (base : Tier) :
    (∃ us last rest, ∃ e : Tree, p.remaining = us ++ last :: rest ∧ e.Spells (us ++ [last]) ∧
      p.expression base = (some e.erase, ⟨last :: rest, p.diagnostics⟩)) ∨
    ∃ d left, left <:+ p.remaining ∧ p.expression base = (none, ⟨left, p.diagnostics ++ [d]⟩) := by
  have hends := ends_readExpr base p.remaining
  unfold expression
  cases hread : readExpr base p.remaining with
  | mk outcome left =>
    rw [hread] at hends
    cases outcome with
    | error d => exact Or.inr ⟨d, left, hends.suffix, rfl⟩
    | ok x =>
      cases hends with
      | expression h hsp => exact Or.inl ⟨_, _, _, _, h, hsp, rfl⟩

theorem after_suffix (p : Parser) (c : Call) : (p.after c).remaining <:+ p.remaining := by
  cases c with
  | program => exact List.nil_suffix
  | expression base =>
    rcases p.expression_cases base with ⟨us, last, rest, e, h, -, hq⟩ | ⟨d, left, h, hq⟩
    · rw [after, hq]
      exact ⟨us, h.symm⟩
    · rw [after, hq]
      exact h

theorem prefix_after (p : Parser) (c : Call) : p.diagnostics <+: (p.after c).diagnostics := by
  cases c with
  | program => exact List.prefix_append _ _
  | expression base =>
    rcases p.expression_cases base with ⟨us, last, rest, e, -, -, hq⟩ | ⟨d, left, -, hq⟩
    · exact ⟨[], by rw [after, hq, List.append_nil]⟩
    · rw [after, hq]
      exact List.prefix_append _ _

theorem exhausted_of_remaining (h : p.remaining = []) : p.Exhausted := by
  obtain ⟨ts, ds⟩ := p
  obtain rfl : ts = [] := h
  refine ⟨rfl, ?_, fun base => ?_⟩
  · simp [program, Attempt.all, Attempt.diagnostics]
  · rw [expression, readExpr_nil]

/-! ## Many calls -/

theorem run_suffix (p : Parser) (calls : List Call) : (p.run calls).remaining <:+ p.remaining := by
  induction calls generalizing p with
  | nil => exact List.suffix_refl _
  | cons c calls ih => exact (ih (p.after c)).trans (p.after_suffix c)

theorem stateAt_succ {k : Nat} {c : Call} (h : calls[k]? = some c) :
    stateAt source calls (k + 1) = (stateAt source calls k).after c := by
  rw [stateAt, stateAt, List.take_add_one, h]
  simp [run]

theorem stateAt_succ_of_none {k : Nat} (h : calls[k]? = none) :
    stateAt source calls (k + 1) = stateAt source calls k := by
  rw [stateAt, stateAt, List.take_add_one, h]
  simp

/-- From one state of a run to a later one. -/
theorem exists_run_of_le (source : String) (calls : List Call) {k j : Nat} (h : k ≤ j) :
    ∃ cs, stateAt source calls j = (stateAt source calls k).run cs := by
  obtain ⟨n, rfl⟩ := Nat.exists_eq_add_of_le h
  refine ⟨(calls.drop k).take n, ?_⟩
  simp [stateAt, run, List.take_add]

theorem stateAt_suffix (source : String) (calls : List Call) (k : Nat) :
    (stateAt source calls k).remaining <:+ tokenize source :=
  run_suffix _ _

theorem suffix_of_le (source : String) (calls : List Call) {k j : Nat} (h : k ≤ j) :
    (stateAt source calls j).remaining <:+ (stateAt source calls k).remaining := by
  obtain ⟨cs, hcs⟩ := exists_run_of_le source calls h
  rw [hcs]
  exact run_suffix _ cs

theorem prefix_stateAt_succ (source : String) (calls : List Call) (k : Nat) :
    (stateAt source calls k).diagnostics <+: (stateAt source calls (k + 1)).diagnostics := by
  cases h : calls[k]? with
  | none => exact ⟨[], by rw [stateAt_succ_of_none h, List.append_nil]⟩
  | some c =>
    rw [stateAt_succ h]
    exact prefix_after _ c

/-- A program uses up all tokens, for all that comes after it. -/
theorem exhausted_of_program {k j : Nat} (h : calls[k]? = some .program) (hj : k < j) :
    (stateAt source calls j).Exhausted := by
  have hnil : (stateAt source calls (k + 1)).remaining = [] := by
    rw [stateAt_succ h]
    rfl
  have hsuffix := suffix_of_le source calls hj
  rw [hnil] at hsuffix
  exact exhausted_of_remaining (List.suffix_nil.mp hsuffix)

/-! ## Positions -/

/-- The position of a parser in its source. -/
def position (source : String) (p : Parser) : Nat := (tokenize source).length - p.remaining.length

theorem remaining_eq_drop (h : p.remaining <:+ tokenize source) :
    p.remaining = (tokenize source).drop (position source p) :=
  List.suffix_iff_eq_drop.mp h

theorem current_eq (h : p.remaining <:+ tokenize source) : p.current = tokenAt source (position source p) := by
  rw [current, remaining_eq_drop h, tokenAt, List.headD_eq_head?_getD, List.head?_drop,
    List.getD_eq_getElem?_getD]

theorem peek_eq (h : p.remaining <:+ tokenize source) : p.peek = tokenAt source (position source p + 1) := by
  rw [peek, remaining_eq_drop h, tokenAt, List.tail_drop, List.headD_eq_head?_getD, List.head?_drop,
    List.getD_eq_getElem?_getD]

theorem position_le {q : Parser} (h : q.remaining <:+ p.remaining) : position source p ≤ position source q := by
  have hlen := h.length_le
  unfold position
  omega

/-- What stands before the last token of a suffix, and that token, are the segment between the positions. -/
theorem segment_eq {q : Parser} {us rest : List Token} {last : Token} (hp : p.remaining = us ++ last :: rest)
    (hq : q.remaining = last :: rest) (h : p.remaining <:+ tokenize source) :
    segment source (position source p) (position source q) = us ++ [last] := by
  have hlen := h.length_le
  have hcount : position source q + 1 - position source p = us.length + 1 := by
    simp only [position, hp, hq, List.length_append, List.length_cons] at hlen ⊢
    omega
  have happ : us ++ last :: rest = (us ++ [last]) ++ rest := by simp
  rw [segment, ← remaining_eq_drop h, hcount, hp, happ]
  exact List.take_left' (by simp)

/-- A call for an expression, as seen from the source. -/
theorem expression_spec {q : Parser} (h : p.remaining <:+ tokenize source) (hq : q = (p.expression base).2) :
    (∀ x, (p.expression base).1 = some x → q.diagnostics = p.diagnostics ∧ q.current.kind ≠ .eof ∧
      ∃ e : Tree, e.Spells (segment source (position source p) (position source q)) ∧ e.erase = x) ∧
    ((p.expression base).1 = none → ∃ d, q.diagnostics = p.diagnostics ++ [d]) := by
  rcases p.expression_cases base with ⟨us, last, rest, e, hp, hsp, he⟩ | ⟨d, left, -, he⟩
  · rw [he] at hq ⊢
    refine ⟨?_, by simp⟩
    intro x hx
    have hlast : last ∈ tokenize source := h.mem (by simp [hp])
    have hkind : q.current.kind ≠ .eof := by
      rw [hq]
      exact (scanned_of_mem_tokenize last hlast).kind_ne_eof
    refine ⟨by rw [hq], hkind, e, ?_, Option.some.inj hx⟩
    rw [segment_eq hp (by rw [hq]) h]
    exact hsp
  · rw [he] at hq ⊢
    exact ⟨by simp, fun _ => ⟨d, by rw [hq]⟩⟩

/-! ## Main result -/

/-- **Many calls.** After any calls the parser stands on consecutive tokens of its source, and later calls do not go
back. Diagnostics are only added at the end of the list. A call for an expression that gives one records nothing and
stays on its last token; one that gives none records one diagnostic. After a call for a program nothing is left. -/
theorem calls_invariant (source : String) (calls : List Call) : ∃ place : Nat → Nat, ∀ k,
    place k ≤ place (k + 1) ∧
    (stateAt source calls k).current = tokenAt source (place k) ∧
    (stateAt source calls k).peek = tokenAt source (place k + 1) ∧
    (stateAt source calls k).diagnostics <+: (stateAt source calls (k + 1)).diagnostics ∧
    (∀ base, calls[k]? = some (.expression base) →
      (∀ x, ((stateAt source calls k).expression base).1 = some x →
        (stateAt source calls (k + 1)).diagnostics = (stateAt source calls k).diagnostics ∧
        (stateAt source calls (k + 1)).current.kind ≠ .eof ∧
        ∃ e : Tree, e.Spells (segment source (place k) (place (k + 1))) ∧ e.erase = x) ∧
      (((stateAt source calls k).expression base).1 = none →
        ∃ d, (stateAt source calls (k + 1)).diagnostics = (stateAt source calls k).diagnostics ++ [d])) ∧
    (calls[k]? = some .program → ∀ j, k < j → (stateAt source calls j).Exhausted) := by
  refine ⟨fun k => position source (stateAt source calls k), fun k => ?_⟩
  have hstate := stateAt_suffix source calls k
  exact ⟨position_le (suffix_of_le _ _ (Nat.le_succ k)), current_eq hstate, peek_eq hstate,
    prefix_stateAt_succ source calls k, fun base hcall => expression_spec hstate (stateAt_succ hcall),
    fun hcall j => exhausted_of_program hcall⟩

end Parser

end Calculator
