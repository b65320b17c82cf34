import Calculator.Proofs.Standing

/-!
# Calculator.Proofs.Recovery — every token and every diagnostic is accounted for

Reading a program cuts its tokens into stretches, one for each attempt. A `Stretch` that gave an expression gives it
alone, too, since a reading never looks further than at the token behind its last one. Where a failed attempt has
left off is told by its diagnostic (`Resumes`), so no token is lost and none is read twice.

`Stretch.log` says what a list of stretches reports, one after the other, by what has gone before each of them.
-/

namespace Calculator

/-! ## Stretches -/

/-- An attempt to read an expression, with the tokens that it has used up. -/
structure Stretch where
  tokens : List Token
  outcome : Except Diagnostic Expr

/-- After the failure `d` with the tokens `us`, the next attempt begins with the tokens `rest`: at the token that was
found where another was due, and otherwise right behind the token that is named. -/
inductive Resumes : Diagnostic → (us rest : List Token) → Prop where
  | found {us rest : List Token} (due : TokenKind) : Resumes (.expected due (rest.headD .eof).kind) us rest
  | behind {us rest : List Token} {t : Token} {d : Diagnostic} : d.Names t → ¬ d.IsExpected →
      Resumes d (us ++ [t]) rest
  | exhausted {us : List Token} {d : Diagnostic} : d.Names .eof → ¬ d.IsExpected → Resumes d us []

namespace Stretch

def attempt (s : Stretch) : Attempt := ⟨s.tokens.headD .eof, s.outcome⟩

def expr? (s : Stretch) : Option Expr := s.attempt.expr?

def failure? (s : Stretch) : Option Diagnostic := s.attempt.failure?

def fails (s : Stretch) : Bool := s.failure?.isSome

/-- What an attempt reports after others: itself, if an expression has been read before, and its failure. -/
def reports (before : List Stretch) (s : Stretch) : List Diagnostic :=
  (if before.any fun b => !b.fails then [.unexpected (s.tokens.headD .eof).text] else []) ++ s.failure?.toList

/-- All reports, in order. -/
def log (ss : List Stretch) : List Diagnostic := (ss.inits.zip ss).flatMap fun (before, s) => s.reports before

/-- A stretch with the tokens `rest` behind it. An expression is what the tokens of the stretch give alone and
without diagnostics; a failure tells where the next attempt begins. -/
inductive Sound : Stretch → (rest : List Token) → Prop where
  | expression {us rest : List Token} {x : Expr} : us ≠ [] →
      Parser.program ⟨us, []⟩ = (⟨[x]⟩, ⟨[], []⟩) → Sound ⟨us, .ok x⟩ rest
  | failure {us rest : List Token} {d : Diagnostic} : us ≠ [] → Resumes d us rest → Sound ⟨us, .error d⟩ rest

end Stretch

/-- The tokens are cut into consecutive stretches. -/
inductive Cut : List Token → List Stretch → Prop where
  | nil : Cut [] []
  | cons {s : Stretch} {ss : List Stretch} {rest : List Token} : s.Sound rest → Cut rest ss →
      Cut (s.tokens ++ rest) (s :: ss)

/-! ## One attempt -/

section Attempt

variable {t last : Token} {ts us rest : List Token} {e : Tree}

/-- A tiered tree is all that its tokens alone give. -/
theorem program_of_spells (hsp : e.Spells ts) (ht : e.Tiered) :
    Parser.program ⟨ts, []⟩ = (⟨[e.erase]⟩, ⟨[], []⟩) := by
  obtain ⟨last, hread⟩ := Reading.readExpr_of_spells .lowest hsp ht
    fun q hq => Tree.lowest_lt_of_mem_leftTiers hq
  obtain ⟨t, us, rfl⟩ := List.exists_cons_of_ne_nil hsp.derives.ne_nil
  have hall : Attempt.all (t :: us) = [⟨t, .ok e.erase⟩] := by
    rw [Attempt.all_cons, hread]
    simp [Attempt.all]
  simp [Parser.program, hall, Attempt.expr?, Attempt.diagnostics, Attempt.failure?]

/-- An attempt uses up a stretch of tokens, and at least one. -/
theorem exists_stretch (t : Token) (ts : List Token) : ∃ us,
    t :: ts = us ++ (readExpr .lowest (t :: ts)).2.tail ∧
      Stretch.Sound ⟨us, (readExpr .lowest (t :: ts)).1⟩ (readExpr .lowest (t :: ts)).2.tail := by
  have hends := ends_readExpr .lowest (t :: ts)
  generalize (readExpr .lowest (t :: ts)).1 = outcome at hends ⊢
  generalize (readExpr .lowest (t :: ts)).2 = left at hends ⊢
  cases hends with
  | @expression us rest last e h hsp ht =>
    exact ⟨us ++ [last], by simp [h], .expression (by simp) (program_of_spells hsp ht)⟩
  | @expected us rest last due h => exact ⟨us ++ [last], by simp [h], .failure (by simp) (.found due)⟩
  | @named us rest u d h hd hne => exact ⟨us ++ [u], by simp [h], .failure (by simp) (.behind hd hne)⟩
  | exhausted hd hne => exact ⟨t :: ts, by simp, .failure (by simp) (.exhausted hd hne)⟩

theorem Stretch.Sound.ne_nil {s : Stretch} (h : s.Sound rest) : s.tokens ≠ [] := by
  cases h with
  | expression hne | failure hne => exact hne

end Attempt

/-! ## All attempts -/

theorem exists_cut (ts : List Token) : ∃ ss, Cut ts ss ∧ ss.map Stretch.attempt = Attempt.all ts := by
  fun_induction Attempt.all ts with
  | case1 => exact ⟨[], .nil, rfl⟩
  | case2 t ts reading ih =>
    obtain ⟨ss, hcut, hmap⟩ := ih
    obtain ⟨us, hsplit, hsound⟩ := exists_stretch t ts
    have hfirst : us.headD .eof = t := by
      obtain ⟨u, us, rfl⟩ := List.exists_cons_of_ne_nil hsound.ne_nil
      exact (List.cons.inj hsplit).1.symm
    refine ⟨⟨us, reading.1⟩ :: ss, ?_, ?_⟩
    · rw [hsplit]
      exact .cons hsound hcut
    · rw [List.map_cons, hmap, Stretch.attempt, hfirst]

/-! ## Reports -/

namespace Stretch

variable {ss : List Stretch}

theorem isSome_expr? (s : Stretch) : s.expr?.isSome = !s.fails := by
  unfold expr? fails failure? Attempt.expr? Attempt.failure?
  cases s.attempt.outcome <;> rfl

/-- The diagnostics of the attempts are the reports of the stretches. -/
theorem diagnostics_attempt (seen : Bool) (ss : List Stretch) :
    Attempt.diagnostics seen (ss.map attempt) = (ss.inits.zip ss).flatMap fun (before, s) =>
      (if seen || before.any fun b => !b.fails then [.unexpected (s.tokens.headD .eof).text] else []) ++
        s.failure?.toList := by
  induction ss generalizing seen with
  | nil => rfl
  | cons s ss ih =>
    have hseen : s.attempt.expr?.isSome = !s.fails := s.isSome_expr?
    rw [List.map_cons, Attempt.diagnostics, hseen, ih]
    simp [List.inits, List.zip_map_left, List.flatMap_map, attempt, failure?, Bool.or_assoc]

theorem length_diagnostics_seen (ss : List Stretch) :
    (Attempt.diagnostics true (ss.map attempt)).length = ss.countP fails + ss.length := by
  induction ss with
  | nil => rfl
  | cons s ss ih =>
    have hfailure : s.attempt.failure?.toList.length = if s.fails then 1 else 0 := by
      unfold fails failure?
      cases s.attempt.failure? <;> rfl
    rw [List.map_cons, Attempt.diagnostics, Bool.true_or]
    simp only [List.length_append, ih, hfailure, List.countP_cons, List.length_cons]
    cases s.fails <;> simp <;> omega

theorem length_diagnostics (ss : List Stretch) : (Attempt.diagnostics false (ss.map attempt)).length =
    ss.countP fails + (ss.dropWhile fails).tail.length := by
  induction ss with
  | nil => rfl
  | cons s ss ih =>
    have hseen : s.attempt.expr?.isSome = !s.fails := s.isSome_expr?
    rw [List.map_cons, Attempt.diagnostics, Bool.false_or, hseen]
    cases hs : s.fails with
    | false =>
      have hfailure : s.attempt.failure? = none := by simpa [fails, failure?] using hs
      simp [hfailure, hs, length_diagnostics_seen]
    | true =>
      obtain ⟨d, hd⟩ := Option.isSome_iff_exists.mp hs
      have hfailure : s.attempt.failure? = some d := hd
      simp [hfailure, hs, ih]
      omega

theorem diagnostics_eq_log (ss : List Stretch) : Attempt.diagnostics false (ss.map attempt) = log ss :=
  diagnostics_attempt false ss

end Stretch

/-! ## Main result -/

/-- **Recovery.** A program is read in consecutive attempts that use up all tokens of the source. Its statements are
the expressions of the attempts that succeed, and its diagnostics are the reports of the attempts. So there are as
many diagnostics as failures and attempts behind the first success. -/
theorem program_accounts_for_tokens (source : String) : ∃ ss, Cut (tokenize source) ss ∧
    (Parser.ofSource source).program = (⟨ss.filterMap Stretch.expr?⟩, ⟨[], Stretch.log ss⟩) ∧
      (Stretch.log ss).length = ss.countP Stretch.fails + (ss.dropWhile Stretch.fails).tail.length := by
  obtain ⟨ss, hcut, hmap⟩ := exists_cut (tokenize source)
  refine ⟨ss, hcut, ?_, ?_⟩
  · have hexprs : (Attempt.all (tokenize source)).filterMap Attempt.expr? = ss.filterMap Stretch.expr? := by
      rw [← hmap, List.filterMap_map]
      rfl
    simp only [Parser.program, Parser.ofSource, hexprs, List.nil_append, ← Stretch.diagnostics_eq_log, hmap]
  · rw [← Stretch.diagnostics_eq_log, Stretch.length_diagnostics]

end Calculator
