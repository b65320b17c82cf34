import Calculator.Proofs.Exactness

/-!
# Calculator.Proofs.FirstFault — the first failure in postorder is the outcome

The nodes of a program are listed statement by statement, the operands of each before the node itself. A node is at
fault if its operands have values and its own operation fails on them (`Expr.fault?`). What comes of a program is told
by this list alone: it fails if a node is at fault, and the first such node gives the failure (`Program.eval_of_fault`).

So nothing that comes after that node matters. `Expr.Place` and `Program.Place` are expressions and programs in which
one subexpression is left open; the nodes in front of the open place do not depend on what is put there
(`Program.Place.nodes_fill`).
-/

namespace Calculator

open Evaluation

/-! ## Faults -/

/-- The failure of an outcome, if it is one. -/
def failureOf? : Except EvalError Value → Option EvalError
  | .ok _ => none
  | .error error => some error

/-- The failure of the operation of a node on the values of its operands. A node is not at fault if an operand has no
value. -/
def Expr.fault? : Expr → Option EvalError
  | .integer _ | .float _ => none
  | .signed s e => e.eval.toOption.bind fun v => failureOf? (applySign s v)
  | .factorial e => e.eval.toOption.bind fun v => failureOf? (applyFactorial v)
  | .binary op l r =>
    l.eval.toOption.bind fun v => r.eval.toOption.bind fun w => failureOf? (applyBinary op v w)
  | .call p e => e.eval.toOption.bind fun v => failureOf? (applyProcedure p v)

/-- The nodes of a program: statement by statement, each in postorder. -/
def Program.nodes (p : Program) : List Expr := p.statements.flatMap Expr.postorder

section Faults

variable {error : EvalError} {s : Sign} {op : BinaryOperator} {p : Procedure} {e l r : Expr}

theorem failureOf?_eq_some_iff {x : Except EvalError Value} : failureOf? x = some error ↔ x = .error error := by
  cases x <;> simp [failureOf?]

theorem toOption_bind_eq_some_iff {x : Except EvalError Value} {f : Value → Option EvalError} :
    x.toOption.bind f = some error ↔ ∃ v, x = .ok v ∧ f v = some error := by
  cases x <;> simp [Except.toOption]

namespace Expr

theorem fault?_signed_iff :
    (signed s e).fault? = some error ↔ ∃ v, e.eval = .ok v ∧ applySign s v = .error error := by
  simp only [fault?, toOption_bind_eq_some_iff, failureOf?_eq_some_iff]

theorem fault?_factorial_iff :
    (factorial e).fault? = some error ↔ ∃ v, e.eval = .ok v ∧ applyFactorial v = .error error := by
  simp only [fault?, toOption_bind_eq_some_iff, failureOf?_eq_some_iff]

theorem fault?_binary_iff : (binary op l r).fault? = some error ↔
    ∃ v, l.eval = .ok v ∧ ∃ w, r.eval = .ok w ∧ applyBinary op v w = .error error := by
  simp only [fault?, toOption_bind_eq_some_iff, failureOf?_eq_some_iff]

theorem fault?_call_iff :
    (call p e).fault? = some error ↔ ∃ v, e.eval = .ok v ∧ applyProcedure p v = .error error := by
  simp only [fault?, toOption_bind_eq_some_iff, failureOf?_eq_some_iff]

end Expr

end Faults

theorem failureOf?_bind (x : Except EvalError Value) (f : Value → Except EvalError Value) :
    failureOf? (x.bind f) = (failureOf? x).or (x.toOption.bind fun v => failureOf? (f v)) := by
  cases x <;> rfl

/-- The failure of an expression is the first fault among its nodes. -/
theorem Expr.failureOf?_eval (e : Expr) : failureOf? e.eval = e.postorder.findSome? fault? := by
  induction e with
  | integer n => rfl
  | float x => rfl
  | signed s e ih =>
    rw [eval_signed, failureOf?_bind, ih, postorder, List.findSome?_append]
    simp [fault?]
  | factorial e ih =>
    rw [eval_factorial, failureOf?_bind, ih, postorder, List.findSome?_append]
    simp [fault?]
  | binary op l r ihl ihr =>
    rw [eval_binary, failureOf?_bind, ihl, postorder, List.findSome?_append, List.findSome?_append, ← ihr]
    cases hl : l.eval with
    | ok v => simp [fault?, hl, failureOf?_bind, Except.toOption]
    | error error =>
      -- behind a failure of the left operand the right one is not looked at
      have hfirst : l.postorder.findSome? fault? = some error := by rw [← ihl, hl, failureOf?]
      simp [hfirst]
  | call p e ih =>
    rw [eval_call, failureOf?_bind, ih, postorder, List.findSome?_append]
    simp [fault?]

/-! ## Programs -/

section Programs

variable {p : Program} {es : List Expr} {last : Expr} {error : EvalError}

theorem mapM_eval_of_fault (h : (es.flatMap Expr.postorder).findSome? Expr.fault? = some error) :
    es.mapM Expr.eval = .error error := by
  induction es with
  | nil => simp at h
  | cons e es ih =>
    rw [List.flatMap_cons, List.findSome?_append, ← e.failureOf?_eval] at h
    rw [List.mapM_cons]
    cases he : e.eval with
    | error error' =>
      rw [he] at h
      obtain rfl : error' = error := by simpa [failureOf?] using h
      rfl
    | ok v =>
      rw [he] at h
      rw [ih (by simpa [failureOf?] using h)]
      rfl

theorem mapM_eval_of_no_fault (h : (es.flatMap Expr.postorder).findSome? Expr.fault? = none) :
    ∃ vs, es.mapM Expr.eval = .ok vs ∧ es.map Expr.eval = vs.map .ok := by
  induction es with
  | nil => exact ⟨[], rfl, rfl⟩
  | cons e es ih =>
    rw [List.flatMap_cons, List.findSome?_append, Option.or_eq_none_iff, ← e.failureOf?_eval] at h
    obtain ⟨vs, hvs, hmap⟩ := ih h.2
    cases he : e.eval with
    | error error => simp [he, failureOf?] at h
    | ok v =>
      refine ⟨v :: vs, ?_, ?_⟩
      · rw [List.mapM_cons, he, hvs]
        rfl
      · rw [List.map_cons, List.map_cons, he, hmap]

/-- The first fault among the nodes is the outcome of the program. -/
theorem Program.eval_of_fault (h : p.nodes.findSome? Expr.fault? = some error) : p.eval = .error error := by
  unfold Program.eval
  rw [mapM_eval_of_fault h]
  rfl

/-- Without a fault the last statement has a value, and it is that of the program. -/
theorem Program.eval_of_no_fault (h : p.nodes.findSome? Expr.fault? = none)
    (hlast : p.statements.getLast? = some last) : ∃ v, last.eval = .ok v ∧ p.eval = .ok v := by
  obtain ⟨vs, hvs, hmap⟩ := mapM_eval_of_no_fault h
  have hvalue : (p.statements.map Expr.eval).getLast? = some last.eval := by
    rw [List.getLast?_map, hlast, Option.map_some]
  rw [hmap, List.getLast?_map] at hvalue
  obtain ⟨v, hv, hok⟩ := Option.map_eq_some_iff.mp hvalue
  refine ⟨v, hok.symm, ?_⟩
  unfold Program.eval
  simp only [hvs, bind, Except.bind, hv]

end Programs

/-! ## Places -/

/-- An expression in which one subexpression is left open. -/
inductive Expr.Place where
  | here
  | signed (sign : Sign) (operand : Place)
  | factorial (operand : Place)
  | left (operator : BinaryOperator) (left : Place) (right : Expr)
  | right (operator : BinaryOperator) (left : Expr) (right : Place)
  | call (procedure : Procedure) (argument : Place)

namespace Expr.Place

/-- The expression with `e` in the open place. -/
def fill (e : Expr) : Place → Expr
  | .here => e
  | .signed s place => .signed s (place.fill e)
  | .factorial place => .factorial (place.fill e)
  | .left op place r => .binary op (place.fill e) r
  | .right op l place => .binary op l (place.fill e)
  | .call p place => .call p (place.fill e)

/-- The nodes in front of the open place. -/
def before : Place → List Expr
  | .here => []
  | .signed _ place | .factorial place | .left _ place _ | .call _ place => place.before
  | .right _ l place => l.postorder ++ place.before

theorem postorder_fill (place : Place) (e : Expr) :
    ∃ after, (place.fill e).postorder = place.before ++ (e.postorder ++ after) := by
  induction place with
  | here => exact ⟨[], by rw [fill, before, List.append_nil, List.nil_append]⟩
  | signed s place ih | factorial place ih | left op place r ih | call p place ih =>
    obtain ⟨after, h⟩ := ih
    rw [fill, postorder, h, List.append_assoc, List.append_assoc]
    exact ⟨_, rfl⟩
  | right op l place ih =>
    obtain ⟨after, h⟩ := ih
    rw [fill, postorder, h, before]
    exact ⟨after ++ [binary op l (place.fill e)], by simp⟩

end Expr.Place

/-- A program in which one subexpression is left open. -/
structure Program.Place where
  earlier : List Expr
  statement : Expr.Place
  later : List Expr

namespace Program.Place

/-- The program with `e` in the open place. -/
def fill (place : Place) (e : Expr) : Program := ⟨place.earlier ++ place.statement.fill e :: place.later⟩

/-- The nodes in front of the open place. -/
def before (place : Place) : List Expr := place.earlier.flatMap Expr.postorder ++ place.statement.before

/-- The nodes of what is put in an open place stand together, and those in front of them do not depend on it. -/
theorem nodes_fill (place : Place) (e : Expr) :
    ∃ after, (place.fill e).nodes = place.before ++ (e.postorder ++ after) := by
  obtain ⟨after, h⟩ := place.statement.postorder_fill e
  refine ⟨after ++ place.later.flatMap Expr.postorder, ?_⟩
  simp [nodes, fill, before, h]

end Program.Place

/-! ## Main result -/

section Main

variable {n : Expr} {before after : List Expr} {error : EvalError}

theorem findSome?_fault (hbefore : ∀ m ∈ before, m.fault? = none) (hn : n.fault? = some error) (after : List Expr) :
    (before ++ n :: after).findSome? Expr.fault? = some error :=
  List.findSome?_eq_some_iff.mpr ⟨before, n, after, rfl, hn, hbefore⟩

/-- What comes behind the first fault may be anything. -/
theorem Program.eval_fill_of_fault {place : Program.Place} {e : Expr}
    (hnodes : (place.fill e).nodes = before ++ n :: after) (hbefore : ∀ m ∈ before, m.fault? = none)
    (hn : n.fault? = some error) (hplace : before.length < place.before.length) (e' : Expr) :
    (place.fill e').eval = .error error := by
  obtain ⟨rest, hfill⟩ := place.nodes_fill e
  have hprefix : before ++ [n] <+: place.before := by
    have hleft : before ++ [n] <+: (place.fill e).nodes := ⟨after, by simp [hnodes]⟩
    have hright : place.before <+: (place.fill e).nodes := ⟨_, hfill.symm⟩
    exact List.prefix_of_prefix_length_le hleft hright (by simpa using hplace)
  obtain ⟨between, hbetween⟩ := hprefix
  obtain ⟨rest', hfill'⟩ := place.nodes_fill e'
  apply Program.eval_of_fault
  rw [hfill', ← hbetween, List.append_assoc, List.append_assoc, List.singleton_append]
  exact findSome?_fault hbefore hn _

/-- **The first fault.** A program that is not empty fails exactly if one of its nodes is at fault. The first node at
fault in postorder gives the failure, whatever is put in the place of a subexpression or a statement behind it.
Without a fault the value is that of the last statement. -/
theorem eval_eq_first_fault (p : Program) :
    (p.statements = [] → p.eval = .error .emptyProgram) ∧
      (p.statements ≠ [] → ((∃ error, p.eval = .error error) ↔ ∃ n ∈ p.nodes, ∃ error, n.fault? = some error)) ∧
      (∀ before n after error, p.nodes = before ++ n :: after → (∀ m ∈ before, m.fault? = none) →
        n.fault? = some error → p.eval = .error error ∧
          ∀ (place : Program.Place) e, p = place.fill e → before.length < place.before.length →
            ∀ e', (place.fill e').eval = p.eval) ∧
      ∀ last, p.statements.getLast? = some last → (∀ n ∈ p.nodes, n.fault? = none) →
        ∃ v, last.eval = .ok v ∧ p.eval = .ok v := by
  refine ⟨?_, ?_, ?_, ?_⟩
  · intro hnil
    obtain ⟨statements⟩ := p
    obtain rfl : statements = [] := hnil
    exact Program.eval_nil
  · intro hne
    have hlast : p.statements.getLast? = some (p.statements.getLast hne) := List.getLast?_eq_some_getLast hne
    cases hfault : p.nodes.findSome? Expr.fault? with
    | some error =>
      obtain ⟨n, hn, herror⟩ := List.exists_of_findSome?_eq_some hfault
      exact ⟨fun _ => ⟨n, hn, error, herror⟩, fun _ => ⟨error, Program.eval_of_fault hfault⟩⟩
    | none =>
      obtain ⟨v, -, hv⟩ := Program.eval_of_no_fault hfault hlast
      constructor
      · rintro ⟨error, herror⟩
        rw [hv] at herror
        cases herror
      · rintro ⟨n, hn, error, herror⟩
        rw [List.findSome?_eq_none_iff.mp hfault n hn] at herror
        cases herror
  · intro before n after error hnodes hbefore hn
    have hfault : p.eval = .error error := by
      apply Program.eval_of_fault
      rw [hnodes]
      exact findSome?_fault hbefore hn after
    refine ⟨hfault, ?_⟩
    rintro place e rfl hplace e'
    rw [hfault]
    exact Program.eval_fill_of_fault hnodes hbefore hn hplace e'
  · intro last hlast hnone
    exact Program.eval_of_no_fault (List.findSome?_eq_none_iff.mpr hnone) hlast

/-- In `1 / 0 + (-3)!` the quotient is at fault first, and any other number may stand for the factorial. -/
theorem eval_quotient_before_factorial :
    let quotient : Expr := .binary .div (.integer 1) (.integer 0)
    let place : Program.Place := ⟨[], .right .add quotient .here, []⟩
    let factorial : Expr := .factorial (.signed .minus (.integer 3))
    factorial.fault? = some (.invalidArgument (.negativeFactorial (-3))) ∧
      (place.fill factorial).eval = .error .divisionByZero ∧
      (place.fill (.integer 5)).eval = .error .divisionByZero := by
  intro quotient place factorial
  have hfirst := (eval_eq_first_fault (place.fill factorial)).2.2.1 [.integer 1, .integer 0] quotient
    (factorial.postorder ++ [.binary .add quotient factorial]) .divisionByZero rfl (by decide) (by decide)
  refine ⟨by decide, hfirst.1, ?_⟩
  rw [hfirst.2 place factorial rfl (by decide), hfirst.1]

end Main

end Calculator
