import Calculator.Proofs.Composition
import Calculator.Proofs.Literals

/-!
# Calculator.Proofs.RoundTrip — expressions that read back

Every node of an expression but literals and calls is written in parentheses of its own. What an expression is
written with is therefore an operand, whose tree has the same grouping (`Expr.Legible.operand`), if its literals read
back.

Conversely, a reading keeps the weight of the tokens: every literal and every minus of the expression comes from
just one token. A literal that does not read back weighs more than one literal (`Expr.weight_le_render`), so
the tokens are not those of the expression.
-/

namespace Calculator

open Token Binary64

/-! ## Texts of expressions -/

namespace Expr

theorem render_integer (n : Int64) : (Expr.integer n).render = (integerToken n).text := rfl

theorem render_signed (s : Sign) (e : Expr) : (Expr.signed s e).render = "(" ++ (s.symbol ++ e.render) ++ ")" := by
  rw [render, ← String.append_assoc]

theorem render_factorial (e : Expr) : (Expr.factorial e).render = "(" ++ (e.render ++ "!") ++ ")" := by
  rw [render, show "!)" = "!" ++ ")" from rfl]
  simp only [String.append_assoc]

theorem render_binary (op : BinaryOperator) (l r : Expr) :
    (Expr.binary op l r).render = "(" ++ (l.render ++ (" " ++ op.symbol ++ " ") ++ r.render) ++ ")" := by
  simp only [render, String.append_assoc]

theorem render_call (p : Procedure) (e : Expr) : (Expr.call p e).render = p.name ++ ("(" ++ e.render ++ ")") := by
  simp only [render, String.append_assoc]

/-- Blanks keep the operands from the operator. -/
theorem tokenize_spaced (a b : String) (op : BinaryOperator) :
    tokenize (a ++ (" " ++ op.symbol ++ " ") ++ b) = tokenize a ++ (tokenize op.symbol ++ tokenize b) := by
  have hspaced : tokenize (" " ++ op.symbol ++ " ") = tokenize op.symbol := by cases op <;> cbv
  have hhead : (" " ++ op.symbol ++ " " ++ b).toList.head? = some ' ' := by simp [String.toList_append]
  rw [String.append_assoc, tokenize_append_of_right a (by rw [hhead]; decide),
    tokenize_append_of_left (by cases op <;> decide), hspaced]

end Expr

/-! ## Legible expressions -/

namespace Expr

/-- No integer is negative, and all floats are plain. -/
def Legible : Expr → Prop
  | .integer n => 0 ≤ n.toInt
  | .float x => IsPlain x
  | .signed _ e | .factorial e | .call _ e => e.Legible
  | .binary _ l r => l.Legible ∧ r.Legible

/-- The tree that an expression is written as. -/
def written : Expr → Tree
  | .integer n => .integer n
  | .float x => .float x
  | .signed s e => .group (.signed s e.written)
  | .factorial e => .group (.factorial e.written)
  | .binary op l r => .group (.binary op l.written r.written)
  | .call p e => .call p e.written

theorem erase_written (e : Expr) : e.written.erase = e := by
  induction e with
  | integer n => rfl
  | float x => rfl
  | signed s e ih => rw [written, Tree.erase, Tree.erase, ih]
  | factorial e ih => rw [written, Tree.erase, Tree.erase, ih]
  | binary op l r ihl ihr => rw [written, Tree.erase, Tree.erase, ihl, ihr]
  | call p e ih => rw [written, Tree.erase, ih]

theorem Legible.operand {e : Expr} (h : e.Legible) : Operand e.render e.written := by
  induction e with
  | integer n =>
    obtain ⟨htokens, hvalue⟩ := integerToken_of_nonneg h
    refine ⟨⟨?_, trivial⟩, rfl, rfl⟩
    rw [render_integer, htokens]
    exact .integer rfl hvalue
  | float x =>
    cases literalCase x with
    | heavy hnot => exact absurd h hnot
    | plain _ htokens hvalue =>
      refine ⟨⟨?_, trivial⟩, rfl, rfl⟩
      rw [render, htokens]
      exact .float rfl hvalue
  | signed s e ih =>
    rw [render_signed]
    exact ((ih h).signed s).parenthesized
  | factorial e ih =>
    rw [render_factorial]
    exact (ih h).factorial.parenthesized
  | binary op l r ihl ihr =>
    rw [render_binary]
    exact ((ihl h.1).binary (ihr h.2) (tokenize_spaced _ _ op)).parenthesized
  | call p e ih =>
    rw [render_call]
    exact (ih h).toWritten.call p

/-! ## Weights -/

/-- The weight of an expression: that of its literals, and of every minus. -/
def weight : Expr → Nat
  | .integer _ | .float _ => 1
  | .signed s e => s.kind.weight + e.weight
  | .factorial e | .call _ e => e.weight
  | .binary op l r => l.weight + (op.kind.weight + r.weight)

end Expr

/-- A reading keeps the weight. -/
theorem Tree.Spells.totalWeight_eq {e : Tree} {ts : List Token} (h : e.Spells ts) : totalWeight ts = e.erase.weight := by
  induction h with
  | integer hk _ => simp [hk, TokenKind.weight, Tree.erase, Expr.weight]
  | float hk _ => simp [hk, TokenKind.weight, Tree.erase, Expr.weight]
  | euler hk => simp [hk, TokenKind.weight, Tree.erase, Expr.weight, Expr.euler]
  | group hl _ hr ih => simp [hl, hr, ih, TokenKind.weight, Tree.erase]
  | call hn _ hl _ hr ih => simp [hn, hl, hr, ih, TokenKind.weight, Tree.erase, Expr.weight]
  | signed hk _ ih => simp [hk, ih, Tree.erase, Expr.weight]
  | factorial _ hk ih => simp [hk, ih, TokenKind.weight, Tree.erase, Expr.weight]
  | eulerFold _ hk ih => simp [hk, ih, TokenKind.weight, Tree.erase, Expr.weight, Expr.euler, BinaryOperator.kind]
  | binary _ ho _ ihl ihr => simp [BinaryOperator.kind_of_ofToken? ho, ihl, ihr, Tree.erase, Expr.weight]

namespace Expr

theorem totalWeight_parenthesized (s : String) : totalWeight (tokenize ("(" ++ s ++ ")")) = totalWeight (tokenize s) := by
  rw [tokenize_parenthesized]
  simp [TokenKind.weight]

/-- The text of an expression weighs at least as much as the expression, and more unless it is legible. -/
theorem weight_le_render (e : Expr) :
    e.weight ≤ totalWeight (tokenize e.render) ∧ (totalWeight (tokenize e.render) ≤ e.weight → e.Legible) := by
  -- Parentheses, blanks and the other operators weigh nothing, so only the literals can differ.
  induction e with
  | integer n =>
    rw [render_integer, weight, Legible]
    by_cases hn : 0 ≤ n.toInt
    · rw [(integerToken_of_nonneg hn).1]
      exact ⟨Nat.le_refl 1, fun _ => hn⟩
    · have hheavy := two_le_totalWeight_of_neg (Int.not_le.mp hn)
      exact ⟨by omega, fun h => by omega⟩
  | float x =>
    rw [render, weight, Legible]
    cases literalCase x with
    | plain hplain htokens _ =>
      rw [htokens]
      exact ⟨Nat.le_refl 1, fun _ => hplain⟩
    | heavy _ hheavy => exact ⟨by omega, fun h => by omega⟩
  | signed s e ih =>
    have hweight : totalWeight (tokenize (Expr.signed s e).render) = s.kind.weight + totalWeight (tokenize e.render) := by
      rw [render_signed, totalWeight_parenthesized, s.tokenize_append, totalWeight_cons]
    rw [hweight, weight, Legible]
    exact ⟨by omega, fun h => ih.2 (by omega)⟩
  | factorial e ih =>
    have hweight : totalWeight (tokenize (Expr.factorial e).render) = totalWeight (tokenize e.render) := by
      rw [render_factorial, totalWeight_parenthesized, tokenize_append_factorial]
      simp [TokenKind.weight]
    rwa [hweight, weight, Legible]
  | binary op l r ihl ihr =>
    have hweight : totalWeight (tokenize (Expr.binary op l r).render) =
        totalWeight (tokenize l.render) + (op.kind.weight + totalWeight (tokenize r.render)) := by
      rw [render_binary, totalWeight_parenthesized, tokenize_spaced, op.tokenize_symbol]
      simp
    rw [hweight, weight, Legible]
    exact ⟨by omega, fun h => ⟨ihl.2 (by omega), ihr.2 (by omega)⟩⟩
  | call p e ih =>
    have hweight : totalWeight (tokenize (Expr.call p e).render) = totalWeight (tokenize e.render) := by
      rw [render_call, p.tokenize_call]
      simp [TokenKind.weight]
    rwa [hweight, weight, Legible]

end Expr

/-! ## Main result -/

theorem parse_render_iff (e : Expr) : parse e.render = .ok ⟨[e]⟩ ↔ e.Legible := by
  constructor
  · intro h
    -- The tree that is read weighs as much as the text, and as much as the expression.
    obtain ⟨f, hf, hfe⟩ := exists_written h
    refine e.weight_le_render.2 ?_
    rw [hf.spells.totalWeight_eq, hfe]
  · intro h
    rw [h.operand.parse_eq, e.erase_written]

/-- Digits with a point among them are read, but what is read need not be plain. -/
theorem exists_parse_render_ne (ds fs : List Char) (hne : ds ≠ []) (hds : ds.all Char.isDigit)
    (hfs : fs.all Char.isDigit)
    (hplain : ¬ IsPlain (Decimal.toFloat ⟨Nat.ofDigitChars 10 (ds ++ fs) 0, -fs.length⟩)) :
    ∃ p, parse (String.ofList (ds ++ '.' :: fs)) = .ok p ∧ parse p.render ≠ .ok p := by
  have hwritten : Written (String.ofList (ds ++ '.' :: fs))
      (.float (Decimal.toFloat ⟨Nat.ofDigitChars 10 (ds ++ fs) 0, -fs.length⟩)) := by
    refine ⟨?_, trivial⟩
    rw [tokenize, String.toList_ofList, ofChars_point_self hne hds hfs]
    refine .float rfl ?_
    rw [Token.float?, String.toList_ofList, Decimal.ofChars?_point hne hds hfs, Option.map_some]
  exact ⟨_, hwritten.parse_eq, fun h => hplain ((parse_render_iff _).mp h)⟩

/-- **Round trip.** An expression is read back from its text if and only if no integer in it is negative and every
float in it is plain. Not every expression that is read from a source is of this kind. -/
theorem parse_render_eq_ok_iff :
    (∀ e : Expr, parse e.render = .ok ⟨[e]⟩ ↔ e.Legible) ∧
      ∀ s ∈ ["0.000001", String.ofList (List.replicate 400 '9' ++ ['.', '0'])],
        ∃ p, parse s = .ok p ∧ parse p.render ≠ .ok p := by
  refine ⟨parse_render_iff, fun s hs => ?_⟩
  rcases List.mem_cons.mp hs with rfl | hs
  · rw [show "0.000001" = String.ofList (['0'] ++ '.' :: ['0', '0', '0', '0', '0', '1']) from rfl]
    exact exists_parse_render_ne _ _ (by decide) (by decide) (by decide) fun h => h.2 (by decide +kernel)
  · obtain rfl := List.mem_singleton.mp hs
    refine exists_parse_render_ne _ ['0'] (by decide) (by rw [List.all_replicate]; decide) (by decide) ?_
    rintro ⟨⟨d, hd, -⟩, -⟩
    have hnone : decode (Decimal.toFloat ⟨Nat.ofDigitChars 10 (List.replicate 400 '9' ++ ['0']) 0, -1⟩) = none := by
      decide +kernel
    exact absurd (hnone.symm.trans hd) (by simp)

end Calculator
