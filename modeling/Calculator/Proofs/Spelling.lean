import Calculator.Proofs.Grammar
import Calculator.Proofs.Tree

/-!
# Calculator.Proofs.Spelling — trees and the tokens they are written with

`Tree.Spells t ts` says that the tree `t` is written with the tokens `ts`, from left to right and with nothing
left over. A token list may be spelled by many trees. Of these `Tree.Tiered` picks those that obey the tiers:

* **(L)** an operator or a postfix does not reach over a sign or an operator of a lower tier at the right end of
  its left operand;
* **(R)** the last operand of a sign or an operator has no operator and no postfix at its left end that binds no
  tighter than that sign or operator itself.
-/

namespace Calculator

namespace Tree

/-- `t.Spells ts`: the tree is written with these tokens. -/
inductive Spells : Tree → List Token → Prop where
  | integer {t : Token} {n : Int64} : t.kind = .integer → t.integer? = some n → Spells (.integer n) [t]
  | float {t : Token} {x : Float} : t.kind = .float → t.float? = some x → Spells (.float x) [t]
  | euler {t : Token} : t.kind = .euler → Spells .euler [t]
  | group {l r : Token} {e : Tree} {ts : List Token} : l.kind = .leftParen → Spells e ts →
      r.kind = .rightParen → Spells (.group e) (l :: (ts ++ [r]))
  | call {name l r : Token} {p : Procedure} {e : Tree} {ts : List Token} : name.kind = .procedure →
      Procedure.ofName? name.text = some p → l.kind = .leftParen → Spells e ts → r.kind = .rightParen →
      Spells (.call p e) (name :: l :: (ts ++ [r]))
  | signed {t : Token} {s : Sign} {e : Tree} {ts : List Token} : t.kind = s.kind → Spells e ts →
      Spells (.signed s e) (t :: ts)
  | factorial {t : Token} {e : Tree} {ts : List Token} : Spells e ts → t.kind = .factorial →
      Spells (.factorial e) (ts ++ [t])
  | eulerFold {t : Token} {e : Tree} {ts : List Token} : Spells e ts → t.kind = .euler →
      Spells (.eulerFold e) (ts ++ [t])
  | binary {t : Token} {op : BinaryOperator} {l r : Tree} {ls rs : List Token} : Spells l ls →
      BinaryOperator.ofToken? t = some op → Spells r rs → Spells (.binary op l r) (ls ++ t :: rs)

/-! ## Tiers -/

/-- The tiers of the last operands of the signs and operators at the right end. -/
def rightTiers : Tree → List Tier
  | .signed _ e => .sum :: e.rightTiers
  | .binary op _ r => op.tier :: r.rightTiers
  | _ => []

/-- The tiers of the operators and postfixes at the left end. -/
def leftTiers : Tree → List Tier
  | .binary op l _ => op.tier :: l.leftTiers
  | .factorial e => .call :: e.leftTiers
  | .eulerFold e => .euler :: e.leftTiers
  | _ => []

/-- **(L)** and **(R)** hold throughout the tree. -/
def Tiered : Tree → Prop
  | .integer _ | .float _ | .euler => True
  | .group e | .call _ e => e.Tiered
  | .signed _ e => (∀ q ∈ e.leftTiers, .sum < q) ∧ e.Tiered
  | .factorial e => (∀ q ∈ e.rightTiers, .call ≤ q) ∧ e.Tiered
  | .eulerFold e => (∀ q ∈ e.rightTiers, .euler ≤ q) ∧ e.Tiered
  | .binary op l r =>
    (∀ q ∈ l.rightTiers, op.tier ≤ q) ∧ (∀ q ∈ r.leftTiers, op.tier < q) ∧ l.Tiered ∧ r.Tiered

end Tree

theorem BinaryOperator.lowest_lt_tier (op : BinaryOperator) : Tier.lowest < op.tier := by cases op <;> decide

namespace Tree

/-- Every tier at the left end is above the lowest one. -/
theorem lowest_lt_of_mem_leftTiers {q : Tier} : ∀ {e : Tree}, q ∈ e.leftTiers → Tier.lowest < q
  | .binary op l _, h => by
    rcases List.mem_cons.mp h with rfl | h
    · exact op.lowest_lt_tier
    · exact lowest_lt_of_mem_leftTiers h
  | .factorial e, h => by
    rcases List.mem_cons.mp h with rfl | h
    · decide
    · exact lowest_lt_of_mem_leftTiers h
  | .eulerFold e, h => by
    rcases List.mem_cons.mp h with rfl | h
    · decide
    · exact lowest_lt_of_mem_leftTiers h

/-! ## Spelled lists are expressions -/

theorem isLiteral_of_integer? {t : Token} {n : Int64} (hk : t.kind = .integer) (h : t.integer? = some n) :
    t.IsLiteral := by
  obtain ⟨v, hv, hn⟩ := Option.bind_eq_some_iff.mp h
  have hval : v = t.value := by
    unfold Decimal.natural? at hv
    split at hv
    · exact (Option.some.inj hv).symm
    · simp at hv
  have hlt := n.toInt_lt
  rw [narrow?_eq_some_iff.mp hn, hval] at hlt
  exact Or.inr ⟨hk, by exact_mod_cast hlt⟩

theorem Spells.derives {e : Tree} {ts : List Token} (h : e.Spells ts) : Derives .expr ts := by
  induction h with
  | integer hk h => exact .unit (.suffixed (.primary (.literal (isLiteral_of_integer? hk h))))
  | float hk _ => exact .unit (.suffixed (.primary (.literal (Or.inl hk))))
  | euler hk => exact .unit (.suffixed (.primary (.euler hk)))
  | group hl _ hr ih => exact .unit (.suffixed (.primary (.group hl ih hr)))
  | call hn _ hl _ hr ih => exact .unit (.suffixed (.primary (.call hn hl ih hr)))
  | signed hk _ ih => exact ih.sign_expr (Sign.isSign_of_kind hk)
  | factorial _ hk ih => exact ih.suffix_expr (Or.inl hk)
  | eulerFold _ hk ih => exact ih.suffix_expr (Or.inr hk)
  | binary _ ho _ ihl ihr => exact ihl.operator_expr (Token.isOperator_iff.mpr ⟨_, ho⟩) ihr

end Tree

end Calculator
