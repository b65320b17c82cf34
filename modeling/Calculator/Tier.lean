import Calculator.Token

/-!
# Calculator.Tier — how tightly tokens bind

A tier says how tightly a token binds the operand before it. `Tier.rank` numbers the tiers, and `<` compares
them: the operand of a construct extends over every following token of a higher tier.
-/

namespace Calculator

/-- The binding tiers, from the loosest to the tightest. -/
inductive Tier where
  /-- Tokens that do not continue an expression. -/
  | lowest
  /-- Held for comparisons; no token is of this tier. -/
  | equals
  | sum
  | product
  /-- Euler's number as a factor without a sign. -/
  | euler
  | group
  /-- Procedures and `!`. -/
  | call
deriving DecidableEq, Repr

namespace Tier

/-- The place of a tier, counted from the loosest. -/
def rank : Tier → Nat
  | .lowest => 0
  | .equals => 1
  | .sum => 2
  | .product => 3
  | .euler => 4
  | .group => 5
  | .call => 6

instance : LT Tier := ⟨fun a b => a.rank < b.rank⟩

instance (a b : Tier) : Decidable (a < b) := inferInstanceAs (Decidable (a.rank < b.rank))

instance : LE Tier := ⟨fun a b => a.rank ≤ b.rank⟩

instance (a b : Tier) : Decidable (a ≤ b) := inferInstanceAs (Decidable (a.rank ≤ b.rank))

instance : Ord Tier := ⟨fun a b => compare a.rank b.rank⟩

theorem not_lt {a b : Tier} : ¬ a < b ↔ b ≤ a := Nat.not_lt

theorem lowest_le (a : Tier) : lowest ≤ a := Nat.zero_le a.rank

theorem not_lt_lowest (a : Tier) : ¬ a < lowest := Nat.not_lt_zero a.rank

end Tier

def TokenKind.tier : TokenKind → Tier
  | .plus | .minus => .sum
  | .asterisk | .slash | .exponent | .power => .product
  | .euler => .euler
  | .leftParen | .rightParen => .group
  | .procedure | .factorial => .call
  | .eof | .integer | .float | .illegal => .lowest

end Calculator
