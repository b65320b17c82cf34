import Calculator.Parser
import Calculator.Proofs.Grammar
import Calculator.Proofs.Tree

/-!
# Calculator.Proofs.Reading — one expression, token by token

While the strategies of an expression call each other, the open calls are what has been read so far and how it
goes on. A `Reading` writes that down: the constructs that still wait for their last part, innermost first, and
what is due next.

* An operand is due at the start, after a sign, an operator or an opening parenthesis.
* An opening parenthesis is due after the name of a procedure.
* After a complete operand the expression may go on or end.

`Reading.accept?` says whether a token belongs to the expression, and `Reading.refuse` what to make of the
reading at the first token that does not. Tiers decide only which construct takes an operand: when a token
follows an operand, every construct that binds at least as tightly is closed first (`settle`), so a chain of one
tier groups to the left. A sign reaches over all tiers above the sum, whatever stands before it.

Operands are kept as they are written, as trees; what is read in the end is the expression that is meant.

`read` follows the token list, so an induction on the list is an induction on how far has been read. It gives
what the strategies give (`readExpr_eq_read`, in `Calculator.Proofs.Strategies`).
-/

namespace Calculator

/-- The tier at which tokens of a kind continue an operand. It is the lowest for those that do not, and no
construct is open to the lowest tier. -/
def TokenKind.joiningTier (k : TokenKind) : Tier :=
  if k.infixRule?.isSome || k.postfixRule?.isSome then k.tier else .lowest

namespace TokenKind

theorem joiningTier_of_infixRule? {k : TokenKind} {rule : InfixRule} (h : k.infixRule? = some rule) :
    k.joiningTier = k.tier := by
  rw [joiningTier, h]
  rfl

theorem joiningTier_of_postfixRule? {k : TokenKind} {rule : PostfixRule} (h : k.postfixRule? = some rule) :
    k.joiningTier = k.tier := by
  rw [joiningTier, h, Bool.or_comm]
  rfl

theorem joiningTier_of_no_rule {k : TokenKind} (hi : k.infixRule? = none) (hp : k.postfixRule? = none) :
    k.joiningTier = .lowest := by
  rw [joiningTier, hi, hp]
  rfl

end TokenKind

/-- A construct that waits for its last part. -/
inductive Frame where
  | sign (s : Sign)
  | operator (op : BinaryOperator) (left : Tree)
  | group
  /-- The open parenthesis of a call. -/
  | argument (p : Procedure)
deriving DecidableEq

/-- The tier above which tokens still belong to the last part of a construct. -/
def Frame.tier : Frame → Tier
  | .sign _ => .sum
  | .operator op _ => op.tier
  | .group => .lowest
  | .argument _ => .lowest

/-- The frames of an open parenthesis, with what they make of an operand when it is closed. -/
inductive Frame.Encloses : Frame → (Tree → Tree) → Prop where
  | group : Encloses .group .group
  | argument (p : Procedure) : Encloses (.argument p) (.call p)

/-- An expression of which a part has been read. Frames are listed from the innermost. -/
inductive Reading where
  /-- An operand is due. -/
  | operand (frames : List Frame)
  /-- The opening parenthesis of a call is due, after the token `name`. -/
  | opening (p : Procedure) (name : Token) (frames : List Frame)
  /-- The operand `e` has been read, up to the token `last`. -/
  | continuation (e : Tree) (last : Token) (frames : List Frame)
deriving DecidableEq

namespace Reading

/-- Closes the signs and operators that a token of the tier `next` does not join, from the innermost. -/
def settle (next : Tier) : List Frame → Tree → List Frame × Tree
  | .sign s :: fs, e => if Tier.sum < next then (.sign s :: fs, e) else settle next fs (.signed s e)
  | .operator op l :: fs, e => if op.tier < next then (.operator op l :: fs, e) else settle next fs (.binary op l e)
  | fs, e => (fs, e)

/-- The tier above which tokens still belong to the innermost construct. -/
def innerTier (base : Tier) : List Frame → Tier
  | [] => base
  | f :: _ => f.tier

/-- The reading after the token `t`, where an operand is due. -/
def beginOperand? (frames : List Frame) (t : Token) : Option Reading :=
  match t.kind.operandRule? with
  | none => none
  | some .integer => t.integer?.map fun n => .continuation (.integer n) t frames
  | some .float => t.float?.map fun x => .continuation (.float x) t frames
  | some .euler => some (.continuation .euler t frames)
  | some .group => some (.operand (.group :: frames))
  | some .call => (Procedure.ofName? t.text).map fun p => .opening p t frames
  | some .sign => some (.operand (.sign (Sign.ofKind t.kind) :: frames))

/-- The reading after the token `t`, which continues the operand `e`. -/
def join? (frames : List Frame) (e : Tree) (t : Token) : Option Reading :=
  match t.kind.infixRule? with
  | some .binary => (BinaryOperator.ofToken? t).map fun op => .operand (.operator op e :: frames)
  | some .euler => some (.continuation (.eulerFold e) t frames)
  | none => some (.continuation (.factorial e) t frames)

/-- The reading after the token `t`, which may close the innermost parenthesis behind the operand `e`. -/
def close? (frames : List Frame) (e : Tree) (t : Token) : Option Reading :=
  if t.kind = .rightParen then
    match frames with
    | .group :: fs => some (.continuation (.group e) t fs)
    | .argument p :: fs => some (.continuation (.call p e) t fs)
    | _ => none
  else none

/-- The reading after the token `t`, if `t` belongs to the expression. The expression as a whole is open to
tokens of tiers above `base`. -/
def accept? (base : Tier) : Reading → Token → Option Reading
  | .operand frames, t => beginOperand? frames t
  | .opening p _ frames, t => if t.kind = .leftParen then some (.operand (.argument p :: frames)) else none
  | .continuation e _ frames, t =>
    let (fs, e') := settle t.kind.joiningTier frames e
    if innerTier base fs < t.kind.joiningTier then join? fs e' t else close? fs e' t

/-- What a reading has come to at a token that does not belong to it. -/
structure Refusal where
  outcome : Except Diagnostic Expr
  /-- The last token of the reading, if the reading stands on that one and not on the refused token. -/
  last : Option Token

/-- What to say of the token `t`, where an operand is due and none starts with `t`. -/
def missingOperand (t : Token) : Diagnostic :=
  match t.kind.operandRule? with
  | some .integer | some .float => .invalidLiteral t.text t.kind
  | some .call => .unexpected t.text
  | _ => .noOperand t.kind t.text

/-- What a reading has come to at the token `t`, which does not belong to it. A complete operand outside of
all parentheses is the expression. -/
def refuse (base : Tier) : Reading → Token → Refusal
  | .operand _, t => ⟨.error (missingOperand t), none⟩
  | .opening _ name _, t => ⟨.error (.expected .leftParen t.kind), some name⟩
  | .continuation e last frames, t =>
    let (fs, e') := settle t.kind.joiningTier frames e
    if innerTier base fs < t.kind.joiningTier then ⟨.error (.unexpected t.text), none⟩
    else if fs = [] then ⟨.ok e'.erase, some last⟩
    else ⟨.error (.expected .rightParen t.kind), some last⟩

/-- Follows a reading through the tokens behind it. Gives the expression, or the one diagnostic, and the tokens
from the current one on. -/
def read (base : Tier) : Reading → List Token → Except Diagnostic Expr × List Token
  | r, [] => ((r.refuse base .eof).outcome, (r.refuse base .eof).last.toList)
  | r, t :: ts =>
    match r.accept? base t with
    | some r' => read base r' ts
    | none => ((r.refuse base t).outcome, (r.refuse base t).last.toList ++ t :: ts)

/-! ## What comes next decides how an operand is settled -/

section

variable {base next : Tier} {fs gs : List Frame} {e g : Tree} {last t : Token} {r r' : Reading} {ts : List Token}

theorem joiningTier_of_ofToken? {op : BinaryOperator} (h : BinaryOperator.ofToken? t = some op) :
    t.kind.joiningTier = op.tier := by
  rw [BinaryOperator.kind_of_ofToken? h]
  cases op <;> rfl

theorem infixRule?_of_ofToken? {op : BinaryOperator} (h : BinaryOperator.ofToken? t = some op) :
    t.kind.infixRule? = some .binary := by
  rw [BinaryOperator.kind_of_ofToken? h]
  cases op <;> rfl

/-- A token that joins the innermost frame closes none. -/
theorem settle_of_lt (h : innerTier base fs < next) (e : Tree) : settle next fs e = (fs, e) := by
  cases fs with
  | nil => rfl
  | cons f fs =>
    cases f with
    | sign s => exact if_pos h
    | operator op l => exact if_pos h
    | group => rfl
    | argument p => rfl

theorem accept?_continuation (h : settle t.kind.joiningTier fs e = (gs, g)) :
    accept? base (.continuation e last fs) t =
      if innerTier base gs < t.kind.joiningTier then join? gs g t else close? gs g t := by
  simp only [accept?, h]

theorem refuse_continuation (h : settle t.kind.joiningTier fs e = (gs, g)) :
    refuse base (.continuation e last fs) t =
      if innerTier base gs < t.kind.joiningTier then ⟨.error (.unexpected t.text), none⟩
      else if gs = [] then ⟨.ok g.erase, some last⟩ else ⟨.error (.expected .rightParen t.kind), some last⟩ := by
  simp only [refuse, h]

/-- The tier at which the first of the tokens that are left continues an operand. -/
def nextTier (ts : List Token) : Tier := (ts.headD .eof).kind.joiningTier

/-- Readings that settle to the same come to the same. -/
theorem read_continuation_congr (h : settle (nextTier ts) fs e = settle (nextTier ts) gs g) :
    read base (.continuation e last fs) ts = read base (.continuation g last gs) ts := by
  cases ts with
  | nil =>
    have h' : settle Token.eof.kind.joiningTier fs e = settle Token.eof.kind.joiningTier gs g := h
    simp only [read, refuse, h']
  | cons t ts =>
    have h' : settle t.kind.joiningTier fs e = settle t.kind.joiningTier gs g := h
    simp only [read, accept?, refuse, h']

theorem read_of_accept? (h : accept? base r t = some r') (ts : List Token) : read base r (t :: ts) = read base r' ts := by
  rw [read, h]

theorem read_of_refused (h : ∀ t ∈ ts.head?, accept? base r t = none) :
    read base r ts = ((r.refuse base (ts.headD .eof)).outcome, (r.refuse base (ts.headD .eof)).last.toList ++ ts) := by
  cases ts with
  | nil => simp [read]
  | cons t ts =>
    have ht := h t (by simp)
    simp [read, ht]

theorem read_of_refused_head (h : accept? base r (ts.headD .eof) = none) :
    read base r ts = ((r.refuse base (ts.headD .eof)).outcome, (r.refuse base (ts.headD .eof)).last.toList ++ ts) := by
  refine read_of_refused fun t ht => ?_
  obtain ⟨us, rfl⟩ := List.head?_eq_some_iff.mp ht
  exact h

/-- Outside of all parentheses what does not continue the operand ends the expression. -/
theorem read_complete (h : ¬ base < nextTier ts) :
    read base (.continuation e last []) ts = (.ok e.erase, last :: ts) := by
  have hsettle : settle (nextTier ts) [] e = ([], e) := rfl
  have hclose : close? [] e (ts.headD .eof) = none := by
    unfold close?
    split <;> rfl
  have hend : ¬ innerTier base [] < (ts.headD .eof).kind.joiningTier := h
  have hrefused : accept? base (.continuation e last []) (ts.headD .eof) = none := by
    rw [accept?_continuation hsettle, if_neg hend, hclose]
  rw [read_of_refused_head hrefused, refuse_continuation hsettle, if_neg hend, if_pos rfl]
  rfl

/-! ## What comes next where an operand or a parenthesis is due -/

theorem read_of_beginOperand? (h : beginOperand? fs t = some r) (ts : List Token) :
    read base (.operand fs) (t :: ts) = read base r ts :=
  read_of_accept? (show accept? base (.operand fs) t = some r from h) ts

theorem read_of_missing (h : beginOperand? fs t = none) (ts : List Token) :
    read base (.operand fs) (t :: ts) = (.error (missingOperand t), t :: ts) :=
  read_of_refused_head h

theorem read_opening {q : Procedure} {name : Token} (ht : t.kind = .leftParen) (ts : List Token) :
    read base (.opening q name fs) (t :: ts) = read base (.operand (.argument q :: fs)) ts :=
  read_of_accept? (by rw [accept?, if_pos ht]) ts

theorem read_unopened {q : Procedure} {name : Token} (ht : (ts.headD .eof).kind ≠ .leftParen) :
    read base (.opening q name fs) ts = (.error (.expected .leftParen (ts.headD .eof).kind), name :: ts) :=
  read_of_refused_head (by rw [accept?, if_neg ht])

section

variable {f : Frame} {c : Tree → Tree}

theorem innerTier_encloses (hf : f.Encloses c) : innerTier base (f :: fs) = .lowest := by cases hf <;> rfl

theorem settle_encloses (hf : f.Encloses c) : settle next (f :: fs) e = (f :: fs, e) := by cases hf <;> rfl

/-- What does not continue the operand inside a parenthesis has to close the parenthesis. -/
theorem accept?_encloses (hf : f.Encloses c) (hstop : ¬ Tier.lowest < t.kind.joiningTier) :
    accept? base (.continuation e last (f :: fs)) t =
      if t.kind = .rightParen then some (.continuation (c e) t fs) else none := by
  rw [accept?_continuation (settle_encloses hf), innerTier_encloses hf, if_neg hstop]
  cases hf <;> rfl

theorem read_close (hf : f.Encloses c) (ht : t.kind = .rightParen) (ts : List Token) :
    read base (.continuation e last (f :: fs)) (t :: ts) = read base (.continuation (c e) t fs) ts := by
  have hstop : ¬ Tier.lowest < t.kind.joiningTier := by
    rw [ht]
    exact Tier.not_lt_lowest _
  exact read_of_accept? (by rw [accept?_encloses hf hstop, if_pos ht]) ts

theorem read_unclosed (hf : f.Encloses c) (hstop : ¬ Tier.lowest < nextTier ts)
    (ht : (ts.headD .eof).kind ≠ .rightParen) :
    read base (.continuation e last (f :: fs)) ts =
      (.error (.expected .rightParen (ts.headD .eof).kind), last :: ts) := by
  have hrefused : accept? base (.continuation e last (f :: fs)) (ts.headD .eof) = none :=
    (accept?_encloses hf hstop).trans (if_neg ht)
  have hopen : ¬ innerTier base (f :: fs) < (ts.headD .eof).kind.joiningTier := by
    rw [innerTier_encloses hf]
    exact hstop
  rw [read_of_refused_head hrefused, refuse_continuation (settle_encloses hf), if_neg hopen,
    if_neg (List.cons_ne_nil f fs)]
  rfl

end

end

end Reading

end Calculator
