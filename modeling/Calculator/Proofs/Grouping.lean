import Calculator.Proofs.Following
import Calculator.Proofs.Spelling

/-!
# Calculator.Proofs.Grouping — expressions are grouped by their tiers

What has been read is always a beginning of a tree that obeys the tiers. `Waits` says which tokens the open
frames have come from, `Fits` that an operand may be the last part of the innermost of them, and `Reached` puts
the two together for each kind of reading. One step keeps `Reached` (`Reached.step`), so a run does
(`reached_of_follow?`).

Conversely a tree that obeys the tiers is read from its tokens wherever it fits (`follow?_of_spells`). The
reading ends with the signs and operators at the right end of the tree still open (`Tree.openFrames`), and
whatever comes next closes them in the same way as if the tree had been one operand (`settle_openFrames`).
-/

namespace Calculator

variable {base next : Tier} {fs gs : List Frame} {e g : Tree} {t : Token} {r r' : Reading} {ts us : List Token}

namespace Reading

/-! ## From readings to trees -/

/-- The operand `e`, written with `us`, may be the last part of the innermost frame. -/
structure Fits (base : Tier) (fs : List Frame) (e : Tree) (us : List Token) : Prop where
  spells : e.Spells us
  tiered : e.Tiered
  left : ∀ q ∈ e.leftTiers, innerTier base fs < q

/-- The frames have come from the tokens `ts`, and each operator fits where it stands. -/
inductive Waits (base : Tier) : List Frame → List Token → Prop where
  | nil : Waits base [] []
  | sign {fs : List Frame} {ts : List Token} {t : Token} {s : Sign} : Waits base fs ts → t.kind = s.kind →
      Waits base (.sign s :: fs) (ts ++ [t])
  | operator {fs : List Frame} {ts us : List Token} {t : Token} {op : BinaryOperator} {l : Tree} :
      Waits base fs ts → Fits base fs l us → (∀ q ∈ l.rightTiers, op.tier ≤ q) → innerTier base fs < op.tier →
      BinaryOperator.ofToken? t = some op → Waits base (.operator op l :: fs) (ts ++ us ++ [t])
  | group {fs : List Frame} {ts : List Token} {t : Token} : Waits base fs ts → t.kind = .leftParen →
      Waits base (.group :: fs) (ts ++ [t])
  | argument {fs : List Frame} {ts : List Token} {name t : Token} {p : Procedure} : Waits base fs ts →
      name.kind = .procedure → Procedure.ofName? name.text = some p → t.kind = .leftParen →
      Waits base (.argument p :: fs) (ts ++ [name] ++ [t])

/-- The reading has come from the tokens `ts`. -/
inductive Reached (base : Tier) : Reading → List Token → Prop where
  | operand {fs : List Frame} {ts : List Token} : Waits base fs ts → Reached base (.operand fs) ts
  | opening {fs : List Frame} {ts : List Token} {name : Token} {p : Procedure} : Waits base fs ts →
      name.kind = .procedure → Procedure.ofName? name.text = some p →
      Reached base (.opening p name fs) (ts ++ [name])
  | continuation {fs : List Frame} {ts us : List Token} {e : Tree} {last : Token} : Waits base fs ts →
      Fits base fs e us → e.rightTiers = [] → Reached base (.continuation e last fs) (ts ++ us)

/-- Closing the frames that a token does not join keeps everything in place. What has been closed is of that
tier or of a higher one. -/
theorem Waits.settle (h : Waits base fs ts) (he : Fits base fs e us) (hright : ∀ q ∈ e.rightTiers, next ≤ q)
    (hs : settle next fs e = (gs, g)) : ∃ ts' us', ts ++ us = ts' ++ us' ∧ Waits base gs ts' ∧
      Fits base gs g us' ∧ ∀ q ∈ g.rightTiers, next ≤ q := by
  induction h generalizing e us with
  | nil =>
    obtain ⟨rfl, rfl⟩ := Prod.mk.inj hs
    exact ⟨[], us, rfl, .nil, he, hright⟩
  | group h hk _ =>
    obtain ⟨rfl, rfl⟩ := Prod.mk.inj hs
    exact ⟨_, us, rfl, .group h hk, he, hright⟩
  | argument h hn hp hk _ =>
    obtain ⟨rfl, rfl⟩ := Prod.mk.inj hs
    exact ⟨_, us, rfl, .argument h hn hp hk, he, hright⟩
  | @sign fs ts t s h hk ih =>
    unfold Reading.settle at hs
    split at hs
    · obtain ⟨rfl, rfl⟩ := Prod.mk.inj hs
      exact ⟨_, us, rfl, .sign h hk, he, hright⟩
    · next hlt =>
      -- the sign is closed, and with its operand it fits the frames around it
      have hfit : Fits base fs (.signed s e) (t :: us) :=
        ⟨.signed hk he.spells, ⟨he.left, he.tiered⟩, by simp [Tree.leftTiers]⟩
      have hnext : ∀ q ∈ (Tree.signed s e).rightTiers, next ≤ q :=
        List.forall_mem_cons.mpr ⟨Tier.not_lt.mp hlt, hright⟩
      have hassoc : ts ++ [t] ++ us = ts ++ t :: us := by simp
      obtain ⟨ts', us', heq, hrest⟩ := ih hfit hnext hs
      exact ⟨ts', us', hassoc.trans heq, hrest⟩
  | @operator fs ts ls t op l h hl hL hR hop ih =>
    unfold Reading.settle at hs
    split at hs
    · obtain ⟨rfl, rfl⟩ := Prod.mk.inj hs
      exact ⟨_, us, rfl, .operator h hl hL hR hop, he, hright⟩
    · next hlt =>
      have hfit : Fits base fs (.binary op l e) (ls ++ t :: us) :=
        ⟨.binary hl.spells hop he.spells, ⟨hL, he.left, hl.tiered, he.tiered⟩,
          List.forall_mem_cons.mpr ⟨hR, hl.left⟩⟩
      have hnext : ∀ q ∈ (Tree.binary op l e).rightTiers, next ≤ q :=
        List.forall_mem_cons.mpr ⟨Tier.not_lt.mp hlt, hright⟩
      have hassoc : ts ++ ls ++ [t] ++ us = ts ++ (ls ++ t :: us) := by simp
      obtain ⟨ts', us', heq, hrest⟩ := ih hfit hnext hs
      exact ⟨ts', us', hassoc.trans heq, hrest⟩

theorem Reached.settle {last : Token} (h : Reached base (.continuation e last fs) ts)
    (hs : Reading.settle next fs e = (gs, g)) : ∃ ts' us', ts = ts' ++ us' ∧ Waits base gs ts' ∧
      Fits base gs g us' ∧ ∀ q ∈ g.rightTiers, next ≤ q := by
  cases h with
  | continuation hw he hright => exact hw.settle he (by simp [hright]) hs

/-- One step adds its token to what has been read. -/
theorem Reached.step (h : Reached base r ts) (hstep : Step base r t r') : Reached base r' (ts ++ [t]) := by
  cases hstep with
  | integer hk hn =>
    cases h with
    | operand hw => exact .continuation hw ⟨.integer hk hn, trivial, by simp [Tree.leftTiers]⟩ rfl
  | float hk hx =>
    cases h with
    | operand hw => exact .continuation hw ⟨.float hk hx, trivial, by simp [Tree.leftTiers]⟩ rfl
  | euler hk =>
    cases h with
    | operand hw => exact .continuation hw ⟨.euler hk, trivial, by simp [Tree.leftTiers]⟩ rfl
  | group hk =>
    cases h with
    | operand hw => exact .operand (.group hw hk)
  | call hk hp =>
    cases h with
    | operand hw => exact .opening hw hk hp
  | sign hk =>
    cases h with
    | operand hw => exact .operand (.sign hw hk)
  | opening hk =>
    cases h with
    | opening hw hn hp => exact .operand (.argument hw hn hp hk)
  | operator hop hs hlt =>
    obtain ⟨ts', us', rfl, hw, hfit, hright⟩ := h.settle hs
    exact .operand (.operator hw hfit hright hlt hop)
  | eulerFold hk hs hlt =>
    obtain ⟨ts', us', rfl, hw, hfit, hright⟩ := h.settle hs
    rw [List.append_assoc]
    have hleft : ∀ q ∈ (Tree.eulerFold _).leftTiers, innerTier base _ < q :=
      List.forall_mem_cons.mpr ⟨hlt, hfit.left⟩
    exact .continuation hw ⟨.eulerFold hfit.spells hk, ⟨hright, hfit.tiered⟩, hleft⟩ rfl
  | factorial hk hs hlt =>
    obtain ⟨ts', us', rfl, hw, hfit, hright⟩ := h.settle hs
    rw [List.append_assoc]
    have hleft : ∀ q ∈ (Tree.factorial _).leftTiers, innerTier base _ < q :=
      List.forall_mem_cons.mpr ⟨hlt, hfit.left⟩
    exact .continuation hw ⟨.factorial hfit.spells hk, ⟨hright, hfit.tiered⟩, hleft⟩ rfl
  | closeGroup hk hs =>
    obtain ⟨ts', us', rfl, hw, hfit, -⟩ := h.settle hs
    cases hw with
    | @group _ ts l hw hl =>
      have hassoc : ts ++ [l] ++ us' ++ [t] = ts ++ l :: (us' ++ [t]) := by simp
      rw [hassoc]
      exact .continuation hw ⟨.group hl hfit.spells hk, hfit.tiered, by simp [Tree.leftTiers]⟩ rfl
  | closeCall hk hs =>
    obtain ⟨ts', us', rfl, hw, hfit, -⟩ := h.settle hs
    cases hw with
    | @argument _ ts name l _ hw hn hp hl =>
      have hassoc : ts ++ [name] ++ [l] ++ us' ++ [t] = ts ++ name :: l :: (us' ++ [t]) := by simp
      rw [hassoc]
      exact .continuation hw ⟨.call hn hp hl hfit.spells hk, hfit.tiered, by simp [Tree.leftTiers]⟩ rfl

theorem Reached.follow? (h : Reached base r ts) (hf : Reading.follow? base r us = some r') :
    Reached base r' (ts ++ us) := by
  induction us generalizing r ts with
  | nil =>
    obtain rfl := Option.some.inj hf
    simpa using h
  | cons t us ih =>
    rw [follow?_cons] at hf
    obtain ⟨m, hm, hf⟩ := Option.bind_eq_some_iff.mp hf
    have hstep := h.step (accept?_eq_some_iff.mp hm)
    simpa using ih hstep hf

theorem reached_of_follow? (h : Reading.follow? base (.operand []) ts = some r) : Reached base r ts := by
  simpa using (Reached.operand Waits.nil).follow? h

end Reading

/-! ## From trees to readings -/

namespace Tree

/-- The signs and operators at the right end, from the innermost. They are open when the tree has been read. -/
def openFrames : Tree → List Frame
  | .signed s e => e.openFrames ++ [.sign s]
  | .binary op l r => r.openFrames ++ [.operator op l]
  | _ => []

/-- The operand at the right end. -/
def core : Tree → Tree
  | .signed _ e => e.core
  | .binary _ _ r => r.core
  | e => e

end Tree

namespace Reading

/-- What comes next closes the open frames of a tree first, unless it joins one of them. -/
theorem settle_openFrames : ∀ {e : Tree}, (∀ q ∈ e.rightTiers, next ≤ q) → ∀ fs : List Frame,
    settle next (e.openFrames ++ fs) e.core = settle next fs e
  | .signed s e, h, fs => by
    obtain ⟨hs, he⟩ := List.forall_mem_cons.mp h
    simp only [Tree.openFrames, Tree.core, List.append_assoc, List.singleton_append]
    rw [settle_openFrames he, settle, if_neg (Tier.not_lt.mpr hs)]
  | .binary op l e, h, fs => by
    obtain ⟨hop, he⟩ := List.forall_mem_cons.mp h
    simp only [Tree.openFrames, Tree.core, List.append_assoc, List.singleton_append]
    rw [settle_openFrames he, settle, if_neg (Tier.not_lt.mpr hop)]
  | .integer _, _, _ | .float _, _, _ | .euler, _, _ | .group _, _, _ | .call _ _, _, _
  | .factorial _, _, _ | .eulerFold _, _, _ => rfl

theorem settle_lowest_openFrames (e : Tree) (fs : List Frame) :
    settle .lowest (e.openFrames ++ fs) e.core = settle .lowest fs e :=
  settle_openFrames (fun q _ => Tier.lowest_le q) fs

/-- A tiered tree is read from its tokens wherever it fits. -/
theorem follow?_of_spells (base : Tier) (fs : List Frame) (h : e.Spells ts) (ht : e.Tiered)
    (hl : ∀ q ∈ e.leftTiers, innerTier base fs < q) :
    ∃ last, follow? base (.operand fs) ts = some (.continuation e.core last (e.openFrames ++ fs)) := by
  induction h generalizing fs with
  | integer hk hn => exact ⟨_, Step.follow?_singleton (.integer hk hn)⟩
  | float hk hx => exact ⟨_, Step.follow?_singleton (.float hk hx)⟩
  | euler hk => exact ⟨_, Step.follow?_singleton (.euler hk)⟩
  | @group l r e ts hlp _ hrp ih =>
    have hlow : ∀ q ∈ e.leftTiers, Tier.lowest < q := fun q hq => Tree.lowest_lt_of_mem_leftTiers hq
    obtain ⟨last, hin⟩ := ih (.group :: fs) ht hlow
    have hset := settle_lowest_openFrames e (.group :: fs)
    refine ⟨r, ?_⟩
    rw [Step.follow?_cons (.group hlp), follow?_append_of hin]
    exact Step.follow?_singleton (.closeGroup hrp hset)
  | @call name l r p e ts hn hp hlp _ hrp ih =>
    have hlow : ∀ q ∈ e.leftTiers, Tier.lowest < q := fun q hq => Tree.lowest_lt_of_mem_leftTiers hq
    obtain ⟨last, hin⟩ := ih (.argument p :: fs) ht hlow
    have hset := settle_lowest_openFrames e (.argument p :: fs)
    refine ⟨r, ?_⟩
    rw [Step.follow?_cons (.call hn hp), Step.follow?_cons (.opening hlp), follow?_append_of hin]
    exact Step.follow?_singleton (.closeCall hrp hset)
  | @signed t s e ts hk _ ih =>
    obtain ⟨last, hin⟩ := ih (.sign s :: fs) ht.2 ht.1
    refine ⟨last, ?_⟩
    rw [Step.follow?_cons (.sign hk), hin]
    simp [Tree.openFrames, Tree.core]
  | @factorial t e ts _ hk ih =>
    obtain ⟨hlt, hle⟩ := List.forall_mem_cons.mp hl
    obtain ⟨last, hin⟩ := ih fs ht.2 hle
    have hset := (settle_openFrames ht.1 fs).trans (settle_of_lt hlt e)
    refine ⟨t, ?_⟩
    rw [follow?_append_of hin]
    exact Step.follow?_singleton (.factorial hk hset hlt)
  | @eulerFold t e ts _ hk ih =>
    obtain ⟨hlt, hle⟩ := List.forall_mem_cons.mp hl
    obtain ⟨last, hin⟩ := ih fs ht.2 hle
    have hset := (settle_openFrames ht.1 fs).trans (settle_of_lt hlt e)
    refine ⟨t, ?_⟩
    rw [follow?_append_of hin]
    exact Step.follow?_singleton (.eulerFold hk hset hlt)
  | @binary t op l r ls rs _ hop _ ihl ihr =>
    obtain ⟨hL, hR, hlt, hrt⟩ := ht
    obtain ⟨hlow, hle⟩ := List.forall_mem_cons.mp hl
    -- the operator closes what is open of its left operand, and waits for the right one
    obtain ⟨_, hin⟩ := ihl fs hlt hle
    have hset := (settle_openFrames hL fs).trans (settle_of_lt hlow l)
    obtain ⟨last, hright⟩ := ihr (.operator op l :: fs) hrt hR
    refine ⟨last, ?_⟩
    rw [follow?_append_of hin, Step.follow?_cons (.operator hop hset hlow), hright]
    simp [Tree.openFrames, Tree.core]

/-! ## Reading to the end of an expression -/

/-- A reading comes to an expression if only its signs and operators are open. -/
theorem refuse_outcome_eq_ok {x : Expr} (h : (r.refuse base t).outcome = .ok x) :
    ∃ e last fs g, r = .continuation e last fs ∧ settle t.kind.joiningTier fs e = ([], g) ∧ g.erase = x ∧
      (r.refuse base t).last = some last := by
  cases r with
  | operand fs => simp [refuse] at h
  | opening p name fs => simp [refuse] at h
  | continuation e last fs =>
    refine ⟨e, last, fs, ?_⟩
    cases hs : settle t.kind.joiningTier fs e with
    | mk gs g =>
      rw [refuse_continuation hs] at h ⊢
      split at h
      · simp at h
      · next hlt =>
        split at h
        · next hgs =>
          subst hgs
          refine ⟨g, rfl, rfl, Except.ok.inj h, ?_⟩
          rw [if_neg hlt, if_pos rfl]
        · simp at h

/-- What is read is the meaning of a tiered tree, which is spelled by the tokens that are read. -/
theorem exists_spells_of_readExpr {x : Expr} {left : List Token} (h : readExpr base ts = (.ok x, left)) :
    ∃ us last rest, ∃ e : Tree, ts = us ++ last :: rest ∧ left = last :: rest ∧ e.Spells (us ++ [last]) ∧
      e.Tiered ∧ (∀ q ∈ e.leftTiers, base < q) ∧ e.erase = x := by
  obtain ⟨us, rest, r, rfl, hf, hrest⟩ := exists_follow? base (.operand []) ts
  rw [readExpr_eq_read, read_of_follow? rest hrest hf] at h
  obtain ⟨hout, hleft⟩ := Prod.mk.inj h
  obtain ⟨e, last, fs, g, rfl, hs, hx, hlast⟩ := refuse_outcome_eq_ok hout
  obtain ⟨vs, rfl⟩ := exists_concat_of_last? hf rfl
  obtain ⟨ts', us', heq, hw, hfit, -⟩ := (reached_of_follow? hf).settle hs
  rw [hlast] at hleft
  cases hw with
  | nil => exact ⟨vs, last, rest, g, by simp, hleft.symm, heq ▸ hfit.spells, hfit.tiered, hfit.left, hx⟩

theorem readExpr_of_spells (base : Tier) (h : e.Spells ts) (ht : e.Tiered) (hl : ∀ q ∈ e.leftTiers, base < q) :
    ∃ last, readExpr base ts = (.ok e.erase, [last]) := by
  obtain ⟨last, hf⟩ := follow?_of_spells base [] h ht hl
  exact ⟨last, readExpr_of_settle_nil hf (settle_lowest_openFrames e [])⟩

end Reading

/-- Tokens spell one tiered tree at most. -/
theorem Tree.Spells.unique {e₁ e₂ : Tree} (h₁ : e₁.Spells ts) (ht₁ : e₁.Tiered) (h₂ : e₂.Spells ts)
    (ht₂ : e₂.Tiered) : e₁ = e₂ := by
  -- both trees leave the same reading behind, and at the end it closes to either of them
  have hlow (e : Tree) : ∀ q ∈ e.leftTiers, Tier.lowest < q := fun q hq => Tree.lowest_lt_of_mem_leftTiers hq
  obtain ⟨_, hf₁⟩ := Reading.follow?_of_spells .lowest [] h₁ ht₁ (hlow e₁)
  obtain ⟨_, hf₂⟩ := Reading.follow?_of_spells .lowest [] h₂ ht₂ (hlow e₂)
  have hsame := Option.some.inj (hf₁.symm.trans hf₂)
  obtain ⟨hcore, -, hframes⟩ := Reading.continuation.inj hsame
  have hs₁ := Reading.settle_lowest_openFrames e₁ []
  rw [hcore, hframes, Reading.settle_lowest_openFrames e₂ []] at hs₁
  exact (Prod.mk.inj hs₁).2.symm

/-- A source is read as the meaning of the tiered tree that its tokens spell, or it has no tokens. -/
theorem parse_eq_ok_iff {source : String} {p : Program} : parse source = .ok p ↔
    (tokenize source = [] ∧ p = ⟨[]⟩) ∨
      ∃ e : Tree, e.Spells (tokenize source) ∧ e.Tiered ∧ p = ⟨[e.erase]⟩ := by
  constructor
  · intro h
    by_cases hne : tokenize source = []
    · rw [parse_of_tokenize_nil hne] at h
      exact Or.inl ⟨hne, (Except.ok.inj h).symm⟩
    · refine Or.inr ?_
      cases hr : readExpr .lowest (tokenize source) with
      | mk out left =>
        cases out with
        | error d =>
          obtain ⟨ds, hds⟩ := parse_of_readExpr_error hne hr
          rw [hds] at h
          cases h
        | ok x =>
          obtain ⟨us, last, rest, e, hts, rfl, hsp, ht, -, rfl⟩ := Reading.exists_spells_of_readExpr hr
          cases rest with
          | nil =>
            rw [parse_of_readExpr_ok hne hr] at h
            exact ⟨e, hts ▸ hsp, ht, (Except.ok.inj h).symm⟩
          | cons u us =>
            obtain ⟨ds, hds⟩ := parse_of_readExpr_left hne hr
            rw [hds] at h
            cases h
  · rintro (⟨h, rfl⟩ | ⟨e, hsp, ht, rfl⟩)
    · exact parse_of_tokenize_nil h
    · obtain ⟨last, hr⟩ := Reading.readExpr_of_spells .lowest hsp ht
        fun q hq => Tree.lowest_lt_of_mem_leftTiers hq
      exact parse_of_readExpr_ok hsp.derives.ne_nil hr

/-! ## Main result -/

/-- **Grouping.** A source is read as the expression `x` if and only if its tokens spell one tiered tree, no other
one, and `x` is what that tree means. -/
theorem parse_eq_ok_iff_unique_tree {source : String} {x : Expr} : parse source = .ok ⟨[x]⟩ ↔
    ∃ e : Tree, e.Spells (tokenize source) ∧ e.Tiered ∧
      (∀ e' : Tree, e'.Spells (tokenize source) → e'.Tiered → e' = e) ∧ e.erase = x := by
  rw [parse_eq_ok_iff]
  constructor
  · rintro (⟨-, h⟩ | ⟨e, hsp, ht, h⟩)
    · simp at h
    · have hx : x = e.erase := by simpa using h
      exact ⟨e, hsp, ht, fun e' hsp' ht' => hsp'.unique ht' hsp ht, hx.symm⟩
  · rintro ⟨e, hsp, ht, -, rfl⟩
    exact Or.inr ⟨e, hsp, ht, rfl⟩

end Calculator
