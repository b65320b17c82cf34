import Calculator.Proofs.Literals

/-!
# Calculator.Proofs.DistinctLiterals — different literals have different texts

The literals of integers, and of floats that are not `NaN`, are made of few characters. Behind a sign each is the text
of a magnitude, and magnitudes start with no sign, so the sign can be told apart.

Two floats with the same text have the same decimal number written for them (`toRat_eq_of_chars_eq`). That number is in
the intervals around both, and different intervals have no number in common, so it is the same float.
-/

namespace Calculator

/-! ## Texts that end at a character -/

/-- Two texts with a property that what follows them does not start with end at the same place. -/
theorem append_inj_of_forall {p : Char → Bool} {cs ds us vs : List Char} (hcs : ∀ c ∈ cs, p c) (hds : ∀ c ∈ ds, p c)
    (hus : ∀ c ∈ us.head?, p c = false) (hvs : ∀ c ∈ vs.head?, p c = false) (h : cs ++ us = ds ++ vs) :
    cs = ds ∧ us = vs := by
  obtain ⟨htake, hdrop⟩ := span_of_forall hcs hus
  obtain ⟨htake', hdrop'⟩ := span_of_forall hds hvs
  rw [h] at htake hdrop
  exact ⟨htake.symm.trans htake', hdrop.symm.trans hdrop'⟩

/-! ## Characters of literals -/

/-- The characters of literals. Those of `NaN` are not among them. -/
def isLiteralChar (c : Char) : Bool := c.isDigit || c ∈ ['-', '.', 'e', 'i', 'n', 'f']

theorem isLiteralChar_of_isDigit {c : Char} (h : c.isDigit = true) : isLiteralChar c = true := by
  simp [isLiteralChar, h]

/-- The text of a literal behind its sign. -/
structure IsMagnitude (cs : List Char) : Prop where
  ne_nil : cs ≠ []
  literal : ∀ c ∈ cs, isLiteralChar c
  unsigned : '-' ∉ cs.head?

theorem isMagnitude_cons {c : Char} {cs : List Char} (hc : c.isDigit = true) (hcs : ∀ d ∈ cs, isLiteralChar d) :
    IsMagnitude (c :: cs) where
  ne_nil := List.cons_ne_nil c cs
  literal := List.forall_mem_cons.mpr ⟨isLiteralChar_of_isDigit hc, hcs⟩
  unsigned := by
    intro h
    obtain rfl : c = '-' := by simpa using h
    exact absurd hc (by decide)

theorem isMagnitude_toDigits (n : Nat) : IsMagnitude (Nat.toDigits 10 n) := by
  have hall := Decimal.all_toDigits n
  obtain ⟨c, cs, hds⟩ := List.exists_cons_of_ne_nil (Nat.toDigits_ne_nil (n := n) (b := 10))
  rw [hds, List.all_eq_true, List.forall_mem_cons] at hall
  rw [hds]
  exact isMagnitude_cons hall.1 fun d hd => isLiteralChar_of_isDigit (hall.2 d hd)

/-! ## Integers -/

theorem toDigits_injective {m n : Nat} (h : Nat.toDigits 10 m = Nat.toDigits 10 n) : m = n := by
  rw [← Nat.ofDigitChars_ten_toDigits (n := m), h, Nat.ofDigitChars_ten_toDigits]

namespace Decimal

theorem integerChars_cases (n : Int) :
    IsMagnitude (integerChars n) ∨ ∃ cs, integerChars n = '-' :: cs ∧ IsMagnitude cs := by
  cases n with
  | ofNat n => exact Or.inl (isMagnitude_toDigits n)
  | negSucc n => exact Or.inr ⟨_, rfl, isMagnitude_toDigits (n + 1)⟩

theorem integerChars_injective {m n : Int} (h : integerChars m = integerChars n) : m = n := by
  have hsign (a b : Nat) : integerChars (.ofNat a) ≠ integerChars (.negSucc b) := by
    intro h
    refine (isMagnitude_toDigits a).unsigned ?_
    rw [show Nat.toDigits 10 a = '-' :: Nat.toDigits 10 (b + 1) from h]
    rfl
  cases m with
  | ofNat a =>
    cases n with
    | ofNat b => exact congrArg Int.ofNat (toDigits_injective h)
    | negSucc b => exact absurd h (hsign a b)
  | negSucc a =>
    cases n with
    | ofNat b => exact absurd h.symm (hsign b a)
    | negSucc b =>
      have hdigits := toDigits_injective (List.cons.inj h).2
      exact congrArg Int.negSucc (Nat.succ.inj hdigits)

theorem literal_of_mem_integerChars {n : Int} {c : Char} (hc : c ∈ integerChars n) : c.isDigit ∨ c = '-' := by
  cases n with
  | ofNat n => exact Or.inl (List.all_eq_true.mp (all_toDigits n) c hc)
  | negSucc n =>
    rcases List.mem_cons.mp hc with rfl | hc
    · exact Or.inr rfl
    · exact Or.inl (List.all_eq_true.mp (all_toDigits (n + 1)) c hc)

/-! ## Decimal numbers -/

/-- The digits of an exponential text before its exponent. -/
def leadChars (ds : List Char) : List Char := ds.take 1 ++ if ds.drop 1 = [] then [] else '.' :: ds.drop 1

theorem exponentialChars_eq (ds : List Char) (lead : Int) :
    exponentialChars ds lead = leadChars ds ++ 'e' :: integerChars lead := rfl

section Exponential

variable {ds es : List Char}

theorem mem_leadChars {c : Char} (hds : ds.all Char.isDigit) (hc : c ∈ leadChars ds) : c.isDigit ∨ c = '.' := by
  rw [List.all_eq_true] at hds
  unfold leadChars at hc
  rcases List.mem_append.mp hc with hc | hc
  · exact Or.inl (hds c (List.mem_of_mem_take hc))
  · split at hc
    · simp at hc
    · rcases List.mem_cons.mp hc with rfl | hc
      · exact Or.inr rfl
      · exact Or.inl (hds c (List.mem_of_mem_drop hc))

/-- The point is all that is put between the digits. -/
theorem filter_leadChars (hds : ds.all Char.isDigit) : (leadChars ds).filter Char.isDigit = ds := by
  have hkeep {cs : List Char} (hcs : ∀ c ∈ cs, c.isDigit = true) : cs.filter Char.isDigit = cs :=
    List.filter_eq_self.mpr hcs
  rw [List.all_eq_true] at hds
  have htake := hkeep fun c hc => hds c (List.mem_of_mem_take (i := 1) hc)
  have hdrop := hkeep fun c hc => hds c (List.mem_of_mem_drop (i := 1) hc)
  unfold leadChars
  by_cases h : ds.drop 1 = []
  · rw [if_pos h, List.append_nil, htake]
    exact List.take_eq_self_iff ds |>.mpr (List.drop_eq_nil_iff.mp h)
  · rw [if_neg h, List.filter_append, htake, List.filter_cons_of_neg (by decide), hdrop, List.take_append_drop]

theorem exponentialChars_injective {a b : Int} (hds : ds.all Char.isDigit) (hes : es.all Char.isDigit)
    (h : exponentialChars ds a = exponentialChars es b) : ds = es ∧ a = b := by
  have hall {cs : List Char} (hcs : cs.all Char.isDigit) : ∀ c ∈ leadChars cs, (c.isDigit || c == '.') = true := by
    intro c hc
    simpa using mem_leadChars hcs hc
  rw [exponentialChars_eq, exponentialChars_eq] at h
  obtain ⟨hlead, hexponent⟩ := append_inj_of_forall (hall hds) (hall hes) (by simp) (by simp) h
  refine ⟨?_, integerChars_injective (List.cons.inj hexponent).2⟩
  rw [← filter_leadChars hds, hlead, filter_leadChars hes]

theorem isMagnitude_exponentialChars (hne : ds ≠ []) (hds : ds.all Char.isDigit) (lead : Int) :
    IsMagnitude (exponentialChars ds lead) := by
  obtain ⟨c, cs, rfl⟩ := List.exists_cons_of_ne_nil hne
  have hlead : ∀ d ∈ leadChars (c :: cs), isLiteralChar d := by
    intro d hd
    rcases mem_leadChars hds hd with hd | rfl
    · exact isLiteralChar_of_isDigit hd
    · rfl
  have hexponent : ∀ d ∈ 'e' :: integerChars lead, isLiteralChar d := by
    intro d hd
    rcases List.mem_cons.mp hd with rfl | hd
    · rfl
    · rcases literal_of_mem_integerChars hd with hd | rfl
      · exact isLiteralChar_of_isDigit hd
      · rfl
  have hall := List.forall_mem_append.mpr ⟨hlead, hexponent⟩
  rw [exponentialChars_eq]
  exact isMagnitude_cons (List.all_eq_true.mp hds c List.mem_cons_self) (List.forall_mem_cons.mp hall).2

end Exponential

section Chars

variable {cs : List Char} {d d' : Decimal} {v w : ℚ}

theorem Pointed.isMagnitude (h : Pointed cs v) : IsMagnitude cs := by
  obtain ⟨whole, fraction, rfl, hne, hwhole, -, hfraction, -⟩ := h
  obtain ⟨c, whole, rfl⟩ := List.exists_cons_of_ne_nil hne
  rw [List.all_eq_true, List.forall_mem_cons] at hwhole
  rw [List.all_eq_true] at hfraction
  refine isMagnitude_cons hwhole.1 (List.forall_mem_append.mpr ⟨?_, List.forall_mem_cons.mpr ⟨rfl, ?_⟩⟩)
  · exact fun d hd => isLiteralChar_of_isDigit (hwhole.2 d hd)
  · exact fun d hd => isLiteralChar_of_isDigit (hfraction d hd)

theorem Pointed.unique (h : Pointed cs v) (h' : Pointed cs w) : v = w := by
  obtain ⟨d, hd, -, hv⟩ := h.exists_ofChars?
  obtain ⟨d', hd', -, hw⟩ := h'.exists_ofChars?
  rw [hd] at hd'
  rw [← hv, ← hw, Option.some.inj hd']

theorem Pointed.ne_exponentialChars (h : Pointed cs v) {ds : List Char} {lead : Int} :
    cs ≠ exponentialChars ds lead := by
  rintro rfl
  exact h.notMem_e (by simp [exponentialChars])

/-- Every decimal number is written with a point or with an exponent. -/
theorem point_or_e_mem_chars (d : Decimal) : '.' ∈ chars .literal d ∨ 'e' ∈ chars .literal d := by
  rcases d.chars_literal_form with h | h
  · obtain ⟨whole, fraction, htext, -⟩ := h
    exact Or.inl (by simp [htext])
  · exact Or.inr (by simp [h, exponentialChars])

theorem isMagnitude_chars (d : Decimal) : IsMagnitude (chars .literal d) := by
  rcases d.chars_literal_form with h | h
  · exact h.isMagnitude
  · rw [h]
    exact isMagnitude_exponentialChars Nat.toDigits_ne_nil (all_toDigits _) _

/-- The text of a decimal number determines its value. -/
theorem toRat_eq_of_chars_eq (h : chars .literal d = chars .literal d') : d.toRat = d'.toRat := by
  rcases d.chars_literal_form with hd | hd
  · rcases d'.chars_literal_form with hd' | hd'
    · exact hd.unique (h ▸ hd')
    · exact absurd (h.trans hd') hd.ne_exponentialChars
  · rcases d'.chars_literal_form with hd' | hd'
    · exact absurd (h.symm.trans hd) hd'.ne_exponentialChars
    · rw [hd, hd'] at h
      obtain ⟨hdigits, hlead⟩ := exponentialChars_injective (all_toDigits _) (all_toDigits _) h
      obtain ⟨n, k⟩ := d
      obtain ⟨n', k'⟩ := d'
      obtain rfl := toDigits_injective hdigits
      rw [show k = k' by simpa using hlead]

end Chars
end Decimal

/-! ## Floats -/

namespace Binary64

open Float.Model (UnpackedFloat)

/-- The text of a float behind its sign, where the decimal number that is written for infinity is none. -/
def magnitudeChars : Option Decimal → List Char
  | none => ['i', 'n', 'f']
  | some d => Decimal.chars .literal d

theorem isMagnitude_magnitudeChars (d : Option Decimal) : IsMagnitude (magnitudeChars d) := by
  cases d with
  | none => exact ⟨by simp [magnitudeChars], by simp [magnitudeChars, isLiteralChar], by simp [magnitudeChars]⟩
  | some d => exact d.isMagnitude_chars

/-- There is more than digits and a minus. -/
theorem exists_mem_magnitudeChars (d : Option Decimal) : ∃ c ∈ magnitudeChars d, c.isDigit = false ∧ c ≠ '-' := by
  cases d with
  | none => exact ⟨'i', by decide, by decide, by decide⟩
  | some d =>
    rcases d.point_or_e_mem_chars with h | h
    · exact ⟨'.', h, by decide, by decide⟩
    · exact ⟨'e', h, by decide, by decide⟩

/-- The sign and the decimal number that are written for a float. -/
inductive WrittenAs : UnpackedFloat → UnpackedFloat.Sign → Option Decimal → Prop where
  | infinity (s : UnpackedFloat.Sign) : WrittenAs (.infinity s) s none
  | zero (s : UnpackedFloat.Sign) : WrittenAs (.zero s) s (some ⟨0, 0⟩)
  | finite (s : UnpackedFloat.Sign) {m : ℕ} {e : ℤ} (hm : 0 < m) :
      WrittenAs (.finite s m e hm) s (some (Decimal.shortest m e))

theorem exists_writtenAs {x : Float} (hx : x.isNaN = false) : ∃ s d,
    WrittenAs x.toModel.unpack s d ∧ (literalText x).toList = chars.signed s (magnitudeChars d) := by
  have hnan : x.toModel.unpack.isNaN = false := hx
  rw [literalText, String.toList_ofList, chars]
  cases h : x.toModel.unpack with
  | notANumber =>
    rw [h] at hnan
    cases hnan
  | infinity s => exact ⟨s, _, .infinity s, rfl⟩
  | zero s => exact ⟨s, _, .zero s, rfl⟩
  | finite s m e hm => exact ⟨s, _, .finite s hm, rfl⟩

theorem signed_injective {s s' : UnpackedFloat.Sign} {cs ds : List Char} (hcs : IsMagnitude cs) (hds : IsMagnitude ds)
    (h : chars.signed s cs = chars.signed s' ds) : s = s' ∧ cs = ds := by
  have hne {us vs : List Char} (hus : IsMagnitude us) : us ≠ '-' :: vs := by
    rintro rfl
    exact hus.unsigned rfl
  cases s with
  | positive =>
    cases s' with
    | positive => exact ⟨rfl, h⟩
    | negative => exact absurd h (hne hcs)
  | negative =>
    cases s' with
    | positive => exact absurd h.symm (hne hds)
    | negative => exact ⟨rfl, (List.cons.inj h).2⟩

/-- No text belongs to an integer and to a float. -/
theorem literalText_ne_integerChars {x : Float} (hx : x.isNaN = false) (n : ℤ) :
    (literalText x).toList ≠ Decimal.integerChars n := by
  intro h
  obtain ⟨s, d, -, htext⟩ := exists_writtenAs hx
  obtain ⟨c, hc, hdigit, hminus⟩ := exists_mem_magnitudeChars d
  have hmem : c ∈ Decimal.integerChars n := by
    rw [← h, htext]
    cases s with
    | positive => exact hc
    | negative => exact List.mem_cons_of_mem '-' hc
  rcases Decimal.literal_of_mem_integerChars hmem with h | h
  · simp [h] at hdigit
  · exact hminus h

/-- Different magnitudes have different values. -/
theorem toRat_eq_of_magnitudeChars_eq {d d' : Option Decimal} (h : magnitudeChars d = magnitudeChars d') :
    d.map Decimal.toRat = d'.map Decimal.toRat := by
  have hne (d : Decimal) : Decimal.chars .literal d ≠ ['i', 'n', 'f'] := by
    intro h
    have hmem := d.point_or_e_mem_chars
    simp [h] at hmem
  cases d with
  | none =>
    cases d' with
    | none => rfl
    | some d' => exact absurd h.symm (hne d')
  | some d =>
    cases d' with
    | none => exact absurd h (hne d)
    | some d' => exact congrArg some (Decimal.toRat_eq_of_chars_eq h)

theorem WrittenAs.unique {x y : Float} {s : UnpackedFloat.Sign} {d d' : Option Decimal}
    (h : WrittenAs x.toModel.unpack s d) (h' : WrittenAs y.toModel.unpack s d')
    (hv : d.map Decimal.toRat = d'.map Decimal.toRat) : x = y := by
  have hpos {m : ℕ} (hm : 0 < m) (e : ℤ) : 0 < (Decimal.shortest m e).toRat :=
    Decimal.pos_of_mem_around hm (Decimal.shortest_mem hm e)
  have hzero : (⟨0, 0⟩ : Decimal).toRat = 0 := by simp [Decimal.toRat]
  suffices hunpack : x.toModel.unpack = y.toModel.unpack by
    rw [← ofModel_pack_unpack x, hunpack, ofModel_pack_unpack]
  generalize hx : x.toModel.unpack = u at h ⊢
  generalize hy : y.toModel.unpack = w at h' ⊢
  cases h with
  | infinity s =>
    cases h' with
    | infinity => rfl
    | zero => simp at hv
    | finite => simp at hv
  | zero s =>
    cases h' with
    | infinity => simp at hv
    | zero => rfl
    | @finite _ m e hm => exact absurd (Option.some.inj hv) (by rw [hzero]; exact (hpos hm e).ne)
  | @finite s m e hm =>
    cases h' with
    | infinity => simp at hv
    | zero => exact absurd (Option.some.inj hv) (by rw [hzero]; exact (hpos hm e).ne')
    | @finite _ m' e' hm' =>
      have hmem : (Decimal.Interval.around m' e').Mem (4 * ((Decimal.shortest m e).toRat / 2 ^ e')) := by
        rw [show (Decimal.shortest m e).toRat = (Decimal.shortest m' e').toRat from Option.some.inj hv]
        exact Decimal.shortest_mem hm' e'
      obtain ⟨rfl, rfl⟩ := Decimal.eq_of_mem_around (canonical_of_unpack hx) (canonical_of_unpack hy)
        (Decimal.shortest_mem hm e) hmem
      rfl

/-- **Floats.** Different floats have different texts. -/
theorem literalText_injective {x y : Float} (hx : x.isNaN = false) (hy : y.isNaN = false)
    (h : literalText x = literalText y) : x = y := by
  obtain ⟨s, d, hd, htext⟩ := exists_writtenAs hx
  obtain ⟨s', d', hd', htext'⟩ := exists_writtenAs hy
  rw [h, htext'] at htext
  obtain ⟨rfl, hchars⟩ := signed_injective (isMagnitude_magnitudeChars d') (isMagnitude_magnitudeChars d) htext
  exact hd.unique hd' (toRat_eq_of_magnitudeChars_eq hchars.symm)

end Binary64

end Calculator
