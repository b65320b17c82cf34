import Calculator.Proofs.Scanning
import Calculator.Proofs.ShortestReading
import Calculator.Decimal.Style

/-!
# Calculator.Proofs.Literals — literals as they are written

The literal of an integer that is not negative is one token, and so is that of a plain float: a number with digits on
both sides of its point (`Decimal.Pointed`). The token has the value that the literal is written for
(`integerToken_of_nonneg`, `literalCase`).

All other literals are read as something else. A sign is a token of its own, an exponent is read as Euler's number,
and `inf` and `NaN` are words that name nothing. The weight of a text tells them from the literals that read back.
-/

namespace Calculator

open Token

/-! ## Numbers in a text -/

section Numbers

variable {ds fs rest : List Char}

/-- Digits that do not go on are one token. -/
theorem ofChars_digits (hne : ds ≠ []) (hds : ds.all Char.isDigit)
    (hrest : ∀ c ∈ rest.head?, c.isDigit = false ∧ c ≠ '.') :
    ofChars (ds ++ rest) = ⟨.integer, String.ofList ds⟩ :: ofChars rest := by
  obtain ⟨c, cs, rfl⟩ := List.exists_cons_of_ne_nil hne
  obtain ⟨hc, hcs⟩ : c.isDigit = true ∧ cs.all Char.isDigit = true := by simpa using hds
  obtain ⟨htake, hdrop⟩ := span_digits hcs fun c hc => (hrest c hc).1
  have hscan : scan c (cs ++ rest) = (⟨.integer, String.ofList (c :: cs)⟩, rest) := by
    rw [scan, if_pos hc, htake, hdrop]
    unfold scanNumber
    split
    · next more => exact absurd rfl (hrest '.' rfl).2
    · rfl
  rw [List.cons_append, ofChars_scan (isBlank_of_isDigit hc), hscan]

theorem ofChars_digits_self (hne : ds ≠ []) (hds : ds.all Char.isDigit) :
    ofChars ds = [⟨.integer, String.ofList ds⟩] := by
  have hnil : ∀ c ∈ ([] : List Char).head?, c.isDigit = false ∧ c ≠ '.' := by simp
  simpa using ofChars_digits hne hds hnil

/-- So are digits with a point among them. -/
theorem ofChars_point (hne : ds ≠ []) (hds : ds.all Char.isDigit) (hfs : fs.all Char.isDigit)
    (hrest : ∀ c ∈ rest.head?, c.isDigit = false) :
    ofChars (ds ++ '.' :: (fs ++ rest)) = ⟨.float, String.ofList (ds ++ '.' :: fs)⟩ :: ofChars rest := by
  obtain ⟨c, cs, rfl⟩ := List.exists_cons_of_ne_nil hne
  obtain ⟨hc, hcs⟩ : c.isDigit = true ∧ cs.all Char.isDigit = true := by simpa using hds
  have hpoint : ∀ c ∈ ('.' :: (fs ++ rest)).head?, c.isDigit = false := by simp
  obtain ⟨htake, hdrop⟩ := span_digits hcs hpoint
  obtain ⟨hmore, hleft⟩ := span_digits hfs hrest
  have hscan : scan c (cs ++ '.' :: (fs ++ rest)) = (⟨.float, String.ofList (c :: cs ++ '.' :: fs)⟩, rest) := by
    rw [scan, if_pos hc, htake, hdrop, scanNumber, hmore, hleft]
  rw [List.cons_append, ofChars_scan (isBlank_of_isDigit hc), hscan]

theorem ofChars_point_self (hne : ds ≠ []) (hds : ds.all Char.isDigit) (hfs : fs.all Char.isDigit) :
    ofChars (ds ++ '.' :: fs) = [⟨.float, String.ofList (ds ++ '.' :: fs)⟩] := by
  have hnil : ∀ c ∈ ([] : List Char).head?, c.isDigit = false := by simp
  simpa using ofChars_point hne hds hfs hnil

end Numbers

/-! ## Digits of decimal numbers -/

namespace Decimal

theorem all_toDigits (n : Nat) : (Nat.toDigits 10 n).all Char.isDigit := by
  rw [List.all_eq_true]
  intro c hc
  exact Nat.isDigit_of_mem_toDigits (by decide) (by decide) hc

theorem natural?_toDigits (n : Nat) : natural? (Nat.toDigits 10 n) = some n := by
  rw [natural?, if_pos ⟨Nat.toDigits_ne_nil, all_toDigits n⟩, Nat.ofDigitChars_ten_toDigits]

theorem exists_withPoint (ds : List Char) (places : Nat) :
    ∃ whole fraction, withPoint ds places = whole ++ '.' :: fraction ∧
      whole ++ fraction = List.replicate (places + 1 - ds.length) '0' ++ ds ∧ whole ≠ [] ∧ fraction.length = places := by
  have hlength : places + 1 ≤ (List.replicate (places + 1 - ds.length) '0' ++ ds).length := by
    rw [List.length_append, List.length_replicate]
    omega
  refine ⟨_, _, rfl, List.take_append_drop _ _, ?_, ?_⟩
  · rw [← List.length_pos_iff, List.length_take]
    omega
  · rw [List.length_drop]
    omega

theorem ofChars_toDigits (n : Nat) :
    ofChars (Nat.toDigits 10 n) = [⟨.integer, String.ofList (Nat.toDigits 10 n)⟩] :=
  ofChars_digits_self Nat.toDigits_ne_nil (all_toDigits n)

/-- The text `cs` has a point with digits on both sides and writes the number `v`. -/
def Pointed (cs : List Char) (v : ℚ) : Prop :=
  ∃ whole fraction, cs = whole ++ '.' :: fraction ∧ whole ≠ [] ∧ whole.all Char.isDigit ∧ fraction ≠ [] ∧
    fraction.all Char.isDigit ∧ (⟨Nat.ofDigitChars 10 (whole ++ fraction) 0, -fraction.length⟩ : Decimal).toRat = v

theorem pointed_positionalChars (d : Decimal) :
    Pointed (positionalChars .literal (Nat.toDigits 10 d.digits) d.exponent) d.toRat := by
  obtain ⟨n, zeros | places⟩ := d
  · refine ⟨Nat.toDigits 10 n ++ List.replicate zeros '0', ['0'], ?_, ?_, ?_, ?_, ?_, ?_⟩
    · simp [positionalChars, Style.literal]
    · simp [Nat.toDigits_ne_nil]
    · simpa using all_toDigits n
    · simp
    · simp
    -- Behind a whole number stands `.0`: one place more, and ten times the digits.
    · have hdigits : Nat.ofDigitChars 10 (Nat.toDigits 10 n ++ List.replicate zeros '0' ++ ['0']) 0 =
          10 * (10 ^ zeros * n) := by
        rw [Nat.ofDigitChars_append, Nat.ofDigitChars_append, Nat.ofDigitChars_ten_toDigits,
          Nat.ofDigitChars_replicate_zero]
        rfl
      simp only [toRat, hdigits]
      push_cast
      norm_num
      ring
  · obtain ⟨whole, fraction, htext, happend, hwhole, hlength⟩ := exists_withPoint (Nat.toDigits 10 n) (places + 1)
    have hall : (whole ++ fraction).all Char.isDigit = true := by
      rw [happend]
      simpa using all_toDigits n
    rw [List.all_append, Bool.and_eq_true] at hall
    refine ⟨whole, fraction, htext, hwhole, hall.1, ?_, hall.2, ?_⟩
    · rw [← List.length_pos_iff, hlength]
      exact Nat.succ_pos places
    · rw [happend, hlength, Nat.ofDigitChars_append, Nat.ofDigitChars_replicate_zero, Nat.mul_zero,
        Nat.ofDigitChars_ten_toDigits]
      rfl

namespace Pointed

variable {cs : List Char} {v : ℚ}

theorem notMem_e (h : Pointed cs v) : 'e' ∉ cs := by
  obtain ⟨whole, fraction, rfl, -, hwhole, -, hfraction, -⟩ := h
  rw [List.all_eq_true] at hwhole hfraction
  intro he
  rcases List.mem_append.mp he with he | he
  · exact absurd (hwhole _ he) (by decide)
  · rcases List.mem_cons.mp he with he | he
    · exact absurd he (by decide)
    · exact absurd (hfraction _ he) (by decide)

theorem ofChars_eq (h : Pointed cs v) : ofChars cs = [⟨.float, String.ofList cs⟩] := by
  obtain ⟨whole, fraction, rfl, hne, hwhole, -, hfraction, -⟩ := h
  exact ofChars_point_self hne hwhole hfraction

theorem exists_ofChars? (h : Pointed cs v) : ∃ d, ofChars? cs = some d ∧ d.exponent < 0 ∧ d.toRat = v := by
  obtain ⟨whole, fraction, rfl, hne, hwhole, hne', hfraction, hv⟩ := h
  refine ⟨_, ofChars?_point hne hwhole hfraction, ?_, hv⟩
  have := List.length_pos_iff.mpr hne'
  dsimp only
  omega

end Pointed

end Decimal

/-! ## The weight of a text -/

/-- The weight of a token in an expression: that of a literal or of a minus. An illegal token is heavier than any
literal. -/
def TokenKind.weight : TokenKind → Nat
  | .integer | .float | .euler | .minus => 1
  | .illegal => 2
  | _ => 0

def totalWeight (ts : List Token) : Nat := (ts.map fun t => t.kind.weight).sum

@[simp] theorem totalWeight_nil : totalWeight [] = 0 := rfl

@[simp] theorem totalWeight_cons (t : Token) (ts : List Token) :
    totalWeight (t :: ts) = t.kind.weight + totalWeight ts := by
  simp [totalWeight]

@[simp] theorem totalWeight_append (ts us : List Token) :
    totalWeight (ts ++ us) = totalWeight ts + totalWeight us := by
  simp [totalWeight]

theorem totalWeight_minus (cs : List Char) : totalWeight (ofChars ('-' :: cs)) = 1 + totalWeight (ofChars cs) := by
  rw [ofChars_symbol (by decide) (by decide) (by decide), totalWeight_cons]
  rfl

theorem one_le_totalWeight_e (cs : List Char) : 1 ≤ totalWeight (ofChars ('e' :: cs)) := by
  rw [ofChars_symbol (by decide) (by decide) (by decide), totalWeight_cons]
  exact Nat.le_add_right 1 _

/-- An exponent is read as Euler's number. -/
theorem two_le_totalWeight_exponentialChars (n : Nat) (lead : Int) :
    2 ≤ totalWeight (ofChars (Decimal.exponentialChars (Nat.toDigits 10 n) lead)) := by
  have hall := Decimal.all_toDigits n
  obtain ⟨c, cs, hds⟩ := List.exists_cons_of_ne_nil (Nat.toDigits_ne_nil (n := n) (b := 10))
  rw [hds] at hall ⊢
  obtain ⟨hc, hcs⟩ : [c].all Char.isDigit = true ∧ cs.all Char.isDigit = true := by simpa using hall
  have hexponent := one_le_totalWeight_e (Decimal.integerChars lead)
  by_cases hnil : cs = []
  · have htext : Decimal.exponentialChars (c :: cs) lead = [c] ++ 'e' :: Decimal.integerChars lead := by
      simp [Decimal.exponentialChars, hnil]
    rw [htext, ofChars_digits (by simp) hc (by simp), totalWeight_cons]
    exact Nat.add_le_add (Nat.le_refl 1) hexponent
  · have htext : Decimal.exponentialChars (c :: cs) lead = [c] ++ '.' :: (cs ++ 'e' :: Decimal.integerChars lead) := by
      simp [Decimal.exponentialChars, hnil]
    rw [htext, ofChars_point (by simp) hc hcs (by simp), totalWeight_cons]
    exact Nat.add_le_add (Nat.le_refl 1) hexponent

theorem Decimal.chars_literal_form (d : Decimal) : Pointed (chars .literal d) d.toRat ∨ chars .literal d =
    exponentialChars (Nat.toDigits 10 d.digits) (d.exponent + ((Nat.toDigits 10 d.digits).length - 1 : Nat)) := by
  unfold chars
  dsimp only
  split
  · exact Or.inl (pointed_positionalChars d)
  · exact Or.inr rfl

theorem Decimal.chars_literal_cases (d : Decimal) :
    Pointed (chars .literal d) d.toRat ∨ ('e' ∈ chars .literal d ∧ 2 ≤ totalWeight (ofChars (chars .literal d))) := by
  rcases d.chars_literal_form with h | h
  · exact Or.inl h
  · rw [h]
    exact Or.inr ⟨by simp [exponentialChars], two_le_totalWeight_exponentialChars _ _⟩

theorem Decimal.one_le_totalWeight_chars (d : Decimal) : 1 ≤ totalWeight (ofChars (chars .literal d)) := by
  rcases d.chars_literal_cases with h | ⟨-, h⟩
  · rw [h.ofChars_eq]
    exact Nat.le_refl 1
  · omega

/-! ## Literals -/

section Literals

open Binary64

variable {x : Float} {v : ℚ}

/-- A float that is written with a point and without an exponent: zero or positive, and neither too small nor too
great. -/
def Binary64.IsPlain (x : Float) : Prop :=
  (∃ d, decode x = some d ∧ d.negative = false) ∧ 'e' ∉ (literalText x).toList

/-- The token that the literal of a float is. -/
def Binary64.literalToken (x : Float) : Token := ⟨.float, literalText x⟩

theorem tokenize_literalText (h : Decimal.Pointed (chars .literal x) v) : tokenize (literalText x) = [literalToken x] := by
  rw [tokenize, literalText, String.toList_ofList, h.ofChars_eq]
  rfl

theorem float?_literalToken (h : Decimal.Pointed (chars .literal x) v)
    (hread : ∀ d : Decimal, d.exponent < 0 → d.toRat = v → d.toFloat = x) : (literalToken x).float? = some x := by
  obtain ⟨d, hd, hneg, hv⟩ := h.exists_ofChars?
  rw [literalToken, Token.float?, literalText, String.toList_ofList, hd, Option.map_some, hread d hneg hv]

theorem toFloat_of_toRat_eq_zero {d : Decimal} (hd : d.toRat = 0) (hx : x.toModel.unpack = .zero .positive) :
    d.toFloat = x := by
  obtain ⟨n, k⟩ := d
  obtain rfl : n = 0 := by
    have hten : (10 : ℚ) ^ k ≠ 0 := by positivity
    simpa [Decimal.toRat, hten] using hd
  have hzero : Float.Model.UnpackedFloat.ofScientific .binary64 0 k = x.toModel.unpack := hx.symm
  rw [Decimal.toFloat, Float.Model.ofScientific, hzero, ofModel_pack_unpack]

/-- A word that names nothing is too heavy. -/
theorem two_le_totalWeight_scan {c : Char} {cs : List Char} (hb : isBlank c = false) (h : (scan c cs).1.kind.weight = 2) :
    2 ≤ totalWeight (ofChars (c :: cs)) := by
  rw [ofChars_scan hb, totalWeight_cons, h]
  exact Nat.le_add_right 2 _

theorem two_le_totalWeight_infinity (s : Float.Model.UnpackedFloat.Sign) :
    2 ≤ totalWeight (ofChars (chars.signed s ['i', 'n', 'f'])) := by
  have hword : 2 ≤ totalWeight (ofChars ['i', 'n', 'f']) := two_le_totalWeight_scan (by decide) (by decide)
  cases s with
  | positive => exact hword
  | negative =>
    rw [chars.signed, totalWeight_minus]
    omega

/-- The literal of a plain float is one token, which reads back as that float. All other literals are too heavy for
the literal of an expression. -/
inductive LiteralCase (x : Float) : Prop where
  | plain : IsPlain x → tokenize (literalText x) = [literalToken x] → (literalToken x).float? = some x → LiteralCase x
  | heavy : ¬ IsPlain x → 2 ≤ totalWeight (tokenize (literalText x)) → LiteralCase x

theorem literalCase_of_number {s : Float.Model.UnpackedFloat.Sign} {d : Decimal} {m : Nat} {e : Int}
    (hchars : chars .literal x = chars.signed s (Decimal.chars .literal d))
    (hdecode : decode x = some ⟨s == .negative, m, e⟩)
    (hread : s = .positive → ∀ d' : Decimal, d'.exponent < 0 → d'.toRat = d.toRat → d'.toFloat = x) :
    LiteralCase x := by
  have htext : (literalText x).toList = chars .literal x := String.toList_ofList
  cases s with
  | negative =>
    refine .heavy (fun ⟨⟨d, hd, hsign⟩, _⟩ => ?_) ?_
    · rw [hdecode] at hd
      rw [← Option.some.inj hd] at hsign
      nomatch hsign
    · have hnumber := d.one_le_totalWeight_chars
      rw [tokenize, htext, hchars, chars.signed, totalWeight_minus]
      omega
  | positive =>
    rcases d.chars_literal_cases with hpointed | ⟨he, hweight⟩
    · rw [← show chars .literal x = Decimal.chars .literal d from hchars] at hpointed
      refine .plain ⟨⟨_, hdecode, rfl⟩, ?_⟩ (tokenize_literalText hpointed)
        (float?_literalToken hpointed (hread rfl))
      rw [htext]
      exact hpointed.notMem_e
    · refine .heavy (fun hplain => hplain.2 ?_) ?_
      · rw [htext, hchars]
        exact he
      · rw [tokenize, htext, hchars]
        exact hweight

theorem literalCase (x : Float) : LiteralCase x := by
  have htext : (literalText x).toList = chars .literal x := String.toList_ofList
  cases hx : x.toModel.unpack with
  | notANumber =>
    refine .heavy (fun ⟨⟨d, hd, _⟩, _⟩ => by simp [decode, hx] at hd) ?_
    rw [tokenize, htext, chars, hx]
    exact two_le_totalWeight_scan (by decide) (by decide)
  | infinity s =>
    refine .heavy (fun ⟨⟨d, hd, _⟩, _⟩ => by simp [decode, hx] at hd) ?_
    rw [tokenize, htext, chars, hx]
    exact two_le_totalWeight_infinity s
  | zero s =>
    refine literalCase_of_number (by rw [chars, hx]) (by rw [decode, hx]) ?_
    rintro rfl d' - hd'
    exact toFloat_of_toRat_eq_zero (by simpa [Decimal.toRat] using hd') hx
  | finite s m e hm =>
    refine literalCase_of_number (by rw [chars, hx]) (by rw [decode, hx]) ?_
    rintro rfl d' hneg hd'
    exact Decimal.toFloat_of_mem hx hneg (hd' ▸ Decimal.shortest_mem hm e)

end Literals

/-! ## Literals of integers -/

/-- The token that the literal of an integer is. -/
def integerToken (n : Int64) : Token := ⟨.integer, String.ofList (Decimal.integerChars n.toInt)⟩

theorem integerToken_of_nonneg {n : Int64} (h : 0 ≤ n.toInt) :
    tokenize (integerToken n).text = [integerToken n] ∧ (integerToken n).integer? = some n := by
  obtain ⟨k, hk⟩ := Int.eq_ofNat_of_zero_le h
  have htext : (integerToken n).text.toList = Nat.toDigits 10 k := by
    rw [integerToken, String.toList_ofList, hk]
    rfl
  constructor
  · rw [tokenize, htext, Decimal.ofChars_toDigits, ← htext, String.ofList_toList]
    rfl
  · rw [Token.integer?, htext, Decimal.natural?_toDigits, Option.bind_some]
    exact narrow?_eq_some_iff.mpr hk

theorem two_le_totalWeight_of_neg {n : Int64} (h : n.toInt < 0) : 2 ≤ totalWeight (tokenize (integerToken n).text) := by
  obtain ⟨k, hk⟩ := Int.eq_negSucc_of_lt_zero h
  rw [tokenize, integerToken, String.toList_ofList, hk, Decimal.integerChars, totalWeight_minus, Decimal.ofChars_toDigits]
  exact Nat.le_refl 2

end Calculator
