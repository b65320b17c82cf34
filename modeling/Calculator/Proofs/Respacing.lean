import Calculator.Proofs.LongestMatch
import Calculator.Proofs.Composition

/-!
# Calculator.Proofs.Respacing — blanks between tokens do not matter

A place in a source lies between two tokens if the characters in front of it are those of the first tokens
(`BetweenTokens`). There the source can be cut: both parts give their own tokens (`ofChars_cut`), since a munched token
stays the same when the text behind it ends earlier. Blanks put into such a place are a seam that no token reaches
over, so the tokens stay what they are.

A source whose tokens are all set apart by blanks (`respaced`) therefore has the tokens of the source itself, and
with them its diagnostics, its expressions and its value.
-/

namespace Calculator

namespace Token

variable {t : Token} {ts us vs : List Token} {cs ds ws after : List Char}

theorem ofChars_append_blanks (hws : ∀ c ∈ ws, isBlank c = true) (cs : List Char) :
    ofChars (ws ++ cs) = ofChars cs := by
  induction ws with
  | nil => rfl
  | cons c ws ih =>
    rw [List.cons_append, ofChars_blank (hws c (by simp))]
    exact ih fun c hc => hws c (by simp [hc])

theorem isInner_of_isBlank {c : Char} (hb : isBlank c = true) : isInner c = false := by
  cases hc : isInner c with
  | false => rfl
  | true =>
    simp only [isInner, Bool.or_eq_true, beq_iff_eq] at hc
    rcases hc with (hc | hc) | rfl
    · simp [isBlank_of_isAlpha hc] at hb
    · simp [isBlank_of_isDigit hc] at hb
    · simp [isBlank] at hb

/-- No token reaches over blanks. -/
theorem ofChars_blanks_between (hne : ws ≠ []) (hws : ∀ c ∈ ws, isBlank c = true) (cs ds : List Char) :
    ofChars (cs ++ (ws ++ ds)) = ofChars cs ++ ofChars ds := by
  have happart : Apart cs (ws ++ ds) := by
    apply Apart.of_right
    obtain ⟨c, ws, rfl⟩ := List.exists_cons_of_ne_nil hne
    intro d hd
    obtain rfl := Option.some.inj hd
    exact isInner_of_isBlank (hws _ (by simp))
  rw [ofChars_append happart, ofChars_append_blanks hws]

theorem eq_nil_of_texts (h : ofChars cs = us ++ vs) (hus : texts us = []) : us = [] := by
  cases us with
  | nil => rfl
  | cons t us =>
    have hmem : t ∈ ofChars cs := by simp [h]
    obtain ⟨after, ht⟩ := exists_munched_of_mem hmem
    rw [texts_cons] at hus
    exact absurd (List.append_eq_nil_iff.mp hus).1 ht.kind.ne_nil

/-- A text can be cut between two of its tokens. -/
theorem ofChars_cut (h : ofChars (cs ++ ds) = us ++ vs) (hcs : visible cs = texts us) :
    ofChars cs = us ∧ ofChars ds = vs := by
  generalize htext : cs ++ ds = text at h
  fun_induction ofChars text generalizing cs us with
  | case1 =>
    obtain ⟨rfl, rfl⟩ := List.append_eq_nil_iff.mp htext
    obtain ⟨rfl, rfl⟩ := List.append_eq_nil_iff.mp h.symm
    exact ⟨ofChars_nil, ofChars_nil⟩
  | case2 c rest hb ih =>
    cases cs with
    | nil =>
      obtain rfl : ds = c :: rest := htext
      obtain rfl := eq_nil_of_texts h hcs.symm
      refine ⟨ofChars_nil, ?_⟩
      rw [ofChars_blank hb]
      exact h
    | cons x cs =>
      obtain ⟨rfl, rfl⟩ := List.cons.inj htext
      rw [visible_blank hb] at hcs
      obtain ⟨hus, hvs⟩ := ih hcs rfl h
      exact ⟨by rw [ofChars_blank hb, hus], hvs⟩
  | case3 c rest hb ih =>
    rw [Bool.not_eq_true] at hb
    obtain ⟨hscan, happend⟩ := munched_scan hb rest
    cases cs with
    | nil =>
      obtain rfl : ds = c :: rest := htext
      rw [← ofChars_scan hb] at h
      obtain rfl := eq_nil_of_texts h hcs.symm
      exact ⟨ofChars_nil, h⟩
    | cons x cs =>
      obtain ⟨rfl, -⟩ := List.cons.inj htext
      cases us with
      | nil => simp [visible_eq_nil_iff.mp hcs x (by simp)] at hb
      | cons t us =>
        obtain ⟨rfl, hrest⟩ := List.cons.inj h
        rw [texts_cons] at hcs
        -- the first part holds the whole token that stands at its beginning
        obtain ⟨cs', hcs', hvisible⟩ := exists_append_of_visible hscan ⟨ds, by rw [htext, happend]⟩ hcs
        rw [hcs', List.append_assoc, ← happend] at htext
        have hleft := List.append_cancel_left htext
        obtain ⟨hus, hvs⟩ := ih hvisible hleft hrest
        refine ⟨?_, hvs⟩
        rw [hcs', ofChars_of_munched (hscan.of_prefix ⟨ds, hleft⟩), hus]

/-- A token is the token of its own text. -/
theorem Munched.ofChars_text (h : t.Munched after) : ofChars t.text.toList = [t] := by
  have halone := ofChars_of_munched (h.of_prefix List.nil_prefix)
  rw [List.append_nil, ofChars_nil] at halone
  exact halone

end Token

open Token

/-! ## Sources -/

section Sources

variable {a b s w : String} {ts us vs : List Token}

/-- The place between the two parts of `a ++ b` lies between two of its tokens: the characters in front of it are
those of the first tokens. -/
def BetweenTokens (a b : String) : Prop :=
  ∃ us vs, tokenize (a ++ b) = us ++ vs ∧ visible a.toList = texts us

/-- The tokens of a source, set apart by single spaces. -/
def respaced (s : String) : String := " ".intercalate ((tokenize s).map Token.text)

theorem BetweenTokens.tokenize_append (h : BetweenTokens a b) : tokenize (a ++ b) = tokenize a ++ tokenize b := by
  obtain ⟨us, vs, hts, ha⟩ := h
  have hchars : ofChars (a.toList ++ b.toList) = us ++ vs := by
    rw [← String.toList_append]
    exact hts
  obtain ⟨hus, hvs⟩ := ofChars_cut hchars ha
  rw [hts, tokenize, tokenize, hus, hvs]

/-- Between any tokens of a source there is such a place. -/
theorem exists_betweenTokens (h : tokenize s = us ++ vs) :
    ∃ a b, s = a ++ b ∧ BetweenTokens a b ∧ tokenize a = us ∧ tokenize b = vs := by
  have hmatches : LongestMatches s.toList (us ++ vs) := longestMatches_iff.mpr h
  obtain ⟨cs, ds, hs, hcs⟩ : ∃ cs ds, s.toList = cs ++ ds ∧ visible cs = texts us := by
    cases vs with
    | nil => exact ⟨s.toList, [], by simp, by rw [← hmatches.lossless, List.append_nil]⟩
    | cons t vs =>
      obtain ⟨before, after, hs, hbefore, -⟩ := hmatches.munched us t vs rfl
      exact ⟨before, _, hs, hbefore⟩
  have hsplit : s = String.ofList cs ++ String.ofList ds := by
    rw [← String.ofList_append, ← hs, String.ofList_toList]
  have hchars : ofChars (cs ++ ds) = us ++ vs := by
    rw [← hs]
    exact h
  obtain ⟨hus, hvs⟩ := ofChars_cut hchars hcs
  refine ⟨String.ofList cs, String.ofList ds, hsplit, ⟨us, vs, ?_, ?_⟩, ?_, ?_⟩
  · rw [← hsplit, h]
  · rw [String.toList_ofList, hcs]
  · rw [tokenize, String.toList_ofList, hus]
  · rw [tokenize, String.toList_ofList, hvs]

theorem tokenize_blanks_between (hne : w ≠ "") (hw : ∀ c ∈ w.toList, isBlank c = true) (a b : String) :
    tokenize (a ++ w ++ b) = tokenize a ++ tokenize b := by
  have hnil : w.toList ≠ [] := by
    intro hnil
    exact hne (String.toList_eq_nil_iff.mp hnil)
  rw [tokenize, String.toList_append, String.toList_append, List.append_assoc]
  exact ofChars_blanks_between hnil hw a.toList b.toList

theorem tokenize_intercalate_space (h : ∀ t ∈ ts, tokenize t.text = [t]) :
    tokenize (" ".intercalate (ts.map Token.text)) = ts := by
  induction ts with
  | nil => cbv
  | cons t ts ih =>
    have hrest := ih fun u hu => h u (by simp [hu])
    have ht := h t (by simp)
    cases ts with
    | nil => simpa using ht
    | cons u us =>
      have hspace : ∀ c ∈ " ".toList, isBlank c = true := by simp [isBlank]
      rw [List.map_cons, List.map_cons, String.intercalate_cons_cons, tokenize_blanks_between (by simp) hspace, ht,
        ← List.map_cons, hrest, List.singleton_append]

theorem tokenize_text_of_mem {t : Token} (h : t ∈ tokenize s) : tokenize t.text = [t] := by
  obtain ⟨after, ht⟩ := exists_munched_of_mem h
  exact ht.ofChars_text

theorem parse_congr {s s' : String} (h : tokenize s = tokenize s') : parse s = parse s' := by
  rw [parse_eq, parse_eq, h]

theorem calculate_congr {s s' : String} (h : tokenize s = tokenize s') : calculate s = calculate s' := by
  rw [calculate, calculate, parse_congr h]

end Sources

/-! ## Main result -/

/-- **Seams and blanks.** The tokens of two texts put together are those of the one and those of the other, unless a
letter, a digit or a point stands on both sides of the seam. Blanks between two tokens change nothing, and a source
has the tokens, the reading and the value of its tokens set apart by spaces. -/
theorem tokens_of_seams :
    (∀ a b : String, Apart a.toList b.toList → tokenize (a ++ b) = tokenize a ++ tokenize b) ∧
      (∀ s us vs, tokenize s = us ++ vs →
        ∃ a b, s = a ++ b ∧ BetweenTokens a b ∧ tokenize a = us ∧ tokenize b = vs) ∧
      (∀ a b w : String, BetweenTokens a b → (∀ c ∈ w.toList, isBlank c = true) →
        tokenize (a ++ w ++ b) = tokenize (a ++ b)) ∧
      ∀ s : String, tokenize (respaced s) = tokenize s ∧ parse (respaced s) = parse s ∧
        calculate (respaced s) = calculate s := by
  refine ⟨fun a b => tokenize_append, fun s us vs => exists_betweenTokens, ?_, ?_⟩
  · intro a b w hab hw
    by_cases hne : w = ""
    · rw [hne, String.append_empty]
    · rw [tokenize_blanks_between hne hw, hab.tokenize_append]
  · intro s
    have hsame : tokenize (respaced s) = tokenize s :=
      tokenize_intercalate_space fun t => tokenize_text_of_mem
    exact ⟨hsame, parse_congr hsame, calculate_congr hsame⟩

/-- A space and a tab between a name and its argument. -/
theorem tokens_of_spaced_call :
    Apart "sin".toList "(30)".toList ∧ BetweenTokens "sin" "(30)" ∧
      tokenize "sin \t(30)" = [⟨.procedure, "sin"⟩, ⟨.leftParen, "("⟩, ⟨.integer, "30"⟩, ⟨.rightParen, ")"⟩] := by
  have happart : Apart "sin".toList "(30)".toList := Apart.of_right _ (by simp [isInner])
  have htokens : tokenize "sin" ++ tokenize "(30)" =
      [⟨.procedure, "sin"⟩, ⟨.leftParen, "("⟩, ⟨.integer, "30"⟩, ⟨.rightParen, ")"⟩] := by cbv
  have hseam := tokens_of_seams.1 "sin" "(30)" happart
  have hbetween : BetweenTokens "sin" "(30)" := ⟨tokenize "sin", tokenize "(30)", hseam, by cbv⟩
  have hblanks := tokens_of_seams.2.2.1 "sin" "(30)" " \t" hbetween (by simp [isBlank])
  refine ⟨happart, hbetween, ?_⟩
  rw [← htokens, ← hseam, ← hblanks]
  rfl

end Calculator
