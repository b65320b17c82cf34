import Calculator.Proofs.Scanning

/-!
# Calculator.Proofs.Seams — texts that are put together

Numbers and words go on as long as they can, so a token may reach over the seam of two texts, but only where a
letter, a digit or a point stands on both sides of it. At all other seams the texts are `Apart`, and the tokens of
both together are those of the one followed by those of the other (`ofChars_append`).
-/

namespace Calculator

namespace Token

variable {c : Char} {cs ds us : List Char}

/-- The characters that may continue a number or a word. -/
def isInner (c : Char) : Bool := c.isAlpha || c.isDigit || c == '.'

/-- No token reaches from the text `cs` into the text `ds`. -/
def Apart (cs ds : List Char) : Prop := ∀ c ∈ cs.getLast?, ∀ d ∈ ds.head?, ¬ (isInner c ∧ isInner d)

theorem isInner_of_isDigit (h : c.isDigit = true) : isInner c = true := by simp [isInner, h]

theorem isInner_of_isAlpha (h : c.isAlpha = true) : isInner c = true := by simp [isInner, h]

namespace Apart

theorem of_suffix (h : Apart cs ds) (hus : us <:+ cs) : Apart us ds := by
  obtain ⟨vs, rfl⟩ := hus
  intro c hc
  have hlast : us.getLast? = some c := hc
  exact h c (by simp [List.getLast?_append, hlast])

theorem of_left (h : ∀ c ∈ cs.getLast?, isInner c = false) (ds : List Char) : Apart cs ds := by
  intro c hc d _ hin
  simp [h c hc] at hin

theorem of_right (cs : List Char) (h : ∀ d ∈ ds.head?, isInner d = false) : Apart cs ds := by
  intro c _ d hd hin
  simp [h d hd] at hin

/-- Behind a text that could go on to its end, nothing goes on. -/
theorem head_of_forall (h : Apart (c :: cs) ds) (hin : ∀ x ∈ c :: cs, isInner x = true) :
    ∀ d ∈ ds.head?, isInner d = false := by
  intro d hd
  have hlast : (c :: cs).getLast? = some ((c :: cs).getLast (by simp)) := List.getLast?_eq_some_getLast (by simp)
  have hnot := h _ hlast d hd
  simpa [hin _ (List.getLast_mem _)] using hnot

end Apart

/-- A run of inner characters ends at the seam at the latest. -/
theorem span_append {p : Char → Bool} (hp : ∀ c, p c = true → isInner c = true) (hc : isInner c = true)
    (h : Apart (c :: cs) ds) :
    (cs ++ ds).takeWhile p = cs.takeWhile p ∧ (cs ++ ds).dropWhile p = cs.dropWhile p ++ ds := by
  induction cs generalizing c with
  | nil =>
    have hhead := h.head_of_forall (by simpa using hc)
    cases ds with
    | nil => simp
    | cons d ds =>
      have hd : p d = false := by
        cases hpd : p d with
        | false => rfl
        | true => simp [hp d hpd] at hhead
      simp [hd]
  | cons x cs ih =>
    cases hx : p x with
    | false => simp [hx]
    | true =>
      obtain ⟨htake, hdrop⟩ := ih (hp x hx) (h.of_suffix (List.suffix_cons c _))
      simp [hx, htake, hdrop]

theorem scanNumber_append {digits : List Char} (hnil : cs = [] → ∀ d ∈ ds.head?, isInner d = false)
    (h : Apart cs ds) : scanNumber digits (cs ++ ds) = ((scanNumber digits cs).1, (scanNumber digits cs).2 ++ ds) := by
  cases cs with
  | nil =>
    cases ds with
    | nil => simp [scanNumber]
    | cons d ds =>
      have hd : d ≠ '.' := by
        rintro rfl
        simp [isInner] at hnil
      simp [scanNumber, hd]
  | cons x cs =>
    by_cases hx : x = '.'
    · subst hx
      obtain ⟨htake, hdrop⟩ := span_append (fun _ => isInner_of_isDigit) (by decide) h
      simp [scanNumber, htake, hdrop]
    · simp [scanNumber, hx]

/-- Over a seam the same token is scanned, and the second text is left behind it. -/
theorem scan_append (h : Apart (c :: cs) ds) : scan c (cs ++ ds) = ((scan c cs).1, (scan c cs).2 ++ ds) := by
  unfold scan
  split
  · next hc =>
    obtain ⟨htake, hdrop⟩ := span_append (fun _ => isInner_of_isDigit) (isInner_of_isDigit hc) h
    rw [htake, hdrop]
    refine scanNumber_append ?_ (h.of_suffix ((List.dropWhile_suffix _).trans (List.suffix_cons c cs)))
    intro hnil
    have hall : ∀ x ∈ c :: cs, isInner x = true := by
      intro x hx
      rcases List.mem_cons.mp hx with rfl | hx
      · exact isInner_of_isDigit hc
      · exact isInner_of_isDigit (List.dropWhile_eq_nil_iff.mp hnil x hx)
    exact h.head_of_forall hall
  · split
    · next hw =>
      obtain ⟨htake, hdrop⟩ := span_append (fun _ => isInner_of_isAlpha) (isInner_of_isAlpha (isAlpha_of_opensWord hw)) h
      rw [htake, hdrop]
    · rfl

theorem scan_suffix (c : Char) (cs : List Char) : (scan c cs).2 <:+ cs := by
  unfold scan
  split
  · unfold scanNumber
    split
    · next more hrest =>
      have hmore : more <:+ cs := (List.suffix_cons '.' more).trans (hrest ▸ List.dropWhile_suffix _)
      exact (List.dropWhile_suffix _).trans hmore
    · exact List.dropWhile_suffix _
  · split
    · exact List.dropWhile_suffix _
    · exact List.suffix_refl cs

theorem ofChars_append (h : Apart cs ds) : ofChars (cs ++ ds) = ofChars cs ++ ofChars ds := by
  fun_induction ofChars cs with
  | case1 => rfl
  | case2 c cs hb ih =>
    rw [List.cons_append, ofChars_blank hb]
    exact ih (h.of_suffix (List.suffix_cons c cs))
  | case3 c cs hb ih =>
    have hrest : Apart (scan c cs).2 ds := h.of_suffix ((scan_suffix c cs).trans (List.suffix_cons c cs))
    rw [List.cons_append, ofChars_scan (by simpa using hb), scan_append h, ih hrest, List.cons_append]

end Token

open Token

theorem tokenize_append {a b : String} (h : Apart a.toList b.toList) :
    tokenize (a ++ b) = tokenize a ++ tokenize b := by
  rw [tokenize, String.toList_append]
  exact ofChars_append h

theorem forall_of_any_eq_false {o : Option Char} {p : Char → Bool} (h : o.any p = false) : ∀ c ∈ o, p c = false := by
  rintro c rfl
  exact h

theorem tokenize_append_of_left {a : String} (h : a.toList.getLast?.any isInner = false) (b : String) :
    tokenize (a ++ b) = tokenize a ++ tokenize b :=
  tokenize_append (Apart.of_left (forall_of_any_eq_false h) _)

theorem tokenize_append_of_right (a : String) {b : String} (h : b.toList.head?.any isInner = false) :
    tokenize (a ++ b) = tokenize a ++ tokenize b :=
  tokenize_append (Apart.of_right _ (forall_of_any_eq_false h))

/-- A character that is no part of a number or of a word is a token of its own. -/
theorem tokenize_singleton {c : Char} (hb : isBlank c = false) (hc : isInner c = false) :
    tokenize (String.singleton c) = [⟨symbolKind c, String.singleton c⟩] := by
  obtain ⟨⟨ha, hd⟩, -⟩ : (c.isAlpha = false ∧ c.isDigit = false) ∧ (c == '.') = false := by
    simpa [isInner] using hc
  have hw : opensWord c = false := by simp [opensWord, ha]
  rw [tokenize, String.toList_singleton, ofChars_symbol hb hd hw, ofChars_nil]

/-! ## Parentheses -/

section Parentheses

theorem tokenize_leftParen : tokenize "(" = [⟨.leftParen, "("⟩] :=
  tokenize_singleton (c := '(') (by decide) (by decide)

theorem tokenize_rightParen : tokenize ")" = [⟨.rightParen, ")"⟩] :=
  tokenize_singleton (c := ')') (by decide) (by decide)

theorem tokenize_parenthesized (s : String) :
    tokenize ("(" ++ s ++ ")") = ⟨.leftParen, "("⟩ :: (tokenize s ++ [⟨.rightParen, ")"⟩]) := by
  rw [tokenize_append_of_right _ (by decide), tokenize_append_of_left (by decide), tokenize_leftParen,
    tokenize_rightParen, List.singleton_append, List.cons_append]

/-- Nothing runs into a source in parentheses from the left. -/
theorem tokenize_append_parenthesized (a s : String) :
    tokenize (a ++ ("(" ++ s ++ ")")) = tokenize a ++ tokenize ("(" ++ s ++ ")") := by
  have hhead : ("(" ++ s ++ ")").toList.head? = some '(' := by simp [String.toList_append]
  exact tokenize_append_of_right a (by rw [hhead]; decide)

/-- A source in parentheses runs into nothing on its right. -/
theorem tokenize_parenthesized_append (s b : String) :
    tokenize ("(" ++ s ++ ")" ++ b) = tokenize ("(" ++ s ++ ")") ++ tokenize b := by
  have hlast : ("(" ++ s ++ ")").toList.getLast? = some ')' := by
    rw [String.toList_append, List.getLast?_append]
    rfl
  exact tokenize_append_of_left (by rw [hlast]; decide) b

end Parentheses

end Calculator
