import Calculator.Proofs.Scanning

/-!
# Calculator.Proofs.Shapes — what makes a text a token

Four shapes make a text a token: digits, digits with a point, symbols, and words. `Token.Shape` lists them with the
kinds that they give. A character that starts no shape is a token by itself, and it means nothing (`Token.HasKind`).
Symbols, blanks, names of procedures and the letters that open a word are listed here one by one; that the scanner goes
by the same lists is proved (`mem_blanks_iff`, `mem_firstLetters_iff`, `wordKind_of_mem_names`).

A token is `Munched` out of a text if no shape reaches beyond it. At each place there is only one such token
(`Munched.unique`), and `scan` finds it (`munched_scan`).
-/

namespace Calculator

namespace Token

/-! ## Shapes -/

/-- The characters that are tokens, with the kinds of these tokens. -/
def symbols : List (Char × TokenKind) :=
  [('+', .plus), ('-', .minus), ('*', .asterisk), ('/', .slash), ('(', .leftParen), (')', .rightParen),
    ('!', .factorial), ('^', .power), ('E', .exponent), ('e', .euler), ('√', .procedure)]

/-- The characters that separate tokens and belong to none. -/
def blanks : List Char := [' ', '\t', '\r', '\n', '\x0c']

/-- The words that name procedures. -/
def names : List String := ["log", "ln", "sin", "cos", "tan", "arcsin", "arccos", "arctan"]

/-- The letters that open a word. The letters `e` and `E` stand for themselves. -/
def firstLetters : List Char :=
  ['a', 'b', 'c', 'd', 'f', 'g', 'h', 'i', 'j', 'k', 'l', 'm', 'n', 'o', 'p', 'q', 'r', 's', 't', 'u', 'v', 'w', 'x',
    'y', 'z', 'A', 'B', 'C', 'D', 'F', 'G', 'H', 'I', 'J', 'K', 'L', 'M', 'N', 'O', 'P', 'Q', 'R', 'S', 'T', 'U', 'V',
    'W', 'X', 'Y', 'Z']

/-- The shapes of numbers, symbols and words, with the kinds that they give. -/
inductive Shape : List Char → TokenKind → Prop where
  | integer {ds : List Char} : ds ≠ [] → ds.all Char.isDigit → Shape ds .integer
  | float {ds fs : List Char} : ds ≠ [] → ds.all Char.isDigit → fs.all Char.isDigit →
      Shape (ds ++ '.' :: fs) .float
  | symbol {c : Char} {k : TokenKind} : (c, k) ∈ symbols → Shape [c] k
  | name {cs : List Char} : String.ofList cs ∈ names → Shape cs .procedure
  | unknown {c : Char} {cs : List Char} : c ∈ firstLetters → cs.all Char.isAlpha →
      String.ofList (c :: cs) ∉ names → Shape (c :: cs) .illegal

def Shaped (cs : List Char) : Prop := ∃ k, Shape cs k

/-- The kind of a text: that of its shape. A single character of no shape means nothing. -/
inductive HasKind : List Char → TokenKind → Prop where
  | shape {cs : List Char} {k : TokenKind} : Shape cs k → HasKind cs k
  | illegal {c : Char} : c ∉ blanks → ¬ Shaped [c] → HasKind [c] .illegal

/-- The token has the kind of its text, and no shape reaches from its place into the text `after` behind it. -/
structure Munched (t : Token) (after : List Char) : Prop where
  kind : HasKind t.text.toList t.kind
  longest : ∀ us, us <+: after → us ≠ [] → ¬ Shaped (t.text.toList ++ us)

section Lists

variable {c : Char} {cs : List Char}

theorem mem_blanks_iff : c ∈ blanks ↔ isBlank c = true := by simp [blanks, isBlank, or_assoc]

theorem notMem_blanks_iff : c ∉ blanks ↔ isBlank c = false := by rw [mem_blanks_iff, Bool.not_eq_true]

theorem toNat_lt_of_isAlpha (h : c.isAlpha = true) : c.toNat < 128 := by
  simp only [Char.isAlpha, Char.isUpper, Char.isLower, Bool.or_eq_true, Bool.and_eq_true, decide_eq_true_eq, ge_iff_le,
    UInt32.le_iff_toNat_le] at h
  have hupper : 'Z'.val.toNat = 90 := rfl
  have hlower : 'z'.val.toNat = 122 := rfl
  have hc : c.toNat = c.val.toNat := rfl
  omega

theorem mem_firstLetters_iff : c ∈ firstLetters ↔ opensWord c = true := by
  constructor
  · have hall : firstLetters.all opensWord = true := rfl
    exact List.all_eq_true.mp hall c
  · intro h
    have hall : ∀ n < 128, opensWord (Char.ofNat n) = true → Char.ofNat n ∈ firstLetters := by decide +kernel
    have hascii : c.toNat < 128 := toNat_lt_of_isAlpha (isAlpha_of_opensWord h)
    have hc := hall c.toNat hascii
    rw [Char.ofNat_toNat] at hc
    exact hc h

/-- A name is a word. -/
theorem opensWord_of_mem_names (h : String.ofList (c :: cs) ∈ names) : opensWord c = true ∧ cs.all Char.isAlpha = true := by
  have hall : ∀ w ∈ names, ∀ x ∈ w.toList.head?, opensWord x = true ∧ w.toList.tail.all Char.isAlpha = true := by
    simp [names, opensWord]
  have hw := hall _ h
  rw [String.toList_ofList] at hw
  exact hw c rfl

theorem isAlpha_of_mem_names (h : String.ofList cs ∈ names) : ∀ x ∈ cs, x.isAlpha = true := by
  intro x hx
  cases cs with
  | nil => cases hx
  | cons c cs =>
    obtain ⟨hc, hcs⟩ := opensWord_of_mem_names h
    rcases List.mem_cons.mp hx with rfl | hx
    · exact isAlpha_of_opensWord hc
    · exact List.all_eq_true.mp hcs x hx

theorem wordKind_of_mem_names {w : String} (h : w ∈ names) : wordKind w = .procedure := if_pos h

theorem wordKind_of_notMem_names {w : String} (h : w ∉ names) : wordKind w = .illegal := if_neg h

end Lists

section Shapes

variable {c : Char} {cs ds fs : List Char} {k : TokenKind}

/-- A word has the kind that the scanner gives it. -/
theorem Shape.word (hc : opensWord c = true) (hcs : cs.all Char.isAlpha) :
    Shape (c :: cs) (wordKind (String.ofList (c :: cs))) := by
  by_cases h : String.ofList (c :: cs) ∈ names
  · rw [wordKind_of_mem_names h]
    exact .name h
  · rw [wordKind_of_notMem_names h]
    exact .unknown (mem_firstLetters_iff.mpr hc) hcs h

theorem of_mem_symbols (h : (c, k) ∈ symbols) :
    symbolKind c = k ∧ c.isDigit = false ∧ opensWord c = false ∧ isBlank c = false := by
  have hall : ∀ p ∈ symbols,
      symbolKind p.1 = p.2 ∧ p.1.isDigit = false ∧ opensWord p.1 = false ∧ isBlank p.1 = false := by decide
  exact hall _ h

theorem mem_symbols_or_illegal (c : Char) : (c, symbolKind c) ∈ symbols ∨ symbolKind c = .illegal := by
  unfold symbolKind
  split <;> simp [symbols]

theorem Shape.ne_nil (h : Shape cs k) : cs ≠ [] := by
  cases h with
  | integer hne _ => exact hne
  | float | symbol | unknown => simp
  | name hmem =>
    rintro rfl
    exact absurd hmem (by decide)

theorem Shape.not_blank (h : Shape cs k) : ∀ x ∈ cs, isBlank x = false := by
  intro x hx
  cases h with
  | integer _ hds => exact isBlank_of_isDigit (List.all_eq_true.mp hds x hx)
  | float _ hds hfs =>
    rcases List.mem_append.mp hx with hx | hx
    · exact isBlank_of_isDigit (List.all_eq_true.mp hds x hx)
    · rcases List.mem_cons.mp hx with rfl | hx
      · decide
      · exact isBlank_of_isDigit (List.all_eq_true.mp hfs x hx)
  | symbol hmem =>
    obtain rfl := List.mem_singleton.mp hx
    exact (of_mem_symbols hmem).2.2.2
  | name hmem => exact isBlank_of_isAlpha (isAlpha_of_mem_names hmem x hx)
  | unknown hc hcs =>
    rcases List.mem_cons.mp hx with rfl | hx
    · exact isBlank_of_isAlpha (isAlpha_of_opensWord (mem_firstLetters_iff.mp hc))
    · exact isBlank_of_isAlpha (List.all_eq_true.mp hcs x hx)

/-- The first character of a text tells which shapes it may have. -/
theorem Shape.head_cases (h : Shape (c :: cs) k) :
    (c.isDigit ∧ cs.all Char.isDigit ∧ k = .integer) ∨
    (c.isDigit ∧ ∃ ds fs, cs = ds ++ '.' :: fs ∧ ds.all Char.isDigit ∧ fs.all Char.isDigit ∧ k = .float) ∨
    ((c, k) ∈ symbols ∧ cs = []) ∨
    (opensWord c ∧ cs.all Char.isAlpha ∧ k = wordKind (String.ofList (c :: cs))) := by
  generalize htext : c :: cs = text at h
  cases h with
  | integer _ hds =>
    subst htext
    simp only [List.all_cons, Bool.and_eq_true] at hds
    exact Or.inl ⟨hds.1, hds.2, rfl⟩
  | @float ds fs hne hds hfs =>
    obtain ⟨d, ds, rfl⟩ := List.exists_cons_of_ne_nil hne
    obtain ⟨rfl, rfl⟩ := List.cons.inj htext
    simp only [List.all_cons, Bool.and_eq_true] at hds
    exact Or.inr (Or.inl ⟨hds.1, ds, fs, rfl, hds.2, hfs, rfl⟩)
  | symbol hmem =>
    obtain ⟨rfl, rfl⟩ := List.cons.inj htext
    exact Or.inr (Or.inr (Or.inl ⟨hmem, rfl⟩))
  | name hmem =>
    subst htext
    obtain ⟨hc, hcs⟩ := opensWord_of_mem_names hmem
    exact Or.inr (Or.inr (Or.inr ⟨hc, hcs, (wordKind_of_mem_names hmem).symm⟩))
  | unknown hc hcs hnot =>
    obtain ⟨rfl, rfl⟩ := List.cons.inj htext
    exact Or.inr (Or.inr (Or.inr ⟨mem_firstLetters_iff.mp hc, hcs, (wordKind_of_notMem_names hnot).symm⟩))

theorem isDigit_of_opensWord (h : opensWord c = true) : c.isDigit = false := by
  cases hd : c.isDigit with
  | false => rfl
  | true =>
    have halpha := isAlpha_of_opensWord h
    simp [isAlpha_of_isDigit hd] at halpha

theorem Shape.of_digit (hc : c.isDigit = true) (h : Shape (c :: cs) k) :
    (cs.all Char.isDigit ∧ k = .integer) ∨
      ∃ ds fs, cs = ds ++ '.' :: fs ∧ ds.all Char.isDigit ∧ fs.all Char.isDigit ∧ k = .float := by
  rcases h.head_cases with ⟨-, h⟩ | ⟨-, h⟩ | ⟨h, -⟩ | ⟨h, -⟩
  · exact Or.inl h
  · exact Or.inr h
  · simp [(of_mem_symbols h).2.1] at hc
  · simp [isDigit_of_opensWord h] at hc

theorem Shape.of_opensWord (hc : opensWord c = true) (h : Shape (c :: cs) k) :
    cs.all Char.isAlpha ∧ k = wordKind (String.ofList (c :: cs)) := by
  rcases h.head_cases with ⟨h, -⟩ | ⟨h, -⟩ | ⟨h, -⟩ | ⟨-, h⟩
  · simp [isDigit_of_opensWord hc] at h
  · simp [isDigit_of_opensWord hc] at h
  · simp [(of_mem_symbols h).2.2.1] at hc
  · exact h

/-- Only a symbol starts with a character that opens no number and no word. -/
theorem Shape.of_other (hd : c.isDigit = false) (hw : opensWord c = false) (h : Shape (c :: cs) k) :
    (c, k) ∈ symbols ∧ cs = [] := by
  rcases h.head_cases with ⟨h, -⟩ | ⟨h, -⟩ | h | ⟨h, -⟩
  · simp [hd] at h
  · simp [hd] at h
  · exact h
  · simp [hw] at h

theorem Shape.unique {k' : TokenKind} (h : Shape cs k) (h' : Shape cs k') : k = k' := by
  obtain ⟨c, cs, rfl⟩ := List.exists_cons_of_ne_nil h.ne_nil
  by_cases hd : c.isDigit = true
  · rcases h.of_digit hd with ⟨hall, rfl⟩ | ⟨ds, fs, rfl, -, -, rfl⟩
    · rcases h'.of_digit hd with ⟨-, rfl⟩ | ⟨ds, fs, rfl, -⟩
      · rfl
      · simp at hall
    · rcases h'.of_digit hd with ⟨hall, -⟩ | ⟨ds', fs', -, -, -, rfl⟩
      · simp at hall
      · rfl
  · by_cases hw : opensWord c = true
    · rw [(h.of_opensWord hw).2, (h'.of_opensWord hw).2]
    · rw [Bool.not_eq_true] at hd hw
      rw [← (of_mem_symbols (h.of_other hd hw).1).1, (of_mem_symbols (h'.of_other hd hw).1).1]

theorem HasKind.unique {k' : TokenKind} (h : HasKind cs k) (h' : HasKind cs k') : k = k' := by
  cases h with
  | shape h =>
    cases h' with
    | shape h' => exact h.unique h'
    | illegal _ hnone => exact absurd ⟨k, h⟩ hnone
  | illegal _ hnone =>
    cases h' with
    | shape h' => exact absurd ⟨k', h'⟩ hnone
    | illegal => rfl

theorem HasKind.ne_nil (h : HasKind cs k) : cs ≠ [] := by
  cases h with
  | shape h => exact h.ne_nil
  | illegal => simp

theorem HasKind.not_blank (h : HasKind cs k) : ∀ x ∈ cs, isBlank x = false := by
  cases h with
  | shape h => exact h.not_blank
  | illegal hb _ => simpa using notMem_blanks_iff.mp hb

theorem HasKind.shaped_or_length (h : HasKind cs k) : Shaped cs ∨ cs.length = 1 := by
  cases h with
  | shape h => exact Or.inl ⟨k, h⟩
  | illegal => exact Or.inr rfl

end Shapes

/-! ## One token -/

section One

variable {t u : Token} {c : Char} {cs ds fs us rest after : List Char}

/-- The character behind the token tells whether a shape reaches beyond it. -/
theorem Munched.of_head (hk : HasKind t.text.toList t.kind)
    (h : ∀ x ∈ rest.head?, ∀ us, ¬ Shaped (t.text.toList ++ x :: us)) : t.Munched rest := by
  refine ⟨hk, ?_⟩
  rintro us ⟨vs, rfl⟩ hne
  obtain ⟨x, us, rfl⟩ := List.exists_cons_of_ne_nil hne
  exact h x rfl us

/-- A token is munched also where the text behind it ends earlier. -/
theorem Munched.of_prefix (h : t.Munched rest) (hafter : after <+: rest) : t.Munched after :=
  ⟨h.kind, fun us hus => h.longest us (hus.trans hafter)⟩

theorem Munched.eq_nil_of_text (h : t.Munched (us ++ rest)) (hu : u.Munched rest)
    (htext : u.text.toList = t.text.toList ++ us) : us = [] := by
  by_contra hne
  have hnone := h.longest us (List.prefix_append us rest) hne
  rw [← htext] at hnone
  rcases hu.kind.shaped_or_length with hshaped | hlen
  · exact hnone hshaped
  · -- a single character cannot be put together from two texts that are not empty
    rw [htext, List.length_append] at hlen
    have htpos := List.length_pos_iff.mpr h.kind.ne_nil
    have hupos := List.length_pos_iff.mpr hne
    omega

theorem Munched.unique (ht : t.Munched rest) (hu : u.Munched after)
    (h : t.text.toList ++ rest = u.text.toList ++ after) : t = u ∧ rest = after := by
  have htext : t.text.toList = u.text.toList ∧ rest = after := by
    rcases List.append_eq_append_iff.mp h with ⟨us, hus, rfl⟩ | ⟨us, hus, rfl⟩
    · obtain rfl := ht.eq_nil_of_text hu hus
      exact ⟨by simpa using hus.symm, rfl⟩
    · obtain rfl := hu.eq_nil_of_text ht hus
      exact ⟨by simpa using hus, rfl⟩
  have hkind := ht.kind
  rw [htext.1] at hkind
  exact ⟨Token.ext (hkind.unique hu.kind) (String.toList_inj.mp htext.1), htext.2⟩

theorem munched_digits (hc : c.isDigit = true) (hds : ds.all Char.isDigit)
    (hrest : ∀ x ∈ rest.head?, x.isDigit = false ∧ x ≠ '.') : Munched ⟨.integer, String.ofList (c :: ds)⟩ rest := by
  refine .of_head (.shape ?_) ?_
  · rw [String.toList_ofList]
    exact .integer (by simp) (by simp [hc, hds])
  · rintro x hx us ⟨k, h⟩
    obtain ⟨hdigit, hpoint⟩ := hrest x hx
    rw [String.toList_ofList] at h
    rcases h.of_digit hc with ⟨hall, -⟩ | ⟨ds', fs', hsplit, hds', hfs', -⟩
    · simp [hdigit] at hall
    · have hmem : x ∈ ds' ++ '.' :: fs' := by
        rw [← hsplit]
        simp
      rcases List.mem_append.mp hmem with hmem | hmem
      · simp [List.all_eq_true.mp hds' x hmem] at hdigit
      · rcases List.mem_cons.mp hmem with rfl | hmem
        · exact hpoint rfl
        · simp [List.all_eq_true.mp hfs' x hmem] at hdigit

theorem munched_point (hc : c.isDigit = true) (hds : ds.all Char.isDigit) (hfs : fs.all Char.isDigit)
    (hrest : ∀ x ∈ rest.head?, x.isDigit = false) :
    Munched ⟨.float, String.ofList (c :: ds ++ '.' :: fs)⟩ rest := by
  refine .of_head (.shape ?_) ?_
  · rw [String.toList_ofList]
    exact .float (by simp) (by simp [hc, hds]) hfs
  · rintro x hx us ⟨k, h⟩
    have hdigit := hrest x hx
    rw [String.toList_ofList, List.cons_append, List.cons_append, List.append_assoc, List.cons_append] at h
    rcases h.of_digit hc with ⟨hall, -⟩ | ⟨ds', fs', hsplit, hds', hfs', -⟩
    · simp at hall
    · -- both texts have their first point at the same place
      have hpoint (gs : List Char) : ∀ y ∈ ('.' :: gs).head?, y.isDigit = false := by simp
      have hdrop := (span_digits hds (hpoint (fs ++ x :: us))).2
      rw [hsplit, (span_digits hds' (hpoint fs')).2] at hdrop
      obtain ⟨-, rfl⟩ := List.cons.inj hdrop
      simp [hdigit] at hfs'

theorem munched_word (hc : opensWord c = true) (hcs : cs.all Char.isAlpha)
    (hrest : ∀ x ∈ rest.head?, x.isAlpha = false) :
    Munched ⟨wordKind (String.ofList (c :: cs)), String.ofList (c :: cs)⟩ rest := by
  refine .of_head (.shape ?_) ?_
  · rw [String.toList_ofList]
    exact .word hc hcs
  · rintro x hx us ⟨k, h⟩
    rw [String.toList_ofList] at h
    have hall := (h.of_opensWord hc).1
    simp [hrest x hx] at hall

theorem munched_symbol (hb : isBlank c = false) (hd : c.isDigit = false) (hw : opensWord c = false)
    (rest : List Char) : Munched ⟨symbolKind c, String.singleton c⟩ rest := by
  refine .of_head ?_ ?_
  · rw [String.toList_singleton]
    by_cases hshaped : Shaped [c]
    · obtain ⟨k, h⟩ := hshaped
      rw [(of_mem_symbols (h.of_other hd hw).1).1]
      exact .shape h
    · rcases mem_symbols_or_illegal c with hmem | hillegal
      · exact absurd ⟨_, .symbol hmem⟩ hshaped
      · rw [hillegal]
        exact .illegal (notMem_blanks_iff.mpr hb) hshaped
  · rintro x hx us ⟨k, h⟩
    rw [String.toList_singleton] at h
    exact absurd (h.of_other hd hw).2 (by simp)

theorem forall_head?_dropWhile (p : Char → Bool) (cs : List Char) : ∀ x ∈ (cs.dropWhile p).head?, p x = false := by
  intro x hx
  have hnot := List.head?_dropWhile_not p cs
  rw [hx] at hnot
  exact hnot

theorem munched_scanNumber (hc : c.isDigit = true) (hds : ds.all Char.isDigit)
    (hrest : ∀ x ∈ rest.head?, x.isDigit = false) :
    (scanNumber (c :: ds) rest).1.Munched (scanNumber (c :: ds) rest).2 ∧
      (scanNumber (c :: ds) rest).1.text.toList ++ (scanNumber (c :: ds) rest).2 = c :: (ds ++ rest) := by
  unfold scanNumber
  split
  · next more =>
    refine ⟨munched_point hc hds (all_takeWhile _ _) (forall_head?_dropWhile _ _), ?_⟩
    simp [String.toList_ofList]
  · next hpoint =>
    refine ⟨munched_digits hc hds fun x hx => ⟨hrest x hx, ?_⟩, by simp [String.toList_ofList]⟩
    rintro rfl
    obtain ⟨more, rfl⟩ := List.head?_eq_some_iff.mp hx
    exact hpoint more rfl

/-- The token that is scanned is munched out of the text, and nothing between it and the rest is lost. -/
theorem munched_scan (hb : isBlank c = false) (rest : List Char) :
    (scan c rest).1.Munched (scan c rest).2 ∧ (scan c rest).1.text.toList ++ (scan c rest).2 = c :: rest := by
  unfold scan
  split
  · next hd =>
    have hnumber := munched_scanNumber hd (all_takeWhile Char.isDigit rest) (forall_head?_dropWhile _ rest)
    rw [List.takeWhile_append_dropWhile] at hnumber
    exact hnumber
  · next hd =>
    split
    · next hw =>
      refine ⟨munched_word hw (all_takeWhile _ _) (forall_head?_dropWhile _ _), ?_⟩
      simp [String.toList_ofList]
    · next hw =>
      rw [Bool.not_eq_true] at hd hw
      exact ⟨munched_symbol hb hd hw rest, by simp⟩

theorem ofChars_of_munched (h : t.Munched after) : ofChars (t.text.toList ++ after) = t :: ofChars after := by
  obtain ⟨c, cs, htext⟩ := List.exists_cons_of_ne_nil h.kind.ne_nil
  have hb : isBlank c = false := h.kind.not_blank c (by simp [htext])
  obtain ⟨hscan, happend⟩ := munched_scan hb (cs ++ after)
  have hsame : t.text.toList ++ after = (scan c (cs ++ after)).1.text.toList ++ (scan c (cs ++ after)).2 := by
    rw [happend, htext, List.cons_append]
  obtain ⟨ht, hafter⟩ := h.unique hscan hsame
  rw [htext, List.cons_append, ofChars_scan hb, ← ht, ← hafter]

end One

end Token

end Calculator
