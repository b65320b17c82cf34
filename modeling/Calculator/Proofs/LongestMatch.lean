import Calculator.Proofs.Shapes

/-!
# Calculator.Proofs.LongestMatch — tokens are longest matches, and nothing is lost

Three conditions determine the tokens of a text, and `LongestMatches` collects them: the texts of the tokens are the
visible characters in order, each token stands in the text behind the tokens before it, and each is munched there.
A blank in front of a text changes nothing (`blank_iff`), and a munched token is the first one (`cons_iff`), so the
conditions are followed through the text in the way in which the tokens are scanned.
-/

namespace Calculator

namespace Token

/-- The characters of a text that are no blanks. -/
def visible (cs : List Char) : List Char := cs.filter fun c => c ∉ blanks

/-- The texts of tokens, one behind the other. -/
def texts (ts : List Token) : List Char := ts.flatMap fun t => t.text.toList

/-- The tokens are longest matches in the text, one behind the other, and only blanks are left out. -/
structure LongestMatches (cs : List Char) (ts : List Token) : Prop where
  lossless : texts ts = visible cs
  munched : ∀ us t vs, ts = us ++ t :: vs →
    ∃ before after, cs = before ++ (t.text.toList ++ after) ∧ visible before = texts us ∧ t.Munched after

section All

variable {t : Token} {ts us vs : List Token} {c : Char} {cs before after : List Char}

theorem visible_append (cs ds : List Char) : visible (cs ++ ds) = visible cs ++ visible ds := List.filter_append ..

theorem visible_blank (hb : isBlank c = true) (cs : List Char) : visible (c :: cs) = visible cs := by
  simp [visible, mem_blanks_iff, hb]

theorem visible_eq_self (h : ∀ c ∈ cs, isBlank c = false) : visible cs = cs := by
  rw [visible, List.filter_eq_self]
  intro c hc
  exact decide_eq_true (notMem_blanks_iff.mpr (h c hc))

theorem visible_eq_nil_iff : visible cs = [] ↔ ∀ c ∈ cs, isBlank c = true := by
  simp [visible, mem_blanks_iff]

theorem length_visible_le (cs : List Char) : (visible cs).length ≤ cs.length := List.length_filter_le ..

theorem texts_cons (t : Token) (ts : List Token) : texts (t :: ts) = t.text.toList ++ texts ts := List.flatMap_cons ..

theorem Munched.visible_append (h : t.Munched after) (ds : List Char) :
    visible (t.text.toList ++ ds) = t.text.toList ++ visible ds := by
  rw [Token.visible_append, visible_eq_self h.kind.not_blank]

/-- What holds the characters of the first token and of others begins with the first token. -/
theorem exists_append_of_visible {rest : List Char} (h : t.Munched rest) (hcs : cs <+: t.text.toList ++ rest)
    (hvisible : visible cs = t.text.toList ++ after) :
    ∃ ds, cs = t.text.toList ++ ds ∧ visible ds = after := by
  have hlength : t.text.toList.length ≤ cs.length := by
    have hle := length_visible_le cs
    rw [hvisible, List.length_append] at hle
    omega
  obtain ⟨ds, rfl⟩ := List.prefix_of_prefix_length_le (List.prefix_append _ rest) hcs hlength
  refine ⟨ds, rfl, ?_⟩
  rw [h.visible_append] at hvisible
  exact List.append_cancel_left hvisible

namespace LongestMatches

theorem eq_nil_of_nil (h : LongestMatches [] ts) : ts = [] := by
  cases ts with
  | nil => rfl
  | cons t ts =>
    obtain ⟨before, after, hcs, -, hmunched⟩ := h.munched [] t ts rfl
    have htext : t.text.toList = [] := by
      have hall := congrArg List.length hcs
      simp only [List.length_append, List.length_nil] at hall
      exact List.length_eq_zero_iff.mp (by omega)
    exact absurd htext hmunched.kind.ne_nil

theorem blank_iff (hb : isBlank c = true) : LongestMatches (c :: cs) ts ↔ LongestMatches cs ts := by
  constructor
  · rintro ⟨hlossless, hmunched⟩
    refine ⟨by rw [hlossless, visible_blank hb], ?_⟩
    intro us t vs hts
    obtain ⟨before, after, hcs, hbefore, ht⟩ := hmunched us t vs hts
    cases before with
    | nil =>
      -- no token starts with a blank
      have hc : c ∈ t.text.toList := by
        obtain ⟨x, xs, htext⟩ := List.exists_cons_of_ne_nil ht.kind.ne_nil
        rw [htext] at hcs ⊢
        rw [(List.cons.inj hcs).1]
        simp
      simp [ht.kind.not_blank c hc] at hb
    | cons x before =>
      obtain ⟨rfl, rfl⟩ := List.cons.inj hcs
      exact ⟨before, after, rfl, by rw [← hbefore, visible_blank hb], ht⟩
  · rintro ⟨hlossless, hmunched⟩
    refine ⟨by rw [hlossless, visible_blank hb], ?_⟩
    intro us t vs hts
    obtain ⟨before, after, rfl, hbefore, ht⟩ := hmunched us t vs hts
    exact ⟨c :: before, after, rfl, by rw [← hbefore, visible_blank hb], ht⟩

theorem cons_iff (ht : t.Munched after) :
    LongestMatches (t.text.toList ++ after) (t :: ts) ↔ LongestMatches after ts := by
  constructor
  · rintro ⟨hlossless, hmunched⟩
    refine ⟨?_, ?_⟩
    · rw [texts_cons, ht.visible_append] at hlossless
      exact List.append_cancel_left hlossless
    · rintro us u vs rfl
      obtain ⟨before, rest, hcs, hbefore, hu⟩ := hmunched (t :: us) u vs rfl
      rw [texts_cons] at hbefore
      obtain ⟨before, rfl, hus⟩ := exists_append_of_visible ht ⟨_, hcs.symm⟩ hbefore
      rw [List.append_assoc] at hcs
      exact ⟨before, rest, List.append_cancel_left hcs, hus, hu⟩
  · rintro ⟨hlossless, hmunched⟩
    refine ⟨by rw [texts_cons, ht.visible_append, hlossless], ?_⟩
    intro us u vs hts
    cases us with
    | nil =>
      obtain ⟨rfl, rfl⟩ := List.cons.inj hts
      exact ⟨[], after, rfl, rfl, ht⟩
    | cons x us =>
      obtain ⟨rfl, rfl⟩ := List.cons.inj hts
      obtain ⟨before, rest, rfl, hbefore, hu⟩ := hmunched us u vs rfl
      refine ⟨t.text.toList ++ before, rest, by rw [List.append_assoc], ?_, hu⟩
      rw [ht.visible_append, hbefore, texts_cons]

/-- Where no blank stands, the first token does. -/
theorem exists_first (hb : isBlank c = false) (h : LongestMatches (c :: cs) ts) :
    ∃ t us after, ts = t :: us ∧ c :: cs = t.text.toList ++ after ∧ t.Munched after := by
  cases ts with
  | nil =>
    have hnil : visible (c :: cs) = [] := h.lossless.symm
    simp [visible_eq_nil_iff.mp hnil c (by simp)] at hb
  | cons t us =>
    obtain ⟨before, after, hcs, hbefore, ht⟩ := h.munched [] t us rfl
    cases before with
    | nil => exact ⟨t, us, after, rfl, hcs, ht⟩
    | cons x before =>
      obtain ⟨rfl, -⟩ := List.cons.inj hcs
      simp [visible_eq_nil_iff.mp hbefore c (by simp)] at hb

end LongestMatches

theorem longestMatches_iff : LongestMatches cs ts ↔ ofChars cs = ts := by
  fun_induction ofChars cs generalizing ts with
  | case1 =>
    refine ⟨fun h => h.eq_nil_of_nil.symm, ?_⟩
    rintro rfl
    exact ⟨rfl, by simp⟩
  | case2 c cs hb ih => rw [LongestMatches.blank_iff hb, ih]
  | case3 c cs hb ih =>
    rw [Bool.not_eq_true] at hb
    obtain ⟨hscan, happend⟩ := munched_scan hb cs
    constructor
    · intro h
      obtain ⟨t, us, after, rfl, hcs, ht⟩ := h.exists_first hb
      obtain ⟨rfl, rfl⟩ := hscan.unique ht (happend.trans hcs)
      rw [hcs, LongestMatches.cons_iff ht] at h
      rw [ih.mp h]
    · rintro rfl
      rw [← happend, LongestMatches.cons_iff hscan]
      exact ih.mpr rfl

theorem exists_munched_of_mem {t : Token} (h : t ∈ ofChars cs) : ∃ after, t.Munched after := by
  obtain ⟨us, vs, hts⟩ := List.append_of_mem h
  obtain ⟨-, after, -, -, ht⟩ := (longestMatches_iff.mpr rfl : LongestMatches cs (ofChars cs)).munched us t vs hts
  exact ⟨after, ht⟩

end All

end Token

open Token

/-! ## Main result -/

/-- **Longest matches.** The tokens of a source are the one list of longest matches that leaves out nothing but blanks.
They come one after the other, and behind them there is only the end. -/
theorem tokenize_longest_matches (source : String) :
    (∀ ts, LongestMatches source.toList ts ↔ tokenize source = ts) ∧
      (∀ t ∈ tokenize source, t.text ≠ "" ∧ t.kind ≠ .eof ∧ ∀ c ∈ t.text.toList, c ∉ blanks) ∧
      ∀ count, nextMany count source.toList =
          (tokenize source).take count ++ List.replicate (count - (tokenize source).length) .eof ∧
        (nextMany count source.toList).takeWhile (fun t => t.kind != .eof) = (tokenize source).take count := by
  refine ⟨fun ts => longestMatches_iff, ?_, ?_⟩
  · intro t ht
    obtain ⟨after, hmunched⟩ := exists_munched_of_mem ht
    refine ⟨?_, (scanned_of_mem_tokenize t ht).kind_ne_eof, fun c hc => ?_⟩
    · intro htext
      exact hmunched.kind.ne_nil (by rw [htext]; rfl)
    · exact notMem_blanks_iff.mpr (hmunched.kind.not_blank c hc)
  · intro count
    have hmany : nextMany count source.toList =
        (tokenize source).take count ++ List.replicate (count - (tokenize source).length) .eof := nextMany_eq count _
    refine ⟨hmany, ?_⟩
    have htokens : ∀ t ∈ (tokenize source).take count, (t.kind != .eof) = true := by
      intro t ht
      simpa using (scanned_of_mem_tokenize t (List.mem_of_mem_take ht)).kind_ne_eof
    have hend : (Token.eof.kind != .eof) = false := rfl
    rw [hmany, List.takeWhile_append_of_pos htokens, List.takeWhile_replicate, hend]
    simp

end Calculator
