import Calculator.Proofs.Evaluating
import Calculator.CommandLine

/-!
# Calculator.Proofs.Listings — listings do not change the answer

The command prints up to three things: the tokens, the grouping, and the value. Each is a text of its own
(`tokenRows`, `groupingRow`, `valueRow`), and the first two are printed on request. The status of the command and its
complaint depend on the source alone. With the grouping, diagnostics are printed line by line, and without it all at
once; both give the same text, since a source is never refused without a diagnostic (`join_lines`). The log is kept
apart from all that, and it is empty unless it is asked for (`evaluate_eq`).
-/

namespace Calculator

theorem parse_error_ne_nil {source : String} {ds : List Diagnostic} (h : parse source = .error ds) : ds ≠ [] := by
  unfold parse at h
  dsimp only at h
  split at h
  · cases h
  · next hne =>
    obtain rfl := Except.error.inj h
    exact hne

/-- Lines that are ended one by one are the joined lines with an end. -/
theorem join_lines {lines : List String} (h : lines ≠ []) :
    String.join (lines.map fun line => line ++ "\n") = "\n".intercalate lines ++ "\n" := by
  induction lines with
  | nil => exact absurd rfl h
  | cons line lines ih =>
    cases lines with
    | nil => simp [String.join_cons]
    | cons next lines =>
      rw [List.map_cons, String.join_cons, ih (by simp), String.intercalate_cons_cons, ← String.append_assoc]

namespace CommandLine

/-! ## What is printed -/

/-- A token: its kind in a field of ten characters, a space, and its text. -/
def tokenRow (t : Token) : String :=
  String.ofList (t.kind.name.toList.rightpad 10 ' ') ++ " " ++ t.text ++ "\n"

def tokenRows (source : String) : String := String.join ((tokenize source).map tokenRow)

def groupingRow (source : String) : String :=
  match parse source with
  | .ok program => program.render ++ "\n"
  | .error _ => ""

def valueRow (source : String) : String :=
  match calculate source with
  | .ok v => v.render ++ "\n"
  | .error _ => ""

/-- What is said of a source without a value. -/
def complaint (source : String) : String :=
  match calculate source with
  | .ok _ => ""
  | .error error => error.message ++ "\n"

def status (source : String) : Nat :=
  match calculate source with
  | .ok _ => 0
  | .error _ => 1

/-- What is told with the log on: the reading for the grouping, and the calculation, unless the reading has failed. -/
def logged (ast : Bool) (source : String) : List LogEntry :=
  if ast then
    match parse source with
    | .ok _ => parseLog source ++ calculationLog source
    | .error _ => parseLog source
  else calculationLog source

section Printing

variable {source : String}

theorem tokenLine_eq (t : Token) : tokenLine t = tokenRow t := by
  simp [tokenLine, tokenRow, Text.Column.fit, Text.Column.kept, Text.Column.before, List.rightpad]

theorem tokenListing_eq (source : String) : tokenListing source = tokenRows source := by
  rw [tokenListing, tokenRows]
  exact congrArg String.join (List.map_congr_left fun t _ => tokenLine_eq t)

theorem answer_eq (source : String) : answer source =
    { exit := status source, stdout := valueRow source, stderr := complaint source, log := calculationLog source } := by
  unfold answer status valueRow complaint
  cases calculate source <;> rfl

/-- The diagnostics, one per line, are the complaint. -/
theorem join_messages {ds : List Diagnostic} (h : parse source = .error ds) :
    String.join (ds.map fun d => d.message ++ "\n") = (CalcError.reading ds).message ++ "\n" := by
  have hlines : ds.map Diagnostic.message ≠ [] := by
    simpa using parse_error_ne_nil h
  rw [CalcError.message, ← join_lines hlines, List.map_map]
  rfl

theorem groupedAnswer_eq (source : String) : groupedAnswer source =
    { exit := status source
      stdout := groupingRow source ++ valueRow source
      stderr := complaint source
      log := logged true source } := by
  unfold groupedAnswer groupingRow logged
  cases h : parse source with
  | ok program => simp only [answer_eq, if_true]
  | error ds =>
    have hcalculate := calculate_of_parse_error h
    simp only [status, valueRow, complaint, hcalculate, join_messages h, String.append_empty, if_true]

/-- The log has no part in what is printed. -/
theorem evaluate_eq (o : Options) (source : String) : evaluate o source =
    { exit := status source
      stdout := (if o.tokens then tokenRows source else "") ++ (if o.ast then groupingRow source else "") ++
        valueRow source
      stderr := complaint source
      log := if o.verbose then logged o.ast source else [] } := by
  unfold evaluate
  cases o.ast with
  | false => simp [answer_eq, tokenListing_eq, logged]
  | true => simp [groupedAnswer_eq, tokenListing_eq, String.append_assoc]

end Printing

/-! ## Arguments -/

/-- The words that ask for listings, and what each asks for. -/
def requests : List (String × List Flag) :=
  [("-t", [.tokens]), ("--tokens", [.tokens]), ("-a", [.ast]), ("--ast", [.ast]), ("-ta", [.tokens, .ast]),
    ("-at", [.ast, .tokens])]

/-- An argument that reads as an option. A single dash does not. -/
def IsOption (argument : String) : Prop := argument.toList.head? = some '-' ∧ argument ≠ "-"

/-- The arguments ask for the value of a source and for listings, for none of them twice. The source stands among the
words for the listings, or behind all of them and behind two dashes. -/
inductive Asks : List String → List Flag → String → Prop where
  | among {ws ws' : List (String × List Flag)} {source : String} : ws ++ ws' ⊆ requests →
      ((ws ++ ws').flatMap Prod.snd).Nodup → ¬ IsOption source →
      Asks (ws.map Prod.fst ++ source :: ws'.map Prod.fst) ((ws ++ ws').flatMap Prod.snd) source
  | behind {ws : List (String × List Flag)} {source : String} : ws ⊆ requests → (ws.flatMap Prod.snd).Nodup →
      Asks (ws.map Prod.fst ++ ["--", source]) (ws.flatMap Prod.snd) source

/-- The options with the listings `flags` in addition. -/
def Options.withListings (o : Options) (flags : List Flag) : Options :=
  { o with tokens := o.tokens || decide (.tokens ∈ flags), ast := o.ast || decide (.ast ∈ flags) }

section Arguments

variable {o : Options} {source : String} {flags flags' : List Flag} {ws : List (String × List Flag)}

theorem Options.follow_request {word : String} (h : (word, flags) ∈ requests) (o : Options) (rest : List String) :
    o.follow (word :: rest) = (flags.foldlM set o).bind fun o' => o'.follow rest := by
  simp only [requests, List.mem_cons, Prod.mk.injEq, List.not_mem_nil, or_false] at h
  rcases h with ⟨rfl, rfl⟩ | ⟨rfl, rfl⟩ | ⟨rfl, rfl⟩ | ⟨rfl, rfl⟩ | ⟨rfl, rfl⟩ | ⟨rfl, rfl⟩
  · rfl
  · simp [follow, setName, Flag.ofName?]
    rfl
  · rfl
  · simp [follow, setName, Flag.ofName?]
    rfl
  · rfl
  · rfl

theorem Options.follow_requests (h : ws ⊆ requests) (o : Options) (rest : List String) :
    o.follow (ws.map Prod.fst ++ rest) = ((ws.flatMap Prod.snd).foldlM set o).bind fun o' => o'.follow rest := by
  induction ws generalizing o with
  | nil => rfl
  | cons w ws ih =>
    obtain ⟨word, flags⟩ := w
    have hws : ws ⊆ requests := fun _ hw => h (List.mem_cons_of_mem _ hw)
    rw [List.map_cons, List.cons_append, follow_request (h List.mem_cons_self), List.flatMap_cons, List.foldlM_append]
    cases flags.foldlM set o with
    | error stop => rfl
    | ok o' => exact ih hws o'

theorem Options.follow_source (h : ¬ IsOption source) (o : Options) (rest : List String) :
    o.follow (source :: rest) = (o.setExpression source).bind fun o' => o'.follow rest := by
  -- an argument that is split at a dash is an option
  have hoption {c : Char} {cs : List Char} (hcs : source.toList = '-' :: c :: cs) : False := by
    apply h
    refine ⟨by rw [hcs]; rfl, ?_⟩
    rintro rfl
    simp at hcs
  rw [follow]
  split
  · next hcs => exact (hoption hcs).elim
  · next hcs => exact (hoption hcs).elim
  · next hcs => exact (hoption hcs).elim
  · rfl

/-- Listings that are asked for once are all set. -/
theorem Options.foldlM_set (hflags : ∀ f ∈ flags, f = .tokens ∨ f = .ast) (hnodup : flags.Nodup)
    (htokens : o.tokens = true → .tokens ∉ flags) (hast : o.ast = true → .ast ∉ flags) :
    flags.foldlM set o = .ok (o.withListings flags) := by
  induction flags generalizing o with
  | nil => simp [withListings, pure, Except.pure]
  | cons f flags ih =>
    obtain ⟨hnot, hnodup'⟩ := List.nodup_cons.mp hnodup
    have hrest : ∀ g ∈ flags, g = .tokens ∨ g = .ast := fun g hg => hflags g (List.mem_cons_of_mem _ hg)
    rw [List.foldlM_cons]
    rcases hflags f List.mem_cons_self with rfl | rfl
    · have hfalse : o.tokens = false := by
        by_contra htrue
        exact htokens (by simpa using htrue) List.mem_cons_self
      have hset : o.set .tokens = .ok { o with tokens := true } := by simp [set, hfalse]
      have hast' : ({ o with tokens := true } : Options).ast = true → .ast ∉ flags :=
        fun h hmem => hast h (List.mem_cons_of_mem _ hmem)
      rw [hset]
      refine (ih hrest hnodup' (fun _ => hnot) hast').trans ?_
      simp [withListings]
    · have hfalse : o.ast = false := by
        by_contra htrue
        exact hast (by simpa using htrue) List.mem_cons_self
      have hset : o.set .ast = .ok { o with ast := true } := by simp [set, hfalse]
      have htokens' : ({ o with ast := true } : Options).tokens = true → .tokens ∉ flags :=
        fun h hmem => htokens h (List.mem_cons_of_mem _ hmem)
      rw [hset]
      refine (ih hrest hnodup' htokens' fun _ => hnot).trans ?_
      simp [withListings]

theorem flags_of_requests (h : ws ⊆ requests) : ∀ f ∈ ws.flatMap Prod.snd, f = .tokens ∨ f = .ast := by
  have hall : ∀ w ∈ requests, ∀ f ∈ w.2, f = .tokens ∨ f = .ast := by decide
  intro f hf
  obtain ⟨w, hw, hfw⟩ := List.mem_flatMap.mp hf
  exact hall w (h hw) f hfw

theorem Options.setExpression_of_none (h : o.expression = none) (source : String) :
    o.setExpression source = .ok { o with expression := some source } := by
  rw [setExpression, h]

/-- What is asked for is what is set. -/
theorem Asks.follow {arguments : List String} (h : Asks arguments flags source) :
    ({} : Options).follow arguments =
      .ok { tokens := decide (.tokens ∈ flags), ast := decide (.ast ∈ flags), expression := some source } := by
  cases h with
  | @among ws ws' _ hws hnodup hsource =>
    obtain ⟨hws, hws'⟩ := List.append_subset.mp hws
    have hflags := flags_of_requests hws
    have hflags' := flags_of_requests hws'
    rw [List.flatMap_append] at hnodup ⊢
    obtain ⟨hleft, hright, hdisjoint⟩ := List.nodup_append'.mp hnodup
    rw [Options.follow_requests hws, Options.foldlM_set hflags hleft (by simp) (by simp)]
    show (({} : Options).withListings (ws.flatMap Prod.snd)).follow (source :: ws'.map Prod.fst) = _
    rw [Options.follow_source hsource, Options.setExpression_of_none rfl]
    show Options.follow _ (ws'.map Prod.fst) = _
    -- a listing that has been asked for in front of the source is not asked for behind it
    have hnot : ∀ f ∈ ws.flatMap Prod.snd, f ∉ ws'.flatMap Prod.snd := fun f hf hf' => hdisjoint hf hf'
    rw [← List.append_nil (ws'.map Prod.fst), Options.follow_requests hws',
      Options.foldlM_set hflags' hright (fun h => hnot .tokens (by simpa [Options.withListings] using h))
        (fun h => hnot .ast (by simpa [Options.withListings] using h))]
    simp only [Options.withListings, Options.follow, Except.bind, List.mem_append, Bool.decide_or, Bool.false_or]
  | @behind ws _ hws hnodup =>
    rw [Options.follow_requests hws, Options.foldlM_set (flags_of_requests hws) hnodup (by simp) (by simp)]
    rfl

/-- Every source can be asked for, with any of the listings. -/
theorem exists_asks (tokens ast : Bool) (source : String) :
    ∃ arguments flags, Asks arguments flags source ∧ (.tokens ∈ flags ↔ tokens = true) ∧
      (.ast ∈ flags ↔ ast = true) := by
  let ws : List (String × List Flag) :=
    (if tokens then [("--tokens", [.tokens])] else []) ++ if ast then [("--ast", [.ast])] else []
  refine ⟨_, _, @Asks.behind ws source ?_ ?_, ?_, ?_⟩
  all_goals cases tokens <;> cases ast <;> simp [ws, requests]

end Arguments

/-! ## Main result -/

/-- **Listings.** Whatever listings are asked for, and however, the status and the complaint are those of the source.
In front of the value stand the rows of the tokens and the row of the grouping, if they are asked for, and nothing
else. Nothing is logged. A source that cannot be read has the same complaint line by line and all at once. -/
theorem run_of_asks :
    (∀ arguments flags source, Asks arguments flags source → run arguments =
      { exit := status source
        stdout := (if .tokens ∈ flags then tokenRows source else "") ++
          (if .ast ∈ flags then groupingRow source else "") ++ valueRow source
        stderr := complaint source
        log := [] }) ∧
      (∀ tokens ast source, ∃ arguments flags, Asks arguments flags source ∧ (.tokens ∈ flags ↔ tokens = true) ∧
        (.ast ∈ flags ↔ ast = true)) ∧
      ∀ source ds, parse source = .error ds →
        String.join (ds.map fun d => d.message ++ "\n") = (CalcError.reading ds).message ++ "\n" := by
  refine ⟨?_, exists_asks, fun source ds => join_messages⟩
  intro arguments flags source h
  simp only [run, h.follow, evaluate_eq, decide_eq_true_eq, Bool.false_eq_true, if_false]

/-- The grouping and the tokens of a sum, asked for on both sides of it. -/
theorem run_of_sum_with_listings :
    Asks ["-a", "1+2", "--tokens"] [.ast, .tokens] "1+2" ∧
      run ["-a", "1+2", "--tokens"] =
        { exit := 0, stdout := "INT        1\n+          +\nINT        2\n(1 + 2)\n3\n", stderr := "" } := by
  have hasks : Asks ["-a", "1+2", "--tokens"] [.ast, .tokens] "1+2" :=
    @Asks.among [("-a", [.ast])] [("--tokens", [.tokens])] "1+2" (by decide) (by decide) (by simp [IsOption])
  refine ⟨hasks, ?_⟩
  rw [run_of_asks.1 _ _ _ hasks]
  cbv

end CommandLine

end Calculator
