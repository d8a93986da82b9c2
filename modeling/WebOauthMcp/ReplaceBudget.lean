import WebOauthMcp.ReplaceAtomicity

/-!
# The two ways to replace a literal, and the budget of a batch

A rule for a literal either counts and replaces it in the text, or goes through an escaped
expression. Both are the same rule. The numbers that a batch reports are the numbers of
matches that its rules replaced, and together they keep within the budget.
-/

namespace WebOauthMcp.ReplaceBudget
open CodePoints LineSplitting JsonText ExceptSteps BudgetMetadata TextScans ContentIo ReplaceRules FaultyPrograms ReplaceFiles
  ReplaceAtomicity

/-! ## Literals as expressions -/

/-- An escaped literal compiles to an expression that finds its leftmost occurrences,
unless upper and lower case are to be the same. -/
def EscapesLiterals (eng : RegexEngine) : Prop :=
  ∀ p : Text, p ≠ [] → ∀ flags : RegexFlags, flags.ignoreCase = false →
    ∃ e, eng.compile (eng.escape p) flags = .ok e ∧ ∀ t, Leftmost p (e.scan t).head (e.scan t).found

/-- A rule for a literal that is replaced in the text itself. -/
def TakesLiteral (rule : Dict) : Prop := flagOf rule (txt "literal") true = true ∧ (regexFlags rule).any = false

/-- A rule for a literal that is replaced through an expression, with flags that mean
nothing for a literal. -/
def TakesEscaped (rule : Dict) : Prop :=
  flagOf rule (txt "literal") true = true ∧ (regexFlags rule).any = true ∧ (regexFlags rule).ignoreCase = false

/-- The same text and number, or the budget is exceeded in both. -/
def SameOutcome (x y : Except RuleStop Applied) : Prop :=
  (∃ a, x = .ok a ∧ y = .ok a) ∨
    ∃ n n', x = .error (.refused (.maxReplacementsExceeded n)) ∧ y = .error (.refused (.maxReplacementsExceeded n'))

/-- How many of the matches a rule replaces; a count of zero means all. -/
def wanted (count available : ℕ) : ℕ := if count = 0 then available else min available count

theorem wanted_le (count available : ℕ) : wanted count available ≤ available := by
  rw [wanted]
  split_ifs
  · exact le_rfl
  · exact Nat.min_le_left _ _

section
variable {text replacement : Text} {parsed : ParsedRule} {remaining : ℕ}

theorem literalEdit_exceeded (h : remaining < wanted parsed.count (strCount parsed.pattern text)) :
    literalEdit text parsed replacement remaining =
      .error (.refused (.maxReplacementsExceeded (wanted parsed.count (strCount parsed.pattern text)))) := by
  simp only [wanted] at h ⊢
  simp only [literalEdit, ite_not]
  rw [if_pos h]

theorem literalEdit_fits (h : wanted parsed.count (strCount parsed.pattern text) ≤ remaining) :
    literalEdit text parsed replacement remaining = .ok
      ⟨(scanLiteral parsed.pattern text).limit (wanted parsed.count (strCount parsed.pattern text)), fun _ => replacement⟩ := by
  simp only [wanted] at h ⊢
  simp only [literalEdit, ite_not]
  rw [if_neg (Nat.not_lt.mpr h)]

variable {expression : Expression} {literal : Bool}

variable (literal replacement) in
/-- The loop over the matches stops early, but never before the budget is decided. -/
theorem expressionEdit_exceeded (h : remaining < wanted parsed.count (expression.scan text).found.length) :
    ∃ n, expressionEdit expression text parsed literal replacement remaining =
      .error (.refused (.maxReplacementsExceeded n)) := by
  refine ⟨min (expression.scan text).found.length (if parsed.count ≠ 0 then parsed.count else remaining + 1), ?_⟩
  simp only [expressionEdit]
  rw [if_pos]
  by_cases hcount : parsed.count = 0
  · simp only [wanted, hcount, if_true] at h
    simp only [hcount, ne_eq, not_true_eq_false, if_false, true_and]
    omega
  · simp only [wanted, hcount, if_false] at h
    simp only [hcount, ne_eq, not_false_eq_true, if_true]
    omega

theorem expressionEdit_fits (h : wanted parsed.count (expression.scan text).found.length ≤ remaining)
    {expand : Found CodePoint → Text} (hvalue : replacementValue expression literal replacement = some expand) :
    expressionEdit expression text parsed literal replacement remaining = .ok
      ⟨(expression.scan text).limit (wanted parsed.count (expression.scan text).found.length), expand⟩ := by
  simp only [expressionEdit, hvalue]
  by_cases hcount : parsed.count = 0
  · simp only [wanted, hcount, if_true] at h ⊢
    rw [if_neg (by simp only [ne_eq, not_true_eq_false, if_false, true_and]; omega),
      Scan.limit_of_length_le le_rfl]
  · simp only [wanted, hcount, if_false] at h ⊢
    rw [if_neg (by simp only [hcount, ne_eq, not_false_eq_true, if_true, false_and, or_false]; omega),
      Scan.limit_min_length]

theorem expressionEdit_unreadable (hvalue : replacementValue expression literal replacement = none) (e : Edit) :
    expressionEdit expression text parsed literal replacement remaining ≠ .ok e := by
  simp only [expressionEdit, hvalue]
  split_ifs
  all_goals
    intro h
    cases h

end

/-- The two branches come to the same edit, or both exceed the budget. -/
theorem literal_rules_agree {eng : RegexEngine} (heng : EscapesLiterals eng) (text : Text) {rule rule' : Dict}
    {parsed : ParsedRule} (hparse : parseRule rule = .ok parsed) (hparse' : parseRule rule' = .ok parsed)
    (hrule : TakesLiteral rule) (hrule' : TakesEscaped rule') (newline : NewlineStyle) (remaining : ℕ) :
    SameOutcome (applyRule eng text rule newline remaining) (applyRule eng text rule' newline remaining) := by
  obtain ⟨expression, hcompile, hleft⟩ := heng parsed.pattern parsed.pattern_ne_nil _ hrule'.2.2
  have hplain : scanLiteral parsed.pattern text = (expression.scan text).plain := by
    have hscan := scanLiteral_of_leftmost parsed.pattern_ne_nil (hleft text)
    rwa [expression.scan_text] at hscan
  have hcount : strCount parsed.pattern text = (expression.scan text).found.length := by
    rw [strCount, hplain, Scan.plain_length]
  have hedit : ruleEdit eng text rule newline remaining =
      literalEdit text parsed (normalizeNewlines parsed.replacement newline) remaining := by
    simp [ruleEdit, hparse, hrule.1, hrule.2]
  have hedit' : ruleEdit eng text rule' newline remaining =
      expressionEdit expression text parsed true (normalizeNewlines parsed.replacement newline) remaining := by
    simp [ruleEdit, hparse', hrule'.1, hrule'.2.1, hcompile]
  rw [applyRule, applyRule, hedit, hedit']
  cases Nat.lt_or_ge remaining (wanted parsed.count (strCount parsed.pattern text)) with
  | inl hexceeded =>
    obtain ⟨n, hn⟩ := expressionEdit_exceeded (normalizeNewlines parsed.replacement newline) true (hcount ▸ hexceeded)
    rw [literalEdit_exceeded hexceeded, hn]
    exact Or.inr ⟨_, n, rfl, rfl⟩
  | inr hfits =>
    rw [literalEdit_fits hfits, expressionEdit_fits (hcount ▸ hfits) rfl, ← hcount, hplain, ← Scan.limit_plain]
    refine Or.inl ⟨_, rfl, congrArg Except.ok ?_⟩
    simp only [Scan.rewrite_plain, Scan.plain_length]

/-! ## What a batch counts -/

/-- The expression that a rule is compiled to. -/
def compiled (eng : RegexEngine) (rule : Dict) (parsed : ParsedRule) : Except Text Expression :=
  eng.compile (if flagOf rule (txt "literal") true then eng.escape parsed.pattern else parsed.pattern) (regexFlags rule)

/-- The matches of a rule in a text. -/
def ruleMatches (eng : RegexEngine) (rule : Dict) (parsed : ParsedRule) (text : Text) : Option (Scan CodePoint) :=
  if flagOf rule (txt "literal") true && !(regexFlags rule).any then some (scanLiteral parsed.pattern text)
  else (compiled eng rule parsed).toOption.map fun e => e.scan text

/-- What a rule puts in the place of a match. -/
def ruleValue (eng : RegexEngine) (rule : Dict) (parsed : ParsedRule) (newline : NewlineStyle) :
    Option (Found CodePoint → Text) :=
  if flagOf rule (txt "literal") true then some fun _ => normalizeNewlines parsed.replacement newline
  else (compiled eng rule parsed).toOption.bind fun e => e.template (normalizeNewlines parsed.replacement newline)

/-- A rule replaces `n` of its matches, which are all or the first ones up to its count. -/
def Replaces (eng : RegexEngine) (newline : NewlineStyle) (rule : Dict) (text : Text) (n : ℕ) (text' : Text) : Prop :=
  ∃ parsed s expand, parseRule rule = .ok parsed ∧ ruleMatches eng rule parsed text = some s ∧
    ruleValue eng rule parsed newline = some expand ∧ n = wanted parsed.count s.found.length ∧
    text' = (s.limit n).rewrite expand

/-- The rules of a file in their order, each on what the earlier ones leave. -/
inductive ReplacesAll (eng : RegexEngine) (newline : NewlineStyle) : List Dict → Text → List ℕ → Text → Prop
  | nil {text : Text} : ReplacesAll eng newline [] text [] text
  | cons {rule : Dict} {rules : List Dict} {text text' text'' : Text} {n : ℕ} {ns : List ℕ} :
      Replaces eng newline rule text n text' → ReplacesAll eng newline rules text' ns text'' →
      ReplacesAll eng newline (rule :: rules) text (n :: ns) text''

section
variable {eng : RegexEngine} {newline : NewlineStyle} {remaining : ℕ}

/-- An edit of a literal or of an expression replaces what is wanted, within the budget. -/
theorem ruleEdit_ok {text : Text} {rule : Dict} {e : Edit} (h : ruleEdit eng text rule newline remaining = .ok e) :
    ∃ parsed s, parseRule rule = .ok parsed ∧ ruleMatches eng rule parsed text = some s ∧
      ruleValue eng rule parsed newline = some e.expand ∧ wanted parsed.count s.found.length ≤ remaining ∧
      e.scan = s.limit (wanted parsed.count s.found.length) := by
  rw [ruleEdit] at h
  cases hparse : parseRule rule with
  | error x =>
    rw [hparse] at h
    cases h
  | ok parsed =>
    rw [hparse] at h
    dsimp only at h
    refine ⟨parsed, ?_⟩
    by_cases hfast : (flagOf rule (txt "literal") true && !(regexFlags rule).any) = true
    · rw [if_pos hfast] at h
      have hliteral := (Bool.and_eq_true_iff.mp hfast).1
      rw [ruleMatches, if_pos hfast, ruleValue, if_pos hliteral]
      cases Nat.lt_or_ge remaining (wanted parsed.count (strCount parsed.pattern text)) with
      | inl hexceeded =>
        rw [literalEdit_exceeded hexceeded] at h
        cases h
      | inr hfits =>
        rw [literalEdit_fits hfits] at h
        obtain rfl := Except.ok.inj h
        exact ⟨_, rfl, rfl, rfl, hfits, rfl⟩
    · rw [if_neg hfast] at h
      rw [ruleMatches, if_neg hfast, ruleValue]
      cases hcompiled : compiled eng rule parsed with
      | error reason =>
        rw [compiled] at hcompiled
        rw [hcompiled] at h
        cases h
      | ok expression =>
        rw [compiled] at hcompiled
        rw [hcompiled] at h
        dsimp only at h
        cases Nat.lt_or_ge remaining (wanted parsed.count (expression.scan text).found.length) with
        | inl hexceeded =>
          obtain ⟨n, hn⟩ := expressionEdit_exceeded (normalizeNewlines parsed.replacement newline)
            (flagOf rule (txt "literal") true) hexceeded
          rw [hn] at h
          cases h
        | inr hfits =>
          cases hvalue : replacementValue expression (flagOf rule (txt "literal") true)
              (normalizeNewlines parsed.replacement newline) with
          | none => exact absurd h (expressionEdit_unreadable hvalue e)
          | some expand =>
            rw [expressionEdit_fits hfits hvalue] at h
            obtain rfl := Except.ok.inj h
            exact ⟨_, rfl, rfl, hvalue, hfits, rfl⟩

theorem applyRule_replaces {text : Text} {rule : Dict} {a : Applied}
    (h : applyRule eng text rule newline remaining = .ok a) :
    Replaces eng newline rule text a.replacements a.text ∧ a.replacements ≤ remaining := by
  obtain ⟨e, he, h⟩ := bind_eq_ok.mp h
  obtain rfl := Except.ok.inj h
  obtain ⟨parsed, s, hparse, hs, hvalue, hfits, hscan⟩ := ruleEdit_ok he
  have hlen : e.scan.found.length = wanted parsed.count s.found.length := by
    rw [hscan, Scan.limit_length, Nat.min_eq_left (wanted_le _ _)]
  dsimp only
  rw [hlen, hscan]
  exact ⟨⟨parsed, s, e.expand, hparse, hs, hvalue, rfl, rfl⟩, hfits⟩

/-- The loop over the rules counts what each of them replaces and stays within the budget. -/
theorem applyRules_replaces {rules : List Dict} {p q : FileProgress}
    (h : applyRules eng newline remaining rules p = .ok q) (hp : p.fileReplacements ≤ remaining) :
    ∃ ns, ReplacesAll eng newline rules p.text ns q.text ∧ q.ruleResults = p.ruleResults ++ ns ∧
      q.fileReplacements = p.fileReplacements + ns.sum ∧ q.fileReplacements ≤ remaining := by
  induction rules generalizing p with
  | nil =>
    obtain rfl := Except.ok.inj h
    exact ⟨[], .nil, (List.append_nil _).symm, rfl, hp⟩
  | cons rule rules ih =>
    obtain ⟨a, ha, h⟩ := bind_eq_ok.mp h
    obtain ⟨hreplaces, hfits⟩ := applyRule_replaces ((mapError_ok_iff _).mp ha)
    have hnext : (p.record a).fileReplacements ≤ remaining := by
      simp only [FileProgress.record]
      omega
    obtain ⟨ns, hall, hresults, hsum, hle⟩ := ih h hnext
    refine ⟨a.replacements :: ns, .cons hreplaces hall, ?_, ?_, hle⟩
    · rw [hresults, FileProgress.record, List.append_assoc]
      rfl
    · rw [hsum, FileProgress.record, List.sum_cons, Nat.add_assoc]

end

/-- The rules of a target make the planned file of the one that was read, and the reported
numbers are those of their matches. -/
def FileReplaced (env : Env) (t : Target) (plan : Plan) : Prop :=
  ∃ encoding d text', settingEncoding t.encoding = .ok encoding ∧
    decodeTextBytes env.codecs plan.beforeRaw encoding = .ok d ∧
    ReplacesAll env.regexes d.newline t.rules d.text plan.file.rules text' ∧
    encodeTextBytes env.codecs d text' = some plan.afterRaw ∧ plan.file.replacements = plan.file.rules.sum

theorem planTarget_replaced {env : Env} {s : Path → Node} {t : Target} {remaining : ℕ} {plan : Plan}
    (h : PlanOf env s t remaining plan) : FileReplaced env t plan ∧ plan.file.replacements ≤ remaining := by
  obtain ⟨encoding, hencoding, hplan⟩ := bind_eq_ok.mp h.file
  obtain ⟨d, p, hd, hp, hafter, hcount, hrules⟩ := planFile_ok hplan
  obtain ⟨ns, hall, hresults, hsum, hle⟩ := applyRules_replaces hp (Nat.zero_le _)
  obtain rfl : ns = p.ruleResults := hresults.symm
  refine ⟨⟨encoding, d, p.text, hencoding, hd, ?_, hafter, ?_⟩, ?_⟩
  · rw [hrules]
    exact hall
  · rw [hcount, hrules, hsum, Nat.zero_add]
  · rw [hcount]
    exact hle

/-- The budget is threaded through the files. -/
theorem planned_within {env : Env} {s : Path → Node} {maxReplacements total : ℕ} {ts : List Target} {plans : List Plan}
    (h : Planned env s maxReplacements ts total plans) (htotal : total ≤ maxReplacements) :
    List.Forall₂ (FileReplaced env) ts plans ∧
      total + (plans.map fun p => p.file.replacements).sum ≤ maxReplacements := by
  induction h with
  | nil => exact ⟨.nil, htotal⟩
  | cons hplan _ ih =>
    obtain ⟨hfile, hle⟩ := planTarget_replaced hplan
    obtain ⟨hrest, hsum⟩ := ih (by omega)
    refine ⟨.cons hfile hrest, ?_⟩
    rw [List.map_cons, List.sum_cons]
    omega

/-- A report counts the replaced matches of every rule in every file, within the budget. -/
structure ExactTotal (env : Env) (operations : List Operation) (dryRun : Bool) (maxReplacements : ℤ)
    (fs' : Path → Node) (report : Report) (targets : List Target) (plans : List Plan) : Prop where
  ordered : orderedTargets operations maxReplacements = .ok targets
  replaced : List.Forall₂ (FileReplaced env) targets plans
  written : dryRun = false → ∀ plan ∈ plans, fs' plan.path = .file plan.afterRaw plan.mode
  files : report.files = plans.map Plan.report
  total : report.totalReplacements = ((report.files.map FileReport.rules).map List.sum).sum
  budget : (report.totalReplacements : ℤ) ≤ maxReplacements

/-- An engine for literals that need no escaping. -/
def literalEngine : RegexEngine where
  compile p _ := if h : p ≠ [] then .ok ⟨scanLiteral p, scanLiteral_text h, fun _ => none⟩ else .error (txt "unsupported")
  escape := id

theorem literalEngine_escapes : EscapesLiterals literalEngine := by
  intro p hp flags _
  exact ⟨⟨scanLiteral p, scanLiteral_text hp, fun _ => none⟩, dif_pos hp, leftmost_scanLiteral hp⟩

def literalEnv : Env where
  codecs := plainRegistry
  regexes := literalEngine
  revision raw := raw.map fun b => Fin.ofNat _ b.val

def letterOperation : Operation where
  path := some (txt "/f")
  rules := some [literalRule (txt "a") (txt "b")]
  expectedRevision := .absent
  encoding := .absent

theorem letterOperation_ordered : orderedTargets [letterOperation] 2 =
    .ok [⟨txt "/f", [literalRule (txt "a") (txt "b")], .absent, .absent⟩] := by
  have hgroup : groupOperations [letterOperation] [] =
      .ok [⟨txt "/f", [literalRule (txt "a") (txt "b")], .absent, .absent⟩] := rfl
  rw [orderedTargets, if_neg (by simp), if_neg (by omega), hgroup]
  exact congrArg Except.ok (List.mergeSort_singleton _)

theorem letterOperation_succeeds :
    ∃ report, ((replaceFiles literalEnv [letterOperation] false 2).run (fun _ => .none) fun _ =>
      .file [0x61, 0x61] 0).result = .success report := by
  rw [replaceFiles, letterOperation_ordered]
  exact ⟨_, rfl⟩

end WebOauthMcp.ReplaceBudget
