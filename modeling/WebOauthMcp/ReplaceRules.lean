import WebOauthMcp.BudgetMetadata
import WebOauthMcp.NewlineConvention

/-!
# Rules of a mechanical replacement

A rule replaces the matches of a literal or of a regular expression, within what is left
of the batch's budget. The rules of a file are applied in order, and the result is encoded
the way the file was decoded. The engine for regular expressions is a parameter: what is
used of it are the matches it finds, in order, and how it reads a replacement template.
-/

namespace WebOauthMcp.ReplaceRules
open CodePoints LineSplitting JsonText ExceptSteps BudgetMetadata TextScans ContentIo NewlineConvention

structure RegexFlags where
  ignoreCase : Bool
  multiline : Bool
  dotAll : Bool

def RegexFlags.any (f : RegexFlags) : Bool := f.ignoreCase || f.multiline || f.dotAll

/-- A compiled expression. `finditer` and `subn` go through the same matches; a template
that cannot be read raises. -/
structure Expression where
  scan : Text → Scan CodePoint
  scan_text : ∀ t, (scan t).text = t
  template : Text → Option (Found CodePoint → Text)

structure RegexEngine where
  compile : Text → RegexFlags → Except Text Expression
  escape : Text → Text

inductive RuleError
  | invalidRule (message : Text)
  | invalidPattern (reason : Text)
  | maxReplacementsExceeded (attempted : ℕ)

def RuleError.code : RuleError → Text
  | .invalidRule _ => txt "invalid_rule"
  | .invalidPattern _ => txt "invalid_pattern"
  | .maxReplacementsExceeded _ => txt "max_replacements_exceeded"

def RuleError.message : RuleError → Text
  | .invalidRule message => message
  | .invalidPattern reason => txt "Invalid replacement regular expression: " ++ reason
  | .maxReplacementsExceeded _ => txt "Replacement count exceeds max_replacements; no files were changed."

/-- Why a rule is not applied: it is refused, or an exception is raised. -/
inductive RuleStop
  | refused (e : RuleError)
  | raised

/-- `bool(value)`. -/
def truthy : Json → Bool
  | .null => false
  | .bool b => b
  | .int i => decide (i ≠ 0)
  | .float r => (r.val.takeWhile fun c => c.val ≠ 0x65).any fun c => decide (0x31 ≤ c.val ∧ c.val ≤ 0x39)
  | .str t => !t.isEmpty
  | .arr items => !items.isEmpty
  | .obj fields => !fields.isEmpty

def flagOf (rule : Dict) (k : Text) (default : Bool) : Bool :=
  match dictGet k rule with
  | none => default
  | some v => truthy v

/-- `_regex_flags`. -/
def regexFlags (rule : Dict) : RegexFlags where
  ignoreCase := flagOf rule (txt "ignore_case") false
  multiline := flagOf rule (txt "multiline") false
  dotAll := flagOf rule (txt "dot_all") false

/-- The fields of a rule, after their checks. -/
structure ParsedRule where
  pattern : Text
  pattern_ne_nil : pattern ≠ []
  replacement : Text
  count : ℕ

def parsePattern (rule : Dict) : Except RuleError {p : Text // p ≠ []} :=
  match dictGet (txt "pattern") rule with
  | some (.str p) =>
    if h : p ≠ [] then .ok ⟨p, h⟩
    else .error (.invalidRule (txt "Each rule requires a non-empty string pattern."))
  | _ => .error (.invalidRule (txt "Each rule requires a non-empty string pattern."))

def parseReplacement (rule : Dict) : Except RuleError Text :=
  match dictGet (txt "replacement") rule with
  | some (.str r) => .ok r
  | _ => .error (.invalidRule (txt "Each rule requires a string replacement."))

def parseCount (rule : Dict) : Except RuleError ℕ :=
  match dictGet (txt "count") rule with
  | none => .ok 0
  | some (.int i) =>
    if i < 0 then .error (.invalidRule (txt "rule.count must be a non-negative integer.")) else .ok i.toNat
  | some _ => .error (.invalidRule (txt "rule.count must be a non-negative integer."))

def parseRule (rule : Dict) : Except RuleError ParsedRule := do
  let pattern ← parsePattern rule
  let replacement ← parseReplacement rule
  let count ← parseCount rule
  pure ⟨pattern.val, pattern.property, replacement, count⟩

/-- What a rule does to a text: the matches it replaces, and what it puts in their place. -/
structure Edit where
  scan : Scan CodePoint
  expand : Found CodePoint → Text

/-- The literal branch of `_apply_rule`. -/
def literalEdit (text : Text) (rule : ParsedRule) (replacement : Text) (remainingBudget : ℕ) :
    Except RuleStop Edit :=
  let available := strCount rule.pattern text
  let replacements := if rule.count ≠ 0 then min available rule.count else available
  if remainingBudget < replacements then .error (.refused (.maxReplacementsExceeded replacements))
  else .ok ⟨(scanLiteral rule.pattern text).limit replacements, fun _ => replacement⟩

/-- `replacement_value`; `none` is an unreadable template. -/
def replacementValue (expression : Expression) (literal : Bool) (replacement : Text) :
    Option (Found CodePoint → Text) :=
  if literal then some fun _ => replacement else expression.template replacement

/-- The branch of `_apply_rule` for a compiled expression. -/
def expressionEdit (expression : Expression) (text : Text) (rule : ParsedRule) (literal : Bool) (replacement : Text)
    (remainingBudget : ℕ) : Except RuleStop Edit :=
  let maximum := if rule.count ≠ 0 then rule.count else remainingBudget + 1
  let found := min (expression.scan text).found.length maximum
  let replacements := if rule.count ≠ 0 then min found rule.count else found
  if remainingBudget < replacements ∨ (rule.count = 0 ∧ remainingBudget < found) then
    .error (.refused (.maxReplacementsExceeded found))
  else
    match replacementValue expression literal replacement with
    | none => .error .raised
    | some expand =>
      .ok ⟨if rule.count = 0 then expression.scan text else (expression.scan text).limit rule.count, expand⟩

def ruleEdit (eng : RegexEngine) (text : Text) (rule : Dict) (newline : NewlineStyle) (remainingBudget : ℕ) :
    Except RuleStop Edit :=
  match parseRule rule with
  | .error e => .error (.refused e)
  | .ok parsed =>
    let replacement := normalizeNewlines parsed.replacement newline
    let literal := flagOf rule (txt "literal") true
    let flags := regexFlags rule
    if literal && !flags.any then literalEdit text parsed replacement remainingBudget
    else
      match eng.compile (if literal then eng.escape parsed.pattern else parsed.pattern) flags with
      | .error reason => .error (.refused (.invalidPattern reason))
      | .ok expression => expressionEdit expression text parsed literal replacement remainingBudget

/-- A text after a rule, and how often the rule replaced. -/
structure Applied where
  text : Text
  replacements : ℕ

/-- `_apply_rule`. -/
def applyRule (eng : RegexEngine) (text : Text) (rule : Dict) (newline : NewlineStyle) (remainingBudget : ℕ) :
    Except RuleStop Applied := do
  let e ← ruleEdit eng text rule newline remainingBudget
  pure ⟨e.scan.rewrite e.expand, e.scan.found.length⟩

/-! ## All rules of a file -/

structure FileProgress where
  text : Text
  fileReplacements : ℕ := 0
  ruleResults : List ℕ := []

def FileProgress.record (p : FileProgress) (a : Applied) : FileProgress where
  text := a.text
  fileReplacements := p.fileReplacements + a.replacements
  ruleResults := p.ruleResults ++ [a.replacements]

/-- Why a file is not planned. -/
inductive PlanStop
  | decoding (e : DecodingError)
  | rule (index : ℕ) (e : RuleError)
  | raised

def stopAt (index : ℕ) : RuleStop → PlanStop
  | .refused e => .rule index e
  | .raised => .raised

/-- The loop over the rules of a file. The index of a rule is the number of results. -/
def applyRules (eng : RegexEngine) (newline : NewlineStyle) (remaining : ℕ) :
    List Dict → FileProgress → Except PlanStop FileProgress
  | [], p => pure p
  | rule :: rules, p => do
    let a ← (applyRule eng p.text rule newline (remaining - p.fileReplacements)).mapError (stopAt p.ruleResults.length)
    applyRules eng newline remaining rules (p.record a)

structure FilePlan where
  afterRaw : Bytes
  replacements : ℕ
  rules : List ℕ
  encoding : Text
  bom : Option Text
  newline : NewlineStyle

def decodingStop : DecodingError → PlanStop
  | .raised => .raised
  | e => .decoding e

def encodeResult (reg : CodecRegistry) (decoded : DecodedText) (text : Text) : Except PlanStop Bytes :=
  match encodeTextBytes reg decoded text with
  | none => .error .raised
  | some raw => .ok raw

/-- The part of `replace_files` that plans one file, from the bytes that were read. -/
def planFile (reg : CodecRegistry) (eng : RegexEngine) (raw : Bytes) (encoding : Option Text) (rules : List Dict)
    (remaining : ℕ) : Except PlanStop FilePlan := do
  let decoded ← (decodeTextBytes reg raw encoding).mapError decodingStop
  let p ← applyRules eng decoded.newline remaining rules { text := decoded.text }
  let afterRaw ← encodeResult reg decoded p.text
  pure ⟨afterRaw, p.fileReplacements, p.ruleResults, decoded.encoding, decoded.bom, decoded.newline⟩

/-! ## A rule that matches nothing -/

section
variable {text replacement : Text} {parsed : ParsedRule} {remaining : ℕ} {e : Edit}

theorem literalEdit_text (h : literalEdit text parsed replacement remaining = .ok e) : e.scan.text = text := by
  simp only [literalEdit] at h
  split_ifs at h
  all_goals
    obtain rfl := Except.ok.inj h
    exact (Scan.limit_text _ _).trans (scanLiteral_text parsed.pattern_ne_nil text)

theorem expressionEdit_text {expression : Expression} {literal : Bool}
    (h : expressionEdit expression text parsed literal replacement remaining = .ok e) : e.scan.text = text := by
  simp only [expressionEdit] at h
  split_ifs at h
  all_goals
    cases hv : replacementValue expression literal replacement with
    | none =>
      rw [hv] at h
      exact nomatch h
    | some expand =>
      rw [hv] at h
      obtain rfl := Except.ok.inj h
      first
        | exact expression.scan_text text
        | exact (Scan.limit_text _ _).trans (expression.scan_text text)

/-- A rule's edit divides the text it is applied to. -/
theorem ruleEdit_text {eng : RegexEngine} {rule : Dict} {newline : NewlineStyle}
    (h : ruleEdit eng text rule newline remaining = .ok e) : e.scan.text = text := by
  rw [ruleEdit] at h
  cases hparse : parseRule rule with
  | error x =>
    rw [hparse] at h
    exact nomatch h
  | ok parsed =>
    rw [hparse] at h
    simp only at h
    split_ifs at h
    · exact literalEdit_text h
    all_goals
      split at h
      · exact nomatch h
      · exact expressionEdit_text h

end

/-- A rule that matches nothing leaves the text alone. -/
theorem applyRule_unmatched {eng : RegexEngine} {text : Text} {rule : Dict} {newline : NewlineStyle} {remaining : ℕ}
    {a : Applied} (h : applyRule eng text rule newline remaining = .ok a) (hnone : a.replacements = 0) :
    a.text = text := by
  obtain ⟨e, he, h⟩ := bind_eq_ok.mp h
  obtain rfl := Except.ok.inj h
  rw [← ruleEdit_text he]
  exact Scan.rewrite_of_found_nil (List.length_eq_zero_iff.mp hnone) e.expand

theorem applyRules_unmatched {eng : RegexEngine} {newline : NewlineStyle} {remaining : ℕ} {rules : List Dict}
    {p q : FileProgress} (h : applyRules eng newline remaining rules p = .ok q) :
    p.fileReplacements ≤ q.fileReplacements ∧ (q.fileReplacements = p.fileReplacements → q.text = p.text) := by
  induction rules generalizing p with
  | nil =>
    obtain rfl := Except.ok.inj h
    exact ⟨le_rfl, fun _ => rfl⟩
  | cons rule rules ih =>
    obtain ⟨a, ha, h⟩ := bind_eq_ok.mp h
    have ha := (mapError_ok_iff _).mp ha
    have hrest := ih h
    simp only [FileProgress.record] at hrest
    refine ⟨by omega, fun heq => ?_⟩
    rw [hrest.2 (by omega)]
    exact applyRule_unmatched ha (by omega)

/-- What a plan is made of. -/
theorem planFile_ok {reg : CodecRegistry} {eng : RegexEngine} {raw : Bytes} {encoding : Option Text} {rules : List Dict}
    {remaining : ℕ} {plan : FilePlan} (h : planFile reg eng raw encoding rules remaining = .ok plan) :
    ∃ d p, decodeTextBytes reg raw encoding = .ok d ∧
      applyRules eng d.newline remaining rules { text := d.text } = .ok p ∧
      encodeTextBytes reg d p.text = some plan.afterRaw ∧ plan.replacements = p.fileReplacements ∧
      plan.rules = p.ruleResults := by
  obtain ⟨d, hd, h⟩ := bind_eq_ok.mp h
  obtain ⟨p, hp, h⟩ := bind_eq_ok.mp h
  obtain ⟨afterRaw, hafter, h⟩ := bind_eq_ok.mp h
  obtain rfl := Except.ok.inj h
  refine ⟨d, p, (mapError_ok_iff _).mp hd, hp, ?_, rfl, rfl⟩
  rw [encodeResult] at hafter
  split at hafter
  · exact nomatch hafter
  · next hencode =>
    obtain rfl := Except.ok.inj hafter
    exact hencode

/-- The codec layer is lossless on a file, and with it every replacement that matches
nothing, exactly on the inputs that round-trip. -/
theorem lossless_iff_roundTrips {reg : CodecRegistry} {raw : Bytes} {encoding : Option Text} {d : DecodedText}
    (h : decodeTextBytes reg raw encoding = .ok d) :
    (encodeTextBytes reg d d.text = some raw ∧
      ∀ eng rules remaining plan, planFile reg eng raw encoding rules remaining = .ok plan →
        plan.replacements = 0 → plan.afterRaw = raw) ↔ RoundTrips reg raw encoding := by
  rw [← encode_decoded_iff h, and_iff_left_iff_imp]
  intro hencode eng rules remaining plan hplan hnone
  obtain ⟨d', p, hd, hp, hafter, hcount, -⟩ := planFile_ok hplan
  obtain rfl := Except.ok.inj (h.symm.trans hd)
  have htext : p.text = d.text := (applyRules_unmatched hp).2 (hcount.symm.trans hnone)
  rw [htext, hencode] at hafter
  exact (Option.some.inj hafter).symm

/-- A registry that knows names by themselves, with Latin-1 as the only other codec. -/
def plainRegistry : CodecRegistry where
  native := .little
  canonical := some
  other _ := {
    decode := fun raw => .ok (raw.map fun b => Fin.ofNat _ b.val)
    encode := fun t => if t.all fun c => c.val < 256 then some (t.map fun c => Fin.ofNat _ c.val) else none }

/-- An engine that compiles no expression. -/
def noEngine : RegexEngine where
  compile _ _ := .error (txt "unsupported")
  escape := id

theorem lossless_plain_file :
    (encodeTextBytes plainRegistry ⟨txt "a", txt "utf-8", none, [], .none⟩ (txt "a") = some [0x61] ∧
      ∀ eng rules remaining plan, planFile plainRegistry eng [0x61] none rules remaining = .ok plan →
        plan.replacements = 0 → plan.afterRaw = [0x61]) ↔ RoundTrips plainRegistry [0x61] none :=
  lossless_iff_roundTrips (d := ⟨txt "a", txt "utf-8", none, [], .none⟩) rfl

def literalRule (pattern replacement : Text) : Dict :=
  [(txt "pattern", .str pattern), (txt "replacement", .str replacement)]

/-- A UTF-16 file without a mark, named as UTF-16: a rule that matches nothing adds a mark. -/
theorem utf16_file_gains_mark :
    (∃ d, decodeTextBytes plainRegistry [0x61, 0] (some (txt "utf-16")) = .ok d ∧
      encodeTextBytes plainRegistry d d.text = some [0xFF, 0xFE, 0x61, 0]) ∧
    ∃ plan, planFile plainRegistry noEngine [0x61, 0] (some (txt "utf-16")) [literalRule (txt "b") (txt "c")] 10 =
      .ok plan ∧ plan.replacements = 0 ∧ plan.afterRaw = [0xFF, 0xFE, 0x61, 0] :=
  ⟨⟨_, rfl, rfl⟩, _, rfl, rfl, rfl⟩

/-! ## Newline conventions -/

theorem applyRule_fits_iff {eng : RegexEngine} {text : Text} {rule : Dict} {newline : NewlineStyle} {remaining : ℕ}
    (hs : newline = .lf ∨ newline = .crlf ∨ newline = .cr) (htext : Fits newline text) {e : Edit}
    (he : ruleEdit eng text rule newline remaining = .ok e) :
    (∀ a, applyRule eng text rule newline remaining = .ok a → Fits newline a.text) ↔
      StepFits newline e.scan e.expand := by
  have happly : applyRule eng text rule newline remaining = .ok ⟨e.scan.rewrite e.expand, e.scan.found.length⟩ := by
    rw [applyRule, he]
    rfl
  rw [← ruleEdit_text he] at htext
  rw [← rewrite_fits_iff hs htext e.expand]
  constructor
  · intro h
    exact h _ happly
  · intro h a ha
    obtain rfl := Except.ok.inj (happly.symm.trans ha)
    exact h

/-- The first rules of an accepted list, and the next one. -/
theorem applyRules_append {eng : RegexEngine} {newline : NewlineStyle} {remaining : ℕ} (rules more : List Dict)
    (p : FileProgress) : applyRules eng newline remaining (rules ++ more) p =
      applyRules eng newline remaining rules p >>= applyRules eng newline remaining more := by
  induction rules generalizing p with
  | nil => rfl
  | cons rule rules ih =>
    simp only [List.cons_append, applyRules]
    cases (applyRule eng p.text rule newline (remaining - p.fileReplacements)).mapError (stopAt p.ruleResults.length) with
    | error e => rfl
    | ok a => exact ih _

/-- One more rule is applied. -/
theorem applyRules_take_succ {eng : RegexEngine} {newline : NewlineStyle} {remaining k : ℕ} {rules : List Dict}
    {start p : FileProgress} {rule : Dict} (hrule : rules[k]? = some rule) :
    applyRules eng newline remaining (rules.take (k + 1)) start = .ok p ↔
      ∃ q a, applyRules eng newline remaining (rules.take k) start = .ok q ∧
        applyRule eng q.text rule newline (remaining - q.fileReplacements) = .ok a ∧ p = q.record a := by
  rw [List.take_add_one, hrule, Option.toList_some, applyRules_append, bind_eq_ok]
  refine exists_congr fun q => ?_
  rw [exists_and_left]
  refine and_congr_right fun _ => ?_
  rw [applyRules, bind_eq_ok]
  refine exists_congr fun a => and_congr (mapError_ok_iff _) ?_
  exact ⟨fun h => (Except.ok.inj h).symm, fun h => congrArg Except.ok h.symm⟩

end WebOauthMcp.ReplaceRules
