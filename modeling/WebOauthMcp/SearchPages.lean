import WebOauthMcp.FileReplies

/-!
# Pages of search results

Search results are collected item by item: items before the offset are only counted,
later ones are taken while the whole reply fits. A text search collects while it reads
the backend's events, and what goes wrong there is reported as an error of the backend.
-/

namespace WebOauthMcp.SearchPages
open CodePoints AvoidedWords JsonText ExceptSteps ResponseBudget BudgetMetadata FileReplies

/-- What a collector is set up with. -/
structure PageSetup where
  offset : ℕ
  limit : ℕ
  resultKey : Text
  basePayload : Dict
  budget : Budget

structure PageState where
  seen : ℕ := 0
  items : List Json := []
  truncated : Bool := false
  stopReason : Text := txt "end_of_results"
  shouldStop : Bool := false

def candidatePayload (p : PageSetup) (items : List Json) (nextOffset : Option ℕ) : Dict :=
  dictSet (txt "next_offset") (optionalCount nextOffset) (dictSet p.resultKey (.arr items) p.basePayload)

/-- `_PageCollector.add`. -/
def add (enc : TokenEncoding) (p : PageSetup) (s : PageState) (item : Json) : Except Raised PageState :=
  if s.shouldStop then pure s
  else if s.seen < p.offset then pure { s with seen := s.seen + 1 }
  else if p.limit ≠ 0 ∧ p.limit ≤ s.items.length then
    pure { s with seen := s.seen + 1, truncated := true, stopReason := txt "limit", shouldStop := true }
  else do
    let candidate ← withBudgetMetadata enc
      (candidatePayload p (s.items ++ [item]) (some (p.offset + (s.items.length + 1)))) p.budget true
      (txt "token_budget")
    if candidate.2.fits then pure { s with seen := s.seen + 1, items := s.items ++ [item] }
    else
      pure { s with
        seen := s.seen + 1
        truncated := true
        stopReason := candidate.2.stopReason.getD (txt "token_budget")
        shouldStop := true }

def addAll (enc : TokenEncoding) (p : PageSetup) : List Json → PageState → Except Raised PageState
  | [], s => pure s
  | item :: items, s => do
    let s ← add enc p s item
    addAll enc p items s

/-- `_PageCollector.payload`. -/
def payload (enc : TokenEncoding) (p : PageSetup) (s : PageState) : Except Raised Dict := do
  let nextOffset := if s.truncated then some (p.offset + s.items.length) else none
  let rendered ← withBudgetMetadata enc (candidatePayload p s.items nextOffset) p.budget s.truncated s.stopReason
  pure rendered.1

/-- The reasons the producer itself stops for. -/
inductive ForcedStop
  | contextBufferLimit
  | malformedRipgrepEvent

def ForcedStop.reason : ForcedStop → Text
  | .contextBufferLimit => txt "context_buffer_limit"
  | .malformedRipgrepEvent => txt "malformed_ripgrep_event"

def forceStop (s : PageState) (stop : ForcedStop) : PageState :=
  { s with truncated := true, stopReason := stop.reason, shouldStop := true }

/-! ## The two searches -/

structure GlobCall where
  basePath : Text
  pattern : Text
  includeHidden : Bool
  respectGitignore : Bool
  gitignoreApplied : Bool
  excludePatterns : List Text

def globBasePayload (c : GlobCall) : Dict :=
  [(txt "success", .bool true), (txt "base_path", .str c.basePath), (txt "pattern", .str c.pattern),
    (txt "filters", .obj [(txt "include_hidden", .bool c.includeHidden),
      (txt "respect_gitignore", .bool c.respectGitignore), (txt "gitignore_applied", .bool c.gitignoreApplied),
      (txt "exclude_patterns", .arr (c.excludePatterns.map .str))])]

structure GlobMatch where
  path : Text
  isDir : Bool

def globItem (m : GlobMatch) : Json := .obj [(txt "path", .str m.path), (txt "is_dir", .bool m.isDir)]

def globSetup (c : GlobCall) (offset limit : ℕ) (maxTokens : ℕ+) : PageSetup :=
  ⟨offset, limit, txt "matches", globBasePayload c, { maxTokens }⟩

/-- `glob_files`, on the matches of the walk. Items after a stop change nothing. -/
def globFiles (enc : TokenEncoding) (c : GlobCall) (found : List GlobMatch) (offset limit : ℕ) (maxTokens : ℕ+) :
    Except Raised Dict := do
  let s ← addAll enc (globSetup c offset limit maxTokens) (found.map globItem) {}
  payload enc (globSetup c offset limit maxTokens) s

inductive GrepMode
  | content
  | filesWithMatches
  | count

def GrepMode.name : GrepMode → Text
  | .content => txt "content"
  | .filesWithMatches => txt "files_with_matches"
  | .count => txt "count"

def GrepMode.resultKey : GrepMode → Text
  | .content => txt "matches"
  | .filesWithMatches => txt "files"
  | .count => txt "counts"

structure GrepCall where
  basePath : Text
  pattern : Text
  mode : GrepMode
  includeHidden : Bool
  respectGitignore : Bool
  gitignoreApplied : Bool
  excludePatterns : List Text
  fileType : Option Text
  onlyMatching : Bool
  rgBinary : Text

def optionalStr : Option Text → Json
  | none => .null
  | some t => .str t

def grepBasePayload (c : GrepCall) : Dict :=
  [(txt "success", .bool true), (txt "base_path", .str c.basePath), (txt "pattern", .str c.pattern),
    (txt "output_mode", .str c.mode.name),
    (txt "filters", .obj [(txt "include_hidden", .bool c.includeHidden),
      (txt "respect_gitignore", .bool c.respectGitignore), (txt "gitignore_applied", .bool c.gitignoreApplied),
      (txt "exclude_patterns", .arr (c.excludePatterns.map .str)), (txt "file_type", optionalStr c.fileType)]),
    (txt "only_matching", .bool c.onlyMatching),
    (txt "backend", .obj [(txt "name", .str (txt "ripgrep")), (txt "binary", .str c.rgBinary),
      (txt "status", .str (txt "ok"))])]

/-- The items that the events of one run of the backend hand to the collector: while the
events are read, and when the last file is finished. -/
structure GrepRun where
  whileReading : List Json
  forced : Option ForcedStop
  atFinish : List Json

inductive GrepReply
  | page (d : Dict)
  | backendError

def afterReading (forced : Option ForcedStop) (s : PageState) : PageState :=
  match forced with
  | none => s
  | some stop => forceStop s stop

def grepSetup (c : GrepCall) (offset limit : ℕ) (maxTokens : ℕ+) : PageSetup :=
  ⟨offset, limit, c.mode.resultKey, grepBasePayload c, { maxTokens }⟩

/-- `grep_files`, from the first event of the backend on. Only while events are read are
`ValueError`s caught. -/
def grepFiles (enc : TokenEncoding) (c : GrepCall) (run : GrepRun) (offset limit : ℕ) (maxTokens : ℕ+) :
    Except Raised GrepReply :=
  let p := grepSetup c offset limit maxTokens
  match addAll enc p run.whileReading {} with
  | .error _ => pure .backendError
  | .ok s => do
    let s ← addAll enc p run.atFinish (afterReading run.forced s)
    let d ← payload enc p s
    pure (.page d)

/-! ## Which pages can be rendered -/

/-- The parts of the base payload that stay in every page. -/
def CleanSetup (p : PageSetup) : Prop :=
  CleanExcept (p.resultKey :: txt "next_offset" :: contractKeys) p.basePayload

theorem candidatePayload_clean_iff {p : PageSetup} (hkey : Measurable p.resultKey)
    (hreserved : p.resultKey ∉ txt "next_offset" :: contractKeys) (items : List Json) (nextOffset : Option ℕ) :
    CleanPayload (candidatePayload p items nextOffset) ↔ CleanSetup p ∧ ∀ j ∈ items, CleanJson j := by
  have hnext : CleanField (txt "next_offset", optionalCount nextOffset) :=
    cleanField_of_strings_nil (by decide) (strings_optionalCount nextOffset)
  have hitems : (∀ j ∈ items, CleanJson j) → CleanField (p.resultKey, .arr items) := fun h =>
    ⟨hkey, cleanJson_arr.mpr h⟩
  have hback : CleanPayload (candidatePayload p items nextOffset) → ∀ j ∈ items, CleanJson j := by
    intro h
    simp only [List.mem_cons, not_or] at hreserved
    have hmem : (p.resultKey, Json.arr items) ∈ candidatePayload p items nextOffset :=
      mem_dictSet_of_ne hreserved.1 mem_dictSet_self
    exact cleanJson_arr.mp (h _ hmem hreserved.2).2
  refine (and_iff_left_of_imp hback).symm.trans (and_congr_left fun hclean => ?_)
  have hswap : CleanExcept (txt "next_offset" :: contractKeys) (dictSet p.resultKey (.arr items) p.basePayload) ↔
      CleanSetup p := cleanExcept_set (hitems hclean)
  rw [CleanPayload, candidatePayload, cleanExcept_set hnext, hswap]

section
variable {enc : TokenEncoding} {p : PageSetup} (hkey : Measurable p.resultKey)
  (hreserved : p.resultKey ∉ txt "next_offset" :: contractKeys)

/-- The collected items and the stop reason can be rendered. -/
def CleanState (s : PageState) : Prop := (∀ j ∈ s.items, CleanJson j) ∧ Measurable s.stopReason

theorem measurable_stopReason (m : BudgetMeasurement) : Measurable (m.stopReason.getD (txt "token_budget")) := by
  refine measurable_of_isBenign ?_
  rw [BudgetMeasurement.stopReason]
  split_ifs
  · decide
  · decide
  · decide
  · decide

include hkey hreserved

theorem add_returns (hsetup : CleanSetup p) {s : PageState} (hs : CleanState s) {item : Json} (hitem : CleanJson item) :
    Returns (add enc p s item) CleanState := by
  rw [add]
  split_ifs
  · exact returns_pure hs
  · exact returns_pure hs
  · have hlimit : Measurable (txt "limit") := measurable_of_isBenign (by decide)
    exact returns_pure ⟨hs.1, hlimit⟩
  · have hitems : ∀ j ∈ s.items ++ [item], CleanJson j := by
      rw [List.forall_mem_append, List.forall_mem_singleton]
      exact ⟨hs.1, hitem⟩
    apply (withBudgetMetadata_returns ((candidatePayload_clean_iff hkey hreserved _ _).mpr ⟨hsetup, hitems⟩)
      (measurable_of_isBenign (by decide))).bind
    intro candidate _
    split_ifs
    · exact returns_pure ⟨hitems, hs.2⟩
    · exact returns_pure ⟨hs.1, measurable_stopReason candidate.2⟩

theorem addAll_returns (hsetup : CleanSetup p) {items : List Json} (hitems : ∀ j ∈ items, CleanJson j)
    {s : PageState} (hs : CleanState s) : Returns (addAll enc p items s) CleanState := by
  induction items generalizing s with
  | nil => exact returns_pure hs
  | cons item items ih =>
    rw [List.forall_mem_cons] at hitems
    apply (add_returns hkey hreserved hsetup hs hitems.1).bind
    intro s' hs'
    exact ih hitems.2 hs'

theorem payload_returns (hsetup : CleanSetup p) {s : PageState} (hs : CleanState s) :
    Returns (payload enc p s) fun _ => True := by
  apply (withBudgetMetadata_returns ((candidatePayload_clean_iff hkey hreserved _ _).mpr ⟨hsetup, hs.1⟩) hs.2).bind
  intro rendered _
  exact returns_pure trivial

theorem payload_clean {s : PageState} {d : Dict} (h : payload enc p s = .ok d) : CleanSetup p := by
  obtain ⟨rendered, hrendered, -⟩ := bind_eq_ok.mp h
  have hclean := (withBudgetMetadata_returns_iff enc _ _ _ _).mp ⟨rendered, hrendered⟩
  exact ((candidatePayload_clean_iff hkey hreserved _ _).mp hclean.1).1

/-- The item at the offset is measured, if the collector gets that far. -/
theorem addAll_measures {before after : List Json} {item : Json} {s s' : PageState} (hlimit : p.limit = 0)
    (hstop : s.shouldStop = false) (hoffset : s.seen + before.length = p.offset)
    (h : addAll enc p (before ++ item :: after) s = .ok s') : CleanJson item := by
  induction before generalizing s with
  | nil =>
    obtain ⟨t, ht, -⟩ := bind_eq_ok.mp h
    simp only [List.length_nil] at hoffset
    rw [add, hstop, if_neg (by simp), if_neg (by omega), if_neg (by simp [hlimit])] at ht
    obtain ⟨candidate, hcandidate, -⟩ := bind_eq_ok.mp ht
    have hclean := (withBudgetMetadata_returns_iff enc _ _ _ _).mp ⟨candidate, hcandidate⟩
    exact ((candidatePayload_clean_iff hkey hreserved _ _).mp hclean.1).2 item (by simp)
  | cons j before ih =>
    obtain ⟨t, ht, hrest⟩ := bind_eq_ok.mp h
    simp only [List.length_cons] at hoffset
    rw [add, hstop, if_neg (by simp), if_pos (by omega)] at ht
    obtain rfl := Except.ok.inj ht
    exact ih rfl (by simp only; omega) hrest

end

theorem cleanState_start : CleanState {} := ⟨by simp, measurable_of_isBenign (by decide)⟩

theorem addAll_append (enc : TokenEncoding) (p : PageSetup) (xs ys : List Json) (s : PageState) :
    addAll enc p (xs ++ ys) s = addAll enc p xs s >>= addAll enc p ys := by
  induction xs generalizing s with
  | nil => rfl
  | cons x xs ih =>
    rw [List.cons_append, addAll, addAll]
    cases add enc p s x with
    | error e => rfl
    | ok t => exact ih t

theorem add_stopped {enc : TokenEncoding} {p : PageSetup} {s : PageState} (h : s.shouldStop = true) (item : Json) :
    add enc p s item = .ok s := by
  rw [add, if_pos h]
  rfl

theorem addAll_stopped {enc : TokenEncoding} {p : PageSetup} {s : PageState} (h : s.shouldStop = true)
    (items : List Json) : addAll enc p items s = .ok s := by
  induction items with
  | nil => rfl
  | cons item items ih =>
    rw [addAll, add_stopped h]
    exact ih

/-! ## Glob search -/

/-- The texts that a glob search echoes. -/
def GlobCall.Clean (c : GlobCall) : Prop :=
  Measurable c.basePath ∧ Measurable c.pattern ∧ ∀ t ∈ c.excludePatterns, Measurable t

theorem cleanJson_patterns_iff (ts : List Text) : CleanJson (.arr (ts.map .str)) ↔ ∀ t ∈ ts, Measurable t := by
  rw [cleanJson_arr]
  simp only [List.forall_mem_map, cleanJson_str]

/-- Where no key is reserved, all fields count. -/
theorem cleanExcept_iff {keys : List Text} {d : Dict} (h : ∀ f ∈ d, f.1 ∉ keys) :
    CleanExcept keys d ↔ ∀ f ∈ d, CleanField f :=
  forall₂_congr fun f hf => ⟨fun hc => hc (h f hf), fun hc _ => hc⟩

theorem globBasePayload_clean_iff (c : GlobCall) :
    CleanExcept (txt "matches" :: txt "next_offset" :: contractKeys) (globBasePayload c) ↔ c.Clean := by
  have hkeys : ∀ f ∈ globBasePayload c, f.1 ∉ txt "matches" :: txt "next_offset" :: contractKeys := by
    simp only [globBasePayload, List.forall_mem_cons, List.not_mem_nil, false_implies, implies_true, and_true]
    decide
  have hpatterns : CleanField (txt "exclude_patterns", .arr (c.excludePatterns.map .str)) ↔
      ∀ t ∈ c.excludePatterns, Measurable t :=
    (cleanField_iff (by decide)).trans (cleanJson_patterns_iff _)
  have hfilters : CleanField (txt "filters", .obj [(txt "include_hidden", .bool c.includeHidden),
      (txt "respect_gitignore", .bool c.respectGitignore), (txt "gitignore_applied", .bool c.gitignoreApplied),
      (txt "exclude_patterns", .arr (c.excludePatterns.map .str))]) ↔ ∀ t ∈ c.excludePatterns, Measurable t := by
    rw [cleanField_iff (by decide), cleanJson_obj]
    simp only [List.forall_mem_cons, List.not_mem_nil, false_implies, implies_true, and_true]
    rw [and_iff_right (cleanField_bool (by decide)), and_iff_right (cleanField_bool (by decide)),
      and_iff_right (cleanField_bool (by decide)), hpatterns]
  rw [cleanExcept_iff hkeys]
  simp only [globBasePayload, List.forall_mem_cons, List.not_mem_nil, false_implies, implies_true, and_true]
  rw [and_iff_right (cleanField_bool (by decide)), cleanField_str_iff (by decide), cleanField_str_iff (by decide),
    hfilters]
  exact Iff.rfl

theorem globItem_clean_iff (m : GlobMatch) : CleanJson (globItem m) ↔ Measurable m.path := by
  rw [globItem, cleanJson_obj]
  simp only [List.forall_mem_cons, List.not_mem_nil, false_implies, implies_true, and_true]
  rw [and_iff_left (cleanField_bool (by decide)), cleanField_str_iff (by decide)]

/-- Every page of a glob search is rendered exactly when its paths and echoed arguments are
measurable. -/
theorem globFiles_returns_iff (enc : TokenEncoding) (c : GlobCall) (found : List GlobMatch) :
    (∀ offset limit maxTokens, ∃ d, globFiles enc c found offset limit maxTokens = .ok d) ↔
      c.Clean ∧ ∀ m ∈ found, Measurable m.path := by
  have hkey : Measurable (txt "matches") := measurable_of_isBenign (by decide)
  have hreserved : txt "matches" ∉ txt "next_offset" :: contractKeys := by decide
  constructor
  · intro h
    refine ⟨?_, fun m hm => ?_⟩
    · obtain ⟨d, hd⟩ := h 0 0 ⟨1, Nat.one_pos⟩
      obtain ⟨s, -, hd⟩ := bind_eq_ok.mp hd
      exact (globBasePayload_clean_iff c).mp (payload_clean hkey hreserved hd)
    · obtain ⟨before, after, rfl⟩ := List.append_of_mem hm
      -- the page that starts at this match measures it first
      obtain ⟨d, hd⟩ := h before.length 0 ⟨1, Nat.one_pos⟩
      obtain ⟨s, hs, -⟩ := bind_eq_ok.mp hd
      rw [List.map_append, List.map_cons] at hs
      have hoffset : 0 + (before.map globItem).length = before.length := by simp
      exact (globItem_clean_iff m).mp (addAll_measures hkey hreserved rfl rfl hoffset hs)
  · intro h offset limit maxTokens
    suffices hret : Returns (globFiles enc c found offset limit maxTokens) fun _ => True from hret.isOk
    have hitems : ∀ j ∈ found.map globItem, CleanJson j := by
      simp only [List.forall_mem_map, globItem_clean_iff]
      exact h.2
    have hsetup : CleanSetup (globSetup c offset limit maxTokens) := (globBasePayload_clean_iff c).mpr h.1
    apply (addAll_returns hkey hreserved hsetup hitems cleanState_start).bind
    intro s hs
    exact payload_returns hkey hreserved hsetup hs

/-! ## Text search -/

/-- The texts that a text search echoes. -/
structure GrepCall.Clean (c : GrepCall) : Prop where
  basePath : Measurable c.basePath
  pattern : Measurable c.pattern
  excludePatterns : ∀ t ∈ c.excludePatterns, Measurable t
  fileType : ∀ t, c.fileType = some t → Measurable t
  rgBinary : Measurable c.rgBinary

theorem cleanJson_optionalStr_iff (o : Option Text) : CleanJson (optionalStr o) ↔ ∀ t, o = some t → Measurable t := by
  cases o with
  | none => exact iff_of_true (cleanJson_of_strings_nil rfl) (by simp)
  | some t => simpa [optionalStr] using cleanJson_str

theorem grepBasePayload_clean_iff (c : GrepCall) :
    CleanExcept (c.mode.resultKey :: txt "next_offset" :: contractKeys) (grepBasePayload c) ↔ c.Clean := by
  have hkeys : ∀ f ∈ grepBasePayload c, f.1 ∉ c.mode.resultKey :: txt "next_offset" :: contractKeys := by
    simp only [grepBasePayload, List.forall_mem_cons, List.not_mem_nil, false_implies, implies_true, and_true]
    cases c.mode <;> decide
  have hmode : CleanField (txt "output_mode", .str c.mode.name) :=
    cleanField_benign (by decide) (by cases c.mode <;> decide)
  have hpatterns : CleanField (txt "exclude_patterns", .arr (c.excludePatterns.map .str)) ↔
      ∀ t ∈ c.excludePatterns, Measurable t :=
    (cleanField_iff (by decide)).trans (cleanJson_patterns_iff _)
  have htype : CleanField (txt "file_type", optionalStr c.fileType) ↔ ∀ t, c.fileType = some t → Measurable t :=
    (cleanField_iff (by decide)).trans (cleanJson_optionalStr_iff _)
  have hfilters : CleanField (txt "filters", .obj [(txt "include_hidden", .bool c.includeHidden),
      (txt "respect_gitignore", .bool c.respectGitignore), (txt "gitignore_applied", .bool c.gitignoreApplied),
      (txt "exclude_patterns", .arr (c.excludePatterns.map .str)), (txt "file_type", optionalStr c.fileType)]) ↔
      (∀ t ∈ c.excludePatterns, Measurable t) ∧ ∀ t, c.fileType = some t → Measurable t := by
    rw [cleanField_iff (by decide), cleanJson_obj]
    simp only [List.forall_mem_cons, List.not_mem_nil, false_implies, implies_true, and_true]
    rw [and_iff_right (cleanField_bool (by decide)), and_iff_right (cleanField_bool (by decide)),
      and_iff_right (cleanField_bool (by decide)), hpatterns, htype]
  have hbackend : CleanField (txt "backend", .obj [(txt "name", .str (txt "ripgrep")),
      (txt "binary", .str c.rgBinary), (txt "status", .str (txt "ok"))]) ↔ Measurable c.rgBinary := by
    rw [cleanField_iff (by decide), cleanJson_obj]
    simp only [List.forall_mem_cons, List.not_mem_nil, false_implies, implies_true, and_true]
    rw [and_iff_right (cleanField_benign (by decide) (by decide)),
      and_iff_left (cleanField_benign (by decide) (by decide)), cleanField_str_iff (by decide)]
  rw [cleanExcept_iff hkeys]
  simp only [grepBasePayload, List.forall_mem_cons, List.not_mem_nil, false_implies, implies_true, and_true]
  rw [and_iff_right (cleanField_bool (by decide)), and_iff_right hmode, and_iff_right (cleanField_bool (by decide)),
    cleanField_str_iff (by decide), cleanField_str_iff (by decide), hfilters, hbackend]
  constructor
  · intro h
    exact ⟨h.1, h.2.1, h.2.2.1.1, h.2.2.1.2, h.2.2.2⟩
  · intro h
    exact ⟨h.basePath, h.pattern, ⟨h.excludePatterns, h.fileType⟩, h.rgBinary⟩

/-- The items that reach the collector before it is stopped from outside. -/
def GrepRun.handed (run : GrepRun) : List Json :=
  run.whileReading ++ if run.forced.isSome then [] else run.atFinish

theorem GrepMode.resultKey_benign (m : GrepMode) : isBenign m.resultKey = true := by cases m <;> decide

theorem GrepMode.resultKey_free (m : GrepMode) : m.resultKey ∉ txt "next_offset" :: contractKeys := by
  cases m <;> decide

/-- Every page of a text search is rendered exactly when its items and echoed arguments are
measurable; otherwise some page is lost, to an exception or to an error of the backend. -/
theorem grepFiles_returns_iff (enc : TokenEncoding) (c : GrepCall) (run : GrepRun) :
    (∀ offset limit maxTokens, ∃ d, grepFiles enc c run offset limit maxTokens = .ok (.page d)) ↔
      c.Clean ∧ ∀ j ∈ run.handed, CleanJson j := by
  have hkey : Measurable c.mode.resultKey := measurable_of_isBenign c.mode.resultKey_benign
  have hreserved := c.mode.resultKey_free
  have hreply : ∀ {offset limit maxTokens d}, grepFiles enc c run offset limit maxTokens = .ok (.page d) →
      ∃ s t, addAll enc (grepSetup c offset limit maxTokens) run.whileReading {} = .ok s ∧
        addAll enc (grepSetup c offset limit maxTokens) run.atFinish
          (afterReading run.forced s) = .ok t ∧
        payload enc (grepSetup c offset limit maxTokens) t = .ok d := by
    intro offset limit maxTokens d h
    simp only [grepFiles] at h
    cases hs : addAll enc (grepSetup c offset limit maxTokens) run.whileReading {} with
    | error e =>
      rw [hs] at h
      exact nomatch h
    | ok s =>
      rw [hs] at h
      obtain ⟨t, ht, h⟩ := bind_eq_ok.mp h
      obtain ⟨d', hd, h⟩ := bind_eq_ok.mp h
      obtain rfl := GrepReply.page.inj (Except.ok.inj h)
      exact ⟨s, t, rfl, ht, hd⟩
  constructor
  · intro h
    refine ⟨?_, fun j hj => ?_⟩
    · obtain ⟨d, hd⟩ := h 0 0 ⟨1, Nat.one_pos⟩
      obtain ⟨s, t, -, -, hpage⟩ := hreply hd
      exact (grepBasePayload_clean_iff c).mp (payload_clean hkey hreserved hpage)
    · obtain ⟨before, after, hsplit⟩ := List.append_of_mem hj
      obtain ⟨d, hd⟩ := h before.length 0 ⟨1, Nat.one_pos⟩
      obtain ⟨s, t, hs, ht, -⟩ := hreply hd
      -- up to a stop from outside, both loops are one loop over what is handed over
      have hall : ∃ u, addAll enc (grepSetup c before.length 0 ⟨1, Nat.one_pos⟩) run.handed {} = .ok u := by
        rw [GrepRun.handed, addAll_append, hs]
        cases hforced : run.forced with
        | none =>
          rw [hforced] at ht
          exact ⟨t, ht⟩
        | some stop => exact ⟨s, rfl⟩
      obtain ⟨u, hu⟩ := hall
      rw [hsplit] at hu
      exact addAll_measures hkey hreserved rfl rfl (Nat.zero_add before.length) hu
  · intro h offset limit maxTokens
    have hsetup : CleanSetup (grepSetup c offset limit maxTokens) := (grepBasePayload_clean_iff c).mpr h.1
    have hfirst : ∀ j ∈ run.whileReading, CleanJson j := fun j hj => h.2 j (List.mem_append_left _ hj)
    have hread : Returns (addAll enc (grepSetup c offset limit maxTokens) run.whileReading {}) CleanState :=
      addAll_returns hkey hreserved hsetup hfirst cleanState_start
    obtain ⟨s, hs, hclean⟩ := hread
    have hsecond : Returns (addAll enc (grepSetup c offset limit maxTokens) run.atFinish
        (afterReading run.forced s)) CleanState := by
      cases hforced : run.forced with
      | none =>
        refine addAll_returns hkey hreserved hsetup (fun j hj => h.2 j ?_) hclean
        simp [GrepRun.handed, hforced, hj]
      | some stop =>
        have hreason : isBenign stop.reason = true := by cases stop <;> decide
        exact ⟨forceStop s stop, addAll_stopped rfl _, hclean.1, measurable_of_isBenign hreason⟩
    obtain ⟨t, ht, htclean⟩ := hsecond
    have hpage : Returns (payload enc (grepSetup c offset limit maxTokens) t) fun _ => True :=
      payload_returns hkey hreserved hsetup htclean
    obtain ⟨d, hd, -⟩ := hpage
    refine ⟨d, ?_⟩
    simp only [grepFiles, hs]
    exact bind_eq_ok.mpr ⟨t, ht, bind_eq_ok.mpr ⟨d, hd, rfl⟩⟩

end WebOauthMcp.SearchPages
