import WebOauthMcp.FileReplies
import WebOauthMcp.KillJob

/-!
# Pages of the job registry

The registry is read entry by entry, and every job is reconciled with the processes that it
finds. The page holds the most recent jobs of a status; from its end first warnings and then
jobs are dropped while the reply does not fit.
-/

namespace WebOauthMcp.JobListing
open CodePoints Words AvoidedWords JsonText ExceptSteps ResponseBudget BudgetMetadata FileReplies JobRecord KillJob

/-- A valid record of the registry, with what its reconciliation sees. -/
structure Job where
  jobId : Text
  startedAt : ℚ
  cwd : Text
  record : Record
  view : ProcessView
  /-- What the update of a stale record finds under the lock. None when it fails. -/
  relocked : Option Record
  /-- What a page shows of the job. -/
  summary : Dict
  shown : dictGet (txt "cwd") summary = some (.str cwd)

/-- An entry that is no valid record comes with its warning. -/
inductive Entry
  | job (j : Job)
  | skipped (name code message : Text)

structure Registry where
  /-- Why the registry cannot be listed: a symbolic link, not a directory, or not readable. -/
  fault : Option (Text × Text)
  /-- In the order of their names. -/
  entries : List Entry

def Entry.job? : Entry → Option Job
  | .job j => some j
  | .skipped _ _ _ => none

def maxWarningCharacters : ℕ := 240

def truncateWarningMessage (message : Text) : Text :=
  if message.length ≤ maxWarningCharacters then message else message.take (maxWarningCharacters - 1) ++ txt "…"

def Entry.warning? : Entry → Option Json
  | .job _ => none
  | .skipped name code message => some (.obj [(txt "entry", .str name), (txt "code", .str code),
      (txt "message", .str (truncateWarningMessage message))])

/-- `_reconcile_metadata` on a record as it was loaded. -/
def Job.reconciled (j : Job) : Record :=
  if j.record.Terminal then j.record
  else if bothGone j.view j.record then
    if j.record.status = .starting ∧ j.view.now - j.record.updatedAt < startingStaleGraceSeconds then j.record
    else match j.relocked with
      | none => j.record
      | some current => interruptIfStillStale j.view current
  else j.record

/-- `_durable_status`: a job that is starting is running. -/
def durableStatus (r : Record) : JobStatus := if r.Terminal then r.status else .running

/-- The job is still not terminal after reconciliation. -/
def Job.Running (j : Job) : Prop := ¬j.reconciled.Terminal

instance (j : Job) : Decidable j.Running := inferInstanceAs (Decidable (¬_))

theorem durableStatus_running (j : Job) : durableStatus j.reconciled = .running ↔ j.Running := by
  unfold durableStatus Job.Running
  split
  · next hterminal =>
    refine iff_of_false (fun hrunning => ?_) (not_not_intro hterminal)
    rw [Record.Terminal, hrunning] at hterminal
    exact Bool.false_ne_true hterminal
  · next hterminal => exact iff_of_true rfl hterminal

def Registry.jobs (g : Registry) : List Job := g.entries.filterMap Entry.job?

def Registry.running (g : Registry) : List Job := g.jobs.filter fun j => decide j.Running

/-! ## Pages -/

/-- All jobs, if there is no status. -/
structure JobListRequest where
  status : Option JobStatus
  offset : ℕ
  limit : ℕ
  maxTokens : ℕ+

structure JobListPage where
  jobs : List Job
  warnings : List Json
  stopReason : Text
  oversizedItem : Bool

inductive JobListReply
  | failed (code message : Text)
  | listed (total : ℕ) (page : JobListPage) (payload : Dict)

def maxJobListLimit : ℕ := 200
def jobListWarningLimit : ℕ := 20

def filterName : Option JobStatus → Text
  | none => txt "all"
  | some .starting => txt "starting"
  | some .running => txt "running"
  | some .succeeded => txt "succeeded"
  | some .failed => txt "failed"
  | some .killed => txt "killed"
  | some .interrupted => txt "interrupted"

/-- The later start comes first, and of two jobs with one start the first name. -/
def listedBefore (a b : Job) : Bool :=
  decide (b.startedAt < a.startedAt) || (decide (a.startedAt = b.startedAt) && textLe a.jobId b.jobId)

def discovered (g : Registry) (req : JobListRequest) : List Job :=
  (g.jobs.filter fun j => req.status.all fun status => decide (durableStatus j.reconciled = status)).mergeSort listedBefore

def selected (g : Registry) (req : JobListRequest) : List Job := ((discovered g req).drop req.offset).take req.limit

def allWarnings (g : Registry) : List Json := g.entries.filterMap Entry.warning?

def firstWarnings (g : Registry) : List Json := (allWarnings g).take jobListWarningLimit

section
variable (g : Registry) (req : JobListRequest)

def nextOffset (p : JobListPage) : Option ℕ :=
  if req.offset + p.jobs.length < (discovered g req).length ∧ p.jobs ≠ [] then some (req.offset + p.jobs.length) else none

def pageTruncated (p : JobListPage) : Bool := decide (req.offset + p.jobs.length < (discovered g req).length)

def skippedJson (p : JobListPage) : Json :=
  .obj [(txt "count", natJson (allWarnings g).length), (txt "reported", natJson p.warnings.length),
    (txt "truncated", .bool (decide (p.warnings.length < (allWarnings g).length))), (txt "warnings", .arr p.warnings)]

def pageState (p : JobListPage) : Text := if pageTruncated g req p then txt "truncated" else txt "complete"

def pageJson (p : JobListPage) (m : BudgetMeasurement) : Json :=
  .obj [(txt "state", .str (pageState g req p)), (txt "stop_reason", .str p.stopReason),
    (txt "returned_count", natJson p.jobs.length), (txt "estimated_tokens", natJson m.estimatedTokens),
    (txt "token_encoding", .str encodingName),
    (txt "effective_budgets", .obj [(txt "items", natJson req.limit), (txt "tokens", natJson req.maxTokens)]),
    (txt "budget_exceeded", .obj [(txt "tokens", .bool m.exceedsTokenBudget)]),
    (txt "oversized_item", .bool p.oversizedItem),
    (txt "continuation", .obj [(txt "has_more", .bool (pageTruncated g req p)), (txt "next_offset", optionalCount (nextOffset g req p))])]

/-- `_job_list_payload`. -/
def jobListPayload (p : JobListPage) (m : BudgetMeasurement) : Dict :=
  [(txt "success", .bool true), (txt "jobs", .arr (p.jobs.map fun j => .obj j.summary)),
    (txt "total", natJson (discovered g req).length), (txt "returned", natJson p.jobs.length),
    (txt "returned_count", natJson p.jobs.length), (txt "offset", natJson req.offset), (txt "limit", natJson req.limit),
    (txt "truncated", .bool (pageTruncated g req p)), (txt "next_offset", optionalCount (nextOffset g req p)),
    (txt "filter", .str (filterName req.status)), (txt "skipped", skippedJson g p), (txt "page", pageJson g req p m)]

variable (enc : TokenEncoding)

/-- The estimate is part of what is measured, so it is settled in a few rounds. -/
def measureRounds (p : JobListPage) : ℕ → BudgetMeasurement → Except Raised BudgetMeasurement
  | 0, m => pure m
  | rounds + 1, m => do
    let updated ← measureJsonPayload enc { maxTokens := req.maxTokens } (jobListPayload g req p m)
    if updated = m then pure m else measureRounds p rounds updated

/-- `_measure_job_list_response`. -/
def measureJobListResponse (p : JobListPage) : Except Raised BudgetMeasurement := do
  let m ← measure enc { maxTokens := req.maxTokens } []
  measureRounds g req enc p 4 m

/-- While the reply does not fit, one item less is kept. -/
def popUntilFits (measureOf : ℕ → Except Raised BudgetMeasurement) : ℕ → BudgetMeasurement → Except Raised (ℕ × BudgetMeasurement)
  | 0, m => pure (0, m)
  | kept + 1, m =>
    if m.fits then pure (kept + 1, m)
    else do
      let updated ← measureOf kept
      popUntilFits measureOf kept updated

def wholeStop : Text :=
  if req.offset + (selected g req).length < (discovered g req).length then txt "item_limit" else txt "end_of_results"

/-- All selected jobs, with some of the warnings. -/
def wholePage (warnings : ℕ) : JobListPage := ⟨selected g req, (firstWarnings g).take warnings, wholeStop g req, false⟩

/-- The first jobs, one more than that number. -/
def partPage (warnings more : ℕ) : JobListPage :=
  ⟨(selected g req).take (more + 1), (firstWarnings g).take warnings, txt "token_budget", false⟩

/-- The page after warnings and jobs were dropped. -/
def keptPage (warnings more : ℕ) : JobListPage :=
  if more < (selected g req).length - 1 then partPage g req warnings more else wholePage g req warnings

def oversizedPage (p : JobListPage) : JobListPage := { p with stopReason := txt "token_budget", oversizedItem := true }

/-- One job that does not fit is shown all the same. -/
def settlePage (warnings more : ℕ) (m : BudgetMeasurement) : Except Raised (JobListPage × BudgetMeasurement) :=
  if m.fits || (selected g req).isEmpty then pure (keptPage g req warnings more, m)
  else do
    let updated ← measureJobListResponse g req enc (oversizedPage (keptPage g req warnings more))
    pure (oversizedPage (keptPage g req warnings more), updated)

/-- `list_jobs`. -/
def listJobs : Except Raised JobListReply :=
  if req.status = some .starting then
    pure (.failed (txt "invalid_arguments") (txt "status must be one of: all, running, succeeded, failed, killed, interrupted."))
  else if ¬(1 ≤ req.limit ∧ req.limit ≤ maxJobListLimit) then
    pure (.failed (txt "invalid_arguments") (txt "limit must be an integer between 1 and 200."))
  else match g.fault with
    | some (code, message) => pure (.failed code message)
    | none => do
      let whole ← measureJobListResponse g req enc (wholePage g req (firstWarnings g).length)
      let warned ← popUntilFits (fun k => measureJobListResponse g req enc (wholePage g req k)) (firstWarnings g).length whole
      let kept ← popUntilFits (fun k => measureJobListResponse g req enc (partPage g req warned.1 k))
        ((selected g req).length - 1) warned.2
      let settled ← settlePage g req enc warned.1 kept.1 kept.2
      pure (.listed (discovered g req).length settled.1 (jobListPayload g req settled.1 settled.2))

end

theorem discovered_perm (g : Registry) {req : JobListRequest} (hstatus : req.status = some .running) :
    (discovered g req).Perm g.running := by
  unfold discovered Registry.running
  refine (List.mergeSort_perm _ _).trans (List.Perm.of_eq (List.filter_congr fun j _ => ?_))
  rw [hstatus]
  exact decide_eq_decide.mpr (durableStatus_running j)

/-! ## What can be measured -/

section
variable {g : Registry} {req : JobListRequest} {enc : TokenEncoding}

/-- What the page shows can be rendered. -/
def CleanPage (p : JobListPage) : Prop := (∀ j ∈ p.jobs, CleanJson (.obj j.summary)) ∧ ∀ w ∈ p.warnings, CleanJson w

theorem isBenign_filterName (status : Option JobStatus) : isBenign (filterName status) = true := by
  cases status with
  | none => decide
  | some status => cases status <;> decide

theorem cleanField_optionalCount {k : Text} (hk : isBenign k = true) (n : Option ℕ) : CleanField (k, optionalCount n) :=
  cleanField_of_strings_nil hk (strings_optionalCount n)

theorem skippedJson_clean_iff (p : JobListPage) : CleanJson (skippedJson g p) ↔ ∀ w ∈ p.warnings, CleanJson w := by
  have hwarnings : CleanField (txt "warnings", .arr p.warnings) ↔ ∀ w ∈ p.warnings, CleanJson w :=
    (cleanField_iff (by decide)).trans cleanJson_arr
  rw [skippedJson, cleanJson_obj]
  simp only [List.forall_mem_cons, List.not_mem_nil, false_implies, implies_true, and_true]
  rw [and_iff_right (cleanField_nat (by decide)), and_iff_right (cleanField_nat (by decide)),
    and_iff_right (cleanField_bool (by decide)), hwarnings]

theorem cleanJson_pageJson {p : JobListPage} (hstop : isBenign p.stopReason = true) (m : BudgetMeasurement) :
    CleanJson (pageJson g req p m) := by
  have hstate : isBenign (pageState g req p) = true := by
    unfold pageState
    split <;> decide
  have hcontinuation : CleanField (txt "continuation",
      .obj [(txt "has_more", .bool (pageTruncated g req p)), (txt "next_offset", optionalCount (nextOffset g req p))]) := by
    refine cleanField_of (by decide) (cleanJson_obj.mpr ?_)
    simp only [List.forall_mem_cons, List.not_mem_nil, false_implies, implies_true, and_true]
    exact ⟨cleanField_bool (by decide), cleanField_optionalCount (by decide) _⟩
  have hbudgets : CleanField (txt "effective_budgets", .obj [(txt "items", natJson req.limit), (txt "tokens", natJson req.maxTokens)]) := by
    refine cleanField_of (by decide) (cleanJson_obj.mpr ?_)
    simp only [List.forall_mem_cons, List.not_mem_nil, false_implies, implies_true, and_true]
    exact ⟨cleanField_nat (by decide), cleanField_nat (by decide)⟩
  have hexceeded : CleanField (txt "budget_exceeded", .obj [(txt "tokens", .bool m.exceedsTokenBudget)]) := by
    refine cleanField_of (by decide) (cleanJson_obj.mpr ?_)
    rw [List.forall_mem_singleton]
    exact cleanField_bool (by decide)
  rw [pageJson, cleanJson_obj]
  simp only [List.forall_mem_cons, List.not_mem_nil, false_implies, implies_true, and_true]
  exact ⟨cleanField_benign (by decide) hstate, cleanField_benign (by decide) hstop, cleanField_nat (by decide), cleanField_nat (by decide),
    cleanField_benign (by decide) (by decide), hbudgets, hexceeded, cleanField_bool (by decide), hcontinuation⟩

theorem jobListPayload_clean_iff {p : JobListPage} (hstop : isBenign p.stopReason = true) (m : BudgetMeasurement) :
    CleanExcept [] (jobListPayload g req p m) ↔ CleanPage p := by
  have hjobs : CleanField (txt "jobs", .arr (p.jobs.map fun j => .obj j.summary)) ↔ ∀ j ∈ p.jobs, CleanJson (.obj j.summary) := by
    rw [cleanField_iff (by decide), cleanJson_arr, List.forall_mem_map]
  have hskipped : CleanField (txt "skipped", skippedJson g p) ↔ ∀ w ∈ p.warnings, CleanJson w :=
    (cleanField_iff (by decide)).trans (skippedJson_clean_iff p)
  have hpage : CleanField (txt "page", pageJson g req p m) := cleanField_of (by decide) (cleanJson_pageJson hstop m)
  simp only [CleanExcept, List.not_mem_nil, not_false_eq_true, forall_const, jobListPayload, List.forall_mem_cons, false_implies,
    implies_true, and_true]
  rw [and_iff_right (cleanField_bool (by decide)), and_iff_right (cleanField_nat (by decide)), and_iff_right (cleanField_nat (by decide)),
    and_iff_right (cleanField_nat (by decide)), and_iff_right (cleanField_nat (by decide)), and_iff_right (cleanField_nat (by decide)),
    and_iff_right (cleanField_bool (by decide)), and_iff_right (cleanField_optionalCount (by decide) _),
    and_iff_right (cleanField_benign (by decide) (isBenign_filterName req.status)), hskipped, and_iff_left hpage, hjobs]
  exact Iff.rfl

theorem measureRounds_returns {p : JobListPage} (hstop : isBenign p.stopReason = true) (hclean : CleanPage p) (rounds : ℕ)
    (m : BudgetMeasurement) : ∃ r, measureRounds g req enc p rounds m = .ok r := by
  induction rounds generalizing m with
  | zero => exact ⟨m, rfl⟩
  | succ rounds ih =>
    obtain ⟨updated, hupdated⟩ := (measureJsonPayload_returns_iff enc { maxTokens := req.maxTokens } _).mpr
      ((jobListPayload_clean_iff hstop m).mpr hclean)
    by_cases hsame : updated = m
    · exact ⟨m, bind_eq_ok.mpr ⟨updated, hupdated, if_pos hsame⟩⟩
    · obtain ⟨r, hr⟩ := ih updated
      exact ⟨r, bind_eq_ok.mpr ⟨updated, hupdated, (if_neg hsame).trans hr⟩⟩

/-- A page is measured exactly when all that it shows can be rendered. -/
theorem measureJobListResponse_returns_iff {p : JobListPage} (hstop : isBenign p.stopReason = true) :
    (∃ m, measureJobListResponse g req enc p = .ok m) ↔ CleanPage p := by
  have hnil : Measurable [] := measurable_of_isBenign rfl
  constructor
  · intro h
    obtain ⟨m, hm⟩ := h
    obtain ⟨m₀, -, hrounds⟩ := bind_eq_ok.mp hm
    obtain ⟨updated, hupdated, -⟩ := bind_eq_ok.mp hrounds
    exact (jobListPayload_clean_iff hstop m₀).mp ((measureJsonPayload_returns_iff enc _ _).mp ⟨updated, hupdated⟩)
  · intro hclean
    obtain ⟨m₀, hm₀⟩ := (measure_returns_iff enc { maxTokens := req.maxTokens } []).mpr hnil
    obtain ⟨m, hm⟩ := measureRounds_returns hstop hclean 4 m₀
    exact ⟨m, bind_eq_ok.mpr ⟨m₀, hm₀, hm⟩⟩

/-! ## Dropping what does not fit -/

section
variable {measureOf : ℕ → Except Raised BudgetMeasurement}

theorem popUntilFits_returns {n : ℕ} (h : ∀ k < n, ∃ m, measureOf k = .ok m) (m : BudgetMeasurement) :
    ∃ r, popUntilFits measureOf n m = .ok r := by
  induction n generalizing m with
  | zero => exact ⟨(0, m), rfl⟩
  | succ n ih =>
    by_cases hfits : m.fits = true
    · exact ⟨(n + 1, m), if_pos hfits⟩
    · obtain ⟨updated, hupdated⟩ := h n (Nat.lt_succ_self n)
      obtain ⟨r, hr⟩ := ih (fun k hk => h k (Nat.lt_succ_of_lt hk)) updated
      exact ⟨r, (if_neg hfits).trans (bind_eq_ok.mpr ⟨updated, hupdated, hr⟩)⟩

theorem popUntilFits_le {n : ℕ} {m : BudgetMeasurement} {r : ℕ × BudgetMeasurement} (h : popUntilFits measureOf n m = .ok r) :
    r.1 ≤ n := by
  induction n generalizing m with
  | zero => exact (congrArg Prod.fst (Except.ok.inj h)).ge
  | succ n ih =>
    unfold popUntilFits at h
    split at h
    · exact (congrArg Prod.fst (Except.ok.inj h)).ge
    · obtain ⟨updated, -, h⟩ := bind_eq_ok.mp h
      exact Nat.le_succ_of_le (ih h)

/-- Nothing is dropped from what fits, and from nothing. -/
theorem popUntilFits_all_iff {n : ℕ} {m : BudgetMeasurement} {r : ℕ × BudgetMeasurement} (h : popUntilFits measureOf n m = .ok r) :
    r.1 = n ↔ n = 0 ∨ m.fits = true := by
  cases n with
  | zero => exact iff_of_true (Nat.le_zero.mp (popUntilFits_le h)) (.inl rfl)
  | succ n =>
    unfold popUntilFits at h
    split at h
    · next hfits => exact iff_of_true (congrArg Prod.fst (Except.ok.inj h)).symm (.inr hfits)
    · next hfits =>
      obtain ⟨updated, -, h⟩ := bind_eq_ok.mp h
      have hle := popUntilFits_le h
      exact iff_of_false (by omega) (fun hor => hor.elim (Nat.succ_ne_zero n) hfits)

/-- In the end it fits when it fitted with some number of items. -/
theorem popUntilFits_fits_iff {n : ℕ} {m : BudgetMeasurement} {r : ℕ × BudgetMeasurement} (h : popUntilFits measureOf n m = .ok r) :
    r.2.fits = true ↔ m.fits = true ∨ ∃ k < n, ∃ m', measureOf k = .ok m' ∧ m'.fits = true := by
  induction n generalizing m with
  | zero =>
    cases Except.ok.inj h
    exact (or_iff_left fun hnone => by
      obtain ⟨k, hk, -⟩ := hnone
      exact Nat.not_lt_zero k hk).symm
  | succ n ih =>
    unfold popUntilFits at h
    split at h
    · next hfits =>
      cases Except.ok.inj h
      exact iff_of_true hfits (.inl hfits)
    · next hfits =>
      obtain ⟨updated, hupdated, h⟩ := bind_eq_ok.mp h
      rw [ih h, or_iff_right hfits]
      constructor
      · intro hor
        cases hor with
        | inl hnow => exact ⟨n, Nat.lt_succ_self n, updated, hupdated, hnow⟩
        | inr hlater =>
          obtain ⟨k, hk, hm⟩ := hlater
          exact ⟨k, Nat.lt_succ_of_lt hk, hm⟩
      · intro hsome
        obtain ⟨k, hk, m', hm', hfits'⟩ := hsome
        cases Nat.lt_succ_iff_lt_or_eq.mp hk with
        | inl hlt => exact .inr ⟨k, hlt, m', hm', hfits'⟩
        | inr heq =>
          subst heq
          cases Except.ok.inj (hupdated.symm.trans hm')
          exact .inl hfits'

end

/-! ## The page -/

variable (g req enc) in
/-- The page with all selected jobs fits with some number of warnings. -/
def FitsWhole : Prop :=
  ∃ k ≤ (firstWarnings g).length, ∃ m, measureJobListResponse g req enc (wholePage g req k) = .ok m ∧ m.fits = true

theorem isBenign_wholeStop : isBenign (wholeStop g req) = true := by
  unfold wholeStop
  split <;> decide

theorem cleanPage_whole (hclean : CleanPage (wholePage g req (firstWarnings g).length)) (k : ℕ) : CleanPage (wholePage g req k) := by
  refine ⟨hclean.1, fun w hw => hclean.2 w ?_⟩
  rw [wholePage, List.take_length]
  exact List.mem_of_mem_take hw

theorem cleanPage_part (hclean : CleanPage (wholePage g req (firstWarnings g).length)) (k n : ℕ) : CleanPage (partPage g req k n) :=
  ⟨fun j hj => hclean.1 j (List.mem_of_mem_take hj), (cleanPage_whole hclean k).2⟩

theorem isBenign_partStop : isBenign (txt "token_budget") = true := by decide

theorem cleanPage_kept (hclean : CleanPage (wholePage g req (firstWarnings g).length)) (warnings more : ℕ) :
    CleanPage (keptPage g req warnings more) := by
  unfold keptPage
  split
  · exact cleanPage_part hclean warnings more
  · exact cleanPage_whole hclean warnings

theorem settlePage_returns (hclean : CleanPage (wholePage g req (firstWarnings g).length)) (warnings more : ℕ) (m : BudgetMeasurement) :
    ∃ r, settlePage g req enc warnings more m = .ok r := by
  unfold settlePage
  split
  · exact ⟨_, rfl⟩
  · have hpage : CleanPage (oversizedPage (keptPage g req warnings more)) := cleanPage_kept hclean warnings more
    obtain ⟨updated, hupdated⟩ : ∃ updated, measureJobListResponse g req enc (oversizedPage (keptPage g req warnings more)) = .ok updated :=
      (measureJobListResponse_returns_iff isBenign_partStop).mpr hpage
    exact ⟨_, bind_eq_ok.mpr ⟨updated, hupdated, rfl⟩⟩

theorem keptPage_jobs {warnings more : ℕ} (hmore : more ≤ (selected g req).length - 1) :
    (keptPage g req warnings more).jobs = (selected g req).take (more + 1) := by
  unfold keptPage
  split
  · rfl
  · next hall =>
    have hlength : (selected g req).length ≤ more + 1 := by omega
    exact (List.take_of_length_le hlength).symm

theorem settlePage_jobs {warnings more : ℕ} {m : BudgetMeasurement} {r : JobListPage × BudgetMeasurement}
    (hmore : more ≤ (selected g req).length - 1) (h : settlePage g req enc warnings more m = .ok r) :
    r.1.jobs = (selected g req).take (more + 1) := by
  unfold settlePage at h
  split at h
  · cases Except.ok.inj h
    exact keptPage_jobs hmore
  · obtain ⟨updated, -, h⟩ := bind_eq_ok.mp h
    cases Except.ok.inj h
    exact keptPage_jobs hmore

section
variable (hstatus : req.status ≠ some .starting) (hlimit : 1 ≤ req.limit ∧ req.limit ≤ maxJobListLimit) (hfault : g.fault = none)
include hstatus hlimit hfault

/-- A registry is listed exactly when the first page can be rendered. -/
theorem listJobs_returns_iff : (∃ r, listJobs g req enc = .ok r) ↔ CleanPage (wholePage g req (firstWarnings g).length) := by
  rw [listJobs, if_neg hstatus, if_neg (not_not_intro hlimit), hfault]
  constructor
  · intro h
    obtain ⟨r, hr⟩ := h
    obtain ⟨whole, hwhole, -⟩ := bind_eq_ok.mp hr
    exact (measureJobListResponse_returns_iff isBenign_wholeStop).mp ⟨whole, hwhole⟩
  · intro hclean
    have hwholes : ∀ k, ∃ m, measureJobListResponse g req enc (wholePage g req k) = .ok m := fun k =>
      (measureJobListResponse_returns_iff isBenign_wholeStop).mpr (cleanPage_whole hclean k)
    have hparts : ∀ k n, ∃ m, measureJobListResponse g req enc (partPage g req k n) = .ok m := fun k n =>
      (measureJobListResponse_returns_iff (g := g) (p := partPage g req k n) isBenign_partStop).mpr (cleanPage_part hclean k n)
    obtain ⟨whole, hwhole⟩ := hwholes (firstWarnings g).length
    obtain ⟨warned, hwarned⟩ := popUntilFits_returns (n := (firstWarnings g).length) (fun k _ => hwholes k) whole
    obtain ⟨kept, hkept⟩ := popUntilFits_returns (n := (selected g req).length - 1) (fun k _ => hparts warned.1 k) warned.2
    obtain ⟨settled, hsettled⟩ : ∃ settled, settlePage g req enc warned.1 kept.1 kept.2 = .ok settled := settlePage_returns hclean _ _ _
    exact ⟨_, bind_eq_ok.mpr ⟨whole, hwhole, bind_eq_ok.mpr ⟨warned, hwarned, bind_eq_ok.mpr ⟨kept, hkept,
      bind_eq_ok.mpr ⟨settled, hsettled, rfl⟩⟩⟩⟩⟩

/-- The reply shows one of the selected jobs at least, if there is one. -/
theorem listJobs_shown {r : JobListReply} (h : listJobs g req enc = .ok r) : ∃ page m n,
    r = .listed (discovered g req).length page (jobListPayload g req page m) ∧ page.jobs = (selected g req).take (n + 1) := by
  rw [listJobs, if_neg hstatus, if_neg (not_not_intro hlimit), hfault] at h
  obtain ⟨whole, -, h⟩ := bind_eq_ok.mp h
  obtain ⟨warned, -, h⟩ := bind_eq_ok.mp h
  obtain ⟨kept, hkept, h⟩ := bind_eq_ok.mp h
  obtain ⟨settled, hsettled, h⟩ := bind_eq_ok.mp h
  exact ⟨settled.1, settled.2, kept.1, (Except.ok.inj h).symm, settlePage_jobs (popUntilFits_le hkept) hsettled⟩

/-- The page holds the first of the selected jobs, and all of them when they are few or fit. -/
theorem listJobs_page {r : JobListReply} (h : listJobs g req enc = .ok r) : ∃ page payload,
    r = .listed (discovered g req).length page payload ∧ page.jobs <+: selected g req ∧
      (page.jobs = selected g req ↔ (selected g req).length ≤ 1 ∨ FitsWhole g req enc) := by
  rw [listJobs, if_neg hstatus, if_neg (not_not_intro hlimit), hfault] at h
  obtain ⟨whole, hwhole, h⟩ := bind_eq_ok.mp h
  obtain ⟨warned, hwarned, h⟩ := bind_eq_ok.mp h
  obtain ⟨kept, hkept, h⟩ := bind_eq_ok.mp h
  obtain ⟨settled, hsettled, h⟩ := bind_eq_ok.mp h
  have hle := popUntilFits_le hkept
  have hjobs := settlePage_jobs hle hsettled
  refine ⟨settled.1, _, (Except.ok.inj h).symm, hjobs ▸ List.take_prefix _ _, ?_⟩
  have hfits : warned.2.fits = true ↔ FitsWhole g req enc := by
    rw [popUntilFits_fits_iff hwarned]
    constructor
    · intro hor
      cases hor with
      | inl hnow => exact ⟨_, Nat.le_refl _, whole, hwhole, hnow⟩
      | inr hlater =>
        obtain ⟨k, hk, hm⟩ := hlater
        exact ⟨k, Nat.le_of_lt hk, hm⟩
    · intro hsome
      obtain ⟨k, hk, m, hm, hfits⟩ := hsome
      cases Nat.lt_or_eq_of_le hk with
      | inl hlt => exact .inr ⟨k, hlt, m, hm, hfits⟩
      | inr heq =>
        subst heq
        cases Except.ok.inj (hwhole.symm.trans hm)
        exact .inl hfits
  have hall : (selected g req).take (kept.1 + 1) = selected g req ↔ kept.1 = (selected g req).length - 1 ∨ (selected g req).length = 0 := by
    rw [List.take_eq_self_iff]
    omega
  rw [hjobs, hall, popUntilFits_all_iff hkept, hfits]
  constructor
  · intro hor
    exact hor.elim (fun h => h.imp_left fun h => by omega) fun h => .inl (by omega)
  · intro hor
    exact .inl (hor.imp_left fun h => by omega)

end

end

end WebOauthMcp.JobListing
