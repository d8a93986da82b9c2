import WebOauthMcp.AppServerAdapter
import WebOauthMcp.JobListing

/-!
# Whether waiting is justified

The verdict on a directory: a job that runs there, a session of tmux with its primary pane
there, or nothing to wait for. The jobs are those of one page of the registry, so the verdict
is sound exactly when that page holds all running jobs.
-/

namespace WebOauthMcp.ExecutionState
open CodePoints Words JsonText ExceptSteps ResponseBudget BudgetMetadata JobRecord AppServerAdapter JobListing

variable {P α : Type}

structure Pane where
  sessionName : Text
  sessionId : Text
  windowIndex : ℤ
  paneIndex : ℤ
  currentPath : Text

/-- What a call finds. -/
structure Surroundings (P : Type) where
  registry : Registry
  /-- The rows of all panes, or why there are none. -/
  panes : Except (Text × Text) (List Pane)
  /-- A path of the file system, resolved. Some are refused. -/
  resolve : Text → Option P
  effectiveCwd : P
  maxTokens : ℕ+

inductive Fault
  | raised (r : Raised)
  | path

inductive Activity
  | activeProcess
  | interactiveSession
  | activityUnknown
  | nextActionRequired
  deriving DecidableEq

def Activity.text : Activity → Text
  | .activeProcess => txt "ACTIVE_PROCESS"
  | .interactiveSession => txt "INTERACTIVE_SESSION_REQUIRES_INSPECTION"
  | .activityUnknown => txt "ACTIVITY_UNKNOWN"
  | .nextActionRequired => txt "NEXT_ACTION_REQUIRED"

def Activity.requiredAction : Activity → Text
  | .activeProcess => txt "POLL_OR_INSPECT_ACTIVE_PROCESS"
  | .interactiveSession => txt "INSPECT_TMUX_STATUS_AND_CAPTURE"
  | .activityUnknown => txt "RESOLVE_ACTIVITY_UNCERTAINTY"
  | .nextActionRequired => txt "INVOKE_NEXT_TOOL_OR_RETURN_CHECKPOINT"

structure Verdict where
  success : Bool
  state : Activity
  waitingJustified : Bool
  requiredAction : Text
  runningJobs : List Job
  runningJobCount : ℕ
  tmuxSessions : List Pane
  tmuxSessionCount : ℕ
  globalRunningJobCount : ℕ
  globalTmuxSessionCount : ℕ
  jobsError : Option (Text × Text)
  tmuxError : Option (Text × Text)

/-! ## Sessions -/

def paneLe (a b : Pane) : Bool :=
  if a.sessionName = b.sessionName then decide (a.windowIndex < b.windowIndex ∨ a.windowIndex = b.windowIndex ∧ a.paneIndex ≤ b.paneIndex)
  else textLe a.sessionName b.sessionName

/-- `list_sessions`: a session is shown with its primary pane, the first one of its panes. -/
def listSessions (rows : List Pane) : List Pane :=
  let sorted := rows.mergeSort paneLe
  ((sorted.map Pane.sessionId).eraseDups.filterMap fun id => sorted.find? fun row => decide (row.sessionId = id)).mergeSort
    fun a b => textLe a.sessionName b.sessionName

/-! ## The page of running jobs -/

/-- The directory that a page shows for a job. -/
def shownCwd (j : Job) : Text := ((dictGet (txt "cwd") j.summary).bind textOf).getD []

theorem shownCwd_eq (j : Job) : shownCwd j = j.cwd := by
  rw [shownCwd, j.shown]
  rfl

section
variable (x : Surroundings P)

def jobRequest : JobListRequest := ⟨some .running, 0, 20, x.maxTokens⟩

def pageJobs : JobListReply → List Job
  | .failed _ _ => []
  | .listed _ page _ => page.jobs

def jobsError : JobListReply → Option (Text × Text)
  | .failed code message => some (code, message)
  | .listed _ _ _ => none

def allSessions : List Pane :=
  match x.panes with
  | .ok rows => listSessions rows
  | .error _ => []

def tmuxError : Option (Text × Text) :=
  match x.panes with
  | .ok _ => none
  | .error e => some e

def observed (jobs : JobListReply) : Bool := (jobsError jobs).isNone && (tmuxError x).isNone

/-- One page holds all running jobs. -/
def OnePage (enc : TokenEncoding) : Prop :=
  x.registry.running.length ≤ 20 ∧ (x.registry.running.length ≤ 1 ∨ FitsWhole x.registry (jobRequest x) enc)

theorem jobRequest_status : (jobRequest x).status ≠ some .starting := by
  have hstatus : some JobStatus.running ≠ some .starting := by decide
  exact hstatus

theorem jobRequest_limit : 1 ≤ (jobRequest x).limit ∧ (jobRequest x).limit ≤ maxJobListLimit := by
  have hlimit : 1 ≤ 20 ∧ 20 ≤ maxJobListLimit := by decide
  exact hlimit

variable {x}

theorem listJobs_fault {enc : TokenEncoding} {e : Text × Text} (h : x.registry.fault = some e) :
    listJobs x.registry (jobRequest x) enc = .ok (.failed e.1 e.2) := by
  rw [listJobs, if_neg (jobRequest_status x), if_neg (not_not_intro (jobRequest_limit x)), h]
  rfl

theorem discovered_running : (discovered x.registry (jobRequest x)).Perm x.registry.running := discovered_perm x.registry rfl

theorem selected_running (h : x.registry.running.length ≤ 20) : selected x.registry (jobRequest x) = discovered x.registry (jobRequest x) := by
  rw [selected, jobRequest, List.drop_zero]
  exact List.take_of_length_le (discovered_running.length_eq.trans_le h)

/-- The page is as long as there are running jobs exactly when it holds them all. -/
theorem pageJobs_of_listed {enc : TokenEncoding} {r : JobListReply} (hfault : x.registry.fault = none)
    (h : listJobs x.registry (jobRequest x) enc = .ok r) :
    jobsError r = none ∧ pageJobs r <+: selected x.registry (jobRequest x) ∧
      ((pageJobs r).length = x.registry.running.length → OnePage x enc) ∧ (OnePage x enc → (pageJobs r).Perm x.registry.running) := by
  obtain ⟨page, payload, hr, hfront, hall⟩ := listJobs_page (jobRequest_status x) (jobRequest_limit x) hfault h
  subst hr
  have hlength := discovered_running (x := x).length_eq
  have hselected : (selected x.registry (jobRequest x)).length ≤ x.registry.running.length := by
    rw [selected, List.length_take, List.length_drop, ← hlength]
    omega
  have hlimit : (selected x.registry (jobRequest x)).length ≤ 20 := by
    rw [selected, List.length_take]
    exact Nat.min_le_left _ _
  refine ⟨rfl, hfront, fun hcount => ?_, fun hone => ?_⟩
  · have hcount : page.jobs.length = x.registry.running.length := hcount
    have hle := hfront.length_le
    have hwhole : (selected x.registry (jobRequest x)).length = x.registry.running.length := by omega
    refine ⟨hwhole ▸ hlimit, ?_⟩
    rw [← hwhole]
    exact hall.mp (hfront.eq_of_length (hcount.trans hwhole.symm))
  · have hwhole := selected_running hone.1
    have hjobs : page.jobs = discovered x.registry (jobRequest x) := by
      refine (hall.mpr ?_).trans hwhole
      rw [hwhole, hlength]
      exact hone.2
    exact (List.Perm.of_eq hjobs).trans discovered_running

theorem clean_whole_iff {enc : TokenEncoding} (hone : OnePage x enc) :
    CleanPage (wholePage x.registry (jobRequest x) (firstWarnings x.registry).length) ↔
      (∀ j ∈ x.registry.running, CleanJson (.obj j.summary)) ∧ ∀ w ∈ firstWarnings x.registry, CleanJson w := by
  rw [CleanPage, wholePage, List.take_length, selected_running hone.1]
  exact and_congr_left fun _ => forall_congr' fun j => imp_congr_left discovered_running.mem_iff

end

/-! ## The verdict -/

def activity (runningJobs : List Job) (sessions : List Pane) (seen : Bool) : Activity :=
  if !runningJobs.isEmpty then .activeProcess
  else if !sessions.isEmpty then .interactiveSession
  else if !seen then .activityUnknown
  else .nextActionRequired

theorem activity_active_iff {jobs : List Job} {sessions : List Pane} {seen : Bool} :
    activity jobs sessions seen = .activeProcess ↔ jobs ≠ [] := by
  cases jobs <;> cases sessions <;> cases seen <;> simp [activity]

theorem activity_next_iff {jobs : List Job} {sessions : List Pane} {seen : Bool} :
    activity jobs sessions seen = .nextActionRequired ↔ jobs = [] ∧ sessions = [] ∧ seen = true := by
  cases jobs <;> cases sessions <;> cases seen <;> simp [activity]

section
variable [DecidableEq P] (x : Surroundings P)

/-- `same_cwd`. -/
def sameCwd (path : Text) : Except Fault Bool :=
  if path = [] then pure false
  else match x.resolve path with
    | none => throw .path
    | some p => pure (decide (p = x.effectiveCwd))

/-- The items whose paths lead to the directory. -/
def keepSame (pathOf : α → Text) : List α → Except Fault (List α)
  | [] => pure []
  | a :: as => do
    let same ← sameCwd x (pathOf a)
    let rest ← keepSame pathOf as
    pure (if same then a :: rest else rest)

/-- The reply, from the observations and from what of them is in the directory. -/
def verdict (jobs : JobListReply) (runningJobs : List Job) (sessions : List Pane) : Verdict where
  success := observed x jobs
  state := activity runningJobs sessions (observed x jobs)
  waitingJustified := decide (activity runningJobs sessions (observed x jobs) = .activeProcess)
  requiredAction := (activity runningJobs sessions (observed x jobs)).requiredAction
  runningJobs := runningJobs
  runningJobCount := runningJobs.length
  tmuxSessions := sessions
  tmuxSessionCount := sessions.length
  globalRunningJobCount := (pageJobs jobs).length
  globalTmuxSessionCount := (allSessions x).length
  jobsError := jobsError jobs
  tmuxError := tmuxError x

/-- `execution_state`. -/
def executionState (enc : TokenEncoding) : Except Fault Verdict := do
  let jobs ← (listJobs x.registry (jobRequest x) enc).mapError Fault.raised
  let runningJobs ← keepSame x shownCwd (pageJobs jobs)
  let sessions ← keepSame x Pane.currentPath (allSessions x)
  pure (verdict x jobs runningJobs sessions)

/-- The path can be resolved, if there is one. -/
def Resolves (path : Text) : Prop := path = [] ∨ (x.resolve path).isSome = true

/-- The path leads to the directory. -/
def InScope (path : Text) : Prop := path ≠ [] ∧ x.resolve path = some x.effectiveCwd

instance (path : Text) : Decidable (InScope x path) := inferInstanceAs (Decidable (_ ∧ _))

variable {x}

theorem pure_eq_ok_iff {a b : α} : (pure a : Except Fault α) = .ok b ↔ b = a :=
  ⟨fun h => (Except.ok.inj h).symm, fun h => congrArg Except.ok h.symm⟩

theorem sameCwd_eq_ok_iff {path : Text} {b : Bool} : sameCwd x path = .ok b ↔ Resolves x path ∧ b = decide (InScope x path) := by
  unfold sameCwd
  split
  · next hempty =>
    have hnot : ¬InScope x path := fun h => h.1 hempty
    have hresolves : Resolves x path := .inl hempty
    rw [decide_eq_false hnot, and_iff_right hresolves]
    exact pure_eq_ok_iff
  · next hsome =>
    split
    · next hnone =>
      refine iff_of_false (fun h => nomatch h) (fun h => ?_)
      exact h.1.elim hsome fun hresolved => by simp [hnone] at hresolved
    · next p hp =>
      have hscope : InScope x path ↔ p = x.effectiveCwd := by
        rw [InScope, hp, Option.some.injEq]
        exact and_iff_right hsome
      have hresolves : Resolves x path := .inr (Option.isSome_iff_exists.mpr ⟨p, hp⟩)
      rw [decide_eq_decide.mpr hscope, and_iff_right hresolves]
      exact pure_eq_ok_iff

theorem keepSame_eq_ok_iff {pathOf : α → Text} {as r : List α} : keepSame x pathOf as = .ok r ↔
    (∀ a ∈ as, Resolves x (pathOf a)) ∧ r = as.filter fun a => decide (InScope x (pathOf a)) := by
  induction as generalizing r with
  | nil =>
    rw [and_iff_right fun a ha => absurd ha List.not_mem_nil]
    exact pure_eq_ok_iff
  | cons a as ih =>
    rw [keepSame, bind_eq_ok, List.forall_mem_cons, List.filter_cons]
    constructor
    · intro h
      obtain ⟨same, hsame, h⟩ := h
      obtain ⟨rest, hrest, h⟩ := bind_eq_ok.mp h
      obtain ⟨hresolves, hdecide⟩ := sameCwd_eq_ok_iff.mp hsame
      obtain ⟨hall, hfilter⟩ := ih.mp hrest
      refine ⟨⟨hresolves, hall⟩, ?_⟩
      rw [← hdecide, ← hfilter]
      exact (Except.ok.inj h).symm
    · intro h
      obtain ⟨⟨hresolves, hall⟩, hr⟩ := h
      refine ⟨_, sameCwd_eq_ok_iff.mpr ⟨hresolves, rfl⟩, bind_eq_ok.mpr ⟨_, ih.mpr ⟨hall, rfl⟩, ?_⟩⟩
      exact congrArg Except.ok hr.symm

theorem executionState_eq_ok_iff {enc : TokenEncoding} {v : Verdict} : executionState x enc = .ok v ↔
    ∃ jobs, listJobs x.registry (jobRequest x) enc = .ok jobs ∧ (∀ j ∈ pageJobs jobs, Resolves x j.cwd) ∧
      (∀ s ∈ allSessions x, Resolves x s.currentPath) ∧
      v = verdict x jobs ((pageJobs jobs).filter fun j => decide (InScope x j.cwd))
        ((allSessions x).filter fun s => decide (InScope x s.currentPath)) := by
  rw [executionState, bind_eq_ok]
  constructor
  · intro h
    obtain ⟨jobs, hjobs, h⟩ := h
    obtain ⟨runningJobs, hrunning, h⟩ := bind_eq_ok.mp h
    obtain ⟨sessions, hsessions, h⟩ := bind_eq_ok.mp h
    obtain ⟨hresolves, hrunning⟩ := keepSame_eq_ok_iff.mp hrunning
    obtain ⟨hpaths, hsessions⟩ := keepSame_eq_ok_iff.mp hsessions
    simp only [shownCwd_eq] at hresolves hrunning
    subst hrunning hsessions
    exact ⟨jobs, (mapError_ok_iff _).mp hjobs, hresolves, hpaths, (Except.ok.inj h).symm⟩
  · intro h
    obtain ⟨jobs, hjobs, hresolves, hpaths, hv⟩ := h
    have hrunning : keepSame x shownCwd (pageJobs jobs) = .ok ((pageJobs jobs).filter fun j => decide (InScope x j.cwd)) := by
      rw [keepSame_eq_ok_iff]
      simp only [shownCwd_eq, and_true]
      exact hresolves
    refine ⟨jobs, (mapError_ok_iff _).mpr hjobs, bind_eq_ok.mpr ⟨_, hrunning, bind_eq_ok.mpr ⟨_, ?_, congrArg Except.ok hv.symm⟩⟩⟩
    exact keepSame_eq_ok_iff.mpr ⟨hpaths, rfl⟩

/-! ## When the verdict is sound -/

variable (x)

/-- The verdict is returned, says truly that nothing is to be waited for or that something is,
and its counts are true. -/
def Sound (enc : TokenEncoding) : Prop := ∃ v, executionState x enc = .ok v ∧
  (v.state = .nextActionRequired → x.registry.fault = none ∧ (∃ rows, x.panes = .ok rows) ∧
    (∀ j ∈ x.registry.running, ¬InScope x j.cwd) ∧ ∀ s ∈ allSessions x, ¬InScope x s.currentPath) ∧
  ((∃ j ∈ x.registry.running, InScope x j.cwd) → v.state = .activeProcess) ∧
  v.runningJobCount = (x.registry.running.filter fun j => decide (InScope x j.cwd)).length ∧
  v.globalRunningJobCount = x.registry.running.length

/-- All paths resolve, and the running jobs can be listed on one page, or there are none. -/
structure Surveyed (enc : TokenEncoding) : Prop where
  sessions : ∀ s ∈ allSessions x, Resolves x s.currentPath
  unlisted : x.registry.fault ≠ none → x.registry.running = []
  onePage : x.registry.fault = none → OnePage x enc
  summaries : x.registry.fault = none → ∀ j ∈ x.registry.running, CleanJson (.obj j.summary)
  warnings : x.registry.fault = none → ∀ w ∈ firstWarnings x.registry, CleanJson w
  jobs : x.registry.fault = none → ∀ j ∈ x.registry.running, Resolves x j.cwd

variable {x}

theorem surveyed_of_sound {enc : TokenEncoding} (h : Sound x enc) : Surveyed x enc := by
  obtain ⟨v, hv, -, -, -, hcount⟩ := h
  obtain ⟨jobs, hjobs, hresolves, hpaths, rfl⟩ := executionState_eq_ok_iff.mp hv
  have hcount : (pageJobs jobs).length = x.registry.running.length := hcount
  have hlisted : x.registry.fault = none → OnePage x enc ∧ (pageJobs jobs).Perm x.registry.running := by
    intro hfault
    obtain ⟨-, -, hone, hperm⟩ := pageJobs_of_listed hfault hjobs
    exact ⟨hone hcount, hperm (hone hcount)⟩
  have hclean : x.registry.fault = none →
      (∀ j ∈ x.registry.running, CleanJson (.obj j.summary)) ∧ ∀ w ∈ firstWarnings x.registry, CleanJson w := by
    intro hfault
    refine (clean_whole_iff (hlisted hfault).1).mp ?_
    exact (listJobs_returns_iff (jobRequest_status x) (jobRequest_limit x) hfault).mp ⟨jobs, hjobs⟩
  refine ⟨hpaths, ?_, fun hfault => (hlisted hfault).1, fun hfault => (hclean hfault).1, fun hfault => (hclean hfault).2, ?_⟩
  · intro hfault
    obtain ⟨e, he⟩ := Option.ne_none_iff_exists'.mp hfault
    cases Except.ok.inj ((listJobs_fault he).symm.trans hjobs)
    exact List.length_eq_zero_iff.mp hcount.symm
  · intro hfault j hj
    exact hresolves j ((hlisted hfault).2.mem_iff.mpr hj)

/-- A reply whose page is the running jobs is sound. -/
theorem sound_of_page {enc : TokenEncoding} {jobs : JobListReply} (hjobs : listJobs x.registry (jobRequest x) enc = .ok jobs)
    (hperm : (pageJobs jobs).Perm x.registry.running) (herror : jobsError jobs = none → x.registry.fault = none)
    (hresolves : ∀ j ∈ x.registry.running, Resolves x j.cwd) (hpaths : ∀ s ∈ allSessions x, Resolves x s.currentPath) : Sound x enc := by
  have hpage : ∀ j ∈ pageJobs jobs, Resolves x j.cwd := fun j hj => hresolves j (hperm.mem_iff.mp hj)
  refine ⟨_, executionState_eq_ok_iff.mpr ⟨jobs, hjobs, hpage, hpaths, rfl⟩, fun hnext => ?_, fun hsome => ?_, ?_, hperm.length_eq⟩
  · obtain ⟨hnone, hnosession, hseen⟩ := activity_next_iff.mp hnext
    obtain ⟨hlisted, hpanes⟩ := Bool.and_eq_true_iff.mp hseen
    refine ⟨herror (Option.isNone_iff_eq_none.mp hlisted), ?_, fun j hj => ?_, fun s hs => ?_⟩
    · cases hrows : x.panes with
      | ok rows => exact ⟨rows, rfl⟩
      | error e => simp [tmuxError, hrows] at hpanes
    · have hnot := List.filter_eq_nil_iff.mp hnone j (hperm.mem_iff.mpr hj)
      exact of_decide_eq_false (Bool.eq_false_of_not_eq_true hnot)
    · have hnot := List.filter_eq_nil_iff.mp hnosession s hs
      exact of_decide_eq_false (Bool.eq_false_of_not_eq_true hnot)
  · obtain ⟨j, hj, hscope⟩ := hsome
    refine activity_active_iff.mpr (List.ne_nil_of_mem (a := j) ?_)
    exact List.mem_filter.mpr ⟨hperm.mem_iff.mpr hj, decide_eq_true hscope⟩
  · exact (hperm.filter _).length_eq

/-- Nothing is to be waited for when no job of the page is in the directory. -/
theorem next_of_page {enc : TokenEncoding} {v : Verdict} {rows : List Pane} (hfault : x.registry.fault = none)
    (hpanes : x.panes = .ok rows) (hsessions : ∀ s ∈ allSessions x, ¬InScope x s.currentPath)
    (hpage : ∀ j ∈ selected x.registry (jobRequest x), ¬InScope x j.cwd) (hv : executionState x enc = .ok v) :
    v.state = .nextActionRequired := by
  obtain ⟨jobs, hjobs, -, -, rfl⟩ := executionState_eq_ok_iff.mp hv
  obtain ⟨herror, hfront, -, -⟩ := pageJobs_of_listed hfault hjobs
  refine activity_next_iff.mpr ⟨?_, ?_, ?_⟩
  · refine List.filter_eq_nil_iff.mpr fun j hj => ?_
    rw [decide_eq_true_eq]
    exact hpage j (hfront.mem hj)
  · refine List.filter_eq_nil_iff.mpr fun s hs => ?_
    rw [decide_eq_true_eq]
    exact hsessions s hs
  · rw [observed, herror, tmuxError, hpanes]
    rfl

end

/-! ## Twenty jobs elsewhere -/

/-- A job whose processes live. -/
def liveJob (name : Text) (startedAt : ℚ) (cwd : Text) : Job where
  jobId := name
  startedAt := startedAt
  cwd := cwd
  record := publishRunning 1 (some 1) none startedAt (Record.starting startedAt)
  view := ⟨startedAt, fun _ _ => some true, fun _ => .ok 1, fun _ => [], fun _ => true, fun _ _ => .ok ()⟩
  relocked := none
  summary := [(txt "cwd", .str cwd)]
  shown := rfl

def busyJobs : List Job :=
  ((List.range 20).map fun n => liveJob (txt "job_" ++ decimal n) (100 - n) (txt "/srv/other")) ++
    [liveJob (txt "job_waiting") 1 (txt "/srv/app")]

/-- The only job of the directory is the oldest. -/
def crowded : Surroundings Text where
  registry := ⟨none, busyJobs.map .job⟩
  panes := .ok []
  resolve := some
  effectiveCwd := txt "/srv/app"
  maxTokens := ⟨10000, by decide⟩

theorem crowded_jobs : crowded.registry.jobs = busyJobs := by
  rw [Registry.jobs, crowded, List.filterMap_map]
  exact List.filterMap_some

theorem busyJobs_running : ∀ j ∈ busyJobs, durableStatus j.reconciled = .running := by decide +kernel

theorem crowded_discovered : discovered crowded.registry (jobRequest crowded) = busyJobs := by
  have hsorted : busyJobs.Pairwise fun a b => listedBefore a b = true := by decide +kernel
  rw [discovered, crowded_jobs, List.filter_eq_self.mpr fun j hj => ?_]
  · exact List.mergeSort_of_pairwise hsorted
  · exact decide_eq_true (busyJobs_running j hj)

theorem crowded_selected : ∀ j ∈ selected crowded.registry (jobRequest crowded), ¬InScope crowded j.cwd := by
  have hothers : ∀ j ∈ busyJobs.take 20, ¬InScope crowded j.cwd := by decide +kernel
  rw [selected, crowded_discovered]
  exact hothers

theorem crowded_clean : CleanPage (wholePage crowded.registry (jobRequest crowded) (firstWarnings crowded.registry).length) := by
  have hsummaries : ∀ j ∈ busyJobs, j.summary = [(txt "cwd", .str j.cwd)] ∧ isBenign j.cwd = true := by
    have hother : isBenign (txt "/srv/other") = true := by decide
    intro j hj
    cases List.mem_append.mp hj with
    | inl hfirst =>
      obtain ⟨n, -, rfl⟩ := List.mem_map.mp hfirst
      exact ⟨rfl, hother⟩
    | inr hlast =>
      cases List.mem_singleton.mp hlast
      exact ⟨rfl, by decide⟩
  have hwarnings : allWarnings crowded.registry = [] := by decide +kernel
  refine ⟨fun j hj => ?_, fun w hw => ?_⟩
  · have hbusy := List.mem_of_mem_drop (List.mem_of_mem_take hj)
    rw [crowded_discovered] at hbusy
    obtain ⟨hsummary, hcwd⟩ := hsummaries j hbusy
    rw [hsummary, cleanJson_obj, List.forall_mem_singleton]
    exact cleanField_benign (by decide) hcwd
  · have hall := List.mem_of_mem_take (List.mem_of_mem_take hw)
    exact absurd (hwarnings ▸ hall) List.not_mem_nil

end WebOauthMcp.ExecutionState
