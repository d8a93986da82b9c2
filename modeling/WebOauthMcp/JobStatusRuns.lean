import Mathlib.Data.List.Chain
import WebOauthMcp.JobRecord

/-!
# The writers of a job record, interleaved

`start_job`, the detached supervisor, killers and readers update one record in any order.
Killers and readers check for a terminal status under the lock; the others do not.
-/

namespace WebOauthMcp.JobStatusRuns
open CodePoints JobRecord

inductive StarterStage
  | created
  | waiting
  | returned
  deriving DecidableEq

inductive SupervisorStage
  | absent
  | started
  | published
  | running
  | ended
  deriving DecidableEq

/-- The record, and how far the two writers that run once have come. -/
structure Job where
  record : Record
  starter : StarterStage
  supervisor : SupervisorStage

def Job.initial (startedAt : ℚ) : Job := ⟨.starting startedAt, .created, .absent⟩

/-- One step of one of the writers. A failing update leaves the record as it is. -/
inductive Update
  | spawnFailed (now : ℚ)
  | spawned
  | startFailed (exitCode : ℤ) (now : ℚ)
  | startReturned
  | supervisorPublished (pid : ℤ) (identity : Option Text) (now : ℚ)
  | runningPublished (pid : ℤ) (pgid : Option ℤ) (identity : Option Text) (now : ℚ)
  | finalized (exitCode : ℤ) (now : ℚ)
  | supervisorDied
  | killMarked (w : ProcessView) (pid pgid : ℤ) (sig : KillSignal)
  | reconciled (w : ProcessView)

/-- The record after a killer's locked step. -/
def afterMark (w : ProcessView) (pid pgid : ℤ) (sig : KillSignal) (r : Record) : Record :=
  match signalAndMark w pid pgid sig r with
  | .ok m => m.record
  | .error _ => r

/-- The supervisor is there and has not ended. -/
def SupervisorStage.Alive : SupervisorStage → Prop
  | .absent => False
  | .ended => False
  | _ => True

inductive Step : Job → Update → Job → Prop
  | spawnFailed {r : Record} {v : SupervisorStage} {now : ℚ} :
      Step ⟨r, .created, v⟩ (.spawnFailed now) ⟨startFailure timeoutExitCode now r, .returned, v⟩
  | spawned {r : Record} : Step ⟨r, .created, .absent⟩ .spawned ⟨r, .waiting, .started⟩
  | startFailed {r : Record} {v : SupervisorStage} {exitCode : ℤ} {now : ℚ} :
      Step ⟨r, .waiting, v⟩ (.startFailed exitCode now) ⟨startFailure exitCode now r, .returned, v⟩
  | startReturned {r : Record} {v : SupervisorStage} : Step ⟨r, .waiting, v⟩ .startReturned ⟨r, .returned, v⟩
  | supervisorPublished {r : Record} {t : StarterStage} {pid : ℤ} {identity : Option Text} {now : ℚ} :
      Step ⟨r, t, .started⟩ (.supervisorPublished pid identity now)
        ⟨publishSupervisor pid identity now r, t, .published⟩
  | runningPublished {r : Record} {t : StarterStage} {pid : ℤ} {pgid : Option ℤ} {identity : Option Text} {now : ℚ} :
      Step ⟨r, t, .published⟩ (.runningPublished pid pgid identity now)
        ⟨publishRunning pid pgid identity now r, t, .running⟩
  | finalized {r : Record} {t : StarterStage} {v : SupervisorStage} {exitCode : ℤ} {now : ℚ} (alive : v.Alive) :
      Step ⟨r, t, v⟩ (.finalized exitCode now) ⟨finalize exitCode now r, t, .ended⟩
  | supervisorDied {r : Record} {t : StarterStage} {v : SupervisorStage} (alive : v.Alive) :
      Step ⟨r, t, v⟩ .supervisorDied ⟨r, t, .ended⟩
  | killMarked {r : Record} {t : StarterStage} {v : SupervisorStage} {w : ProcessView} {pid pgid : ℤ} {sig : KillSignal} :
      Step ⟨r, t, v⟩ (.killMarked w pid pgid sig) ⟨afterMark w pid pgid sig r, t, v⟩
  | reconciled {r : Record} {t : StarterStage} {v : SupervisorStage} {w : ProcessView} :
      Step ⟨r, t, v⟩ (.reconciled w) ⟨interruptIfStillStale w r, t, v⟩

/-- A terminal record keeps its status, its exit code and its completion. -/
def Frozen (r r' : Record) : Prop :=
  r.Terminal → r'.status = r.status ∧ r'.exitCode = r.exitCode ∧ r'.completedAt = r.completedAt

theorem Frozen.refl (r : Record) : Frozen r r := fun _ => ⟨rfl, rfl, rfl⟩

theorem Frozen.trans {r r' r'' : Record} (h : Frozen r r') (h' : Frozen r' r'') : Frozen r r'' := by
  intro hterminal
  obtain ⟨hstatus, hexit, hcompleted⟩ := h hterminal
  have hstill : r'.Terminal := by
    rw [Record.Terminal, hstatus]
    exact hterminal
  obtain ⟨hstatus', hexit', hcompleted'⟩ := h' hstill
  exact ⟨hstatus'.trans hstatus, hexit'.trans hexit, hcompleted'.trans hcompleted⟩

theorem frozen_of_not_terminal {r r' : Record} (h : ¬r.Terminal) : Frozen r r' := fun hterminal => absurd hterminal h

/-! ## The guarded writers -/

theorem afterMark_frozen (w : ProcessView) (pid pgid : ℤ) (sig : KillSignal) (r : Record) :
    Frozen r (afterMark w pid pgid sig r) := by
  rw [afterMark]
  cases hmark : signalAndMark w pid pgid sig r with
  | error e => exact Frozen.refl r
  | ok m =>
    cases signalAndMark_cases hmark with
    | inl hterminal =>
      rw [hterminal.2]
      exact Frozen.refl r
    | inr hmarked => exact frozen_of_not_terminal hmarked.1

theorem interruptIfStillStale_frozen (w : ProcessView) (r : Record) : Frozen r (interruptIfStillStale w r) := by
  cases interruptIfStillStale_cases w r with
  | inl hsame =>
    rw [hsame]
    exact Frozen.refl r
  | inr hinterrupted => exact frozen_of_not_terminal hinterrupted.1

/-! ## The unguarded writers -/

/-- The record is already what an update would make of it. -/
def Holds (r : Record) (status : JobStatus) (exitCode : ℤ) (now : ℚ) : Prop :=
  r.status = status ∧ r.exitCode = some exitCode ∧ r.completedAt = some now

/-- An update that sets the status unconditionally finds a record that is not terminal, or that
already holds what it writes. The other updates check for themselves. -/
def FindsOpen (r : Record) : Update → Prop
  | .spawnFailed now => r.Terminal → Holds r .failed timeoutExitCode now
  | .startFailed exitCode now => r.Terminal → Holds r .failed exitCode now
  | .runningPublished .. => ¬r.Terminal
  | .finalized exitCode now => r.Terminal → Holds r (finalStatus exitCode r.killSignal) exitCode now
  | _ => True

theorem frozen_iff_holds {r r' : Record} {status : JobStatus} {exitCode : ℤ} {now : ℚ} (hstatus : r'.status = status)
    (hexit : r'.exitCode = some exitCode) (hcompleted : r'.completedAt = some now) :
    Frozen r r' ↔ (r.Terminal → Holds r status exitCode now) := by
  simp only [Frozen, Holds, hstatus, hexit, hcompleted, eq_comm]

theorem publishRunning_frozen_iff (r : Record) (pid : ℤ) (pgid : Option ℤ) (identity : Option Text) (now : ℚ) :
    Frozen r (publishRunning pid pgid identity now r) ↔ ¬r.Terminal := by
  refine ⟨fun hfrozen hterminal => ?_, frozen_of_not_terminal⟩
  have hrunning : JobStatus.running = r.status := (hfrozen hterminal).1
  rw [Record.Terminal, ← hrunning] at hterminal
  exact nomatch hterminal

/-- A step keeps a terminal record exactly when its update finds an open one. -/
theorem step_frozen_iff {j j' : Job} {u : Update} (hstep : Step j u j') :
    Frozen j.record j'.record ↔ FindsOpen j.record u := by
  cases hstep with
  | spawnFailed => exact frozen_iff_holds rfl rfl rfl
  | spawned => exact iff_of_true (Frozen.refl _) trivial
  | startFailed => exact frozen_iff_holds rfl rfl rfl
  | startReturned => exact iff_of_true (Frozen.refl _) trivial
  | supervisorPublished => exact iff_of_true (fun _ => ⟨rfl, rfl, rfl⟩) trivial
  | runningPublished => exact publishRunning_frozen_iff _ _ _ _ _
  | finalized => exact frozen_iff_holds rfl rfl rfl
  | supervisorDied => exact iff_of_true (Frozen.refl _) trivial
  | killMarked => exact iff_of_true (afterMark_frozen _ _ _ _ _) trivial
  | reconciled => exact iff_of_true (interruptIfStillStale_frozen _ _) trivial

/-! ## Runs -/

/-- Steps in any order, each with the state it starts from. -/
inductive Run : Job → List (Job × Update) → Job → Prop
  | nil {j : Job} : Run j [] j
  | cons {j k l : Job} {u : Update} {steps : List (Job × Update)} :
      Step j u k → Run k steps l → Run j ((j, u) :: steps) l

/-- The records that a run goes through. -/
def records (steps : List (Job × Update)) (last : Job) : List Record := (steps.map Prod.fst ++ [last]).map Job.record

theorem run_records {j l : Job} {steps : List (Job × Update)} (hrun : Run j steps l) :
    ∃ rest, records steps l = j.record :: rest := by
  cases hrun with
  | nil => exact ⟨[], rfl⟩
  | cons _ _ => exact ⟨_, rfl⟩

theorem chain_iff {j l : Job} {steps : List (Job × Update)} (hrun : Run j steps l) :
    (records steps l).IsChain Frozen ↔ ∀ p ∈ steps, FindsOpen p.1.record p.2 := by
  induction hrun with
  | nil => exact iff_of_true (List.isChain_singleton _) fun _ h => absurd h List.not_mem_nil
  | @cons j k l u steps hstep hrun ih =>
    obtain ⟨rest, hrest⟩ := run_records hrun
    have hrecords : records ((j, u) :: steps) l = j.record :: k.record :: rest := congrArg (j.record :: ·) hrest
    rw [hrecords, List.isChain_cons_cons, ← hrest, ih, List.forall_mem_cons, step_frozen_iff hstep]

/-- In a run a terminal record never changes its status, exit code or completion again exactly
when every update of the run finds an open record. -/
theorem terminal_absorbing_iff {startedAt : ℚ} {steps : List (Job × Update)} {last : Job}
    (hrun : Run (Job.initial startedAt) steps last) :
    (records steps last).Pairwise Frozen ↔ ∀ p ∈ steps, FindsOpen p.1.record p.2 := by
  have htrans : IsTrans Record Frozen := ⟨fun _ _ _ => Frozen.trans⟩
  rw [← List.isChain_iff_pairwise, chain_iff hrun]

/-- A view in which no process is left. -/
def goneView (now : ℚ) : ProcessView where
  now := now
  identityMatches _ _ := some false
  getpgid _ := .error (txt "No such process")
  groupMembers _ := []
  groupExists _ := false
  killpg _ _ := .error .processLookup

def waitingJob : Job := ⟨.starting 0, .waiting, .started⟩
def publishedJob : Job := ⟨publishSupervisor 100 none 1 (.starting 0), .waiting, .published⟩
def runningJob : Job := ⟨publishRunning 101 (some 101) none 2 publishedJob.record, .waiting, .running⟩

theorem terminal_absorbing_quick_job :
    (records [(Job.initial 0, .spawned), (waitingJob, .supervisorPublished 100 none 1),
        (publishedJob, .runningPublished 101 (some 101) none 2), (runningJob, .finalized 0 3)]
      ⟨finalize 0 3 runningJob.record, .waiting, .ended⟩).Pairwise Frozen ↔
    ∀ p ∈ [(Job.initial 0, Update.spawned), (waitingJob, .supervisorPublished 100 none 1),
        (publishedJob, .runningPublished 101 (some 101) none 2), (runningJob, .finalized 0 3)],
      FindsOpen p.1.record p.2 :=
  terminal_absorbing_iff (.cons .spawned (.cons .supervisorPublished (.cons .runningPublished
    (.cons (.finalized trivial) .nil))))

def interruptedJob : Job := ⟨interrupted 6 (.starting 0), .waiting, .started⟩
def interruptedPublished : Job := ⟨publishSupervisor 100 none 7 interruptedJob.record, .waiting, .published⟩
def succeededJob : Job := ⟨finalize 0 3 runningJob.record, .waiting, .ended⟩

/-- A status call more than five seconds after the start finds no recorded process and marks the job
interrupted; then the supervisor publishes it as running. A job that succeeded while `start_job`
still waits for its bootstrap is recorded as failed when `start_job` gives up. -/
theorem terminal_record_rewritten :
    (∃ steps earlier last, Run (Job.initial 0) steps last ∧ earlier ∈ steps.map Prod.fst ∧
      earlier.record.status = .interrupted ∧ last.record.status = .running) ∧
    ∃ steps earlier last, Run (Job.initial 0) steps last ∧ earlier ∈ steps.map Prod.fst ∧
      earlier.record.status = .succeeded ∧ earlier.record.exitCode = some 0 ∧
      last.record.status = .failed ∧ last.record.exitCode = some (-1) := by
  have hinterrupted : Run (Job.initial 0) [(Job.initial 0, .spawned), (waitingJob, .reconciled (goneView 6)),
      (interruptedJob, .supervisorPublished 100 none 7), (interruptedPublished, .runningPublished 101 (some 101) none 8)]
      ⟨publishRunning 101 (some 101) none 8 interruptedPublished.record, .waiting, .running⟩ :=
    .cons .spawned (.cons .reconciled (.cons .supervisorPublished (.cons .runningPublished .nil)))
  have hfailed : Run (Job.initial 0) [(Job.initial 0, .spawned), (waitingJob, .supervisorPublished 100 none 1),
      (publishedJob, .runningPublished 101 (some 101) none 2), (runningJob, .finalized 0 3),
      (succeededJob, .startFailed timeoutExitCode 8)]
      ⟨startFailure timeoutExitCode 8 succeededJob.record, .returned, .ended⟩ :=
    .cons .spawned (.cons .supervisorPublished (.cons .runningPublished (.cons (.finalized trivial)
      (.cons .startFailed .nil))))
  exact ⟨⟨_, interruptedJob, _, hinterrupted, by simp, rfl, rfl⟩,
    ⟨_, succeededJob, _, hfailed, by simp, rfl, rfl, rfl, rfl⟩⟩

end WebOauthMcp.JobStatusRuns
