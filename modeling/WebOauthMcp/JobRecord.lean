import Mathlib.Data.Rat.Defs
import WebOauthMcp.CodePoints

/-!
# The durable record of a job

Every writer reads, changes and replaces the record under its lock, so an update is a
function from the record it finds to the one it leaves. What the name, the command and the
directories of a job are does not matter to any of them.
-/

namespace WebOauthMcp.JobRecord
open CodePoints

inductive JobStatus
  | starting
  | running
  | succeeded
  | failed
  | killed
  | interrupted
  deriving DecidableEq

/-- `TERMINAL_JOB_STATUSES`. -/
def JobStatus.isTerminal : JobStatus → Bool
  | .starting => false
  | .running => false
  | _ => true

inductive KillSignal
  | term
  | kill
  deriving DecidableEq

structure Record where
  status : JobStatus
  pid : Option ℤ
  pgid : Option ℤ
  processIdentity : Option Text
  supervisorPid : Option ℤ
  supervisorIdentity : Option Text
  completedAt : Option ℚ
  updatedAt : ℚ
  exitCode : Option ℤ
  killSignal : Option KillSignal
  interruptionReason : Option Text

/-- What `start_job` writes first. -/
def Record.starting (startedAt : ℚ) : Record where
  status := .starting
  pid := none
  pgid := none
  processIdentity := none
  supervisorPid := none
  supervisorIdentity := none
  completedAt := none
  updatedAt := startedAt
  exitCode := none
  killSignal := none
  interruptionReason := none

def Record.Terminal (r : Record) : Prop := r.status.isTerminal = true

instance (r : Record) : Decidable r.Terminal := inferInstanceAs (Decidable (r.status.isTerminal = true))

/-! ## What a writer sees of the processes -/

/-- How `killpg` fails. -/
inductive KillFailure
  | processLookup
  | osError (reason : Text)

/-- The answers of the system at one moment. -/
structure ProcessView where
  now : ℚ
  identityMatches : ℤ → Option Text → Option Bool
  getpgid : ℤ → Except Text ℤ
  groupMembers : ℤ → List (ℤ × Option Text)
  groupExists : ℤ → Bool
  killpg : ℤ → KillSignal → Except KillFailure Unit

/-- `process_identity_matches`: nothing to check is no match. -/
def ProcessView.matches (w : ProcessView) (pid : Option ℤ) (expected : Option Text) : Option Bool :=
  match pid with
  | none => some false
  | some p => if p ≤ 0 then some false else w.identityMatches p expected

def ProcessView.commandState (w : ProcessView) (r : Record) : Option Bool := w.matches r.pid r.processIdentity

def ProcessView.supervisorState (w : ProcessView) (r : Record) : Option Bool :=
  w.matches r.supervisorPid r.supervisorIdentity

/-! ## Updates -/

def timeoutExitCode : ℤ := -1

/-- The failure that `start_job` records. -/
def startFailure (exitCode : ℤ) (now : ℚ) (current : Record) : Record :=
  { current with status := .failed, exitCode := some exitCode, completedAt := some now, updatedAt := now }

def publishSupervisor (pid : ℤ) (identity : Option Text) (now : ℚ) (current : Record) : Record :=
  { current with supervisorPid := some pid, supervisorIdentity := identity, updatedAt := now }

def publishRunning (pid : ℤ) (pgid : Option ℤ) (identity : Option Text) (now : ℚ) (current : Record) : Record :=
  { current with
    status := .running, pid := some pid, pgid := pgid, processIdentity := identity, updatedAt := now }

def finalStatus (exitCode : ℤ) (killSignal : Option KillSignal) : JobStatus :=
  if killSignal.isSome then .killed else if exitCode = 0 then .succeeded else .failed

/-- The supervisor's `finalize`. -/
def finalize (exitCode : ℤ) (completedAt : ℚ) (current : Record) : Record :=
  { current with
    status := finalStatus exitCode current.killSignal
    exitCode := some exitCode
    completedAt := some completedAt
    updatedAt := completedAt }

def interruptionReason : Text := txt "supervisor_and_command_gone_without_terminal_record"

def interrupted (now : ℚ) (current : Record) : Record :=
  { current with
    status := .interrupted, completedAt := some now, updatedAt := now, interruptionReason := some interruptionReason }

def bothGone (w : ProcessView) (r : Record) : Prop := w.commandState r = some false ∧ w.supervisorState r = some false

instance (w : ProcessView) (r : Record) : Decidable (bothGone w r) :=
  inferInstanceAs (Decidable (w.commandState r = some false ∧ w.supervisorState r = some false))

/-- `interrupt_if_still_stale`. -/
def interruptIfStillStale (w : ProcessView) (current : Record) : Record :=
  if current.Terminal then current else if bothGone w current then interrupted w.now current else current

/-- Why `signal_and_mark_kill_requested` raises. -/
inductive MarkStop
  | refused (message : Text)
  | kill (e : KillFailure)

/-- The record it leaves, whether it signalled, and the group members it verified. -/
structure Marked where
  record : Record
  signalSent : Bool
  members : List (ℤ × Option Text)

def markKill (now : ℚ) (sig : KillSignal) (current : Record) : Record :=
  { current with killSignal := some sig, updatedAt := now }

/-- `verified_group_members.get(pid)`. -/
def memberIdentity (members : List (ℤ × Option Text)) (pid : ℤ) : Option Text := (members.lookup pid).join

/-- The signal, once the group is verified. -/
def signalGroup (w : ProcessView) (sig : KillSignal) (current : Record) (pgid : ℤ) : Except MarkStop Marked :=
  match w.killpg pgid sig with
  | .error e => .error (.kill e)
  | .ok _ => .ok ⟨markKill w.now sig current, true, w.groupMembers pgid⟩

/-- `signal_and_mark_kill_requested`; `pid` and `pgid` are those of the caller's snapshot. -/
def signalAndMark (w : ProcessView) (pid pgid : ℤ) (sig : KillSignal) (current : Record) : Except MarkStop Marked :=
  if current.Terminal then .ok ⟨current, false, []⟩
  else if current.pid ≠ some pid ∨ current.pgid ≠ some pgid then
    .error (.refused (txt "The durable process-group record changed during termination."))
  else if w.commandState current ≠ some true then
    .error (.refused (txt "The recorded process identity changed during termination."))
  else match w.getpgid pid with
    | .error reason => .error (.refused (txt "The recorded process group is no longer available: " ++ reason))
    | .ok live =>
      if live ≠ pgid ∨ live ≠ pid then
        .error (.refused (txt "The recorded process group no longer matches the job leader."))
      else if memberIdentity (w.groupMembers live) pid ≠ current.processIdentity then
        .error (.refused (txt "The full job process group could not be verified before termination."))
      else signalGroup w sig current live

/-! ## What the guarded updates do -/

theorem interruptIfStillStale_cases (w : ProcessView) (r : Record) :
    interruptIfStillStale w r = r ∨
      ¬r.Terminal ∧ bothGone w r ∧ interruptIfStillStale w r = interrupted w.now r := by
  rw [interruptIfStillStale]
  split_ifs with hterminal hgone
  · exact .inl rfl
  · exact .inr ⟨hterminal, hgone, rfl⟩
  · exact .inl rfl

theorem signalGroup_ok {w : ProcessView} {sig : KillSignal} {r : Record} {pgid : ℤ} {m : Marked}
    (h : signalGroup w sig r pgid = .ok m) : m = ⟨markKill w.now sig r, true, w.groupMembers pgid⟩ := by
  rw [signalGroup] at h
  split at h
  · exact nomatch h
  · exact (Except.ok.inj h).symm

/-- The marking step leaves a terminal record, or signals and marks. -/
theorem signalAndMark_cases {w : ProcessView} {pid pgid : ℤ} {sig : KillSignal} {r : Record} {m : Marked}
    (h : signalAndMark w pid pgid sig r = .ok m) :
    r.Terminal ∧ m = ⟨r, false, []⟩ ∨
      ¬r.Terminal ∧ m.record = markKill w.now sig r ∧ m.signalSent = true := by
  rw [signalAndMark] at h
  split_ifs at h with hterminal hchanged hidentity
  · exact .inl ⟨hterminal, (Except.ok.inj h).symm⟩
  · right
    cases hlive : w.getpgid pid with
    | error reason =>
      rw [hlive] at h
      exact nomatch h
    | ok live =>
      rw [hlive] at h
      simp only at h
      split_ifs at h with hleader hmembers
      obtain rfl := signalGroup_ok h
      exact ⟨hterminal, rfl, rfl⟩

end WebOauthMcp.JobRecord
