import WebOauthMcp.JobRecord
import WebOauthMcp.InterleavedPrograms

/-!
# Killing a job

`kill_job`, the status calls and the end of the supervisor, each as the sequence of its looks
at the record and at the processes and of its locked updates. A loop goes round until its
deadline; how often is up to the call. The log of the cell is history: it says in which
order signals were sent and the record was finalized.
-/

namespace WebOauthMcp.KillJob
open CodePoints JobRecord FaultyPrograms InterleavedPrograms

inductive Event (ι : Type)
  /-- A killer's locked step, and whether it sent its signal. -/
  | locked (i : ι) (sent : Bool)
  /-- The signal after the grace period. -/
  | escalated (i : ι)
  | finalized (exitCode : ℤ)

@[ext]
structure Cell (ι : Type) where
  record : Record
  log : List (Event ι)

/-- What the environment contributes to an access. -/
structure Answer where
  view : ProcessView
  readable : Bool
  exitCode : ℤ

abbrev JobProg (ι : Type) := Prog Unit (Cell ι) Answer

variable {ι α : Type}

/-- A look that changes nothing. -/
def look (f : Answer → Record → α) : JobProg ι α := .access () (fun _ c => c) fun a c => .done (f a c.record)

/-- `read_job_metadata`, or none when it raises. -/
def readRecord : JobProg ι (Option Record) := look fun a r => if a.readable then some r else none

def ask (f : ProcessView → α) : JobProg ι α := look fun a _ => f a.view

/-- `_interrupt_stale_record`. -/
def interruptStaleRecord : JobProg ι Record :=
  .access () (fun a c => { c with record := interruptIfStillStale a.view c.record }) fun a c =>
    .done (interruptIfStillStale a.view c.record)

def startingStaleGraceSeconds : ℚ := 5

/-- The decision of `_reconcile_metadata` on what it saw of the processes. -/
def reconcileWith (metadata : Record) (commandState supervisorState : Option Bool) (now : ℚ) : JobProg ι Record :=
  if commandState = some false ∧ supervisorState = some false then
    if metadata.status = .starting ∧ now - metadata.updatedAt < startingStaleGraceSeconds then pure metadata
    else interruptStaleRecord
  else pure metadata

/-- `_reconcile_metadata`. -/
def reconcileMetadata (metadata : Record) : JobProg ι Record :=
  if metadata.Terminal then pure metadata
  else do
    let commandState ← ask fun w => w.commandState metadata
    let supervisorState ← ask fun w => w.supervisorState metadata
    let now ← ask fun w => w.now
    reconcileWith metadata commandState supervisorState now

/-- `_wait_for_terminal_record`. -/
def waitForTerminalRecord : ℕ → Record → JobProg ι Record
  | 0, latest => reconcileMetadata latest
  | n + 1, latest => do
    let snapshot ← readRecord
    match snapshot with
    | none => waitForTerminalRecord n latest
    | some snapshot => do
      let latest ← reconcileMetadata snapshot
      if latest.Terminal then pure latest else waitForTerminalRecord n latest

/-! ## Replies -/

inductive Reply
  | killed (record : Record) (signal : KillSignal) (signalSent alreadyCompleted : Bool)
  | status (record : Record)
  | error (code message : Text)
  | finalized

def Reply.signalSent : Reply → Bool
  | .killed _ _ sent _ => sent
  | _ => false

def metadataInvalid : Reply := .error (txt "job_metadata_invalid") (txt "Failed to read durable job metadata")

def killFailed (reason : Text) : Reply := .error (txt "job_kill_failed") (txt "Failed to signal job: " ++ reason)

def identityMismatch (message : Text) : Reply := .error (txt "job_identity_mismatch") message

/-- `status`, `list` and `output` calls, as far as the record goes. -/
def jobStatus : JobProg ι Reply := do
  let loaded ← readRecord
  match loaded with
  | none => pure metadataInvalid
  | some snapshot => do
    let metadata ← reconcileMetadata snapshot
    pure (.status metadata)

/-- The supervisor's last update. -/
def finalizeJob : JobProg ι Reply :=
  .access () (fun a c => ⟨finalize a.exitCode a.view.now c.record, c.log ++ [.finalized a.exitCode]⟩) fun _ _ =>
    .done .finalized

/-! ## The killer -/

/-- How often the loops of a call go round. -/
structure Rounds where
  unverified : ℕ
  grace : ℕ
  final : ℕ

section
variable (me : ι) (sig : KillSignal) (n : Rounds)

def alreadyCompleted (metadata : Record) : Reply := .killed metadata sig false true

/-- The end of a call. -/
def report (signalSent : Bool) (metadata : Record) : JobProg ι Reply := do
  let latest ← waitForTerminalRecord n.final metadata
  pure (.killed latest sig signalSent (!signalSent))

/-- The process was gone when it was to be signalled. -/
def processGone (signalSent : Bool) (metadata : Record) : JobProg ι Reply := do
  let latest ← waitForTerminalRecord n.unverified metadata
  if latest.Terminal then report sig n signalSent latest
  else pure (.error (txt "job_not_running") (txt "The verified job process exited before it could be signaled."))

def waitForGroup : ℕ → ℤ → JobProg ι Unit
  | 0, _ => pure ()
  | k + 1, pgid => do
    let alive ← ask fun w => w.groupExists pgid
    if alive then waitForGroup k pgid else pure ()

/-- `process_group_matches_snapshot`. -/
def groupMatches (w : ProcessView) (pgid : ℤ) (expected : List (ℤ × Option Text)) : Bool :=
  !(w.groupMembers pgid).isEmpty && (w.groupMembers pgid).all fun m =>
    (memberIdentity expected m.1).isSome && m.2 == memberIdentity expected m.1

/-- The second signal. -/
def sendKill (pgid : ℤ) : JobProg ι (Except KillFailure Unit) :=
  .access () (fun a c => match a.view.killpg pgid .kill with
    | .ok _ => { c with log := c.log ++ [.escalated me] }
    | .error _ => c) fun a _ => .done (a.view.killpg pgid .kill)

def afterKill (m : Marked) : Except KillFailure Unit → JobProg ι Reply
  | .ok _ => report sig n m.signalSent m.record
  | .error .processLookup => processGone sig n m.signalSent m.record
  | .error (.osError reason) => pure (killFailed reason)

/-- From TERM to KILL. -/
def escalate (pgid : ℤ) (m : Marked) : JobProg ι Reply := do
  waitForGroup n.grace pgid
  let alive ← ask fun w => w.groupExists pgid
  if alive then do
    let verified ← ask fun w => groupMatches w pgid m.members
    if verified then do
      let killed ← sendKill me pgid
      afterKill sig n m killed
    else pure (identityMismatch (txt ("Refusing KILL escalation because the surviving process group " ++
      "no longer matches the verified job tree.")))
  else report sig n m.signalSent m.record

/-- What the locked step leaves in the cell. -/
def markCell (pid pgid : ℤ) (a : Answer) (c : Cell ι) : Cell ι :=
  match signalAndMark a.view pid pgid sig c.record with
  | .ok m => ⟨m.record, c.log ++ [.locked me m.signalSent]⟩
  | .error _ => { c with log := c.log ++ [.locked me false] }

/-- `mutate_job_metadata(job_dir, signal_and_mark_kill_requested)`. -/
def lockedSignal (pid pgid : ℤ) : JobProg ι (Except MarkStop Marked) :=
  .access () (markCell me sig pid pgid) fun a c => .done (signalAndMark a.view pid pgid sig c.record)

/-- After the locked step. -/
def afterSignal (metadata : Record) (pgid : ℤ) : Except MarkStop Marked → JobProg ι Reply
  | .error (.refused _) => processGone sig n false metadata
  | .error (.kill .processLookup) => processGone sig n false metadata
  | .error (.kill (.osError reason)) => pure (killFailed reason)
  | .ok m =>
    if m.record.Terminal then pure (alreadyCompleted sig m.record)
    else if sig = .term then escalate me sig n pgid m
    else report sig n m.signalSent m.record

def signalJob (metadata : Record) (pid pgid : ℤ) : JobProg ι Reply := do
  let marked ← lockedSignal me sig pid pgid
  afterSignal me sig n metadata pgid marked

/-- The recorded process cannot be verified. -/
def refuseUnverified (identityMatch : Option Bool) (metadata : Record) : JobProg ι Reply := do
  let latest ← waitForTerminalRecord n.unverified metadata
  if latest.Terminal then pure (alreadyCompleted sig latest)
  else pure (.error (if identityMatch = none then txt "job_identity_unverified" else txt "job_not_running")
    (txt "Refusing to signal a job whose recorded process identity is no longer verifiable."))

/-- The checks between the identity of the command and the locked step. -/
def verifyGroup (metadata : Record) (pid : ℤ) : JobProg ι Reply := do
  let current ← ask fun w => w.getpgid pid
  match current with
  | .error reason => pure (.error (txt "job_kill_failed") (txt "Failed to verify job process group: " ++ reason))
  | .ok currentPgid =>
    if metadata.pgid ≠ some currentPgid ∨ currentPgid ≠ pid then
      pure (identityMismatch
        (txt "Refusing to signal a process group that does not match the durable job record."))
    else do
      let again ← ask fun w => w.commandState metadata
      if again = some true then signalJob me sig n metadata pid currentPgid
      else pure (identityMismatch
        (txt "Refusing to signal a job whose process identity changed during verification."))

def verifyCommand (metadata : Record) : JobProg ι Reply := do
  let identityMatch ← ask fun w => w.commandState metadata
  match identityMatch, metadata.pid with
  | some true, some pid => verifyGroup me sig n metadata pid
  | _, _ => refuseUnverified sig n identityMatch metadata

/-- `kill_job`. -/
def killJob : JobProg ι Reply := do
  let loaded ← readRecord
  match loaded with
  | none => pure metadataInvalid
  | some snapshot => do
    let metadata ← reconcileMetadata snapshot
    if metadata.Terminal then pure (alreadyCompleted sig metadata) else verifyCommand me sig n metadata

end

/-! ## All parties of a job -/

inductive JobCall
  | kill (sig : KillSignal) (n : Rounds)
  | status

def JobCall.program (me : ι) : JobCall → JobProg ι Reply
  | .kill sig n => killJob me sig n
  | .status => jobStatus

/-- The calls by their indices, and the supervisor. -/
def programs (calls : ι → JobCall) : Option ι → JobProg ι Reply
  | some i => (calls i).program i
  | none => finalizeJob

def startPool (calls : ι → JobCall) (r : Record) : Pool (Option ι) Unit (Cell ι) Answer Reply where
  store _ := ⟨r, []⟩
  rest := programs calls

end WebOauthMcp.KillJob
