import WebOauthMcp.CodePoints
import WebOauthMcp.RelyGuarantee

/-!
# The rolling supervisor

The supervisor starts a server, and another one in its place at every reload signal. Servers
are numbered in the order of their starts. Between two acts of the supervisor signals may
arrive and servers may exit. The loops are bounded: the pipe is looked at as often as its
deadline allows, and the main loop goes round as often as the run is long.
-/

namespace WebOauthMcp.RollingSupervisor
open CodePoints FaultyPrograms RelyGuarantee

/-- A server process. `ready` is history: its payload was read from the pipe. -/
structure Server where
  exitCode : Option ℤ
  terminated : Bool
  killed : Bool
  ready : Bool

/-- A process that was just started. -/
def Server.fresh : Server := ⟨none, false, false, false⟩

/-- Where the main loop is. -/
inductive Phase
  | starting
  | head
  | checking
  | reloading
  | watching
  | stopping
  | over
  deriving DecidableEq

/-- What is known of a reload that failed. -/
structure FailedReload where
  before : Option ℕ
  after : Option ℕ

/-- A reload signal, with the rounds of the loop and the reloads before it. -/
structure Hangup where
  rounds : ℕ
  reloads : ℕ

/-- The supervisor with its servers. Everything below the two requests is history. -/
structure Supervisor where
  spawned : ℕ
  server : ℕ → Server
  current : Option ℕ
  reloadRequested : Bool
  stopRequested : Bool
  phase : Phase
  rounds : ℕ
  reloads : ℕ
  hangups : List Hangup
  failedReloads : List FailedReload

inductive Failure
  | notStarted
  | exitedEarly
  | badPayload
  | notReady
  /-- `TimeoutExpired` of a wait that nobody catches. -/
  | waitExpired

/-- The waits that a condition on a run speaks about. -/
inductive Label
  | plain
  /-- The wait for a server that did not become ready. -/
  | cleanup (k : ℕ)
  /-- The wait for a replaced server that was killed. -/
  | reap (k : ℕ)

/-- What the environment contributes to an act. -/
structure Answer where
  starts : Bool
  /-- How often the pipe is looked at before the deadline. -/
  looks : ℕ
  /-- What is read from the pipe, none while it is not readable. -/
  payload : Option Bytes

abbrev Routine (α : Type) := Action Label Supervisor Answer Failure α

variable {α : Type}

def ask (f : Answer → Supervisor → α) : Routine α := perform .plain (fun _ s => s) f

def change (f : Supervisor → Supervisor) : Routine Unit := perform .plain (fun _ s => f s) fun _ _ => ()

namespace Supervisor
variable (s : Supervisor)

def put (k : ℕ) (v : Server) : Supervisor := { s with server := Function.update s.server k v }

/-- A signal reaches a process that has not exited. -/
def terminate (k : ℕ) : Supervisor :=
  if (s.server k).exitCode.isSome then s else s.put k { s.server k with terminated := true }

def kill (k : ℕ) : Supervisor :=
  if (s.server k).exitCode.isSome then s else s.put k { s.server k with killed := true }

def spawn : Supervisor := { s with spawned := s.spawned + 1, server := Function.update s.server s.spawned .fresh }

def enter (p : Phase) : Supervisor := { s with phase := p }

end Supervisor

/-! ## Processes -/

/-- `poll`, or what a wait ends with. -/
def exited (l : Label) (k : ℕ) : Routine Bool := perform l (fun _ s => s) fun _ s => (s.server k).exitCode.isSome

/-- `wait(timeout=5)` with nobody to catch its exception. -/
def waitFive (l : Label) (k : ℕ) : Routine Unit := do
  let gone ← exited l k
  if gone then pure () else throw .waitExpired

/-- `_terminate_process`. -/
def terminateProcess (l : Label) (k : ℕ) : Routine Unit := do
  let stopped ← exited .plain k
  if stopped then pure ()
  else do
    change fun s => s.terminate k
    let gone ← exited .plain k
    if gone then pure ()
    else do
      change fun s => s.kill k
      waitFive l k

def readyPayload : Bytes := (txt "ready").flatMap utf8Bytes

/-- One read of the pipe. -/
def readPipe (k : ℕ) : Routine (Option Bytes) :=
  perform .plain (fun a s => if a.payload.any readyPayload.isPrefixOf then s.put k { s.server k with ready := true } else s)
    fun a _ => a.payload

/-- `_wait_for_ready_pipe`. -/
def waitForReadyPipe (k : ℕ) : ℕ → Routine Unit
  | 0 => throw .notReady
  | looks + 1 => do
    let stopped ← exited .plain k
    if stopped then throw .exitedEarly
    else do
      let payload ← readPipe k
      match payload with
      | none => waitForReadyPipe k looks
      | some p => if readyPayload.isPrefixOf p then pure () else throw .badPayload

/-- A server that did not become ready is asked to stop. -/
def cleanUp (k : ℕ) : Routine Unit := do
  let stopped ← exited .plain k
  if stopped then pure ()
  else do
    change fun s => s.terminate k
    waitFive (.cleanup k) k

def popen : Routine ℕ := do
  let starts ← ask fun a _ => a.starts
  if starts then perform .plain (fun _ s => s.spawn) fun _ s => s.spawned else throw .notStarted

/-- `_spawn_server`. -/
def spawnServer : Routine ℕ := do
  let k ← popen
  let looks ← ask fun a _ => a.looks
  let ready ← attempt (waitForReadyPipe k looks)
  match ready with
  | .ok _ => pure k
  | .error e => do
    cleanUp k
    throw e

/-! ## The supervisor -/

/-- `_start_initial_server`. -/
def startInitialServer : Routine Unit := do
  let k ← spawnServer
  change fun s => { s with current := some k }

def replaceServer (old : ℕ) : Routine Unit := do
  let new ← spawnServer
  change fun s => { s with current := some new }
  terminateProcess (.reap old) old

/-- `_reload_server`. -/
def reloadServer : Routine Unit := do
  let current ← ask fun _ s => s.current
  match current with
  | none => startInitialServer
  | some old => replaceServer old

/-- The request is cleared before the reload. -/
def beginReload : Routine (Option ℕ) :=
  perform .plain (fun _ s => { s with reloadRequested := false, phase := .reloading, reloads := s.reloads + 1 })
    fun _ s => s.current

/-- A reload that fails is only logged. -/
def endReload (before : Option ℕ) (r : Except Failure Unit) : Routine Unit := change fun s =>
  { s with
    phase := .watching
    failedReloads := if r.isOk then s.failedReloads else ⟨before, s.current⟩ :: s.failedReloads }

def reload : Routine Unit := do
  let before ← beginReload
  let r ← attempt reloadServer
  endReload before r

/-- The head of the loop: whether a stop is requested. -/
def passHead : Routine Bool :=
  perform .plain (fun _ s => { s with phase := .checking, rounds := s.rounds + 1 }) fun _ s => s.stopRequested

def checkReload : Routine Bool :=
  perform .plain (fun _ s => if s.reloadRequested then s else s.enter .watching) fun _ s => s.reloadRequested

/-- The code of the current server, if it has exited. -/
def Supervisor.currentExit (s : Supervisor) : Option ℤ := s.current.bind fun k => (s.server k).exitCode

/-- The look at the current server. While it runs the loop goes round. -/
def watch : Routine (Option ℤ) :=
  perform .plain (fun _ s => if s.currentExit.isSome then s else s.enter .head) fun _ s => s.currentExit

/-- One round, with the exit code of the supervisor where the loop ends. -/
def round : Routine (Option ℤ) := do
  let stop ← passHead
  if stop then pure (some 0)
  else do
    let wanted ← checkReload
    if wanted then do
      reload
      watch
    else watch

/-- The loop, or none where it has gone round that often and goes on. -/
def loop : ℕ → Routine (Option ℤ)
  | 0 => pure none
  | rounds + 1 => do
    let code ← round
    match code with
    | some n => pure (some n)
    | none => loop rounds

def serve (rounds : ℕ) : Routine (Option ℤ) := do
  startInitialServer
  change fun s => s.enter .head
  loop rounds

def stopCurrent : Option ℕ → Routine Unit
  | none => pure ()
  | some k => terminateProcess .plain k

/-- What is done in any case at the end. -/
def shutDown : Routine Unit := do
  let current ← perform .plain (fun _ s => s.enter .stopping) fun _ s => s.current
  let r ← attempt (stopCurrent current)
  change fun s => s.enter .over
  fromExcept r

/-- `run`. It gives none while the loop still goes on. -/
def run (rounds : ℕ) : Routine (Option ℤ) := do
  let outcome ← attempt (serve rounds)
  match outcome with
  | .ok none => pure none
  | .ok (some code) => do
    shutDown
    pure (some code)
  | .error e => do
    shutDown
    throw e

/-! ## Signals and exits -/

inductive Event
  | hangup
  | stop
  | exits (k : ℕ) (code : ℤ)

/-- The handlers set the requests. -/
def Event.effect : Event → Supervisor → Supervisor
  | .hangup, s => { s with reloadRequested := true, hangups := ⟨s.rounds, s.reloads⟩ :: s.hangups }
  | .stop, s => { s with stopRequested := true }
  | .exits k code, s =>
    if k < s.spawned ∧ (s.server k).exitCode = none then s.put k { s.server k with exitCode := some code } else s

def Event.happen (e : Event) : Routine (Option ℤ) := do
  change e.effect
  pure none

def startState : Supervisor where
  spawned := 0
  server _ := .fresh
  current := none
  reloadRequested := false
  stopRequested := false
  phase := .starting
  rounds := 0
  reloads := 0
  hangups := []
  failedReloads := []

/-- The supervisor, and any number of events. -/
def startSystem {ι : Type} [DecidableEq ι] (me : ι) (rounds : ℕ) (events : ι → Event) :
    System ι Label Supervisor Answer (Except Failure (Option ℤ)) where
  state := startState
  rest i := if i = me then (run rounds).run else (events i).happen.run

end WebOauthMcp.RollingSupervisor
