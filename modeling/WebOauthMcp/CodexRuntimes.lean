import Mathlib.Data.Rat.Defs
import WebOauthMcp.Words
import WebOauthMcp.FaultyPrograms

/-!
# Codex runtimes

The manager binds runtimes to threads of one App Server. A section is what a call does under
the lock of the manager: it runs without a break, but every question to the App Server, the
clock and the binding store gets its own answer. A call is a sequence of sections. A second
lock is held over all sections of a call that opens, resumes, closes or collects runtimes.
-/

namespace WebOauthMcp.CodexRuntimes
open CodePoints Words FaultyPrograms

inductive RuntimeStatus
  | ready
  | detached
  | error
  deriving DecidableEq

inductive SandboxMode
  | readOnly
  | workspaceWrite
  | fullAccess
  deriving DecidableEq

structure RuntimeBinding where
  runtimeId : Text
  threadId : Text
  cwd : Text
  sandbox : SandboxMode
  name : Option Text
  createdAt : ℚ
  lastUsedAt : ℚ
  status : RuntimeStatus
  mcpServerCount : Option ℕ

inductive CodexError
  | runtimeNotFound
  | runtimeBusy
  | runtimeNotActive
  | runtimeChanged
  | runtimeConcurrencyLimit
  | runtimeLimitReached
  | runtimeCleanupIncomplete
  | runtimeMetadataMismatch
  | resumeMetadataRequired
  | invalidArguments
  | bindingStore
  | codexProtocol
  /-- What the App Server's adapter raises by itself. -/
  | adapter (code : Text)
  /-- Not an error of the manager: the call is still waiting for the allocation lock. -/
  | stillWaiting

structure Manager where
  bindings : List RuntimeBinding
  activeRequests : Text → ℕ
  pendingRelease : List Text
  liveThreadIds : List Text
  observedGeneration : Option ℕ

/-- The manager with its App Server. `users` and `closed` are history: the requests that are in
their slots, and the runtimes that were closed and not resumed since. -/
structure Cell (ι : Type) extends Manager where
  allocation : Option ι
  /-- The threads whose release was confirmed, and that were not loaded since. -/
  released : List Text
  /-- The threads that answered a request after its caller had given up. -/
  abandoned : List Text
  users : Text → List ι
  closed : List Text

structure Limits where
  maxRuntimes : ℕ
  idleTtlSeconds : ℚ

/-! ## Answers -/

/-- A thread that the App Server loaded, and whether its directory and sandbox are the expected ones. -/
structure LoadedThread where
  threadId : Text
  verified : Bool

inductive ResumeAnswer
  | loaded (thread : LoadedThread)
  | noRollout
  | failed (e : CodexError)

/-- The fields of a command's result, none where they have another type. -/
structure ExecResult where
  exitCode : Option ℤ
  stdout : Option Text
  stderr : Option Text

/-- What the environment answers to a question. -/
structure Answer where
  now : ℚ
  running : Bool
  generation : Option ℕ
  pendingOperations : Bool
  ownsThread : Bool
  release : Except CodexError Bool
  saved : Except CodexError Unit
  gcStop : Bool
  slotFree : Bool
  newRuntimeId : Text
  threadStart : Except CodexError LoadedThread
  threadResume : ResumeAnswer
  commandExec : Except CodexError ExecResult
  /-- The number of servers, none where there is no list of them. -/
  mcpInventory : Except CodexError (Option ℕ)
  /-- `isError`, none where it is no truth value. -/
  mcpCall : Except CodexError (Option Bool)
  /-- The order of the members of a set. -/
  arrange : List Text → List Text
  arrange_perm : ∀ ts, (arrange ts).Perm ts

abbrev Section (ι : Type) (α : Type) := Action Unit (Cell ι) Answer CodexError α

variable {ι α β : Type}

def ask (f : Answer → Cell ι → α) : Section ι α := ExceptT.mk (.access () (fun _ c => c) fun a c => .done (.ok (f a c)))

def change (f : Cell ι → Cell ι) : Section ι Unit := ExceptT.mk (.access () (fun _ c => f c) fun _ _ => .done (.ok ()))

def require (e : CodexError) : Option α → Section ι α
  | some a => pure a
  | none => throw e

/-! ## Bindings and threads -/

def without (t : Text) (ts : List Text) : List Text := ts.filter (· ≠ t)

/-- `bindings[binding.runtime_id] = binding`. -/
def putBinding (b : RuntimeBinding) (bs : List RuntimeBinding) : List RuntimeBinding :=
  if bs.any (·.runtimeId = b.runtimeId) then bs.map fun a => if a.runtimeId = b.runtimeId then b else a
  else bs ++ [b]

namespace Cell
variable (c : Cell ι)

def binding (runtimeId : Text) : Option RuntimeBinding := c.bindings.find? (·.runtimeId = runtimeId)

def put (b : RuntimeBinding) : Cell ι := { c with bindings := putBinding b c.bindings }

/-- A binding with another status, if it is there. -/
def detach (runtimeId : Text) : Cell ι :=
  match c.binding runtimeId with
  | none => c
  | some b => c.put { b with status := .detached }

def syncGeneration : Option ℕ → Cell ι
  | none => c
  | some g =>
    if c.observedGeneration = some g then c
    else { c with liveThreadIds := [], pendingRelease := [], observedGeneration := some g }

def beginRelease (t : Text) : Cell ι :=
  { c with
    pendingRelease := t :: without t c.pendingRelease
    liveThreadIds := without t c.liveThreadIds
    bindings := c.bindings.map fun b => if b.threadId = t then { b with status := .detached } else b }

/-- The App Server has let go of the thread. -/
def unload (t : Text) : Cell ι :=
  { c with released := t :: without t c.released, abandoned := without t c.abandoned }

def confirmRelease (t : Text) : Cell ι := { c.unload t with pendingRelease := without t c.pendingRelease }

/-- The App Server has loaded the thread. -/
def load (t : Text) : Cell ι := { c with released := without t c.released, abandoned := without t c.abandoned }

def addLive (t : Text) : Cell ι := { c with liveThreadIds := t :: without t c.liveThreadIds }

def dropBindings (dropped : List RuntimeBinding) : Cell ι :=
  { c with
    bindings := c.bindings.filter fun b => b.runtimeId ∉ dropped.map (·.runtimeId)
    liveThreadIds := c.liveThreadIds.filter fun t => t ∉ dropped.map (·.threadId) }

/-- `(live | pending) - bound`. -/
def unboundThreads : List Text :=
  (c.liveThreadIds ++ c.pendingRelease).dedup.filter fun t => t ∉ c.bindings.map (·.threadId)

def overflow (l : Limits) (required : ℕ) : ℕ :=
  c.bindings.length + c.unboundThreads.length + required - l.maxRuntimes

/-- The binding of a successful use. -/
def touched (runtimeId : Text) (mcpServerCount : Option ℕ) (now : ℚ) : Cell ι :=
  match c.binding runtimeId with
  | none => c
  | some b => c.put { b with
      lastUsedAt := now
      status := .ready
      mcpServerCount := mcpServerCount <|> b.mcpServerCount }

def closeBinding (b : RuntimeBinding) : Cell ι := { c.put b with closed := b.runtimeId :: without b.runtimeId c.closed }

def commitBinding (b : RuntimeBinding) : Cell ι := { c.put b with closed := without b.runtimeId c.closed }

/-- A resume that failed after all. -/
def reclose (runtimeId : Text) : Cell ι := { c with closed := runtimeId :: without runtimeId c.closed }

def detachAll : Cell ι :=
  { c with
    bindings := c.bindings.map fun b => { b with status := .detached }
    liveThreadIds := []
    pendingRelease := [] }

variable [DecidableEq ι]

def register (me : ι) (runtimeId : Text) : Cell ι :=
  { c with
    activeRequests := Function.update c.activeRequests runtimeId (c.activeRequests runtimeId + 1)
    users := Function.update c.users runtimeId (me :: c.users runtimeId) }

def unregister (me : ι) (runtimeId : Text) : Cell ι :=
  { c with
    activeRequests := Function.update c.activeRequests runtimeId (c.activeRequests runtimeId - 1)
    users := Function.update c.users runtimeId ((c.users runtimeId).erase me) }

end Cell

/-! ## Releasing threads -/

/-- `_sync_connection_generation`. -/
def syncConnectionGeneration : Section ι Unit := do
  let generation ← ask fun a _ => a.generation
  change fun c => c.syncGeneration generation

/-- `_thread_in_use_locked`. -/
def threadInUse (threadId : Text) : Section ι Bool := do
  let used ← ask fun _ c => c.bindings.any fun b => b.threadId = threadId ∧ 0 < c.activeRequests b.runtimeId
  if used then pure true else ask fun a _ => a.pendingOperations

def releaseOwned (threadId : Text) : Section ι Unit := do
  let inUse ← threadInUse threadId
  if inUse then throw .runtimeBusy
  else do
    change fun c => c.beginRelease threadId
    let answer ← ask fun a _ => a.release
    let confirmed ← fromExcept answer
    if confirmed then change fun c => c.confirmRelease threadId else throw .runtimeCleanupIncomplete

/-- `_release_thread_locked`. A thread that nobody here holds is left alone. -/
def releaseThread (threadId : Text) : Section ι Unit := do
  syncConnectionGeneration
  let owned ← ask fun a c => decide (threadId ∈ c.liveThreadIds ∨ threadId ∈ c.pendingRelease) || a.ownsThread
  if owned then releaseOwned threadId else pure ()

def releaseAll : List Text → Section ι Unit
  | [] => pure ()
  | t :: ts => do
    releaseThread t
    releaseAll ts

def saveBindings (f : Cell ι → Cell ι) : Section ι Unit := do
  let saved ← ask fun a _ => a.saved
  fromExcept saved
  change f

/-! ## Collecting -/

/-- The bindings that pass the test and whose threads are not in use. -/
def idleBindings (test : RuntimeBinding → Bool) : List RuntimeBinding → Section ι (List RuntimeBinding)
  | [] => pure []
  | b :: bs =>
    if test b then do
      let inUse ← threadInUse b.threadId
      let rest ← idleBindings test bs
      pure (if inUse then rest else b :: rest)
    else idleBindings test bs

/-- A binding whose thread cannot be released is kept for the next collection. -/
def releaseExpired : List RuntimeBinding → Section ι (List RuntimeBinding)
  | [] => pure []
  | b :: bs => do
    let stop ← ask fun a _ => a.gcStop
    if stop then pure []
    else do
      let released ← attempt (releaseThread b.threadId)
      let rest ← releaseExpired bs
      pure (if released.isOk then b :: rest else rest)

def dropExpired (suppressErrors : Bool) (expired : List RuntimeBinding) : Section ι (List Text) :=
  if expired.isEmpty then pure []
  else do
    let saved ← attempt (saveBindings fun c => c.dropBindings expired)
    match saved with
    | .ok _ => pure ((expired.map (·.runtimeId)).mergeSort textLe)
    | .error e => if suppressErrors then pure [] else throw e

/-- `_collect_expired_idle_locked`. -/
def collectExpiredIdleLocked (ttl : ℚ) (suppressErrors : Bool) : Section ι (List Text) := do
  let now ← ask fun a _ => a.now
  let bindings ← ask fun _ c => c.bindings
  let idle ← idleBindings (fun b => ttl ≤ now - b.lastUsedAt) bindings
  let expired ← releaseExpired idle
  dropExpired suppressErrors expired

/-- `cleanup_abandoned_threads` of the adapter. -/
def releaseAbandoned : List Text → Section ι Unit
  | [] => pure ()
  | t :: ts => do
    let answer ← ask fun a _ => a.release
    let _ ← fromExcept answer
    change fun c => c.unload t
    releaseAbandoned ts

def cleanupThreads : Section ι Unit := do
  let abandoned ← ask fun a c => a.arrange c.abandoned
  releaseAbandoned abandoned
  let unbound ← ask fun a c => a.arrange c.unboundThreads
  releaseAll unbound

/-- `_collect_expired_idle` on the connection of now. -/
def collectSynced (ttl : ℚ) (suppressErrors : Bool) : Section ι (List Text) := do
  let cleaned ← attempt cleanupThreads
  match cleaned with
  | .ok _ => collectExpiredIdleLocked ttl suppressErrors
  | .error e => if suppressErrors then collectExpiredIdleLocked ttl suppressErrors else throw e

/-- `_collect_expired_idle`. -/
def collectExpiredIdle (ttl : ℚ) (suppressErrors : Bool) : Section ι (List Text) := do
  syncConnectionGeneration
  collectSynced ttl suppressErrors

/-! ## Capacity -/

/-- The order of `(last_used_at, created_at, runtime_id)`. -/
def usedBefore (a b : RuntimeBinding) : Bool :=
  if a.lastUsedAt = b.lastUsedAt then
    if a.createdAt = b.createdAt then textLe a.runtimeId b.runtimeId else a.createdAt < b.createdAt
  else a.lastUsedAt < b.lastUsedAt

def evict (evicted : List RuntimeBinding) : Section ι (List Text) := do
  releaseAll (evicted.map (·.threadId))
  saveBindings fun c => c.dropBindings evicted
  pure (evicted.map (·.runtimeId))

/-- `_ensure_capacity_locked`. -/
def ensureCapacityLocked (l : Limits) (required : ℕ) : Section ι (List Text) :=
  if required = 0 then pure []
  else do
    let _ ← collectExpiredIdleLocked l.idleTtlSeconds false
    let overflow ← ask fun _ c => c.overflow l required
    if overflow = 0 then pure []
    else do
      let bindings ← ask fun _ c => c.bindings
      let candidates ← idleBindings (fun b => b.status = .detached) bindings
      if candidates.length < overflow then throw .runtimeLimitReached
      else evict ((candidates.mergeSort usedBefore).take overflow)

/-! ## Sections of the calls -/

/-- `_active_binding`. -/
def activeBinding (runtimeId : Text) : Section ι RuntimeBinding := do
  let found ← ask fun _ c => c.binding runtimeId
  let b ← require .runtimeNotFound found
  let running ← ask fun a _ => a.running
  if running then
    if b.status = .ready then pure b else throw .runtimeNotActive
  else do
    change fun c => c.detach runtimeId
    throw .runtimeNotActive

/-- `_touch`. A store that cannot be written only leaves a warning. -/
def touch (runtimeId : Text) (mcpServerCount : Option ℕ) : Section ι Unit := do
  let now ← ask fun a _ => a.now
  change fun c => c.touched runtimeId mcpServerCount now

/-- `runtime_status`: the binding, and whether the process is running. -/
def runtimeStatus (runtimeId : Text) : Section ι RuntimeBinding := do
  let found ← ask fun _ c => c.binding runtimeId
  let b ← require .runtimeNotFound found
  let running ← ask fun a _ => a.running
  if b.status = .ready ∧ !running then do
    change fun c => c.detach runtimeId
    pure { b with status := .detached }
  else pure b

def releaseIf (releaseResources : Bool) (threadId : Text) : Section ι Unit :=
  if releaseResources then releaseThread threadId else pure ()

/-- `close_runtime`, under both locks. -/
def closeLocked (runtimeId : Text) (releaseResources : Bool) : Section ι RuntimeBinding := do
  let found ← ask fun _ c => c.binding runtimeId
  let b ← require .runtimeNotFound found
  let inUse ← threadInUse b.threadId
  if inUse then throw .runtimeBusy
  else do
    releaseIf releaseResources b.threadId
    let now ← ask fun a _ => a.now
    saveBindings fun c => c.closeBinding { b with status := .detached, lastUsedAt := now }
    pure { b with status := .detached, lastUsedAt := now }

/-- Blank ids are none. Directories are resolved. -/
structure ResumeRequest where
  runtimeId : Option Text
  threadId : Option Text
  cwd : Option Text
  sandbox : Option SandboxMode

structure ResumeTarget where
  existing : Option RuntimeBinding
  threadId : Text
  cwd : Text
  sandbox : SandboxMode

def boundTarget (r : ResumeRequest) (b : RuntimeBinding) : Except CodexError ResumeTarget :=
  if r.cwd.getD b.cwd = b.cwd ∧ r.sandbox.getD b.sandbox = b.sandbox then .ok ⟨some b, b.threadId, b.cwd, b.sandbox⟩
  else .error .runtimeMetadataMismatch

def unboundTarget (r : ResumeRequest) (threadId : Text) : Except CodexError ResumeTarget :=
  match r.cwd, r.sandbox with
  | some cwd, some sandbox => .ok ⟨none, threadId, cwd, sandbox⟩
  | _, _ => .error .resumeMetadataRequired

/-- What a resume is about. -/
def resumeTarget (r : ResumeRequest) : Section ι ResumeTarget :=
  match r.runtimeId, r.threadId with
  | some runtimeId, none => do
    let found ← ask fun _ c => c.binding runtimeId
    let b ← require .runtimeNotFound found
    fromExcept (boundTarget r b)
  | none, some threadId => do
    let found ← ask fun _ c => c.bindings.find? (·.threadId = threadId)
    match found with
    | some b => fromExcept (boundTarget r b)
    | none => fromExcept (unboundTarget r threadId)
  | _, _ => throw .invalidArguments

def releaseIfPending (threadId : Text) : Section ι Unit := do
  let isPending ← ask fun _ c => decide (threadId ∈ c.pendingRelease)
  if isPending then releaseThread threadId else pure ()

def startedThread (answer : Except CodexError LoadedThread) : Section ι LoadedThread := do
  let thread ← fromExcept answer
  change fun c => c.load thread.threadId
  pure thread

/-- `thread_start` of the adapter. -/
def startThread : Section ι LoadedThread := do
  let answer ← ask fun a _ => a.threadStart
  startedThread answer

/-- `thread_resume` of the adapter, none where there is no rollout of the thread. -/
def resumeThread : Section ι (Option LoadedThread) := do
  let answer ← ask fun a _ => a.threadResume
  match answer with
  | .loaded thread => do
    change fun c => c.load thread.threadId
    pure (some thread)
  | .noRollout => pure none
  | .failed e => throw e

/-- The binding of an open or resumed runtime. -/
def readyBinding (t : ResumeTarget) (name : Option Text) (threadId newRuntimeId : Text) (now : ℚ) : RuntimeBinding :=
  match t.existing with
  | none => ⟨newRuntimeId, threadId, t.cwd, t.sandbox, name, now, now, .ready, none⟩
  | some b => { b with threadId := threadId, cwd := t.cwd, lastUsedAt := now, status := .ready }

/-- The binding, and whether its runtime was closed before. -/
structure Committed where
  binding : RuntimeBinding
  wasClosed : Bool

/-- Room for the runtime, if it is new. -/
def makeRoom (l : Limits) (t : ResumeTarget) : Section ι (List Text) :=
  if t.existing.isNone then ensureCapacityLocked l 1 else pure []

def commit (l : Limits) (t : ResumeTarget) (name : Option Text) (threadId : Text) : Section ι Committed := do
  let newRuntimeId ← ask fun a _ => a.newRuntimeId
  let now ← ask fun a _ => a.now
  let _ ← makeRoom l t
  change fun c => c.addLive threadId
  let wasClosed ← ask fun _ c => decide ((readyBinding t name threadId newRuntimeId now).runtimeId ∈ c.closed)
  saveBindings fun c => c.commitBinding (readyBinding t name threadId newRuntimeId now)
  pure ⟨readyBinding t name threadId newRuntimeId now, wasClosed⟩

/-- The release of the thread that a resume replaced. When it fails, so does the resume. -/
def releaseReplaced (threadId : Text) (m : Committed) : Section ι Unit := do
  let released ← attempt (releaseThread threadId)
  match released with
  | .ok _ => pure ()
  | .error e => do
    change fun c => if m.wasClosed then c.reclose m.binding.runtimeId else c
    throw e

/-- The newest runtime of that name, directory and sandbox. -/
def logicalRuntime (cwd : Text) (sandbox : SandboxMode) (name : Text) (bs : List RuntimeBinding) : Option RuntimeBinding :=
  ((bs.filter fun b => b.name = some name ∧ b.cwd = cwd ∧ b.sandbox = sandbox).mergeSort
    fun a b => usedBefore b a).head?

end WebOauthMcp.CodexRuntimes
