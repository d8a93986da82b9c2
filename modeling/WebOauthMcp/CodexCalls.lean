import WebOauthMcp.CodexRuntimes
import WebOauthMcp.RelyGuarantee

/-!
# Calls of the runtime manager

The calls as programs whose acts are the sections. Whoever waits for the allocation lock looks
again and again whether it is free; how often is up to the call. Requests enter a slot, leave
it, and touch their runtime once more after that.
-/

namespace WebOauthMcp.CodexCalls
open CodePoints Words FaultyPrograms RelyGuarantee CodexRuntimes

/-- The acts that a condition on a run speaks about. -/
inductive Label
  | plain
  /-- The touch after the slot. -/
  | lateTouch (runtimeId : Text)
  /-- `thread/start`. -/
  | start
  /-- A collection, which begins with the abandoned threads. -/
  | cleanup
  /-- The release of a replaced thread. -/
  | replaced (threadId : Text) (m : Committed)

abbrev Call (ι : Type) (α : Type) := Action Label (Cell ι) (ℕ → Answer) CodexError α

variable {ι α β : Type}

/-- The section from this cell, under a sequence of answers. -/
def runSection (x : Section ι α) (answers : ℕ → Answer) (c : Cell ι) : Ran Unit (Cell ι) (Except CodexError α) :=
  x.run.run answers fun _ => c

def atomically (l : Label) (x : Section ι α) : Call ι α :=
  ExceptT.mk (.access l (fun answers c => (runSection x answers c).store ()) fun answers c =>
    .done (runSection x answers c).result)

inductive ResumeMode
  | reattached
  | resumed
  | recreated (previous : Text)

inductive Reply
  | executed (runtimeId threadId : Text) (exitCode : ℤ) (stdout stderr : Text)
  | inventory (runtimeId threadId : Text) (serverCount : ℕ)
  | called (runtimeId threadId : Text) (isError : Bool)
  | runtime (b : RuntimeBinding)
  | closed (b : RuntimeBinding) (resourcesReleased : Bool)
  | resumed (b : RuntimeBinding) (mode : ResumeMode)
  | collected (runtimeIds : List Text)
  | done

/-! ## Requests -/

section
variable [DecidableEq ι] (me : ι)

/-- A free place among the concurrent requests. -/
def acquireSlot : Call ι Unit := do
  let free ← atomically .plain (ask fun a _ => a.slotFree)
  if free then pure () else throw .runtimeConcurrencyLimit

/-- The binding is still there, ready and the same. -/
def register (runtimeId threadId : Text) : Section ι Unit := do
  let current ← activeBinding runtimeId
  if current.threadId = threadId then change fun c => c.register me runtimeId else throw .runtimeChanged

def leaveSlot (runtimeId : Text) : Section ι Unit := do
  touch runtimeId none
  change fun c => c.unregister me runtimeId

/-- `_request_slot` around a call of the adapter. -/
def withRequestSlot (runtimeId threadId : Text) (call : Answer → Except CodexError β) : Call ι β := do
  acquireSlot
  atomically .plain (register me runtimeId threadId)
  let result ← atomically .plain (ask fun a _ => call a)
  atomically .plain (leaveSlot me runtimeId)
  fromExcept result

/-- The checks of a call's arguments do not read the manager. -/
abbrev Checks := RuntimeBinding → Except CodexError Unit

def executed (b : RuntimeBinding) (r : ExecResult) : Except CodexError Reply :=
  match r.exitCode, r.stdout, r.stderr with
  | some exitCode, some stdout, some stderr => .ok (.executed b.runtimeId b.threadId exitCode stdout stderr)
  | _, _, _ => .error .codexProtocol

def execCommand (runtimeId : Text) (checks : Checks) : Call ι Reply := do
  let b ← atomically .plain (activeBinding runtimeId)
  fromExcept (checks b)
  let result ← withRequestSlot me runtimeId b.threadId fun a => a.commandExec
  atomically (.lateTouch runtimeId) (touch runtimeId none)
  fromExcept (executed b result)

def mcpInventory (runtimeId : Text) (checks : Checks) : Call ι Reply := do
  let b ← atomically .plain (activeBinding runtimeId)
  fromExcept (checks b)
  let result ← withRequestSlot me runtimeId b.threadId fun a => a.mcpInventory
  match result with
  | none => throw .codexProtocol
  | some serverCount => do
    atomically (.lateTouch runtimeId) (touch runtimeId (some serverCount))
    pure (.inventory runtimeId b.threadId serverCount)

def mcpCall (runtimeId : Text) (checks : Checks) : Call ι Reply := do
  let b ← atomically .plain (activeBinding runtimeId)
  fromExcept (checks b)
  let result ← withRequestSlot me runtimeId b.threadId fun a => a.mcpCall
  atomically (.lateTouch runtimeId) (touch runtimeId none)
  match result with
  | none => throw .codexProtocol
  | some isError => pure (.called runtimeId b.threadId isError)

/-! ## Calls under the allocation lock -/

def tryAllocation : Section ι Bool := do
  let free ← ask fun _ c => c.allocation.isNone
  if free then do
    change fun c => { c with allocation := some me }
    pure true
  else pure false

def takeAllocation : ℕ → Call ι Unit
  | 0 => throw .stillWaiting
  | n + 1 => do
    let taken ← atomically .plain (tryAllocation me)
    if taken then pure () else takeAllocation n

def holdingAllocation (n : ℕ) (x : Call ι α) : Call ι α := do
  takeAllocation me n
  let result ← attempt x
  atomically .plain (change fun c => { c with allocation := none })
  fromExcept result

/-- `_verify_thread_metadata`. -/
def verified (thread : LoadedThread) : Except CodexError Text :=
  if thread.verified then .ok thread.threadId else .error .runtimeMetadataMismatch

/-- The thread of an allocation, the one it replaces, and whether the connection was reused. -/
structure Connected where
  threadId : Text
  previous : Option Text
  reused : Bool

def Connected.mode (k : Connected) : ResumeMode :=
  match k.previous with
  | some t => .recreated t
  | none => if k.reused then .reattached else .resumed

/-- No rollout of the thread is left: start a new one. -/
def recreate (t : ResumeTarget) : Call ι Connected := do
  let thread ← atomically .start startThread
  let threadId ← fromExcept (verified thread)
  pure ⟨threadId, some t.threadId, false⟩

def connect (t : ResumeTarget) : Call ι Connected := do
  let reused ← atomically .plain (ask fun a c =>
    t.existing.isSome && a.running && decide (t.threadId ∈ c.liveThreadIds))
  if reused then pure ⟨t.threadId, none, true⟩
  else do
    acquireSlot
    let resumed ← atomically .plain resumeThread
    match resumed with
    | none => recreate t
    | some thread => do
      let threadId ← fromExcept (verified thread)
      if threadId = t.threadId then pure ⟨threadId, none, false⟩ else throw .runtimeMetadataMismatch

/-- `_compensate_allocation` -/
def compensateAllocation (k : Connected) : Call ι (Except CodexError Unit) :=
  if k.reused then pure (.ok ()) else attempt (atomically .plain (releaseThread k.threadId))

/-- A thread that was connected for nothing is released again. -/
def commitOrRelease (l : Limits) (t : ResumeTarget) (name : Option Text) (k : Connected) : Call ι Committed := do
  let committed ← attempt (atomically .plain (commit l t name k.threadId))
  match committed with
  | .ok m => pure m
  | .error e => do
    let _ ← compensateAllocation k
    throw e

def releasePrevious (k : Connected) (m : Committed) : Call ι Unit :=
  match k.previous with
  | none => pure ()
  | some threadId => atomically (.replaced threadId m) (releaseReplaced threadId m)

/-- `_resume_runtime`. -/
def resumeHeld (l : Limits) (r : ResumeRequest) : Call ι Reply := do
  let t ← atomically .plain (resumeTarget r)
  atomically .plain syncConnectionGeneration
  atomically .plain (releaseIfPending t.threadId)
  let k ← connect t
  atomically .plain syncConnectionGeneration
  let m ← commitOrRelease l t none k
  releasePrevious k m
  pure (.resumed m.binding k.mode)

/-- `_open_runtime`. -/
def openHeld (l : Limits) (cwd : Text) (sandbox : SandboxMode) (name : Option Text) : Call ι Reply := do
  let _ ← atomically .plain (ensureCapacityLocked l 1)
  acquireSlot
  let thread ← atomically .start startThread
  let threadId ← fromExcept (verified thread)
  atomically .plain syncConnectionGeneration
  let m ← commitOrRelease l ⟨none, threadId, cwd, sandbox⟩ name ⟨threadId, none, false⟩
  pure (.runtime m.binding)

/-- `_acquire_runtime`. -/
def acquireHeld (l : Limits) (cwd : Text) (sandbox : SandboxMode) (name : Option Text) : Call ι Reply :=
  match name with
  | none => throw .invalidArguments
  | some given => do
    let _ ← atomically .cleanup (collectExpiredIdle l.idleTtlSeconds false)
    let existing ← atomically .plain (ask fun _ c => logicalRuntime cwd sandbox given c.bindings)
    match existing with
    | none => openHeld l cwd sandbox (some given)
    | some b => resumeHeld l ⟨some b.runtimeId, none, some cwd, some sandbox⟩

def closeHeld (runtimeId : Text) (releaseResources : Bool) : Call ι Reply := do
  let b ← atomically .plain (closeLocked runtimeId releaseResources)
  pure (.closed b releaseResources)

def collectHeld (l : Limits) (suppressErrors : Bool) : Call ι Reply := do
  let runtimeIds ← atomically .cleanup (collectExpiredIdle l.idleTtlSeconds suppressErrors)
  pure (.collected runtimeIds)

/-- `shutdown`, as far as the bindings go. -/
def shutdownHeld : Call ι Reply := do
  atomically .plain (change fun c => c.detachAll)
  pure .done

end

/-! ## The manager and its callers -/

/-- The calls, with the number of their looks at the allocation lock, and what happens to the
App Server by itself. -/
inductive RuntimeCall
  | execCommand (runtimeId : Text) (checks : Checks)
  | mcpInventory (runtimeId : Text) (checks : Checks)
  | mcpCall (runtimeId : Text) (checks : Checks)
  | status (runtimeId : Text)
  | close (n : ℕ) (runtimeId : Text) (releaseResources : Bool)
  | collect (n : ℕ) (suppressErrors : Bool)
  | openRuntime (n : ℕ) (cwd : Text) (sandbox : SandboxMode) (name : Option Text)
  | resume (n : ℕ) (r : ResumeRequest)
  | acquire (n : ℕ) (cwd : Text) (sandbox : SandboxMode) (name : Option Text)
  | shutdown (n : ℕ)
  /-- A thread answers a request that nobody waits for any longer. -/
  | lateAnswer (threadId : Text)
  | processEnded

def RuntimeCall.program [DecidableEq ι] (l : Limits) (me : ι) : RuntimeCall → Call ι Reply
  | .execCommand runtimeId checks => CodexCalls.execCommand me runtimeId checks
  | .mcpInventory runtimeId checks => CodexCalls.mcpInventory me runtimeId checks
  | .mcpCall runtimeId checks => CodexCalls.mcpCall me runtimeId checks
  | .status runtimeId => do
    let b ← atomically .plain (runtimeStatus runtimeId)
    pure (.runtime b)
  | .close n runtimeId releaseResources => holdingAllocation me n (closeHeld runtimeId releaseResources)
  | .collect n suppressErrors => holdingAllocation me n (collectHeld l suppressErrors)
  | .openRuntime n cwd sandbox name => holdingAllocation me n (openHeld l cwd sandbox name)
  | .resume n r => holdingAllocation me n (resumeHeld l r)
  | .acquire n cwd sandbox name => holdingAllocation me n (acquireHeld l cwd sandbox name)
  | .shutdown n => holdingAllocation me n shutdownHeld
  | .lateAnswer threadId => do
    atomically .plain (change fun c => { c with abandoned := threadId :: c.abandoned })
    pure .done
  | .processEnded => do
    atomically .plain (change fun c => { c with abandoned := [] })
    pure .done

/-- A manager that has just loaded its bindings. -/
def startCell (bindings : List RuntimeBinding) (generation : Option ℕ) : Cell ι where
  bindings := bindings
  activeRequests _ := 0
  pendingRelease := []
  liveThreadIds := []
  observedGeneration := generation
  allocation := none
  released := []
  abandoned := []
  users _ := []
  closed := []

def startSystem [DecidableEq ι] (l : Limits) (bindings : List RuntimeBinding) (generation : Option ℕ)
    (calls : ι → RuntimeCall) : System ι Label (Cell ι) (ℕ → Answer) (Except CodexError Reply) where
  state := startCell bindings generation
  rest i := ((calls i).program l i).run

end WebOauthMcp.CodexCalls
