import Mathlib.Order.Fin.Basic
import WebOauthMcp.BudgetMetadata
import WebOauthMcp.RelyGuarantee

/-!
# The adapter of the App Server

The state of the adapter, and its acts: each is one look, one write or one critical section.
Processes and requests are numbered in the order of their starts. A handler answers
elicitations for the tool call that brought it; what it is, and what it takes from the world
outside, is left open.
-/

namespace WebOauthMcp.AppServerAdapter
open CodePoints JsonText BudgetMetadata FaultyPrograms RelyGuarantee

inductive Method
  | initialise
  | threadStart
  | threadResume
  | threadUnsubscribe
  | threadLoadedList
  | commandExec
  | commandExecTerminate
  | mcpServerStatusList
  | mcpServerToolCall
  deriving DecidableEq

/-- What a server request was about, and what became of it. -/
structure Interaction where
  method : Text
  requestId : Json
  params : Json
  action : Option Text
  bridgeError : Option Text

inductive AdapterError
  | unavailable
  | protocol
  | timeout (m : Method)
  | capability (m : Method)
  | rpc (m : Method) (code : Json) (message : Text)
  | interactionRequired (m : Method) (interactions : List Interaction)
  | commandTimeout (terminated : Bool)
  /-- A lone surrogate in a message. -/
  | encoding
  /-- `ValueError` of a write to a closed pipe. -/
  | closedInput
  /-- Not an error of the adapter: the call is still waiting for the lifecycle lock. -/
  | stillWaiting

/-- A request to the App Server, with the parameters that the adapter reads again. -/
structure RequestCall (η : Type) where
  method : Method
  threadId : Option Text
  server : Option Text
  handler : Option η
  /-- The message holds no lone surrogate. -/
  encodable : Bool

/-- `caller` is history: who waits for the request. -/
structure PendingRequest (η ι : Type) extends RequestCall η where
  caller : Option ι
  process : ℕ
  abandoned : Bool
  event : Bool
  result : Json
  error : Option AdapterError
  interactions : List Interaction

structure Adapter (η ι : Type) where
  process : Option ℕ
  started : Bool
  generation : ℕ
  requests : ℕ → PendingRequest η ι
  /-- The keys of `_pending`, in the order of insertion. -/
  pending : List ℕ
  nextRequestId : ℕ
  claimedThreads : List (ℕ × Text)
  abandonedThreads : List (ℕ × Text)
  /-- The process of the pool for server requests. -/
  pool : Option ℕ
  retired : ℕ → Bool
  /-- The free slots of the pool of a process. -/
  slots : ℕ → ℕ
  lifecycle : Option ι
  spawned : ℕ
  exited : ℕ → Bool
  closedInput : ℕ → Bool

/-! ## Messages of the App Server -/

/-- A response: `error` is there when the message has that key. -/
structure Response where
  id : Json
  error : Option Json
  result : Json

structure ServerRequest where
  id : Json
  method : Json
  params : Json

structure ElicitationResponse where
  action : Text
  content : Json
  metaData : Json

inductive ServerReply
  | result (response : ElicitationResponse)
  | error (code : ℤ) (reason : Text)

/-- `dict.get` on a value that need not be a dict. -/
def field (k : String) : Json → Option Json
  | .obj fields => dictGet (txt k) fields
  | _ => none

def textOf : Json → Option Text
  | .str t => some t
  | _ => none

/-- The thread that a result names. -/
def threadIdOf (result : Json) : Option Text := do
  let thread ← field "thread" result
  let id ← field "id" thread
  textOf id

/-- The key a response id stands for. Truth values are integers. -/
def requestKey : Json → Option ℕ
  | .int (.ofNat n) => some n
  | .bool b => some b.toNat
  | _ => none

def defaultRpcMessage : Text := txt "Codex App Server returned an RPC error."

def rpcError (m : Method) (error : Json) : AdapterError :=
  .rpc m ((field "code" error).getD .null) (((field "message" error).bind textOf).getD defaultRpcMessage)

/-- A response as the request will see it. -/
def PendingRequest.answer {η ι : Type} (r : PendingRequest η ι) (m : Response) : PendingRequest η ι :=
  if r.interactions.any (·.bridgeError.isSome) then { r with error := some (.interactionRequired r.method r.interactions) }
  else match m.error with
    | none => { r with result := m.result }
    | some error =>
      if r.interactions.isEmpty then { r with error := some (rpcError r.method error) }
      else { r with error := some (.interactionRequired r.method r.interactions) }

/-- A response brings a result or an error, and nothing else. -/
theorem PendingRequest.answer_eq {η ι : Type} (r : PendingRequest η ι) (m : Response) :
    ∃ result error, r.answer m = { r with result := result, error := error } := by
  unfold PendingRequest.answer
  split
  · exact ⟨_, _, rfl⟩
  · split
    · exact ⟨_, _, rfl⟩
    · split <;> exact ⟨_, _, rfl⟩

/-- What the caller gets. -/
def PendingRequest.outcome {η ι : Type} (r : PendingRequest η ι) : Except AdapterError Json :=
  match r.error with
  | some e => .error e
  | none => .ok r.result

def Method.opensThread : Method → Bool
  | .threadStart | .threadResume => true
  | _ => false

/-- The methods whose requests stay pending after their callers gave up. -/
def Method.keepsOwnership (m : Method) : Bool := m.opensThread || m = .mcpServerToolCall

/-- The thread that a request brought. -/
def PendingRequest.broughtThread {η ι : Type} (r : PendingRequest η ι) : Option Text :=
  if r.method.opensThread then threadIdOf r.result else none

/-! ## Acts -/

variable {η ι ω α β : Type}

inductive Act (η ι : Type)
  | look
  | takeLifecycle (me : ι)
  | freeLifecycle
  | register (me : ι) (p : ℕ) (c : RequestCall η)
  | write (id : ℕ)
  | remove (id : ℕ)
  | giveUp (id : ℕ) (removes : Bool)
  /-- The caller takes what its request brought. -/
  | take (id : ℕ)
  | answer (id : ℕ) (p : ℕ) (m : Response)
  | setEvent (id : ℕ)
  | record (id : ℕ) (p : ℕ)
  | correlate (me : ι) (p : ℕ) (m : ServerRequest)
  | note (ids : List ℕ) (interaction : Interaction)
  | markAction (id index : ℕ) (action : Text)
  | markBridgeError (id index : ℕ) (reason : Text)
  | takeSlot (me : ι) (p : ℕ)
  | freeSlot (me : ι) (p : ℕ)
  | startHandler (me : ι) (p : ℕ) (m : ServerRequest) (id : ℕ) (handler : η)
  | endHandler (me : ι) (p : ℕ) (m : ServerRequest) (id : ℕ)
  | reply (me : ι) (p : ℕ) (m : ServerRequest) (r : ServerReply)
  | retire
  /-- `_fail_pending` lists the requests, of one process or of all, in a close or before it. -/
  | list (process : Option ℕ) (closes : Bool)
  | fail (id : ℕ) (e : AdapterError)
  | clear
  | purge (p : ℕ)
  | closeInput (p : ℕ)
  | popen
  | ready
  /-- The end of a release. The last list of loaded threads came in answer to that request. -/
  | discard (t : Text) (listed : ℕ)
  | discardAbandoned (p : ℕ) (t : Text) (listed : Option ℕ)
  /-- The process ends by itself. -/
  | exit (p : ℕ)

/-- What the world outside contributes to an act. -/
structure Answer (ω : Type) where
  opens : Bool
  writes : Bool
  workerStarts : Bool
  /-- A deadline has passed. -/
  late : Bool
  /-- How often a loop goes round before its deadline. -/
  rounds : ℕ
  outer : ω

def maxPendingRequests : ℕ := 128
def maxConcurrentServerRequests : ℕ := 8

def newRequest (caller : Option ι) (p : ℕ) (c : RequestCall η) : PendingRequest η ι := ⟨c, caller, p, false, false, .null, none, []⟩

namespace Adapter
variable (s : Adapter η ι)

def update (id : ℕ) (f : PendingRequest η ι → PendingRequest η ι) : Adapter η ι :=
  { s with requests := Function.update s.requests id (f (s.requests id)) }

def pop (id : ℕ) : Adapter η ι := { s with pending := s.pending.filter (· ≠ id) }

/-- The process of now, if it has not exited. -/
def alive : Option ℕ := s.process.filter fun p => !s.exited p

/-- `is_running`. -/
def running : Bool := s.alive.isSome && s.started

def full : Bool := maxPendingRequests ≤ s.pending.length

/-- The calls that a server request may be about. -/
def matchingPendingCalls (p : ℕ) (m : ServerRequest) : List ℕ :=
  match (field "threadId" m.params).bind textOf, (field "serverName" m.params).bind textOf with
  | some threadId, some server => s.pending.filter fun id =>
      (s.requests id).process = p ∧ (s.requests id).method = .mcpServerToolCall ∧
        (s.requests id).threadId = some threadId ∧ (s.requests id).server = some server
  | _, _ => []

/-- A thread is recorded as claimed, or as abandoned if nobody waited for it. -/
def recordThread (p : ℕ) (t : Text) (abandoned : Bool) : Adapter η ι :=
  if abandoned then
    if (p, t) ∈ s.claimedThreads then s
    else { s with abandonedThreads := (p, t) :: s.abandonedThreads.filter (· ≠ (p, t)) }
  else { s with
    claimedThreads := (p, t) :: s.claimedThreads.filter (· ≠ (p, t))
    abandonedThreads := s.abandonedThreads.filter (· ≠ (p, t)) }

def recordBrought (id p : ℕ) : Adapter η ι :=
  match (s.requests id).broughtThread with
  | none => s
  | some t => s.recordThread p t (s.requests id).abandoned

def forget (key : ℕ × Text) : Adapter η ι := { s with
  claimedThreads := s.claimedThreads.filter (· ≠ key)
  abandonedThreads := s.abandonedThreads.filter (· ≠ key) }

/-- `has_pending_operations`. -/
def hasPendingOperations (t : Text) : Bool := s.pending.any fun id =>
  s.process = some (s.requests id).process ∧ (s.requests id).threadId = some t ∧ (s.requests id).event = false

/-- The pending request that a response is for. -/
def requestFor (p : ℕ) (m : Response) : Option ℕ :=
  (requestKey m.id).filter fun id => id ∈ s.pending ∧ (s.requests id).process = p

def giveUp (id : ℕ) (removes : Bool) : Adapter η ι :=
  if (s.requests id).event then s
  else if removes then
    if (s.requests id).method.keepsOwnership then s.update id fun r => { r with abandoned := true } else s.pop id
  else s

end Adapter

/-- An interaction with its `action`, or with its `bridge_error`. -/
def PendingRequest.mark (index : ℕ) (f : Interaction → Interaction) (r : PendingRequest η ι) :
    PendingRequest η ι :=
  { r with interactions := r.interactions.modify index f }

/-- What an act does to the adapter. -/
def Act.effect [DecidableEq ι] : Act η ι → Answer ω → Adapter η ι → Adapter η ι
  | .look, _, s | .write _, _, s | .take _, _, s | .correlate _ _ _, _, s | .reply _ _ _ _, _, s => s
  | .startHandler _ _ _ _ _, _, s | .endHandler _ _ _ _, _, s | .list _ _, _, s => s
  | .takeLifecycle me, _, s => if s.lifecycle.isNone then { s with lifecycle := some me } else s
  | .freeLifecycle, _, s => { s with lifecycle := none }
  | .register me p c, _, s =>
    if s.full then s
    else { s with
      requests := Function.update s.requests s.nextRequestId (newRequest (some me) p c)
      pending := s.pending ++ [s.nextRequestId]
      nextRequestId := s.nextRequestId + 1 }
  | .remove id, _, s => s.pop id
  | .giveUp id removes, _, s => s.giveUp id removes
  | .answer id _ m, _, s => s.update id fun r => r.answer m
  | .setEvent id, _, s => s.update id fun r => { r with event := true }
  | .record id p, _, s => if (s.requests id).abandoned then (s.recordBrought id p).pop id else s.recordBrought id p
  | .note ids interaction, _, s => { s with
      requests := fun id => if id ∈ ids then
          { s.requests id with interactions := (s.requests id).interactions ++ [interaction] }
        else s.requests id }
  | .markAction id index action, _, s => s.update id fun r => r.mark index fun i => { i with action := some action }
  | .markBridgeError id index reason, _, s =>
    s.update id fun r => r.mark index fun i => { i with bridgeError := some reason }
  | .takeSlot _ p, _, s => { s with slots := Function.update s.slots p (s.slots p - 1) }
  | .freeSlot _ p, _, s => { s with slots := Function.update s.slots p (s.slots p + 1) }
  | .retire, _, s =>
    match s.pool with
    | none => { s with started := false }
    | some q =>
      if s.process = none ∨ s.process = some q then
        { s with started := false, retired := Function.update s.retired q true, pool := none }
      else { s with started := false }
  | .fail id e, _, s => s.update id fun r => { r with error := some e, event := true }
  | .clear, _, s => { s with process := none }
  | .purge p, _, s => { s with
      pending := s.pending.filter fun id => (s.requests id).process ≠ p
      abandonedThreads := s.abandonedThreads.filter (·.1 ≠ p)
      claimedThreads := s.claimedThreads.filter (·.1 ≠ p) }
  | .closeInput p, _, s => { s with closedInput := Function.update s.closedInput p true }
  | .popen, a, s =>
    if a.opens then { s with
      process := some s.spawned
      pool := some s.spawned
      started := false
      slots := Function.update s.slots s.spawned maxConcurrentServerRequests
      spawned := s.spawned + 1 }
    else s
  | .ready, _, s => { s with started := true, generation := s.generation + 1 }
  | .discard t _, _, s => s.process.elim s fun p => s.forget (p, t)
  | .discardAbandoned p t _, _, s => { s with abandonedThreads := s.abandonedThreads.filter (· ≠ (p, t)) }
  | .exit p, _, s => { s with exited := Function.update s.exited p true }

/-! ## What acts leave alone -/

/-- No request is another one than before. -/
structure Steady (s s' : Adapter η ι) : Prop where
  next : s'.nextRequestId = s.nextRequestId
  call : ∀ id, (s'.requests id).toRequestCall = (s.requests id).toRequestCall
  process : ∀ id, (s'.requests id).process = (s.requests id).process
  caller : ∀ id, (s'.requests id).caller = (s.requests id).caller
  event : ∀ id, (s.requests id).event = true → (s'.requests id).event = true

theorem Steady.refl (s : Adapter η ι) : Steady s s := ⟨rfl, fun _ => rfl, fun _ => rfl, fun _ => rfl, fun _ h => h⟩

theorem Steady.of_requests {s s' : Adapter η ι} (hnext : s'.nextRequestId = s.nextRequestId)
    (hrequests : s'.requests = s.requests) : Steady s s' := by
  refine ⟨hnext, ?_, ?_, ?_, ?_⟩ <;> intro id <;> rw [hrequests]
  exact fun h => h

theorem requests_update_of_ne (s : Adapter η ι) {id j : ℕ} (hj : j ≠ id) (f : PendingRequest η ι → PendingRequest η ι) :
    (s.update id f).requests j = s.requests j := Function.update_of_ne hj _ _

@[simp] theorem requests_update_self (s : Adapter η ι) (id : ℕ) (f : PendingRequest η ι → PendingRequest η ι) :
    (s.update id f).requests id = f (s.requests id) := Function.update_self _ _ _

/-- A property of all requests that the update of one has too. -/
theorem forall_update {s : Adapter η ι} {id : ℕ} {f : PendingRequest η ι → PendingRequest η ι}
    {P : PendingRequest η ι → PendingRequest η ι → Prop} (hrefl : ∀ r, P r r) (hone : P (s.requests id) (f (s.requests id))) (j : ℕ) :
    P (s.requests j) ((s.update id f).requests j) := by
  by_cases hj : j = id
  · subst hj
    rw [requests_update_self]
    exact hone
  · rw [requests_update_of_ne s hj]
    exact hrefl _

theorem Steady.update {s : Adapter η ι} {id : ℕ} {f : PendingRequest η ι → PendingRequest η ι}
    (hcall : (f (s.requests id)).toRequestCall = (s.requests id).toRequestCall)
    (hprocess : (f (s.requests id)).process = (s.requests id).process)
    (hcaller : (f (s.requests id)).caller = (s.requests id).caller)
    (hevent : (s.requests id).event = true → (f (s.requests id)).event = true) : Steady s (s.update id f) where
  next := rfl
  call := forall_update (P := fun r r' => r'.toRequestCall = r.toRequestCall) (fun _ => rfl) hcall
  process := forall_update (P := fun r r' => r'.process = r.process) (fun _ => rfl) hprocess
  caller := forall_update (P := fun r r' => r'.caller = r.caller) (fun _ => rfl) hcaller
  event := forall_update (P := fun r r' => r.event = true → r'.event = true) (fun _ h => h) hevent

@[simp] theorem requests_recordBrought (s : Adapter η ι) (id p : ℕ) : (s.recordBrought id p).requests = s.requests := by
  unfold Adapter.recordBrought Adapter.recordThread
  split
  · rfl
  · split
    · split <;> rfl
    · rfl

@[simp] theorem pending_recordBrought (s : Adapter η ι) (id p : ℕ) : (s.recordBrought id p).pending = s.pending := by
  unfold Adapter.recordBrought Adapter.recordThread
  split
  · rfl
  · split
    · split <;> rfl
    · rfl

theorem mem_claimed_recordThread {s : Adapter η ι} {p : ℕ} {t : Text} {abandoned : Bool} {key : ℕ × Text} :
    key ∈ (s.recordThread p t abandoned).claimedThreads ↔ key ∈ s.claimedThreads ∨ abandoned = false ∧ key = (p, t) := by
  unfold Adapter.recordThread
  cases abandoned with
  | true => simp only [↓reduceIte]; split <;> simp
  | false =>
    by_cases hkey : key = (p, t) <;> simp [hkey]

theorem mem_abandoned_recordThread {s : Adapter η ι} {p : ℕ} {t : Text} {abandoned : Bool} {key : ℕ × Text} :
    key ∈ (s.recordThread p t abandoned).abandonedThreads ↔
      if key = (p, t) then abandoned = true ∧ (key ∈ s.abandonedThreads ∨ key ∉ s.claimedThreads) else key ∈ s.abandonedThreads := by
  unfold Adapter.recordThread
  by_cases hkey : key = (p, t)
  · subst hkey
    cases abandoned with
    | true => by_cases hclaimed : (p, t) ∈ s.claimedThreads <;> simp [hclaimed]
    | false => simp
  · cases abandoned with
    | true => by_cases hclaimed : (p, t) ∈ s.claimedThreads <;> simp [hclaimed, hkey]
    | false => simp [hkey]

section
variable [DecidableEq ι] {x : Act η ι} (a : Answer ω) (s : Adapter η ι)

/-- Recording removes a request that was abandoned. -/
theorem threads_record (id p : ℕ) :
    ((Act.record id p : Act η ι).effect a s).claimedThreads = (s.recordBrought id p).claimedThreads ∧
      ((Act.record id p : Act η ι).effect a s).abandonedThreads = (s.recordBrought id p).abandonedThreads := by
  simp only [Act.effect]
  split <;> exact ⟨rfl, rfl⟩

theorem requests_record (id p : ℕ) : ((Act.record id p : Act η ι).effect a s).requests = s.requests := by
  simp only [Act.effect]
  split
  · exact requests_recordBrought s id p
  · exact requests_recordBrought s id p

theorem requests_discard (t : Text) (listed : ℕ) : ((Act.discard t listed : Act η ι).effect a s).requests = s.requests := by
  simp only [Act.effect]
  cases s.process <;> rfl

theorem steady_effect (hx : ∀ me p c, x ≠ .register me p c) : Steady s (x.effect a s) := by
  have hmark : ∀ id index f, Steady s (s.update id fun r => r.mark index f) := fun id index f => .update rfl rfl rfl fun h => h
  cases x with
  | register me p c => exact absurd rfl (hx me p c)
  | takeLifecycle me => simp only [Act.effect]; split <;> exact .of_requests rfl rfl
  | giveUp id removes =>
    simp only [Act.effect, Adapter.giveUp]
    split
    · exact .refl s
    · split
      · split
        · exact .update rfl rfl rfl fun h => h
        · exact .of_requests rfl rfl
      · exact .refl s
  | answer id p m =>
    obtain ⟨result, error, heq⟩ := (s.requests id).answer_eq m
    apply Steady.update (f := fun r => r.answer m) <;> simp only [heq]
    exact fun h => h
  | setEvent id => exact Steady.update (f := fun r => { r with event := true }) rfl rfl rfl fun _ => rfl
  | record id p =>
    refine .of_requests ?_ (requests_record a s id p)
    simp only [Act.effect, Adapter.recordBrought, Adapter.recordThread]
    split <;> split <;> (try split) <;> rfl
  | note ids interaction =>
    refine ⟨rfl, ?_, ?_, ?_, ?_⟩ <;> intro j <;> simp only [Act.effect] <;> split
    all_goals first | rfl | exact fun h => h
  | markAction id index action => exact hmark id index _
  | markBridgeError id index reason => exact hmark id index _
  | retire =>
    simp only [Act.effect]
    split
    · exact .of_requests rfl rfl
    · split <;> exact .of_requests rfl rfl
  | fail id e => exact Steady.update (f := fun r => { r with error := some e, event := true }) rfl rfl rfl fun _ => rfl
  | popen => simp only [Act.effect]; split <;> exact .of_requests rfl rfl
  | discard t listed =>
    simp only [Act.effect]
    cases s.process <;> exact .of_requests rfl rfl
  | _ => exact .of_requests rfl rfl

/-- Only a caller abandons its request. -/
theorem abandoned_effect (hregister : ∀ me p c, x ≠ .register me p c) (hgiveUp : ∀ id removes, x ≠ .giveUp id removes) (j : ℕ) :
    ((x.effect a s).requests j).abandoned = (s.requests j).abandoned := by
  have hupdate : ∀ {id f}, (f (s.requests id)).abandoned = (s.requests id).abandoned →
      ((s.update id f).requests j).abandoned = (s.requests j).abandoned := fun h =>
    forall_update (P := fun r r' => r'.abandoned = r.abandoned) (fun _ => rfl) h j
  cases x with
  | register me p c => exact absurd rfl (hregister me p c)
  | giveUp id removes => exact absurd rfl (hgiveUp id removes)
  | takeLifecycle me => simp only [Act.effect]; split <;> rfl
  | answer id p m =>
    obtain ⟨result, error, heq⟩ := (s.requests id).answer_eq m
    exact hupdate (f := fun r => r.answer m) (by simp only [heq])
  | setEvent id => exact hupdate (f := fun r => { r with event := true }) rfl
  | record id p => rw [requests_record]
  | note ids interaction => simp only [Act.effect]; split <;> rfl
  | markAction id index action => exact hupdate (f := fun r => r.mark index _) rfl
  | markBridgeError id index reason => exact hupdate (f := fun r => r.mark index _) rfl
  | retire =>
    simp only [Act.effect]
    split
    · rfl
    · split <;> rfl
  | fail id e => exact hupdate (f := fun r => { r with error := some e, event := true }) rfl
  | popen => simp only [Act.effect]; split <;> rfl
  | discard t listed => rw [requests_discard]
  | _ => rfl

/-- Requests become pending when they are registered. -/
theorem pending_effect (hregister : ∀ me p c, x ≠ .register me p c) {id : ℕ} (h : id ∈ (x.effect a s).pending) :
    id ∈ s.pending := by
  cases x with
  | register me p c => exact absurd rfl (hregister me p c)
  | takeLifecycle me =>
    simp only [Act.effect] at h
    split at h <;> exact h
  | remove id => exact List.mem_of_mem_filter h
  | purge p => exact List.mem_of_mem_filter h
  | giveUp id removes =>
    simp only [Act.effect, Adapter.giveUp] at h
    split at h
    · exact h
    · split at h
      · split at h
        · exact h
        · exact List.mem_of_mem_filter h
      · exact h
  | record j p =>
    simp only [Act.effect] at h
    split at h
    · exact pending_recordBrought s j p ▸ List.mem_of_mem_filter h
    · exact pending_recordBrought s j p ▸ h
  | retire =>
    simp only [Act.effect] at h
    split at h
    · exact h
    · split at h <;> exact h
  | popen =>
    simp only [Act.effect] at h
    split at h <;> exact h
  | discard t listed =>
    simp only [Act.effect] at h
    cases hprocess : s.process <;> simp only [hprocess] at h <;> exact h
  | _ => exact h

/-- A process becomes the current one when it is opened. -/
theorem process_effect (hpopen : x ≠ .popen) : (x.effect a s).spawned = s.spawned ∧
    ∀ p, (x.effect a s).process = some p → s.process = some p := by
  cases x with
  | popen => exact absurd rfl hpopen
  | clear => exact ⟨rfl, nofun⟩
  | register me p c => simp only [Act.effect]; split <;> exact ⟨rfl, fun _ h => h⟩
  | takeLifecycle me => simp only [Act.effect]; split <;> exact ⟨rfl, fun _ h => h⟩
  | giveUp id removes =>
    simp only [Act.effect, Adapter.giveUp]
    split
    · exact ⟨rfl, fun _ h => h⟩
    · split
      · split <;> exact ⟨rfl, fun _ h => h⟩
      · exact ⟨rfl, fun _ h => h⟩
  | record id p =>
    simp only [Act.effect, Adapter.recordBrought, Adapter.recordThread]
    split <;> split <;> (try split) <;> exact ⟨rfl, fun _ h => h⟩
  | retire =>
    simp only [Act.effect]
    split
    · exact ⟨rfl, fun _ h => h⟩
    · split <;> exact ⟨rfl, fun _ h => h⟩
  | discard t listed =>
    simp only [Act.effect]
    cases hprocess : s.process <;> exact ⟨rfl, fun _ h => hprocess ▸ h⟩
  | _ => exact ⟨rfl, fun _ h => h⟩

/-- The acts on processes, and on the slots of their pools. -/
def IsProcessAct : Act η ι → Prop
  | .retire | .clear | .popen | .closeInput _ | .exit _ | .takeSlot _ _ | .freeSlot _ _ => True
  | _ => False

/-- What is recorded of the processes, and of the slots of their pools. -/
def Adapter.processes (s : Adapter η ι) : (Option ℕ × Option ℕ × ℕ) × (ℕ → Bool) × (ℕ → Bool) × (ℕ → Bool) × (ℕ → ℕ) :=
  ((s.process, s.pool, s.spawned), s.retired, s.exited, s.closedInput, s.slots)

theorem processes_effect (hx : ¬IsProcessAct x) : (x.effect a s).processes = s.processes := by
  cases x with
  | retire | clear | popen | closeInput | exit | takeSlot | freeSlot => exact absurd trivial hx
  | register me p c => simp only [Act.effect]; split <;> rfl
  | takeLifecycle me => simp only [Act.effect]; split <;> rfl
  | giveUp id removes =>
    simp only [Act.effect, Adapter.giveUp]
    split
    · rfl
    · split
      · split <;> rfl
      · rfl
  | record id p =>
    simp only [Act.effect, Adapter.recordBrought, Adapter.recordThread]
    split <;> split <;> (try split) <;> rfl
  | discard t listed =>
    simp only [Act.effect]
    cases s.process <;> rfl
  | _ => rfl

/-- The acts that record threads, or forget them. -/
def IsThreadAct : Act η ι → Prop
  | .record _ _ | .purge _ | .discard _ _ | .discardAbandoned _ _ _ => True
  | _ => False

theorem threads_effect (hx : ¬IsThreadAct x) : (x.effect a s).claimedThreads = s.claimedThreads ∧
    (x.effect a s).abandonedThreads = s.abandonedThreads := by
  cases x with
  | record | purge | discard | discardAbandoned => exact absurd trivial hx
  | register me p c => simp only [Act.effect]; split <;> exact ⟨rfl, rfl⟩
  | takeLifecycle me => simp only [Act.effect]; split <;> exact ⟨rfl, rfl⟩
  | giveUp id removes =>
    simp only [Act.effect, Adapter.giveUp]
    split
    · exact ⟨rfl, rfl⟩
    · split
      · split <;> exact ⟨rfl, rfl⟩
      · exact ⟨rfl, rfl⟩
  | retire =>
    simp only [Act.effect]
    split
    · exact ⟨rfl, rfl⟩
    · split <;> exact ⟨rfl, rfl⟩
  | popen => simp only [Act.effect]; split <;> exact ⟨rfl, rfl⟩
  | _ => exact ⟨rfl, rfl⟩

end

end WebOauthMcp.AppServerAdapter
