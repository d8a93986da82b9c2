import WebOauthMcp.AppServerAdapter

/-!
# Calls of the adapter

The methods of the adapter as programs over its acts: callers that submit a request and wait
for it, the reader that resolves responses and server requests, the workers that run
handlers, and whoever starts, closes or releases under the lifecycle lock.
-/

namespace WebOauthMcp.AppServerCalls
open CodePoints JsonText BudgetMetadata FaultyPrograms RelyGuarantee AppServerAdapter

variable {η ι ω α β : Type}

abbrev Step (η ι ω α : Type) := Action (Act η ι) (Adapter η ι) (Answer ω) AdapterError α

section
variable [DecidableEq ι]

/-- An act, and what the caller learns from the state before it. -/
def act (x : Act η ι) (f : Answer ω → Adapter η ι → α) : Step η ι ω α := perform x x.effect f

def look (f : Answer ω → Adapter η ι → α) : Step η ι ω α := act .look f

def tell (x : Act η ι) : Step η ι ω Unit := act x fun _ _ => ()

/-! ## The lifecycle lock -/

section
variable (me : ι)

def takeLifecycle : ℕ → Step η ι ω Unit
  | 0 => throw .stillWaiting
  | n + 1 => do
    let taken ← act (.takeLifecycle me) fun _ s => s.lifecycle.isNone
    if taken then pure () else takeLifecycle n

def withLifecycle (n : ℕ) (x : Step η ι ω α) : Step η ι ω α := do
  takeLifecycle me n
  let result ← attempt x
  tell .freeLifecycle
  fromExcept result

end

/-! ## Requests -/

/-- What a write to the pipe of the process ends with. -/
def writeOutcome (p : ℕ) (a : Answer ω) (s : Adapter η ι) : Except AdapterError Unit :=
  if s.closedInput p then .error .closedInput else if a.writes then .ok () else .error .unavailable

/-- `_send_message` for a message that is meant for one process. It is written to the process of now. -/
def sendMessage (encodable : Bool) (expected : ℕ) (write : ℕ → Act η ι) : Step η ι ω Unit := do
  let process ← look fun _ s => s.alive
  match process with
  | none => throw .unavailable
  | some p =>
    if p = expected then
      if encodable then do
        let written ← act (write p) (writeOutcome p)
        fromExcept written
      else throw .encoding
    else throw .unavailable

def sendRequest (p : ℕ) (c : RequestCall η) (id : ℕ) : Step η ι ω ℕ := do
  let sent ← attempt (sendMessage c.encodable p fun _ => .write id)
  match sent with
  | .ok _ => pure id
  | .error e => do
    tell (.remove id)
    throw e

/-- `_submit_request`. -/
def submitRequest (me : ι) (c : RequestCall η) : Step η ι ω ℕ := do
  let snapshot ← look fun _ s => s.alive
  match snapshot with
  | none => throw .unavailable
  | some p => do
    let registered ← act (.register me p c) fun _ s => if s.full then none else some s.nextRequestId
    match registered with
    | none => throw .protocol
    | some id => sendRequest p c id

/-- The request is done: it is removed, and its outcome is taken. -/
def takeOutcome (id : ℕ) : Step η ι ω Json := do
  tell (.remove id)
  let outcome ← act (.take id) fun _ s => (s.requests id).outcome
  fromExcept outcome

/-- `_wait_pending`. A wait whose event is not set yet has timed out. -/
def waitPending (m : Method) (id : ℕ) (removes : Bool) : Step η ι ω Json := do
  let resolved ← look fun _ s => (s.requests id).event
  if resolved then takeOutcome id
  else do
    let resolved ← act (.giveUp id removes) fun _ s => (s.requests id).event
    if resolved then takeOutcome id else throw (.timeout m)

/-- A request with what it brought. -/
structure Brought where
  id : ℕ
  result : Json

/-- `_request_raw`. -/
def requestRaw (me : ι) (c : RequestCall η) : Step η ι ω Brought := do
  let id ← submitRequest me c
  let result ← waitPending c.method id true
  pure ⟨id, result⟩

def plainCall (m : Method) (threadId : Option Text) (encodable : Bool) : RequestCall η := ⟨m, threadId, none, none, encodable⟩

/-- A command that timed out is terminated, and its request removed. -/
def terminateCommand (me : ι) (id : ℕ) : Step η ι ω Json := do
  let terminated ← attempt (requestRaw me (plainCall .commandExecTerminate none true))
  tell (.remove id)
  tell (.remove id)
  throw (.commandTimeout terminated.isOk)

def endCommand (id : ℕ) (r : Except AdapterError Json) : Step η ι ω Json := do
  tell (.remove id)
  fromExcept r

/-- `command_exec`. -/
def commandExec (me : ι) (encodable : Bool) : Step η ι ω Json := do
  let id ← submitRequest me (plainCall .commandExec none encodable)
  let waited ← attempt (waitPending .commandExec id false)
  match waited with
  | .error (.timeout _) => terminateCommand me id
  | r => endCommand id r

/-! ## The end of a process -/

def failOne (e : AdapterError) (id : ℕ) : Step η ι ω Unit := do
  let resolved ← look fun _ s => (s.requests id).event
  if resolved then pure () else tell (.fail id e)

def failAll (e : AdapterError) : List ℕ → Step η ι ω Unit
  | [] => pure ()
  | id :: ids => do
    failOne e id
    failAll e ids

/-- `_fail_pending`. -/
def failPending (e : AdapterError) (process : Option ℕ) (closes : Bool) : Step η ι ω Unit := do
  let ids ← act (.list process closes) fun _ s => s.pending.filter fun id => process.all fun p => (s.requests id).process = p
  failAll e ids

def purgeProcess (p : ℕ) : Step η ι ω Unit := do
  tell .clear
  tell (.purge p)
  tell (.closeInput p)

/-- `_close_process_locked`, up to the signals. -/
def closeProcessLocked : Step η ι ω Unit := do
  let process ← act .retire fun _ s => s.process
  failPending .unavailable process true
  match process with
  | none => pure ()
  | some p => purgeProcess p

def closeIf (p : ℕ) : Step η ι ω Unit := do
  let current ← look fun _ s => decide (s.process = some p)
  if current then closeProcessLocked else pure ()

/-- What the reader of a process does when its output ends. -/
def readerEnds (me : ι) (n : ℕ) (p : ℕ) : Step η ι ω Unit := do
  failPending .unavailable (some p) false
  withLifecycle me n (closeIf p)

/-- The reader has seen a message that is no JSON object, or too long. -/
def readerFails (me : ι) (n : ℕ) (p : ℕ) : Step η ι ω Unit := do
  failPending .protocol (some p) false
  withLifecycle me n (closeIf p)
  readerEnds me n p

/-! ## The start of a process -/

/-- `_cleanup_dead_process_locked`. -/
def cleanupDeadProcess : Step η ι ω Unit := do
  let dead ← look fun _ s => s.process.any s.exited
  if dead then closeProcessLocked else pure ()

def requiredMethods : List Method :=
  [.threadStart, .threadResume, .threadUnsubscribe, .threadLoadedList, .commandExec, .mcpServerStatusList, .mcpServerToolCall]

/-- The end of a probe. Errors show that the method is known. -/
def probed (m : Method) : Except AdapterError Brought → Except AdapterError Unit
  | .ok _ => .ok ()
  | .error (.rpc _ (.int (-32601)) _) => .error (.capability m)
  | .error (.rpc _ _ _) => .ok ()
  | .error (.interactionRequired _ _) => .ok ()
  | .error e => .error e

/-- `_probe_capabilities`. -/
def probeCapabilities (me : ι) : List Method → Step η ι ω Unit
  | [] => pure ()
  | m :: ms => do
    let r ← attempt (requestRaw me (plainCall m none true))
    fromExcept (probed m r)
    probeCapabilities me ms

/-- `_send_notification("initialized", {})`. -/
def notifyInitialized : Step η ι ω Unit := do
  let written ← look fun a s => s.alive.elim (.error .unavailable) fun p => writeOutcome p a s
  fromExcept written

def handshake (me : ι) : Step η ι ω Unit := do
  let _ ← requestRaw me (plainCall .initialise none true)
  notifyInitialized
  probeCapabilities me requiredMethods
  tell .ready

def openProcess (me : ι) : Step η ι ω Unit := do
  cleanupDeadProcess
  let opened ← act .popen fun a _ => a.opens
  if opened then do
    let shaken ← attempt (handshake me)
    match shaken with
    | .ok _ => pure ()
    | .error e => do
      closeProcessLocked
      throw e
  else throw .unavailable

/-- `start`. -/
def start (me : ι) (n : ℕ) : Step η ι ω Unit := withLifecycle me n do
  let running ← look fun _ s => s.running
  if running then pure () else openProcess me

/-! ## Releasing threads -/

def loadedIds : List Json → Option (List Text)
  | [] => some []
  | j :: js => do
    let t ← textOf j
    let ts ← loadedIds js
    pure (t :: ts)

/-- A page of `thread/loaded/list`: its threads, and the next cursor. -/
def loadedPage (result : Json) (seen : List Text) : Except AdapterError (List Text × Option Text) :=
  match field "data" result with
  | some (.arr items) =>
    match loadedIds items with
    | none => .error .protocol
    | some ids =>
      match (field "nextCursor" result).getD .null with
      | .null => .ok (ids, none)
      | .str cursor => if cursor ∈ seen then .error .protocol else .ok (ids, some cursor)
      | _ => .error .protocol
  | _ => .error .protocol

/-- The loaded threads, and the request whose answer was the last page. -/
structure Loaded where
  ids : List Text
  listed : ℕ

/-- `_loaded_thread_ids`. -/
def loadedThreadIds (me : ι) : ℕ → List Text → List Text → Step η ι ω Loaded
  | 0, _, _ => throw .protocol
  | pages + 1, seen, ids => do
    let late ← look fun a _ => a.late
    if late then throw (.timeout .threadLoadedList)
    else do
      let brought ← requestRaw me (plainCall .threadLoadedList none true)
      let page ← fromExcept (loadedPage brought.result seen)
      match page with
      | (more, none) => pure ⟨ids ++ more, brought.id⟩
      | (more, some cursor) => loadedThreadIds me pages (cursor :: seen) (ids ++ more)

/-- The thread is asked for until it is no longer loaded. -/
def waitUnloaded (me : ι) (t : Text) : ℕ → Step η ι ω ℕ
  | 0 => throw (.timeout .threadUnsubscribe)
  | rounds + 1 => do
    let loaded ← loadedThreadIds me 128 [] []
    if t ∈ loaded.ids then waitUnloaded me t rounds else pure loaded.listed

def unsubscribeStatus (result : Json) : Except AdapterError Unit :=
  match (field "status" result).bind textOf with
  | some status => if status ∈ [txt "notLoaded", txt "notSubscribed", txt "unsubscribed"] then .ok () else .error .protocol
  | none => .error .protocol

/-- A loaded thread is unsubscribed, and forgotten when it is no longer loaded. -/
def releaseLoaded (me : ι) (t : Text) : Step η ι ω (Option ℕ) := do
  let busy ← look fun _ s => s.hasPendingOperations t
  if busy then throw .protocol
  else do
    let brought ← requestRaw me (plainCall .threadUnsubscribe (some t) (isEncodable t))
    fromExcept (unsubscribeStatus brought.result)
    let rounds ← look fun a _ => a.rounds
    let listed ← waitUnloaded me t rounds
    tell (.discard t listed)
    pure (some listed)

/-- `release_thread` under the lock. It gives none when the thread is not loaded in any case. -/
def releaseLocked (me : ι) (t : Text) (expected : Option ℕ) : Step η ι ω (Option ℕ) := do
  let loaded ← look fun _ s => s.running && expected.all fun p => s.process = some p
  if loaded then releaseLoaded me t else pure none

/-- `release_thread`. -/
def releaseThread (me : ι) (n : ℕ) (t : Text) (expected : Option ℕ) : Step η ι ω (Option ℕ) :=
  withLifecycle me n (releaseLocked me t expected)

def cleanupThreads (me : ι) (n : ℕ) : List (ℕ × Text) → Step η ι ω Unit
  | [] => pure ()
  | (p, t) :: keys => do
    let listed ← releaseThread me n t (some p)
    tell (.discardAbandoned p t listed)
    cleanupThreads me n keys

/-- `cleanup_abandoned_threads`. -/
def cleanupAbandonedThreads (me : ι) (n : ℕ) : Step η ι ω Unit := do
  let keys ← look fun _ s => s.abandonedThreads
  cleanupThreads me n keys

/-! ## The reader -/

/-- `_resolve_response`. -/
def resolveResponse (p : ℕ) (m : Response) : Step η ι ω Unit := do
  let found ← look fun _ s => s.requestFor p m
  match found with
  | none => pure ()
  | some id => do
    tell (.answer id p m)
    tell (.setEvent id)
    tell (.record id p)

def methodText (m : ServerRequest) : Text := (textOf m.method).getD (txt "unknown")

def elicitationMethod : Text := txt "mcpServer/elicitation/request"

def replyStrings : ServerReply → List Text
  | .result r => r.action :: (strings r.content ++ strings r.metaData)
  | .error _ reason => [reason]

/-- A reply can be written when neither it nor the id it repeats holds a lone surrogate. -/
def encodableReply (m : ServerRequest) (r : ServerReply) : Bool := (strings m.id ++ replyStrings r).all isEncodable

/-- A reply to a process that is gone is dropped. -/
def dropUnavailable : Except AdapterError Unit → Except AdapterError Unit
  | .error .unavailable => .ok ()
  | r => r

section
variable (me : ι)

def sendReply (p : ℕ) (m : ServerRequest) (r : ServerReply) : Step η ι ω Unit := do
  let sent ← attempt (sendMessage (encodableReply m r) p fun q => .reply me q m r)
  fromExcept (dropUnavailable sent)

def unsupportedReason (m : ServerRequest) : Text :=
  txt "Unsupported Codex App Server request: " ++ methodText m ++ txt "."

def uncorrelatedReason : Text :=
  txt "Elicitation could not be correlated to exactly one active MCP tool call."

def tooManyReason : Text := txt "Too many concurrent Codex App Server elicitation requests."
def notStartedReason : Text := txt "Codex App Server elicitation worker could not start."

/-- `_reject_server_request`. -/
def rejectServerRequest (p : ℕ) (m : ServerRequest) (code : ℤ) (reason : Text) : Step η ι ω Unit :=
  sendReply me p m (.error code reason)

def elicitationActions : List Text := [txt "accept", txt "decline", txt "cancel"]

/-- None for null, and an error for anything but an object. -/
def objectOrNull : Json → Except Unit Json
  | .null => .ok .null
  | .obj fields => .ok (.obj fields)
  | _ => .error ()

/-- `_normalize_elicitation_response`. -/
def normalizeElicitationResponse (value : Json) : Except Unit ElicitationResponse :=
  match (field "action" value).bind textOf with
  | none => .error ()
  | some action =>
    if action ∈ elicitationActions then do
      let content ← objectOrNull (if action = txt "accept" then (field "content" value).getD .null else .null)
      let metaData ← objectOrNull ((field "_meta" value).getD .null)
      pure ⟨action, content, metaData⟩
    else .error ()

def cancelResponse : ElicitationResponse := ⟨txt "cancel", .null, .null⟩

/-- The call that a server request is routed to, and which of its interactions it is. -/
structure Routed where
  id : ℕ
  index : ℕ

def newInteraction (m : ServerRequest) : Interaction := ⟨methodText m, m.id, m.params, none, none⟩

/-- What the handler answered. A handler that raises cancels. -/
def settleResponse (r : Routed) : Except Unit ElicitationResponse → Step η ι ω ElicitationResponse
  | .ok response => do
    tell (.markAction r.id r.index response.action)
    pure response
  | .error _ => do
    tell (.markBridgeError r.id r.index (txt "Outer MCP elicitation failed or timed out."))
    pure cancelResponse

def replyUnlessRetired (p : ℕ) (m : ServerRequest) (response : ElicitationResponse) : Step η ι ω Unit := do
  let retired ← look fun _ s => s.retired p
  if retired then pure () else sendReply me p m (.result response)

variable (respond : η → Interaction → ω → Except Unit Json)

def runHandler (p : ℕ) (m : ServerRequest) (r : Routed) (handler : η) : Step η ι ω ElicitationResponse := do
  tell (.startHandler me p m r.id handler)
  let result ← act (.endHandler me p m r.id) fun a _ =>
    (respond handler (newInteraction m) a.outer).bind normalizeElicitationResponse
  settleResponse r result

def answerServerRequest (p : ℕ) (m : ServerRequest) (r : Routed) (handler : η) : Step η ι ω Unit := do
  let retired ← look fun _ s => s.retired p
  if retired then pure ()
  else do
    let response ← runHandler me respond p m r handler
    replyUnlessRetired me p m response

/-- `_complete_server_request`. -/
def completeServerRequest (p : ℕ) (m : ServerRequest) (r : Routed) (handler : η) : Step η ι ω Unit := do
  let result ← attempt (answerServerRequest me respond p m r handler)
  tell (.freeSlot me p)
  fromExcept result

/-- The worker runs the handler in its own thread. -/
def startWorker (p : ℕ) (m : ServerRequest) (r : Routed) (handler : η) : Step η ι ω Unit := do
  let starts ← look fun a _ => a.workerStarts
  if starts then completeServerRequest me respond p m r handler
  else do
    tell (.freeSlot me p)
    tell (.markBridgeError r.id r.index (txt "Outer MCP elicitation worker could not start."))
    rejectServerRequest me p m (-32003) notStartedReason

/-- An elicitation with its call. -/
def routeServerRequest (n p : ℕ) (m : ServerRequest) (r : Routed) (handler : η) : Step η ι ω Unit := do
  let serving ← withLifecycle me n (look fun _ s => decide (s.pool = some p) && !s.retired p)
  if serving then do
    let taken ← act (.takeSlot me p) fun _ s => decide (0 < s.slots p)
    if taken then startWorker me respond p m r handler
    else do
      tell (.markBridgeError r.id r.index (txt "Outer MCP elicitation concurrency limit reached."))
      rejectServerRequest me p m (-32002) tooManyReason
  else pure ()

def dispatchServerRequest (n p : ℕ) (m : ServerRequest) (routed : Option (Routed × η)) : Step η ι ω Unit :=
  if methodText m = elicitationMethod then
    match routed with
    | none => rejectServerRequest me p m (-32001) uncorrelatedReason
    | some (r, handler) => routeServerRequest me respond n p m r handler
  else rejectServerRequest me p m (-32601) (unsupportedReason m)

/-- `_handle_server_request`. -/
def handleServerRequest (n p : ℕ) (m : ServerRequest) : Step η ι ω Unit := do
  let ids ← act (.correlate me p m) fun _ s => s.matchingPendingCalls p m
  let routed ← act (.note ids (newInteraction m)) fun _ s =>
    match ids with
    | [id] => (s.requests id).handler.map fun handler => (⟨id, (s.requests id).interactions.length⟩, handler)
    | _ => none
  dispatchServerRequest me respond n p m routed

end

/-! ## Everybody who acts on the adapter -/

/-- Calls come with the number of their looks at the lifecycle lock, messages with their process. -/
inductive Party (η : Type)
  | call (n : ℕ) (c : RequestCall η)
  | commandExec (n : ℕ) (encodable : Bool)
  | start (n : ℕ)
  | shutdown (n : ℕ)
  | release (n : ℕ) (t : Text)
  | cleanup (n : ℕ)
  | response (p : ℕ) (m : Response)
  | serverRequest (n p : ℕ) (m : ServerRequest)
  | readerEnds (n p : ℕ)
  | readerFails (n p : ℕ)
  | exit (p : ℕ)

/-- `thread_start`, `thread_resume`, `mcp_inventory` and `mcp_call` start the process first. -/
def call (me : ι) (n : ℕ) (c : RequestCall η) : Step η ι ω Unit := do
  start me n
  let brought ← requestRaw me c
  match brought.result with
  | .obj _ => pure ()
  | _ => throw .protocol

def Party.program (respond : η → Interaction → ω → Except Unit Json) (me : ι) : Party η → Step η ι ω Unit
  | .call n c => AppServerCalls.call me n c
  | .commandExec n encodable => do
    AppServerCalls.start me n
    let _ ← AppServerCalls.commandExec me encodable
    pure ()
  | .start n => AppServerCalls.start me n
  | .shutdown n => withLifecycle me n closeProcessLocked
  | .release n t => do
    let _ ← releaseThread me n t none
    pure ()
  | .cleanup n => cleanupAbandonedThreads me n
  | .response p m => resolveResponse p m
  | .serverRequest n p m => handleServerRequest me respond n p m
  | .readerEnds n p => AppServerCalls.readerEnds me n p
  | .readerFails n p => AppServerCalls.readerFails me n p
  | .exit p => tell (.exit p)

end

/-- An adapter without a process. -/
def startAdapter (η ι : Type) : Adapter η ι where
  process := none
  started := false
  generation := 0
  requests _ := newRequest none 0 ⟨.initialise, none, none, none, true⟩
  pending := []
  nextRequestId := 1
  claimedThreads := []
  abandonedThreads := []
  pool := none
  retired _ := false
  slots _ := 0
  lifecycle := none
  spawned := 0
  exited _ := false
  closedInput _ := false

def startSystem [DecidableEq ι] (respond : η → Interaction → ω → Except Unit Json) (parties : ι → Party η) :
    System ι (Act η ι) (Adapter η ι) (Answer ω) (Except AdapterError Unit) where
  state := startAdapter η ι
  rest i := ((parties i).program respond i).run

end WebOauthMcp.AppServerCalls
