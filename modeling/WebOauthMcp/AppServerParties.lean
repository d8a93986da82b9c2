import WebOauthMcp.AppServerCalls

/-!
# What programs inherit from their acts

A property of steps that sequences, exceptions and looks preserve holds for a method of the
adapter as soon as it holds for the acts of that method. A claim about some acts so needs the
programs of those acts only.
-/

namespace WebOauthMcp.AppServerParties
open CodePoints JsonText FaultyPrograms RelyGuarantee AppServerAdapter AppServerCalls

variable {η ι ω α β : Type} [DecidableEq ι]

/-- What a sequence has when its parts have it, and what a look has. -/
structure Inherited (P : ∀ α : Type, Step η ι ω α → Prop) : Prop where
  bind : ∀ {α β : Type} {x : Step η ι ω α} {f : α → Step η ι ω β}, P α x → (∀ a, P β (f a)) → P β (x >>= f)
  pure : ∀ {α : Type} (a : α), P α (pure a)
  throw : ∀ {α : Type} (e : AdapterError), P α (throw e)
  fromExcept : ∀ {α : Type} (r : Except AdapterError α), P α (fromExcept r)
  attempt : ∀ {α : Type} {x : Step η ι ω α}, P α x → P _ (attempt x)
  look : ∀ {α : Type} (f : Answer ω → Adapter η ι → α), P α (look f)

/-- All acts of a kind have the property, whatever is learnt from them. -/
def OfActs (P : ∀ α : Type, Step η ι ω α → Prop) (kind : Act η ι → Prop) : Prop :=
  ∀ x, kind x → ∀ (α : Type) (f : Answer ω → Adapter η ι → α), P α (act x f)

/-! ## Upholding an invariant -/

section
variable {H : Type} {note : Act η ι → Answer ω → Adapter η ι → H → H}
  {cond : Act η ι → Adapter η ι × H → Answer ω → Prop} {inv : Adapter η ι × H → Prop}
  {rely guar : Adapter η ι × H → Adapter η ι × H → Prop}

/-- What a look learns is forgotten. -/
theorem inherited_observes (hnote : ∀ a s h, note .look a s h = h) (hguar : ∀ s, guar s s) :
    Inherited fun α (x : Step η ι ω α) => ∀ s, Observes note cond inv rely guar x s fun _ _ => True where
  bind hx hf s := observes_bind ((hx s).mono fun _ s' _ => ⟨fun a _ => hf a s', fun _ _ => trivial⟩)
  pure _ _ := trivial
  throw _ _ := trivial
  fromExcept _ _ := trivial
  attempt hx s := observes_attempt ((hx s).mono fun _ _ _ => trivial)
  look f s := observes_perform fun s' a _ hinv _ => by
    rw [hnote]
    exact ⟨hinv, hguar s', trivial⟩

theorem ofActs_observes {kind : Act η ι → Prop}
    (h : ∀ x, kind x → ∀ s a, inv s → cond x s a → inv (x.effect a s.1, note x a s.1 s.2) ∧
      guar s (x.effect a s.1, note x a s.1 s.2)) :
    OfActs (fun α (x : Step η ι ω α) => ∀ s, Observes note cond inv rely guar x s fun _ _ => True) kind := by
  intro x hx α f s
  exact observes_perform fun s' a _ hinv hmet => ⟨(h x hx s' a hinv hmet).1, (h x hx s' a hinv hmet).2, trivial⟩

/-- A message that is sent: the process is not the current one, or the message cannot be encoded, or it is written. -/
theorem observes_sendMessage {encodable : Bool} {expected : ℕ} {write : ℕ → Act η ι} {s : Adapter η ι × H}
    {Q : Except AdapterError Unit → Adapter η ι × H → Prop} (hnote : ∀ a s h, note .look a s h = h) (hguar : ∀ s, guar s s)
    (hgone : ∀ s', rely s s' → inv s' → s'.1.alive ≠ some expected → Q (.error .unavailable) s')
    (hencoding : ∀ s', rely s s' → inv s' → encodable = false → Q (.error .encoding) s')
    (hwrite : ∀ s', rely s s' → inv s' → encodable = true → Observes note cond inv rely guar
      (act (write expected) (writeOutcome expected) >>= fun written => fromExcept written) s' Q) :
    Observes note cond inv rely guar (sendMessage encodable expected write) s Q := by
  refine observes_act fun s' a hrely hinv _ => ?_
  rw [hnote]
  refine ⟨hinv, hguar s', ?_⟩
  cases halive : s'.1.alive with
  | none => exact observes_throw (hgone s' hrely hinv (halive ▸ nofun))
  | some p =>
    by_cases hp : p = expected
    · subst hp
      simp only [↓reduceIte]
      cases hencodable : encodable with
      | true => exact hwrite s' hrely hinv hencodable
      | false => exact observes_throw (hencoding s' hrely hinv hencodable)
    · simp only [if_neg hp]
      exact observes_throw (hgone s' hrely hinv fun h => hp (Option.some.inj (halive.symm.trans h)))

end

/-! ## Kinds of acts -/

def IsLifecycleAct : Act η ι → Prop
  | .takeLifecycle _ | .freeLifecycle => True
  | _ => False

def IsRequestAct : Act η ι → Prop
  | .register _ _ _ | .write _ | .remove _ | .giveUp _ _ | .take _ => True
  | _ => False

def IsResponseAct : Act η ι → Prop
  | .answer _ _ _ | .setEvent _ | .record _ _ => True
  | _ => False

def IsServerAct : Act η ι → Prop
  | .correlate _ _ _ | .note _ _ | .markAction _ _ _ | .markBridgeError _ _ _ | .takeSlot _ _ | .freeSlot _ _ => True
  | .startHandler _ _ _ _ _ | .endHandler _ _ _ _ | .reply _ _ _ _ => True
  | _ => False

def IsClosingAct : Act η ι → Prop
  | .retire | .list _ _ | .fail _ _ | .clear | .purge _ | .closeInput _ => True
  | _ => False

variable {P : ∀ α : Type, Step η ι ω α → Prop}

namespace Inherited
variable (h : Inherited P)
include h

theorem ite {α : Type} {b : Bool} {x y : Step η ι ω α} (hx : P α x) (hy : P α y) : P α (if b then x else y) := by
  cases b with
  | true => exact hx
  | false => exact hy

theorem takeLifecycle {me : ι} {n : ℕ} (hlock : OfActs P IsLifecycleAct) : P Unit (takeLifecycle me n) := by
  induction n with
  | zero => exact h.throw _
  | succ n ih => exact h.bind (hlock (.takeLifecycle me) trivial _ _) fun _ => h.ite (h.pure ()) ih

theorem withLifecycle {me : ι} {n : ℕ} {x : Step η ι ω α} (hlock : OfActs P IsLifecycleAct) (hx : P α x) :
    P α (withLifecycle me n x) := by
  refine h.bind (h.takeLifecycle hlock) fun _ => h.bind (h.attempt hx) fun r => h.bind ?_ fun _ => h.fromExcept r
  exact hlock .freeLifecycle trivial _ _

theorem sendMessage {encodable : Bool} {p : ℕ} {x : ℕ → Act η ι}
    (hx : ∀ q (f : Answer ω → Adapter η ι → Except AdapterError Unit), P _ (act (x q) f)) : P Unit (sendMessage encodable p x) := by
  refine h.bind (h.look _) fun process => ?_
  cases process with
  | none => exact h.throw _
  | some q =>
    by_cases hq : q = p
    · simp only [hq, ↓reduceIte]
      exact h.ite (h.bind (hx _ _) fun r => h.fromExcept r) (h.throw _)
    · simp only [hq, ↓reduceIte]
      exact h.throw _

/-! ## Requests -/

theorem submitRequest {me : ι} {c : RequestCall η} (hacts : OfActs P IsRequestAct) : P ℕ (submitRequest me c) := by
  refine h.bind (h.look _) fun snapshot => ?_
  cases snapshot with
  | none => exact h.throw _
  | some p =>
    refine h.bind (hacts (.register me p c) trivial _ _) fun registered => ?_
    cases registered with
    | none => exact h.throw _
    | some id =>
      refine h.bind (h.attempt (h.sendMessage fun _ f => hacts (.write id) trivial _ f)) fun sent => ?_
      cases sent with
      | ok _ => exact h.pure id
      | error e => exact h.bind (hacts (.remove id) trivial _ _) fun _ => h.throw e

theorem takeOutcome {id : ℕ} (hacts : OfActs P IsRequestAct) : P Json (takeOutcome id) :=
  h.bind (hacts (.remove id) trivial _ _) fun _ => h.bind (hacts (.take id) trivial _ _) fun r => h.fromExcept r

theorem waitPending {m : Method} {id : ℕ} {removes : Bool} (hacts : OfActs P IsRequestAct) :
    P Json (waitPending m id removes) :=
  h.bind (h.look _) fun _ => h.ite (h.takeOutcome hacts)
    (h.bind (hacts (.giveUp id removes) trivial _ _) fun _ => h.ite (h.takeOutcome hacts) (h.throw _))

theorem requestRaw {me : ι} {c : RequestCall η} (hacts : OfActs P IsRequestAct) : P Brought (requestRaw me c) :=
  h.bind (h.submitRequest hacts) fun _ => h.bind (h.waitPending hacts) fun _ => h.pure _

theorem commandExec {me : ι} {encodable : Bool} (hacts : OfActs P IsRequestAct) : P Json (commandExec me encodable) := by
  have hend : ∀ id r, P Json (endCommand id r) := fun id r =>
    h.bind (hacts (.remove id) trivial _ _) fun _ => h.fromExcept r
  have hterminate : ∀ id, P Json (terminateCommand me id) := fun id =>
    h.bind (h.attempt (h.requestRaw hacts)) fun _ => h.bind (hacts (.remove id) trivial _ _) fun _ =>
      h.bind (hacts (.remove id) trivial _ _) fun _ => h.throw _
  refine h.bind (h.submitRequest hacts) fun id => h.bind (h.attempt (h.waitPending hacts)) fun waited => ?_
  cases waited with
  | ok result => exact hend id _
  | error e =>
    cases e with
    | timeout m => exact hterminate id
    | _ => exact hend id _

/-! ## Processes -/

theorem failAll {e : AdapterError} {ids : List ℕ} (hfail : ∀ id, P Unit (tell (.fail id e))) : P Unit (failAll e ids) := by
  induction ids with
  | nil => exact h.pure ()
  | cons id ids ih =>
    have hone : P Unit (failOne e id) := h.bind (h.look _) fun _ => h.ite (h.pure ()) (hfail id)
    exact h.bind hone fun _ => ih

theorem failPending {e : AdapterError} {process : Option ℕ} {closes : Bool} (hacts : OfActs P IsClosingAct) :
    P Unit (failPending e process closes) :=
  h.bind (hacts (.list process closes) trivial _ _) fun _ => h.failAll fun id => hacts (.fail id e) trivial _ _

theorem closeProcessLocked (hacts : OfActs P IsClosingAct) : P Unit closeProcessLocked := by
  refine h.bind (hacts .retire trivial _ _) fun process => h.bind (h.failPending hacts) fun _ => ?_
  cases process with
  | none => exact h.pure ()
  | some p =>
    exact h.bind (hacts .clear trivial _ _) fun _ => h.bind (hacts (.purge p) trivial _ _) fun _ =>
      hacts (.closeInput p) trivial _ _

/-! ## Releases -/

theorem loadedThreadIds {me : ι} (hrequest : ∀ c, P Brought (AppServerCalls.requestRaw me c)) (pages : ℕ) (seen ids : List Text) :
    P Loaded (loadedThreadIds me pages seen ids) := by
  induction pages generalizing seen ids with
  | zero => exact h.throw _
  | succ pages ih =>
    refine h.bind (h.look _) fun _ => h.ite (h.throw _) (h.bind (hrequest _) fun brought => ?_)
    refine h.bind (h.fromExcept _) fun page => ?_
    obtain ⟨more, cursor⟩ := page
    cases cursor with
    | none => exact h.pure _
    | some cursor => exact ih _ _

theorem releaseThread {me : ι} (hlock : OfActs P IsLifecycleAct) (hrequest : ∀ c, P Brought (AppServerCalls.requestRaw me c))
    (hdiscard : ∀ t listed, P Unit (tell (.discard t listed))) (n : ℕ) (t : Text) (expected : Option ℕ) :
    P (Option ℕ) (releaseThread me n t expected) := by
  have hwait : ∀ rounds, P ℕ (waitUnloaded me t rounds) := by
    intro rounds
    induction rounds with
    | zero => exact h.throw _
    | succ rounds ih =>
      refine h.bind (h.loadedThreadIds hrequest _ _ _) fun loaded => ?_
      split
      · exact ih
      · exact h.pure _
  have hloaded : P (Option ℕ) (releaseLoaded me t) :=
    h.bind (h.look _) fun _ => h.ite (h.throw _) (h.bind (hrequest _) fun _ => h.bind (h.fromExcept _) fun _ =>
      h.bind (h.look _) fun rounds => h.bind (hwait rounds) fun listed => h.bind (hdiscard t listed) fun _ => h.pure _)
  exact h.withLifecycle hlock (h.bind (h.look _) fun _ => h.ite hloaded (h.pure none))

theorem cleanupAbandonedThreads {me : ι} {n : ℕ} (hrelease : ∀ t expected, P (Option ℕ) (AppServerCalls.releaseThread me n t expected))
    (hdiscard : ∀ p t listed, P Unit (tell (.discardAbandoned p t listed))) : P Unit (cleanupAbandonedThreads me n) := by
  refine h.bind (h.look _) fun keys => ?_
  induction keys with
  | nil => exact h.pure ()
  | cons key keys ih =>
    exact h.bind (hrelease key.2 (some key.1)) fun listed => h.bind (hdiscard _ _ listed) fun _ => ih

end Inherited

/-- What the programs of all parties are made of, but for server requests. -/
structure Parts (P : ∀ α : Type, Step η ι ω α → Prop) (me : ι) : Prop where
  inherited : Inherited P
  lifecycle : OfActs P IsLifecycleAct
  request : ∀ c, P Brought (requestRaw me c)
  command : ∀ encodable, P Json (commandExec me encodable)
  close : P Unit closeProcessLocked
  fail : ∀ e process, P Unit (failPending e process false)
  popen : ∀ f : Answer ω → Adapter η ι → Bool, P Bool (act .popen f)
  ready : P Unit (tell .ready)
  release : ∀ n t expected, P (Option ℕ) (releaseThread me n t expected)
  cleanup : ∀ n, P Unit (cleanupAbandonedThreads me n)
  resolve : ∀ p m, P Unit (resolveResponse p m)
  exit : ∀ p, P Unit (tell (.exit p))

namespace Parts
variable {me : ι} (h : Parts P me)
include h

theorem start (n : ℕ) : P Unit (start me n) := by
  have hi := h.inherited
  have hprobes : ∀ ms, P Unit (probeCapabilities me ms) := by
    intro ms
    induction ms with
    | nil => exact hi.pure ()
    | cons m ms ih => exact hi.bind (hi.attempt (h.request _)) fun r => hi.bind (hi.fromExcept (probed m r)) fun _ => ih
  have hnotify : P Unit notifyInitialized := hi.bind (hi.look _) fun r => hi.fromExcept r
  have hshake : P Unit (handshake me) :=
    hi.bind (h.request _) fun _ => hi.bind hnotify fun _ => hi.bind (hprobes _) fun _ => h.ready
  have hcleanup : P Unit cleanupDeadProcess := hi.bind (hi.look _) fun _ => hi.ite h.close (hi.pure ())
  have hopen : P Unit (openProcess me) := by
    refine hi.bind hcleanup fun _ => hi.bind (h.popen _) fun opened => hi.ite (hi.bind (hi.attempt hshake) fun r => ?_) (hi.throw _)
    cases r with
    | ok _ => exact hi.pure ()
    | error e => exact hi.bind h.close fun _ => hi.throw e
  exact hi.withLifecycle h.lifecycle (hi.bind (hi.look _) fun _ => hi.ite (hi.pure ()) hopen)

theorem readerEnds (n p : ℕ) : P Unit (readerEnds me n p) :=
  h.inherited.bind (h.fail _ _) fun _ => h.inherited.withLifecycle h.lifecycle
    (h.inherited.bind (h.inherited.look _) fun _ => h.inherited.ite h.close (h.inherited.pure ()))

theorem readerFails (n p : ℕ) : P Unit (readerFails me n p) :=
  h.inherited.bind (h.fail _ _) fun _ => h.inherited.bind
    (h.inherited.withLifecycle h.lifecycle
      (h.inherited.bind (h.inherited.look _) fun _ => h.inherited.ite h.close (h.inherited.pure ())))
    fun _ => h.readerEnds n p

theorem program {respond : η → Interaction → ω → Except Unit Json} {party : Party η}
    (hserve : ∀ n p m, party = .serverRequest n p m → P Unit (handleServerRequest me respond n p m)) :
    P Unit (party.program respond me) := by
  have hi := h.inherited
  cases party with
  | call n c =>
    refine hi.bind (h.start n) fun _ => hi.bind (h.request c) fun brought => ?_
    split
    · exact hi.pure ()
    · exact hi.throw _
  | commandExec n encodable => exact hi.bind (h.start n) fun _ => hi.bind (h.command encodable) fun _ => hi.pure ()
  | start n => exact h.start n
  | shutdown n => exact hi.withLifecycle h.lifecycle h.close
  | release n t => exact hi.bind (h.release n t none) fun _ => hi.pure ()
  | cleanup n => exact h.cleanup n
  | response p m => exact h.resolve p m
  | serverRequest n p m => exact hserve n p m rfl
  | readerEnds n p => exact h.readerEnds n p
  | readerFails n p => exact h.readerFails n p
  | exit p => exact h.exit p

end Parts

/-! ## The reader -/

namespace Inherited
variable (h : Inherited P)
include h

theorem resolveResponse {p : ℕ} {m : Response} (hacts : OfActs P IsResponseAct) : P Unit (resolveResponse p m) := by
  refine h.bind (h.look _) fun found => ?_
  cases found with
  | none => exact h.pure ()
  | some id =>
    exact h.bind (hacts (.answer id p m) trivial _ _) fun _ => h.bind (hacts (.setEvent id) trivial _ _) fun _ =>
      hacts (.record id p) trivial _ _

theorem handleServerRequest {respond : η → Interaction → ω → Except Unit Json} {me : ι} {n p : ℕ} {m : ServerRequest}
    (hlock : OfActs P IsLifecycleAct) (hacts : OfActs P IsServerAct) : P Unit (handleServerRequest me respond n p m) := by
  have hreply : ∀ r, P Unit (sendReply me p m r) := fun r =>
    h.bind (h.attempt (h.sendMessage fun q f => hacts (.reply me q m r) trivial _ f)) fun _ => h.fromExcept _
  have hsettle : ∀ r x, P ElicitationResponse (settleResponse r x) := by
    intro r x
    cases x with
    | ok response => exact h.bind (hacts (.markAction _ _ _) trivial _ _) fun _ => h.pure _
    | error e => exact h.bind (hacts (.markBridgeError _ _ _) trivial _ _) fun _ => h.pure _
  have hrun : ∀ r handler, P ElicitationResponse (runHandler me respond p m r handler) := fun r handler =>
    h.bind (hacts (.startHandler me p m r.id handler) trivial _ _) fun _ =>
      h.bind (hacts (.endHandler me p m r.id) trivial _ _) fun x => hsettle r x
  have hanswer : ∀ r handler, P Unit (answerServerRequest me respond p m r handler) := fun r handler =>
    h.bind (h.look _) fun _ => h.ite (h.pure ()) (h.bind (hrun r handler) fun response =>
      h.bind (h.look _) fun _ => h.ite (h.pure ()) (hreply _))
  have hworker : ∀ r handler, P Unit (startWorker me respond p m r handler) := fun r handler =>
    h.bind (h.look _) fun _ => h.ite
      (h.bind (h.attempt (hanswer r handler)) fun x => h.bind (hacts (.freeSlot me p) trivial _ _) fun _ => h.fromExcept x)
      (h.bind (hacts (.freeSlot me p) trivial _ _) fun _ => h.bind (hacts (.markBridgeError _ _ _) trivial _ _) fun _ => hreply _)
  have hroute : ∀ r handler, P Unit (routeServerRequest me respond n p m r handler) := fun r handler =>
    h.bind (h.withLifecycle hlock (h.look _)) fun _ => h.ite
      (h.bind (hacts (.takeSlot me p) trivial _ _) fun _ => h.ite (hworker r handler)
        (h.bind (hacts (.markBridgeError _ _ _) trivial _ _) fun _ => hreply _))
      (h.pure ())
  refine h.bind (hacts (.correlate me p m) trivial _ _) fun ids => h.bind (hacts (.note ids _) trivial _ _) fun routed => ?_
  unfold dispatchServerRequest
  split
  · cases routed with
    | none => exact hreply _
    | some x => exact hroute x.1 x.2
  · exact hreply _

end Inherited

/-! ## A started process -/

def sampleAnswer : Answer Unit := ⟨true, true, true, false, 1, ()⟩

def sampleActs (i n : ℕ) : List (ℕ × Answer Unit) := List.replicate n (i, sampleAnswer)

/-- The response to the request of that number. -/
def sampleResponse (id : ℕ) (result : Json) : Party Unit := .response 0 ⟨.int id, none, result⟩

/-- The first party sends a request, its response comes in, and the first party goes on. -/
def exchange (id : ℕ) : List (ℕ × Answer Unit) := sampleActs 0 4 ++ sampleActs id 4 ++ sampleActs 0 3

/-- The first party starts the process, and has the lifecycle lock no more. The parties 1 to 8
are the responses to its requests. -/
def startSteps : List (ℕ × Answer Unit) :=
  sampleActs 0 4 ++ exchange 1 ++ sampleActs 0 1 ++ (List.range 7).flatMap (fun k => exchange (k + 2)) ++ sampleActs 0 2

end WebOauthMcp.AppServerParties
