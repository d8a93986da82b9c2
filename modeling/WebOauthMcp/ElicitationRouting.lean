import Mathlib.Data.Finset.Card
import WebOauthMcp.AppServerParties

/-!
# Where elicitations go

A server request comes to the handler of the one call that it is about, or it gets an error
reply. Whoever runs a handler holds a slot of its process. The history names the correlation of
every request, and what became of it.
-/

namespace WebOauthMcp.ElicitationRouting
open CodePoints JsonText FaultyPrograms RelyGuarantee AppServerAdapter AppServerCalls AppServerParties

variable {η ι ω α β : Type}

/-- The calls that a request was found to be about. -/
structure Correlation where
  process : ℕ
  message : ServerRequest
  calls : List ℕ

structure Invocation (η ι : Type) where
  party : ι
  process : ℕ
  message : ServerRequest
  call : ℕ
  handler : η

/-- A reply in the pipe of a process. -/
structure Reply (ι : Type) where
  party : ι
  process : ℕ
  message : ServerRequest
  reply : ServerReply

structure History (η ι ω : Type) where
  correlated : ι → Option Correlation
  invocations : List (Invocation η ι)
  /-- What the world outside contributed to a handler. -/
  outer : ι → Option ω
  replies : List (Reply ι)
  /-- Whose reply the pipe did not take. -/
  refused : ι → Bool
  taken : ι → ℕ
  freed : ι → ℕ
  /-- Who holds a slot of a process, and who runs a handler. -/
  held : Finset (ι × ℕ)
  running : Finset (ι × ℕ)

def startHistory (η ι ω : Type) : History η ι ω :=
  ⟨fun _ => none, [], fun _ => none, [], fun _ => false, fun _ => 0, fun _ => 0, ∅, ∅⟩

def note [DecidableEq ι] : Act η ι → Answer ω → Adapter η ι → History η ι ω → History η ι ω
  | .correlate me p m, _, s, h =>
    { h with correlated := Function.update h.correlated me (some ⟨p, m, s.matchingPendingCalls p m⟩) }
  | .startHandler me p m id handler, _, _, h =>
    { h with invocations := ⟨me, p, m, id, handler⟩ :: h.invocations, running := insert (me, p) h.running }
  | .endHandler me p _ _, a, _, h =>
    { h with outer := Function.update h.outer me (some a.outer), running := h.running.erase (me, p) }
  | .reply me p m r, a, s, h =>
    if s.closedInput p then h
    else if a.writes then { h with replies := ⟨me, p, m, r⟩ :: h.replies }
    else { h with refused := Function.update h.refused me true }
  | .takeSlot me p, _, s, h =>
    if 0 < s.slots p then
      { h with taken := Function.update h.taken me (h.taken me + 1), held := insert (me, p) h.held }
    else h
  | .freeSlot me p, _, _, h =>
    { h with freed := Function.update h.freed me (h.freed me + 1), held := h.held.erase (me, p) }
  | _, _, _, h => h

/-- The process was started, and it is closed or replaced, about to be, or it has exited. -/
def Gone (p : ℕ) (s : Adapter η ι) : Prop :=
  p < s.spawned ∧ (s.process ≠ some p ∨ s.retired p = true ∨ s.exited p = true)

instance (p : ℕ) (s : Adapter η ι) : Decidable (Gone p s) := inferInstanceAs (Decidable (_ ∧ _))

/-! ## The condition -/

def comes : Act η ι → Option (ℕ × ServerRequest)
  | .correlate _ p m => some (p, m)
  | _ => none

/-- Messages come from processes that were started. -/
def Sane (x : Act η ι) (s : Adapter η ι × History η ι ω) (_ : Answer ω) : Prop := ∀ c ∈ comes x, c.1 < s.1.spawned

instance (x : Act η ι) (s : Adapter η ι × History η ι ω) (a : Answer ω) : Decidable (Sane x s a) :=
  inferInstanceAs (Decidable (∀ _ ∈ comes x, _))

/-- There is no lone surrogate in the id and in the method of the request, so that an error for it can be encoded. -/
def Repliable (m : ServerRequest) : Prop := encodableReply m (.error 0 (unsupportedReason m)) = true

/-! ## What holds -/

variable (respond : η → Interaction → ω → Except Unit Json) (parties : ι → Party η)

/-- The party is about that request. -/
def Asks (i : ι) (p : ℕ) (m : ServerRequest) : Prop := ∃ n, parties i = .serverRequest n p m

/-- What is said for a handler. One that raises cancels. -/
def settled : Except Unit ElicitationResponse → ElicitationResponse
  | .ok response => response
  | .error _ => cancelResponse

/-- A result that a party may send: the party ran a handler, and this is what came of it. -/
def Justified (h : History η ι ω) (i : ι) (response : ElicitationResponse) : Prop :=
  ∃ v ∈ h.invocations, v.party = i ∧ ∃ w, h.outer i = some w ∧
    response = settled ((respond v.handler (newInteraction v.message) w).bind normalizeElicitationResponse)

/-- What is recorded of the pools. -/
structure Pools (s : Adapter η ι) (h : History η ι ω) : Prop where
  current : ∀ p, s.process = some p → p < s.spawned ∧ (s.pool = some p ∨ s.retired p = true)
  pool : ∀ p, s.pool = some p → p < s.spawned
  closed : ∀ p, s.closedInput p = true → p < s.spawned ∧ s.process ≠ some p
  slots : ∀ p < s.spawned, s.slots p + (h.held.filter fun x => x.2 = p).card = maxConcurrentServerRequests
  held : ∀ x ∈ h.held, x.2 < s.spawned ∧ h.taken x.1 = 1 ∧ h.freed x.1 = 0
  running : h.running ⊆ h.held
  once : ∀ i, h.freed i ≤ h.taken i ∧ h.taken i ≤ 1
  single : ∀ i p q, (i, p) ∈ h.held → (i, q) ∈ h.held → p = q

/-- What is recorded of the requests. -/
structure Routes (s : Adapter η ι) (h : History η ι ω) : Prop where
  pending : ∀ id ∈ s.pending, id < s.nextRequestId
  invoked : ∀ v ∈ h.invocations, Asks parties v.party v.process v.message ∧ methodText v.message = elicitationMethod ∧
    h.correlated v.party = some ⟨v.process, v.message, [v.call]⟩ ∧ v.call < s.nextRequestId ∧
    (s.requests v.call).handler = some v.handler
  replied : ∀ r ∈ h.replies, Asks parties r.party r.process r.message
  justified : ∀ r ∈ h.replies, ∀ response, r.reply = .result response → Justified respond h r.party response
  once : (h.replies.map Reply.party).Nodup

structure Inv (x : Adapter η ι × History η ι ω) : Prop where
  pools : Pools x.1 x.2
  routes : Routes respond parties x.1 x.2

/-- No more handlers run than there are slots. -/
theorem Pools.running_le {s : Adapter η ι} {h : History η ι ω} (hpools : Pools s h) (p : ℕ) :
    (h.running.filter fun x => x.2 = p).card ≤ maxConcurrentServerRequests := by
  have hheld : (h.running.filter fun x => x.2 = p).card ≤ (h.held.filter fun x => x.2 = p).card :=
    Finset.card_le_card (Finset.filter_subset_filter _ hpools.running)
  by_cases hp : p < s.spawned
  · exact hheld.trans (Nat.le_of_add_left_le (hpools.slots p hp).le)
  · have hnone : h.held.filter (fun x => x.2 = p) = ∅ :=
      Finset.filter_eq_empty_iff.mpr fun x hx hxp => hp (hxp ▸ (hpools.held x hx).1)
    rw [hnone] at hheld
    exact hheld.trans (Nat.zero_le _)

/-! ## Reliance -/

/-- What every act keeps. -/
structure Grows (s s' : Adapter η ι) : Prop where
  next : s.nextRequestId ≤ s'.nextRequestId
  spawned : s.spawned ≤ s'.spawned
  call : ∀ id < s.nextRequestId, (s'.requests id).toRequestCall = (s.requests id).toRequestCall
  current : ∀ p < s.spawned, s'.process = some p → s.process = some p
  gone : ∀ p, Gone p s → Gone p s'

theorem Grows.refl (s : Adapter η ι) : Grows s s := ⟨Nat.le_refl _, Nat.le_refl _, fun _ _ => rfl, fun _ _ h => h, fun _ h => h⟩

theorem Grows.trans {s t u : Adapter η ι} (hst : Grows s t) (htu : Grows t u) : Grows s u where
  next := Nat.le_trans hst.next htu.next
  spawned := Nat.le_trans hst.spawned htu.spawned
  call id hid := (htu.call id (Nat.lt_of_lt_of_le hid hst.next)).trans (hst.call id hid)
  current p hp h := hst.current p hp (htu.current p (Nat.lt_of_lt_of_le hp hst.spawned) h)
  gone p h := htu.gone p (hst.gone p h)

/-- The history of one party is as before. -/
structure Own (i : ι) (h h' : History η ι ω) : Prop where
  correlated : h'.correlated i = h.correlated i
  invocations : ∀ v, v.party = i → (v ∈ h'.invocations ↔ v ∈ h.invocations)
  outer : h'.outer i = h.outer i
  replies : ∀ r, r.party = i → (r ∈ h'.replies ↔ r ∈ h.replies)
  refused : h'.refused i = h.refused i
  taken : h'.taken i = h.taken i
  freed : h'.freed i = h.freed i
  held : ∀ p, (i, p) ∈ h'.held ↔ (i, p) ∈ h.held
  running : ∀ p, (i, p) ∈ h'.running ↔ (i, p) ∈ h.running

theorem Own.refl (i : ι) (h : History η ι ω) : Own i h h :=
  ⟨rfl, fun _ _ => .rfl, rfl, fun _ _ => .rfl, rfl, rfl, rfl, fun _ => .rfl, fun _ => .rfl⟩

theorem Own.trans {i : ι} {h k l : History η ι ω} (hhk : Own i h k) (hkl : Own i k l) : Own i h l where
  correlated := hkl.correlated.trans hhk.correlated
  invocations v hv := (hkl.invocations v hv).trans (hhk.invocations v hv)
  outer := hkl.outer.trans hhk.outer
  replies r hr := (hkl.replies r hr).trans (hhk.replies r hr)
  refused := hkl.refused.trans hhk.refused
  taken := hkl.taken.trans hhk.taken
  freed := hkl.freed.trans hhk.freed
  held p := (hkl.held p).trans (hhk.held p)
  running p := (hkl.running p).trans (hhk.running p)

/-- The others leave the history of a party alone. -/
structure Others (me : ι) (x y : Adapter η ι × History η ι ω) : Prop where
  grows : Grows x.1 y.1
  own : Own me x.2 y.2

/-- So does a party with the others. -/
structure Mine (me : ι) (x y : Adapter η ι × History η ι ω) : Prop where
  grows : Grows x.1 y.1
  others : ∀ j, j ≠ me → Own j x.2 y.2

theorem others_relies : Relies (Others (η := η) (ι := ι) (ω := ω)) where
  refl i x := ⟨.refl x.1, .refl i x.2⟩
  trans _ _ _ _ hxy hyz := ⟨hxy.grows.trans hyz.grows, hxy.own.trans hyz.own⟩

theorem Mine.guarantee {me : ι} {x y : Adapter η ι × History η ι ω} (h : Mine me x y) : Guarantee Others me x y :=
  fun j hj => ⟨h.grows, h.others j hj⟩

theorem Others.trans {me : ι} {x y z : Adapter η ι × History η ι ω} (hxy : Others me x y) (hyz : Others me y z) : Others me x z :=
  ⟨hxy.grows.trans hyz.grows, hxy.own.trans hyz.own⟩

theorem inv_startAdapter : Inv respond parties (startAdapter η ι, startHistory η ι ω) where
  pools := ⟨nofun, nofun, nofun, nofun, nofun, fun _ h => h, fun _ => ⟨Nat.le_refl _, Nat.zero_le _⟩, nofun⟩
  routes := ⟨nofun, nofun, nofun, nofun, List.nodup_nil⟩

/-! ## What a party knows of its own request -/

section
variable {me : ι} {respond}

/-- The request of the party was correlated, and has no reply yet. -/
structure Asked (me : ι) (p : ℕ) (m : ServerRequest) (calls : List ℕ) (x : Adapter η ι × History η ι ω) : Prop where
  correlated : x.2.correlated me = some ⟨p, m, calls⟩
  born : p < x.1.spawned
  calls : ∀ id ∈ calls, id < x.1.nextRequestId
  unreplied : ∀ r ∈ x.2.replies, r.party ≠ me

/-- The party has taken and freed that many slots, and holds none. -/
structure Idle (me : ι) (k : ℕ) (h : History η ι ω) : Prop where
  taken : h.taken me = k
  freed : h.freed me = k
  free : ∀ p, (me, p) ∉ h.held

/-- The party holds a slot, and runs no handler. -/
structure Holds (me : ι) (p : ℕ) (h : History η ι ω) : Prop where
  held : (me, p) ∈ h.held
  ended : ∀ q, (me, q) ∉ h.running

def Uninvoked (me : ι) (h : History η ι ω) : Prop := ∀ v ∈ h.invocations, v.party ≠ me

/-- The reply of the party is in the pipe, or the pipe did not take it, or the process is gone. -/
def Sent (me : ι) (p : ℕ) (r : ServerReply) (x : Adapter η ι × History η ι ω) : Prop :=
  (∃ y ∈ x.2.replies, y.party = me ∧ y.reply = r) ∨ x.2.refused me = true ∨ Gone p x.1

/-- What one party has done, but for its reply. -/
structure Same (me : ι) (h h' : History η ι ω) : Prop where
  invocations : ∀ v, v.party = me → (v ∈ h'.invocations ↔ v ∈ h.invocations)
  outer : h'.outer me = h.outer me
  taken : h'.taken me = h.taken me
  freed : h'.freed me = h.freed me
  held : ∀ p, (me, p) ∈ h'.held ↔ (me, p) ∈ h.held
  running : ∀ p, (me, p) ∈ h'.running ↔ (me, p) ∈ h.running

theorem Own.same {h h' : History η ι ω} (hown : Own me h h') : Same me h h' :=
  ⟨hown.invocations, hown.outer, hown.taken, hown.freed, hown.held, hown.running⟩

theorem Same.trans {h k l : History η ι ω} (hhk : Same me h k) (hkl : Same me k l) : Same me h l where
  invocations v hv := (hkl.invocations v hv).trans (hhk.invocations v hv)
  outer := hkl.outer.trans hhk.outer
  taken := hkl.taken.trans hhk.taken
  freed := hkl.freed.trans hhk.freed
  held p := (hkl.held p).trans (hhk.held p)
  running p := (hkl.running p).trans (hhk.running p)

theorem Asked.others {p : ℕ} {m : ServerRequest} {calls : List ℕ} {x y : Adapter η ι × History η ι ω} (h : Asked me p m calls x)
    (hxy : Others me x y) : Asked me p m calls y where
  correlated := hxy.own.correlated.trans h.correlated
  born := Nat.lt_of_lt_of_le h.born hxy.grows.spawned
  calls id hid := Nat.lt_of_lt_of_le (h.calls id hid) hxy.grows.next
  unreplied r hr hparty := h.unreplied r ((hxy.own.replies r hparty).mp hr) hparty

theorem Idle.same {k : ℕ} {h h' : History η ι ω} (hidle : Idle me k h) (hsame : Same me h h') : Idle me k h' :=
  ⟨hsame.taken.trans hidle.taken, hsame.freed.trans hidle.freed, fun p hp => hidle.free p ((hsame.held p).mp hp)⟩

theorem Holds.same {p : ℕ} {h h' : History η ι ω} (hholds : Holds me p h) (hsame : Same me h h') : Holds me p h' :=
  ⟨(hsame.held p).mpr hholds.held, fun q hq => hholds.ended q ((hsame.running q).mp hq)⟩

theorem Uninvoked.same {h h' : History η ι ω} (huninvoked : Uninvoked me h) (hsame : Same me h h') : Uninvoked me h' :=
  fun v hv hparty => huninvoked v ((hsame.invocations v hparty).mp hv) hparty

theorem Sent.others {p : ℕ} {r : ServerReply} {x y : Adapter η ι × History η ι ω} (h : Sent me p r x) (hxy : Others me x y) :
    Sent me p r y := by
  cases h with
  | inl hreply =>
    obtain ⟨y, hy, hparty, hr⟩ := hreply
    exact .inl ⟨y, (hxy.own.replies y hparty).mpr hy, hparty, hr⟩
  | inr hrest => exact .inr (hrest.imp hxy.own.refused.trans (hxy.grows.gone p))

theorem Justified.same {h h' : History η ι ω} {response : ElicitationResponse} (hjust : Justified respond h me response)
    (hsame : Same me h h') : Justified respond h' me response := by
  obtain ⟨v, hv, hparty, w, houter, hresponse⟩ := hjust
  exact ⟨v, (hsame.invocations v hparty).mpr hv, hparty, w, hsame.outer.trans houter, hresponse⟩

/-- The call that the party was routed to, and its handler. -/
structure Chosen (me : ι) (p : ℕ) (m : ServerRequest) (id : ℕ) (handler : η) (x : Adapter η ι × History η ι ω) : Prop
    extends Asked me p m [id] x where
  handler : (x.1.requests id).handler = some handler

theorem Chosen.others {p : ℕ} {m : ServerRequest} {id : ℕ} {handler : η} {x y : Adapter η ι × History η ι ω}
    (h : Chosen me p m id handler x) (hxy : Others me x y) : Chosen me p m id handler y :=
  ⟨h.toAsked.others hxy,
    (congrArg RequestCall.handler (hxy.grows.call id (h.calls id (List.mem_singleton.mpr rfl)))).trans h.handler⟩

variable (respond)

/-- What came of the handler of a party was sent, if it can be encoded. -/
def Spoken (me : ι) (p : ℕ) (m : ServerRequest) (x : Adapter η ι × History η ι ω) : Prop :=
  ∃ response, Justified respond x.2 me response ∧ (encodableReply m (.result response) = true → Sent me p (.result response) x)

/-- What a party comes to: its slot is free again. Its process is gone, or its handler ran and spoke, or no handler
ran and an error was sent, unless the party is still waiting for the lock. -/
def Finished (me : ι) (p : ℕ) (m : ServerRequest) (r : Except AdapterError Unit) (x : Adapter η ι × History η ι ω) : Prop :=
  x.2.taken me = x.2.freed me ∧ (Gone p x.1 ∨ Spoken respond me p m x ∨ Uninvoked me x.2 ∧
    (r = .error .stillWaiting ∨ (Repliable m → ∃ code reason, Sent me p (.error code reason) x)))

variable {respond}

theorem Spoken.others {p : ℕ} {m : ServerRequest} {x y : Adapter η ι × History η ι ω} (h : Spoken respond me p m x)
    (hxy : Others me x y) : Spoken respond me p m y := by
  obtain ⟨response, hjust, hsent⟩ := h
  exact ⟨response, hjust.same hxy.own.same, fun hencodable => (hsent hencodable).others hxy⟩

theorem Finished.others {p : ℕ} {m : ServerRequest} {r : Except AdapterError Unit} {x y : Adapter η ι × History η ι ω}
    (h : Finished respond me p m r x) (hxy : Others me x y) : Finished respond me p m r y := by
  refine ⟨(hxy.own.taken.trans h.1).trans hxy.own.freed.symm, h.2.imp (hxy.grows.gone p) fun hreached => ?_⟩
  refine hreached.imp (fun hspoken => hspoken.others hxy) fun hrejected => ⟨hrejected.1.same hxy.own.same, ?_⟩
  refine hrejected.2.imp_right fun herror hrepliable => ?_
  obtain ⟨code, reason, hsent⟩ := herror hrepliable
  exact ⟨code, reason, hsent.others hxy⟩

end

/-! ## Acts on the adapter -/

section
variable {respond parties} {s s' : Adapter η ι} {h : History η ι ω}

theorem Routes.steady (hroutes : Routes respond parties s h) (hsteady : Steady s s') (hpending : ∀ id ∈ s'.pending, id ∈ s.pending) :
    Routes respond parties s' h where
  pending id hid := hsteady.next ▸ hroutes.pending id (hpending id hid)
  invoked v hv := by
    obtain ⟨hasks, hmethod, hcorrelated, hborn, hhandler⟩ := hroutes.invoked v hv
    exact ⟨hasks, hmethod, hcorrelated, hsteady.next ▸ hborn, (congrArg RequestCall.handler (hsteady.call v.call)).trans hhandler⟩
  replied := hroutes.replied
  justified := hroutes.justified
  once := hroutes.once

/-- Requests stay as they are. -/
theorem routes_of_requests (hroutes : Routes respond parties s h) (hnext : s'.nextRequestId = s.nextRequestId)
    (hrequests : s'.requests = s.requests) (hpending : s'.pending = s.pending) : Routes respond parties s' h :=
  hroutes.steady (.of_requests hnext hrequests) fun _ hid => hpending ▸ hid

theorem pools_of_processes (heq : s'.processes = s.processes) (hpools : Pools s h) : Pools s' h := by
  simp only [Adapter.processes, Prod.mk.injEq] at heq
  obtain ⟨⟨hprocess, hpool, hspawned⟩, hretired, -, hclosed, hslots⟩ := heq
  obtain ⟨h₁, h₂, h₃, h₄, h₅, h₆, h₇, h₈⟩ := hpools
  refine ⟨?_, ?_, ?_, ?_, ?_, h₆, h₇, h₈⟩
  · rw [hprocess, hpool, hspawned, hretired]
    exact h₁
  · rw [hpool, hspawned]
    exact h₂
  · rw [hclosed, hspawned, hprocess]
    exact h₃
  · rw [hspawned, hslots]
    exact h₄
  · rw [hspawned]
    exact h₅

theorem gone_of_processes (heq : s'.processes = s.processes) {p : ℕ} (hgone : Gone p s) : Gone p s' := by
  simp only [Adapter.processes, Prod.mk.injEq] at heq
  obtain ⟨⟨hprocess, -, hspawned⟩, hretired, hexited, -, -⟩ := heq
  rw [Gone, hprocess, hspawned, hretired, hexited]
  exact hgone

theorem process_of_processes (heq : s'.processes = s.processes) : s'.process = s.process :=
  congrArg (fun x => x.1.1) heq

theorem spawned_of_processes (heq : s'.processes = s.processes) : s'.spawned = s.spawned :=
  congrArg (fun x => x.1.2.2) heq

/-- Requests and processes are as before. -/
structure Kept (s s' : Adapter η ι) : Prop extends Steady s s' where
  pending : ∀ id ∈ s'.pending, id ∈ s.pending
  processes : s'.processes = s.processes

theorem Kept.grows (hkept : Kept s s') : Grows s s' :=
  ⟨hkept.next.ge, (spawned_of_processes hkept.processes).ge, fun id _ => hkept.call id,
    fun _ _ h => process_of_processes hkept.processes ▸ h, fun _ => gone_of_processes hkept.processes⟩

theorem Kept.inv (hkept : Kept s s') (hinv : Inv respond parties (s, h)) : Inv respond parties (s', h) :=
  ⟨pools_of_processes hkept.processes hinv.pools, hinv.routes.steady hkept.toSteady hkept.pending⟩

end

/-- The acts that the history does not speak of, and that leave the processes alone. -/
def Plain : Act η ι → Prop
  | .register _ _ _ | .correlate _ _ _ | .startHandler _ _ _ _ _ | .endHandler _ _ _ _ | .reply _ _ _ _ => False
  | .takeSlot _ _ | .freeSlot _ _ | .retire | .clear | .popen | .closeInput _ | .exit _ => False
  | _ => True

section
variable [DecidableEq ι]

theorem note_of_plain {x : Act η ι} (hx : Plain x) (a : Answer ω) (s : Adapter η ι) (h : History η ι ω) : note x a s h = h := by
  unfold note
  split <;> first | rfl | exact hx.elim

theorem kept_of_plain {x : Act η ι} (hx : Plain x) (a : Answer ω) (s : Adapter η ι) : Kept s (x.effect a s) := by
  have hregister : ∀ me p c, x ≠ .register me p c := fun _ _ _ h => by rw [h] at hx; exact hx
  refine ⟨steady_effect a s hregister, fun _ h => pending_effect a s hregister h, processes_effect a s fun hprocess => ?_⟩
  cases x with
  | retire | clear | popen | closeInput | exit | takeSlot | freeSlot => exact hx
  | _ => exact hprocess

end

abbrev Works (me : ι) [DecidableEq ι] (x : Step η ι ω α) (s : Adapter η ι × History η ι ω)
    (Q : Except AdapterError α → Adapter η ι × History η ι ω → Prop) : Prop :=
  Observes note Sane (Inv respond parties) (Others me) (Mine me) x s Q

section
variable [DecidableEq ι] {me : ι} {s : Adapter η ι × History η ι ω} {respond parties}

/-- What an act comes to, together with its history. -/
abbrev after (x : Act η ι) (a : Answer ω) (s : Adapter η ι × History η ι ω) : Adapter η ι × History η ι ω :=
  (x.effect a s.1, note x a s.1 s.2)

variable (me) in
theorem plain_step {x : Act η ι} (hx : Plain x) (a : Answer ω) (hinv : Inv respond parties s) :
    Inv respond parties (after x a s) ∧ Mine me s (after x a s) ∧ Others me s (after x a s) := by
  rw [after, note_of_plain hx]
  have hkept := kept_of_plain hx a s.1
  exact ⟨hkept.inv hinv, ⟨hkept.grows, fun j _ => .refl j s.2⟩, hkept.grows, .refl me s.2⟩

variable (me) in
/-- An act without a history that keeps what is recorded. -/
theorem silent_step {x : Act η ι} {a : Answer ω} (hnote : note x a s.1 s.2 = s.2) (hgrows : Grows s.1 (x.effect a s.1))
    (hpools : Pools (x.effect a s.1) s.2) (hroutes : Routes respond parties (x.effect a s.1) s.2) :
    Inv respond parties (after x a s) ∧ Mine me s (after x a s) := by
  rw [after, hnote]
  exact ⟨⟨hpools, hroutes⟩, ⟨hgrows, fun j _ => .refl j s.2⟩⟩

variable (me) in
theorem register_step (hinv : Inv respond parties s) (caller : ι) (p : ℕ) (c : RequestCall η) (a : Answer ω) :
    Inv respond parties (after (.register caller p c) a s) ∧ Mine me s (after (.register caller p c) a s) := by
  cases hfull : s.1.full with
  | true =>
    have hsame : (Act.register caller p c).effect a s.1 = s.1 := by simp [Act.effect, hfull]
    exact silent_step me rfl (hsame.symm ▸ .refl s.1) (hsame.symm ▸ hinv.pools) (hsame.symm ▸ hinv.routes)
  | false =>
    have hprocesses : ((Act.register caller p c).effect a s.1).processes = s.1.processes := processes_effect a s.1 fun h => h
    have hold : ∀ id < s.1.nextRequestId, ((Act.register caller p c).effect a s.1).requests id = s.1.requests id := by
      intro id hid
      simp only [Act.effect, hfull, Bool.false_eq_true, ↓reduceIte, Function.update_of_ne (Nat.ne_of_lt hid)]
    have hnext : ((Act.register caller p c).effect a s.1).nextRequestId = s.1.nextRequestId + 1 := by simp [Act.effect, hfull]
    refine silent_step me rfl ⟨hnext ▸ Nat.le_succ _, (spawned_of_processes hprocesses).ge, fun id hid => ?_,
      fun _ _ h => process_of_processes hprocesses ▸ h, fun _ => gone_of_processes hprocesses⟩ (pools_of_processes hprocesses hinv.pools) ⟨fun id hid => ?_, fun v hv => ?_,
      hinv.routes.replied, hinv.routes.justified, hinv.routes.once⟩
    · rw [hold id hid]
    · simp only [Act.effect, hfull, Bool.false_eq_true, ↓reduceIte, List.mem_append, List.mem_singleton] at hid
      rw [hnext]
      exact hid.elim (fun h => Nat.lt_succ_of_lt (hinv.routes.pending id h)) fun h => h ▸ Nat.lt_succ_self _
    · obtain ⟨hasks, hmethod, hcorrelated, hborn, hhandler⟩ := hinv.routes.invoked v hv
      rw [hnext, hold v.call hborn]
      exact ⟨hasks, hmethod, hcorrelated, Nat.lt_succ_of_lt hborn, hhandler⟩

/-! ## Acts on processes -/

variable (me) in
theorem retire_step (hinv : Inv respond parties s) (a : Answer ω) :
    Inv respond parties (after .retire a s) ∧ Mine me s (after .retire a s) := by
  have hsteady : Steady s.1 ((Act.retire : Act η ι).effect a s.1) := steady_effect a s.1 (by simp)
  have hroutes := hinv.routes.steady hsteady fun _ hid => pending_effect (x := .retire) a s.1 (by simp) hid
  obtain ⟨h₁, h₂, h₃, h₄, h₅, h₆, h₇, h₈⟩ := hinv.pools
  cases hpool : s.1.pool with
  | none =>
    have hsame : (Act.retire : Act η ι).effect a s.1 = { s.1 with started := false } := by simp only [Act.effect, hpool]
    rw [hsame] at hroutes
    exact silent_step me rfl (hsame ▸ ⟨Nat.le_refl _, Nat.le_refl _, fun _ _ => rfl, fun _ _ h => h, fun _ hgone => hgone⟩)
      (hsame ▸ ⟨h₁, h₂, h₃, h₄, h₅, h₆, h₇, h₈⟩) (hsame ▸ hroutes)
  | some q =>
    by_cases hcurrent : s.1.process = none ∨ s.1.process = some q
    · have hsame : (Act.retire : Act η ι).effect a s.1 =
          { s.1 with started := false, retired := Function.update s.1.retired q true, pool := none } := by
        simp only [Act.effect, hpool, if_pos hcurrent]
      have hretired : ∀ p, s.1.retired p = true → Function.update s.1.retired q true p = true := by
        intro p hp
        by_cases heq : p = q
        · rw [heq, Function.update_self]
        · rw [Function.update_of_ne heq, hp]
      rw [hsame] at hroutes
      refine silent_step me rfl (hsame ▸ ⟨Nat.le_refl _, Nat.le_refl _, fun _ _ => rfl, fun _ _ h => h, fun p hgone => ?_⟩)
        (hsame ▸ ⟨fun p hp => ⟨(h₁ p hp).1, .inr ?_⟩, fun p hp => absurd hp.symm (Option.some_ne_none p), h₃, h₄, h₅, h₆, h₇, h₈⟩) (hsame ▸ hroutes)
      · exact ⟨hgone.1, hgone.2.imp_right fun h => h.imp_left (hretired p)⟩
      · cases (h₁ p hp).2 with
        | inl hmine =>
          have heq : p = q := Option.some.inj (hmine.symm.trans hpool)
          exact heq ▸ Function.update_self _ _ _
        | inr hold => exact hretired p hold
    · have hsame : (Act.retire : Act η ι).effect a s.1 = { s.1 with started := false } := by
        simp only [Act.effect, hpool, if_neg hcurrent]
      rw [hsame] at hroutes
      exact silent_step me rfl (hsame ▸ ⟨Nat.le_refl _, Nat.le_refl _, fun _ _ => rfl, fun _ _ h => h, fun _ hgone => hgone⟩)
        (hsame ▸ ⟨h₁, h₂, h₃, h₄, h₅, h₆, h₇, h₈⟩) (hsame ▸ hroutes)

variable (me) in
theorem clear_step (hinv : Inv respond parties s) (a : Answer ω) :
    Inv respond parties (after .clear a s) ∧ Mine me s (after .clear a s) := by
  obtain ⟨h₁, h₂, h₃, h₄, h₅, h₆, h₇, h₈⟩ := hinv.pools
  exact silent_step me rfl ⟨Nat.le_refl _, Nat.le_refl _, fun _ _ => rfl, nofun, fun p hgone => ⟨hgone.1, .inl nofun⟩⟩
    ⟨nofun, h₂, fun p hp => ⟨(h₃ p hp).1, nofun⟩, h₄, h₅, h₆, h₇, h₈⟩ (routes_of_requests hinv.routes rfl rfl rfl)

variable (me) in
theorem exit_step (hinv : Inv respond parties s) (p : ℕ) (a : Answer ω) :
    Inv respond parties (after (.exit p) a s) ∧ Mine me s (after (.exit p) a s) := by
  obtain ⟨h₁, h₂, h₃, h₄, h₅, h₆, h₇, h₈⟩ := hinv.pools
  refine silent_step me rfl ⟨Nat.le_refl _, Nat.le_refl _, fun _ _ => rfl, fun _ _ h => h, fun q hgone => ⟨hgone.1, hgone.2.imp_right fun h =>
    h.imp_right fun hexited => ?_⟩⟩ ⟨h₁, h₂, h₃, h₄, h₅, h₆, h₇, h₈⟩ (routes_of_requests hinv.routes rfl rfl rfl)
  by_cases heq : q = p
  · exact heq ▸ Function.update_self _ _ _
  · exact (Function.update_of_ne heq _ _).trans hexited

variable (me) in
theorem closeInput_step (hinv : Inv respond parties s) {p : ℕ} (hborn : p < s.1.spawned) (hgone : s.1.process ≠ some p) (a : Answer ω) :
    Inv respond parties (after (.closeInput p) a s) ∧ Mine me s (after (.closeInput p) a s) := by
  obtain ⟨h₁, h₂, h₃, h₄, h₅, h₆, h₇, h₈⟩ := hinv.pools
  refine silent_step me rfl ⟨Nat.le_refl _, Nat.le_refl _, fun _ _ => rfl, fun _ _ h => h, fun _ h => h⟩ ⟨h₁, h₂, fun q hq => ?_, h₄, h₅, h₆, h₇, h₈⟩
    (routes_of_requests hinv.routes rfl rfl rfl)
  by_cases heq : q = p
  · subst heq
    exact ⟨hborn, hgone⟩
  · exact h₃ q ((Function.update_of_ne heq _ _).symm.trans hq)

variable (me) in
theorem popen_step (hinv : Inv respond parties s) (a : Answer ω) :
    Inv respond parties (after .popen a s) ∧ Mine me s (after .popen a s) := by
  obtain ⟨h₁, h₂, h₃, h₄, h₅, h₆, h₇, h₈⟩ := hinv.pools
  cases hopens : a.opens with
  | false =>
    have hsame : (Act.popen : Act η ι).effect a s.1 = s.1 := by simp [Act.effect, hopens]
    exact silent_step me rfl (hsame.symm ▸ .refl s.1) (hsame.symm ▸ hinv.pools) (hsame.symm ▸ hinv.routes)
  | true =>
    have hsame : (Act.popen : Act η ι).effect a s.1 = { s.1 with
        process := some s.1.spawned
        pool := some s.1.spawned
        started := false
        slots := Function.update s.1.slots s.1.spawned maxConcurrentServerRequests
        spawned := s.1.spawned + 1 } := by simp [Act.effect, hopens]
    refine silent_step me rfl (hsame ▸ ⟨Nat.le_refl _, Nat.le_succ _, fun _ _ => rfl, fun p hp h => ?_, fun p hgone => ?_⟩)
      (hsame ▸ ⟨fun p hp => ⟨?_, .inl hp⟩, fun p hp => ?_, fun p hp => ?_, fun p hp => ?_, fun x hx => ?_, h₆, h₇, h₈⟩)
      (hsame ▸ routes_of_requests hinv.routes rfl rfl rfl)
    · exact absurd (Option.some.inj h ▸ hp) (Nat.lt_irrefl _)
    · exact ⟨Nat.lt_succ_of_lt hgone.1, .inl fun h => Nat.lt_irrefl _ (Option.some.inj h ▸ hgone.1)⟩
    · exact Option.some.inj hp ▸ Nat.lt_succ_self _
    · exact Option.some.inj hp ▸ Nat.lt_succ_self _
    · exact ⟨Nat.lt_succ_of_lt (h₃ p hp).1, fun h => Nat.lt_irrefl _ (Option.some.inj h ▸ (h₃ p hp).1)⟩
    · by_cases heq : p = s.1.spawned
      · subst heq
        have hnone : s.2.held.filter (fun x => x.2 = s.1.spawned) = ∅ :=
          Finset.filter_eq_empty_iff.mpr fun x hx heq => Nat.lt_irrefl _ (heq ▸ (h₅ x hx).1)
        simp only [Function.update_self, hnone, Finset.card_empty, Nat.add_zero]
      · simp only [Function.update_of_ne heq]
        exact h₄ p (Nat.lt_of_le_of_ne (Nat.le_of_lt_succ hp) heq)
    · exact ⟨Nat.lt_succ_of_lt (h₅ x hx).1, (h₅ x hx).2⟩

/-! ## Acts of a party on its own request -/

variable (me) in
/-- A request that has invoked nothing yet is correlated. -/
theorem correlate_step (hinv : Inv respond parties s) (p : ℕ) (m : ServerRequest) (a : Answer ω)
    (huninvoked : Uninvoked me s.2) :
    Inv respond parties (after (.correlate me p m) a s) ∧ Mine me s (after (.correlate me p m) a s) := by
  refine ⟨⟨?_, ⟨hinv.routes.pending, fun v hv => ?_, hinv.routes.replied, hinv.routes.justified, hinv.routes.once⟩⟩, ⟨.refl s.1, fun j hj => ?_⟩⟩
  · obtain ⟨h₁, h₂, h₃, h₄, h₅, h₆, h₇, h₈⟩ := hinv.pools
    exact ⟨h₁, h₂, h₃, h₄, h₅, h₆, h₇, h₈⟩
  · obtain ⟨hasks, hmethod, hcorrelated, hrest⟩ := hinv.routes.invoked v hv
    exact ⟨hasks, hmethod, (Function.update_of_ne (huninvoked v hv) _ _).trans hcorrelated, hrest⟩
  · exact ⟨Function.update_of_ne hj _ _, fun _ _ => .rfl, rfl, fun _ _ => .rfl, rfl, rfl, rfl, fun _ => .rfl, fun _ => .rfl⟩

theorem startHandler_step (hinv : Inv respond parties s) {p id : ℕ} {m : ServerRequest} {handler : η} (a : Answer ω)
    (hasks : Asks parties me p m) (hmethod : methodText m = elicitationMethod) (hcorrelated : s.2.correlated me = some ⟨p, m, [id]⟩)
    (hborn : id < s.1.nextRequestId) (hhandler : (s.1.requests id).handler = some handler) (hheld : (me, p) ∈ s.2.held) :
    Inv respond parties (after (.startHandler me p m id handler) a s) ∧ Mine me s (after (.startHandler me p m id handler) a s) := by
  refine ⟨⟨?_, ⟨hinv.routes.pending, fun v hv => ?_, hinv.routes.replied, fun r hr response hresult => ?_, hinv.routes.once⟩⟩,
    ⟨.refl s.1, fun j hj => ?_⟩⟩
  · obtain ⟨h₁, h₂, h₃, h₄, h₅, h₆, h₇, h₈⟩ := hinv.pools
    exact ⟨h₁, h₂, h₃, h₄, h₅, Finset.insert_subset hheld h₆, h₇, h₈⟩
  · cases List.mem_cons.mp hv with
    | inl heq =>
      subst heq
      exact ⟨hasks, hmethod, hcorrelated, hborn, hhandler⟩
    | inr hold => exact hinv.routes.invoked v hold
  · obtain ⟨v, hv, hparty, hcause⟩ := hinv.routes.justified r hr response hresult
    exact ⟨v, List.mem_cons_of_mem _ hv, hparty, hcause⟩
  · refine ⟨rfl, fun v hv => ?_, rfl, fun _ _ => .rfl, rfl, rfl, rfl, fun _ => .rfl, fun q => ?_⟩
    · refine List.mem_cons.trans (or_iff_right fun heq => hj ?_)
      exact (congrArg Invocation.party heq).symm.trans hv |>.symm
    · exact Finset.mem_insert.trans (or_iff_right fun heq => hj (congrArg Prod.fst heq))

theorem endHandler_step (hinv : Inv respond parties s) (p id : ℕ) (m : ServerRequest) (a : Answer ω)
    (hunreplied : ∀ r ∈ s.2.replies, r.party ≠ me) :
    Inv respond parties (after (.endHandler me p m id) a s) ∧ Mine me s (after (.endHandler me p m id) a s) := by
  refine ⟨⟨?_, ⟨hinv.routes.pending, hinv.routes.invoked, hinv.routes.replied, fun r hr response hresult => ?_, hinv.routes.once⟩⟩,
    ⟨.refl s.1, fun j hj => ?_⟩⟩
  · obtain ⟨h₁, h₂, h₃, h₄, h₅, h₆, h₇, h₈⟩ := hinv.pools
    exact ⟨h₁, h₂, h₃, h₄, h₅, (Finset.erase_subset _ _).trans h₆, h₇, h₈⟩
  · obtain ⟨v, hv, hparty, w, houter, hresponse⟩ := hinv.routes.justified r hr response hresult
    exact ⟨v, hv, hparty, w, (Function.update_of_ne (hunreplied r hr) _ _).trans houter, hresponse⟩
  · refine ⟨rfl, fun _ _ => .rfl, Function.update_of_ne hj _ _, fun _ _ => .rfl, rfl, rfl, rfl, fun _ => .rfl, fun q => ?_⟩
    exact Finset.mem_erase.trans (and_iff_right fun heq => hj (congrArg Prod.fst heq))

/-- A party that has not replied yet writes a reply, and if it is a result then it is justified. -/
theorem reply_step (hinv : Inv respond parties s) {p : ℕ} {m : ServerRequest} {r : ServerReply} (a : Answer ω)
    (hasks : Asks parties me p m) (hunreplied : ∀ r ∈ s.2.replies, r.party ≠ me)
    (hjustified : ∀ response, r = .result response → Justified respond s.2 me response) :
    Inv respond parties (after (.reply me p m r) a s) ∧ Mine me s (after (.reply me p m r) a s) := by
  obtain ⟨h₁, h₂, h₃, h₄, h₅, h₆, h₇, h₈⟩ := hinv.pools
  simp only [after, note, Act.effect]
  split
  · exact ⟨hinv, ⟨.refl s.1, fun j _ => .refl j s.2⟩⟩
  split
  · refine ⟨⟨⟨h₁, h₂, h₃, h₄, h₅, h₆, h₇, h₈⟩, ⟨hinv.routes.pending, hinv.routes.invoked, fun y hy => ?_, fun y hy response hresult => ?_, ?_⟩⟩,
      ⟨.refl s.1, fun j hj => ?_⟩⟩
    · cases List.mem_cons.mp hy with
      | inl heq => exact heq ▸ hasks
      | inr hold => exact hinv.routes.replied y hold
    · cases List.mem_cons.mp hy with
      | inl heq =>
        subst heq
        exact hjustified response hresult
      | inr hold => exact hinv.routes.justified y hold response hresult
    · refine List.nodup_cons.mpr ⟨fun hmem => ?_, hinv.routes.once⟩
      obtain ⟨y, hy, heq⟩ := List.mem_map.mp hmem
      exact hunreplied y hy heq
    · refine ⟨rfl, fun _ _ => .rfl, rfl, fun y hy => ?_, rfl, rfl, rfl, fun _ => .rfl, fun _ => .rfl⟩
      exact List.mem_cons.trans (or_iff_right fun heq => hj (hy.symm.trans (congrArg Reply.party heq)))
  · refine ⟨⟨⟨h₁, h₂, h₃, h₄, h₅, h₆, h₇, h₈⟩, ⟨hinv.routes.pending, hinv.routes.invoked, hinv.routes.replied, hinv.routes.justified,
      hinv.routes.once⟩⟩, ⟨.refl s.1, fun j hj => ?_⟩⟩
    exact ⟨rfl, fun _ _ => .rfl, rfl, fun _ _ => .rfl, Function.update_of_ne hj _ _, rfl, rfl, fun _ => .rfl, fun _ => .rfl⟩

theorem card_filter_insert {held : Finset (ι × ℕ)} {p : ℕ} (hfree : (me, p) ∉ held) (q : ℕ) :
    ((insert (me, p) held).filter fun x => x.2 = q).card = (held.filter fun x => x.2 = q).card + if q = p then 1 else 0 := by
  rw [Finset.filter_insert]
  by_cases hq : q = p
  · rw [if_pos hq.symm, if_pos hq, Finset.card_insert_of_notMem fun h => hfree (Finset.mem_filter.mp h).1]
  · rw [if_neg fun h => hq h.symm, if_neg hq, Nat.add_zero]

theorem card_filter_erase {held : Finset (ι × ℕ)} {p : ℕ} (hheld : (me, p) ∈ held) (q : ℕ) :
    (held.filter fun x => x.2 = q).card = ((held.erase (me, p)).filter fun x => x.2 = q).card + if q = p then 1 else 0 := by
  have hinsert := card_filter_insert (Finset.notMem_erase (me, p) held) q
  rwa [Finset.insert_erase hheld] at hinsert

variable (me) in
/-- A party that has taken no slot yet takes one. -/
theorem takeSlot_step (hinv : Inv respond parties s) {p : ℕ} (a : Answer ω) (hborn : p < s.1.spawned)
    (htaken : s.2.taken me = 0) (hfreed : s.2.freed me = 0) :
    Inv respond parties (after (.takeSlot me p) a s) ∧ Mine me s (after (.takeSlot me p) a s) := by
  obtain ⟨h₁, h₂, h₃, h₄, h₅, h₆, h₇, h₈⟩ := hinv.pools
  have hgrows : Grows s.1 ((Act.takeSlot me p : Act η ι).effect a s.1) :=
    ⟨Nat.le_refl _, Nat.le_refl _, fun _ _ => rfl, fun _ _ h => h, fun _ h => h⟩
  by_cases hslot : 0 < s.1.slots p
  · have hfree : (me, p) ∉ s.2.held := fun hheld => Nat.zero_ne_one (htaken.symm.trans (h₅ _ hheld).2.1)
    simp only [after, note, if_pos hslot, Act.effect]
    refine ⟨⟨⟨h₁, h₂, h₃, fun q hq => ?_, fun x hx => ?_, h₆.trans (Finset.subset_insert _ _), fun i => ?_, fun i q q' hq hq' => ?_⟩,
      ⟨hinv.routes.pending, hinv.routes.invoked, hinv.routes.replied, hinv.routes.justified, hinv.routes.once⟩⟩, ⟨hgrows, fun j hj => ?_⟩⟩
    · have hbefore := h₄ q hq
      rw [card_filter_insert hfree]
      by_cases heq : q = p
      · subst heq
        simp only [Function.update_self, ↓reduceIte]
        omega
      · simp only [Function.update_of_ne heq, if_neg heq, Nat.add_zero]
        exact hbefore
    · cases Finset.mem_insert.mp hx with
      | inl heq =>
        subst heq
        exact ⟨hborn, by simp [htaken], hfreed⟩
      | inr hold =>
        have hother : x.1 ≠ me := fun heq => Nat.zero_ne_one (htaken.symm.trans (heq ▸ (h₅ x hold).2.1))
        exact ⟨(h₅ x hold).1, (Function.update_of_ne hother _ _).trans (h₅ x hold).2.1, (h₅ x hold).2.2⟩
    · by_cases heq : i = me
      · subst heq
        simp [htaken, hfreed]
      · simp only [Function.update_of_ne heq]
        exact h₇ i
    · have hnone : ∀ q, (me, q) ∉ s.2.held := fun q hold => Nat.zero_ne_one (htaken.symm.trans (h₅ _ hold).2.1)
      cases Finset.mem_insert.mp hq with
      | inl heq =>
        cases Finset.mem_insert.mp hq' with
        | inl heq' => exact (congrArg Prod.snd heq).trans (congrArg Prod.snd heq').symm
        | inr hold =>
          have hi : i = me := congrArg Prod.fst heq
          exact absurd (hi ▸ hold) (hnone q')
      | inr hold =>
        cases Finset.mem_insert.mp hq' with
        | inl heq' =>
          have hi : i = me := congrArg Prod.fst heq'
          exact absurd (hi ▸ hold) (hnone q)
        | inr hold' => exact h₈ i q q' hold hold'
    · refine ⟨rfl, fun _ _ => .rfl, rfl, fun _ _ => .rfl, rfl, Function.update_of_ne hj _ _, rfl, fun q => ?_, fun _ => .rfl⟩
      exact Finset.mem_insert.trans (or_iff_right fun heq => hj (congrArg Prod.fst heq))
  · have hsame : ∀ q, Function.update s.1.slots p (s.1.slots p - 1) q = s.1.slots q := by
      intro q
      by_cases heq : q = p
      · rw [heq, Function.update_self]
        omega
      · rw [Function.update_of_ne heq]
    simp only [after, note, if_neg hslot, Act.effect]
    refine ⟨⟨⟨h₁, h₂, h₃, fun q hq => ?_, h₅, h₆, h₇, h₈⟩,
      ⟨hinv.routes.pending, hinv.routes.invoked, hinv.routes.replied, hinv.routes.justified, hinv.routes.once⟩⟩, ⟨hgrows, fun j _ => .refl j s.2⟩⟩
    simp only [hsame q]
    exact h₄ q hq

/-- The slot of a party goes back to its pool, once. -/
theorem freeSlot_step (hinv : Inv respond parties s) {p : ℕ} (a : Answer ω) (hheld : (me, p) ∈ s.2.held)
    (hended : ∀ q, (me, q) ∉ s.2.running) :
    Inv respond parties (after (.freeSlot me p) a s) ∧ Mine me s (after (.freeSlot me p) a s) := by
  obtain ⟨h₁, h₂, h₃, h₄, h₅, h₆, h₇, h₈⟩ := hinv.pools
  obtain ⟨hborn, htaken, hfreed⟩ := h₅ _ hheld
  simp only [after, note, Act.effect]
  refine ⟨⟨⟨h₁, h₂, h₃, fun q hq => ?_, fun x hx => ?_, fun x hx => ?_, fun i => ?_, fun i q q' hq hq' => ?_⟩,
    ⟨hinv.routes.pending, hinv.routes.invoked, hinv.routes.replied, hinv.routes.justified, hinv.routes.once⟩⟩,
    ⟨⟨Nat.le_refl _, Nat.le_refl _, fun _ _ => rfl, fun _ _ h => h, fun _ h => h⟩, fun j hj => ?_⟩⟩
  · have hbefore := h₄ q hq
    rw [card_filter_erase hheld] at hbefore
    by_cases heq : q = p
    · subst heq
      simp only [Function.update_self, ↓reduceIte] at hbefore ⊢
      omega
    · simp only [Function.update_of_ne heq, if_neg heq, Nat.add_zero] at hbefore ⊢
      exact hbefore
  · obtain ⟨hne, hold⟩ := Finset.mem_erase.mp hx
    have hother : x.1 ≠ me := fun heq => hne (Prod.ext heq (h₈ me x.2 p (heq ▸ hold) hheld))
    exact ⟨(h₅ x hold).1, (h₅ x hold).2.1, (Function.update_of_ne hother _ _).trans (h₅ x hold).2.2⟩
  · exact Finset.mem_erase.mpr ⟨fun heq => hended p (heq ▸ hx), h₆ hx⟩
  · by_cases heq : i = me
    · subst heq
      simp [htaken, hfreed]
    · simp only [Function.update_of_ne heq]
      exact h₇ i
  · exact h₈ i q q' (Finset.mem_of_mem_erase hq) (Finset.mem_of_mem_erase hq')
  · refine ⟨rfl, fun _ _ => .rfl, rfl, fun _ _ => .rfl, rfl, rfl, Function.update_of_ne hj _ _, fun q => ?_, fun _ => .rfl⟩
    exact Finset.mem_erase.trans (and_iff_right fun heq => hj (congrArg Prod.fst heq))

/-! ## Programs of other parties -/

theorem inherited_works : Inherited fun α (x : Step η ι ω α) => ∀ s, Works respond parties me x s fun _ _ => True :=
  inherited_observes (fun _ _ _ => rfl) fun s => ⟨.refl s.1, fun j _ => .refl j s.2⟩

theorem ofActs_works {k : Act η ι → Prop} (hplain : ∀ x, k x → Plain x) :
    OfActs (fun α (x : Step η ι ω α) => ∀ s, Works respond parties me x s fun _ _ => True) k :=
  ofActs_observes fun x hx _ a hinv _ =>
    have hstep := plain_step me (hplain x hx) a hinv
    ⟨hstep.1, hstep.2.1⟩

theorem act_works {x : Act η ι} (h : ∀ (s : Adapter η ι × History η ι ω) a, Inv respond parties s →
    Inv respond parties (after x a s) ∧ Mine me s (after x a s)) (f : Answer ω → Adapter η ι → α) (s : Adapter η ι × History η ι ω) :
    Works respond parties me (act x f) s fun _ _ => True :=
  observes_perform fun s' a _ hinv _ => ⟨(h s' a hinv).1, (h s' a hinv).2, trivial⟩

theorem plain_works {x : Act η ι} (hx : Plain x) {f : Answer ω → Adapter η ι → α} {rest : α → Step η ι ω β}
    {Q : Except AdapterError β → Adapter η ι × History η ι ω → Prop}
    (h : ∀ s' a, Others me s s' → Inv respond parties s' → Others me s (x.effect a s'.1, s'.2) →
      Works respond parties me (rest (f a s'.1)) (x.effect a s'.1, s'.2) Q) : Works respond parties me (act x f >>= rest) s Q := by
  refine observes_act fun s' a hothers hinv _ => ?_
  have hstep := plain_step me hx a hinv
  rw [after, note_of_plain hx] at hstep
  rw [note_of_plain hx]
  exact ⟨hstep.1, hstep.2.1, h s' a hothers hinv (hothers.trans hstep.2.2)⟩

theorem request_works : OfActs (fun α (x : Step η ι ω α) => ∀ s, Works respond parties me x s fun _ _ => True) IsRequestAct := by
  intro x hx α f
  cases x with
  | register caller p c => exact act_works (fun _ a hinv => register_step me hinv caller p c a) f
  | write | remove | giveUp | take =>
    refine ofActs_works (k := Plain) (fun _ h => h) _ ?_ _ f
    trivial
  | _ => exact hx.elim

theorem failPending_works (e : AdapterError) (process : Option ℕ) (closes : Bool) (s : Adapter η ι × History η ι ω) :
    Works respond parties me (failPending e process closes : Step η ι ω Unit) s fun _ _ => True :=
  inherited_works.bind (ofActs_works (k := fun x => x = .list process closes) (fun _ hx => hx ▸ trivial) _ rfl _ _)
    (fun _ => inherited_works.failAll fun id => ofActs_works (k := fun x => x = .fail id e) (fun _ hx => hx ▸ trivial) _ rfl _ _) s

theorem along_works {x : Step η ι ω α} {Q : Except AdapterError α → Adapter η ι × History η ι ω → Prop}
    (h : Works respond parties me x s Q) : Works respond parties me x s fun r s' => Grows s.1 s'.1 ∧ Q r s' :=
  h.along (fun x y => Grows x.1 y.1) (fun x => .refl x.1) Grows.trans (fun _ _ hothers => hothers.grows) fun _ _ hmine => hmine.grows

theorem closeProcessLocked_works (s : Adapter η ι × History η ι ω) :
    Works respond parties me (closeProcessLocked : Step η ι ω Unit) s fun _ _ => True := by
  refine observes_act fun s₁ a₁ _ hinv₁ _ => ?_
  have hretire := retire_step me hinv₁ a₁
  refine ⟨hretire.1, hretire.2, ?_⟩
  refine observes_bind ((along_works (failPending_works .unavailable s₁.1.process true _)).mono fun _ s₂ h₂ =>
    ⟨fun _ _ => ?_, fun _ _ => trivial⟩)
  cases hprocess : s₁.1.process with
  | none => exact observes_pure trivial
  | some p =>
    have hborn : p < s₂.1.spawned :=
      Nat.lt_of_lt_of_le (Nat.lt_of_lt_of_le (hinv₁.pools.current p hprocess).1 hretire.2.grows.spawned) h₂.1.spawned
    refine observes_act fun s₃ a₃ h₃ hinv₃ _ => ?_
    have hclear := clear_step me hinv₃ a₃
    refine ⟨hclear.1, hclear.2, plain_works (x := .purge p) trivial fun s₄ a₄ h₄ _ h₄' => ?_⟩
    have hborn₄ := Nat.lt_of_lt_of_le (Nat.lt_of_lt_of_le hborn h₃.grows.spawned) hclear.2.grows.spawned
    refine observes_perform fun s₅ a₅ h₅ hinv₅ _ => ?_
    have hgone : s₅.1.process ≠ some p := fun h =>
      absurd (h₄'.grows.current p hborn₄ (h₅.grows.current p (Nat.lt_of_lt_of_le hborn₄ h₄'.grows.spawned) h)) nofun
    have hclose := closeInput_step me hinv₅ (Nat.lt_of_lt_of_le (Nat.lt_of_lt_of_le hborn₄ h₄'.grows.spawned) h₅.grows.spawned) hgone a₅
    exact ⟨hclose.1, hclose.2, trivial⟩

theorem lifecycle_works : OfActs (fun α (x : Step η ι ω α) => ∀ s, Works respond parties me x s fun _ _ => True) IsLifecycleAct :=
  ofActs_works fun x hx => by cases x <;> trivial

theorem parts_works : Parts (fun α (x : Step η ι ω α) => ∀ s, Works respond parties me x s fun _ _ => True) me where
  inherited := inherited_works
  lifecycle := lifecycle_works
  request _ := inherited_works.requestRaw request_works
  command _ := inherited_works.commandExec request_works
  close := closeProcessLocked_works
  fail e process := failPending_works e process false
  popen := act_works fun _ a hinv => popen_step me hinv a
  ready := ofActs_works (k := fun x => x = .ready) (fun _ hx => hx ▸ trivial) _ rfl _ _
  release := inherited_works.releaseThread lifecycle_works (fun _ => inherited_works.requestRaw request_works)
    fun t listed => ofActs_works (k := fun x => x = .discard t listed) (fun _ hx => hx ▸ trivial) _ rfl _ _
  cleanup n := inherited_works.cleanupAbandonedThreads
    (inherited_works.releaseThread lifecycle_works (fun _ => inherited_works.requestRaw request_works)
      (fun t listed => ofActs_works (k := fun x => x = .discard t listed) (fun _ hx => hx ▸ trivial) _ rfl _ _) n)
    fun p t listed => ofActs_works (k := fun x => x = .discardAbandoned p t listed) (fun _ hx => hx ▸ trivial) _ rfl _ _
  resolve _ _ := inherited_works.resolveResponse (ofActs_works fun x hx => by cases x <;> trivial)
  exit p := act_works (fun _ a hinv => exit_step me hinv p a) _

/-! ## The program of a server request -/

/-- A reply that can be encoded is sent. Nothing else happens to the party. -/
theorem sendReply_works {p : ℕ} {m : ServerRequest} {calls : List ℕ} {r : ServerReply} (hasked : Asked me p m calls s)
    (hasks : Asks parties me p m) (hjust : ∀ response, r = .result response → Justified respond s.2 me response) :
    Works respond parties me (sendReply me p m r : Step η ι ω Unit) s fun _ s' =>
      Same me s.2 s'.2 ∧ (encodableReply m r = true → Sent me p r s') := by
  have hsend : Works respond parties me (sendMessage (encodableReply m r) p fun q => .reply me q m r : Step η ι ω Unit) s fun _ s' =>
      Same me s.2 s'.2 ∧ (encodableReply m r = true → Sent me p r s') := by
    refine observes_sendMessage (fun _ _ _ => rfl) (fun s => ⟨.refl s.1, fun j _ => .refl j s.2⟩) (fun s₁ h₁ _ halive => ?_)
      (fun s₁ h₁ _ hencodable => ⟨h₁.own.same, fun h => absurd (hencodable.symm.trans h) Bool.false_ne_true⟩) fun s₁ h₁ _ _ => ?_
    · refine ⟨h₁.own.same, fun _ => .inr (.inr ⟨(hasked.others h₁).born, ?_⟩)⟩
      by_cases hprocess : s₁.1.process = some p
      · refine .inr (.inr ?_)
        cases hexited : s₁.1.exited p with
        | true => rfl
        | false => exact absurd (by simp [Adapter.alive, hprocess, hexited]) halive
      · exact .inl hprocess
    · refine observes_act fun s₂ a h₂ hinv₂ _ => ?_
      have hothers := h₁.trans h₂
      have hasked₂ := hasked.others hothers
      have hstep := reply_step hinv₂ (r := r) a hasks hasked₂.unreplied fun response hr => (hjust response hr).same hothers.own.same
      refine ⟨hstep.1, hstep.2, observes_fromExcept ?_⟩
      simp only [note]
      split
      · next hclosed => exact ⟨hothers.own.same, fun _ => .inr (.inr ⟨hasked₂.born, .inl (hinv₂.pools.closed p hclosed).2⟩)⟩
      split
      · exact ⟨hothers.own.same.trans ⟨fun _ _ => .rfl, rfl, rfl, rfl, fun _ => .rfl, fun _ => .rfl⟩,
          fun _ => .inl ⟨_, List.mem_cons_self, rfl, rfl⟩⟩
      · exact ⟨hothers.own.same.trans ⟨fun _ _ => .rfl, rfl, rfl, rfl, fun _ => .rfl, fun _ => .rfl⟩,
          fun _ => .inr (.inl (Function.update_self _ _ _))⟩
  exact observes_bind (observes_attempt (hsend.mono fun _ _ hr => ⟨fun _ _ => observes_fromExcept hr, fun _ _ => hr⟩))

/-! ### Handlers -/

/-- A handler is run, and what it says is settled. -/
theorem runHandler_works {p : ℕ} {m : ServerRequest} {r : Routed} {handler : η} (hchosen : Chosen me p m r.id handler s)
    (hholds : Holds me p s.2) (hasks : Asks parties me p m) (hmethod : methodText m = elicitationMethod) :
    Works respond parties me (runHandler me respond p m r handler) s fun res s' => ∃ response, res = .ok response ∧
      Chosen me p m r.id handler s' ∧ Holds me p s'.2 ∧ Justified respond s'.2 me response := by
  refine observes_act fun s₁ a₁ h₁ hinv₁ _ => ?_
  have hchosen₁ := hchosen.others h₁
  have hholds₁ := hholds.same h₁.own.same
  have hstart := startHandler_step hinv₁ a₁ hasks hmethod hchosen₁.correlated (hchosen₁.calls _ (List.mem_singleton.mpr rfl))
    hchosen₁.handler hholds₁.held
  refine ⟨hstart.1, hstart.2, observes_act fun s₂ a₂ h₂ hinv₂ _ => ?_⟩
  have hstarted : Chosen me p m r.id handler (after (.startHandler me p m r.id handler) a₁ s₁) :=
    ⟨⟨hchosen₁.correlated, hchosen₁.born, hchosen₁.calls, hchosen₁.unreplied⟩, hchosen₁.handler⟩
  have hchosen₂ := hstarted.others h₂
  have hheld₂ : (me, p) ∈ s₂.2.held := (h₂.own.held p).mpr hholds₁.held
  have hinvoked₂ : (⟨me, p, m, r.id, handler⟩ : Invocation η ι) ∈ s₂.2.invocations :=
    (h₂.own.invocations _ rfl).mpr List.mem_cons_self
  have hend := endHandler_step hinv₂ p r.id m a₂ hchosen₂.unreplied
  have hended : Holds me p (after (.endHandler me p m r.id : Act η ι) a₂ s₂).2 := by
    refine ⟨hheld₂, fun q hq => ?_⟩
    obtain ⟨hne, hrunning⟩ := Finset.mem_erase.mp hq
    exact hne (congrArg (Prod.mk me) (hinv₂.pools.single me q p (hinv₂.pools.running hrunning) hheld₂))
  have hchosen₃ : Chosen me p m r.id handler (after (.endHandler me p m r.id) a₂ s₂) :=
    ⟨⟨hchosen₂.correlated, hchosen₂.born, hchosen₂.calls, hchosen₂.unreplied⟩, hchosen₂.handler⟩
  -- whatever the handler said, the party may say so
  have hsettle : ∀ {x : Act η ι} (_ : Plain x) (response : ElicitationResponse),
      Justified respond (after (.endHandler me p m r.id : Act η ι) a₂ s₂).2 me response →
      Works respond parties me (tell x >>= fun _ => pure response) (after (.endHandler me p m r.id) a₂ s₂) fun res s' =>
        ∃ response, res = .ok response ∧ Chosen me p m r.id handler s' ∧ Holds me p s'.2 ∧ Justified respond s'.2 me response :=
    fun hx response hjust => plain_works hx fun _ _ _ _ hothers =>
      observes_pure ⟨response, rfl, hchosen₃.others hothers, hended.same hothers.own.same, hjust.same hothers.own.same⟩
  refine ⟨hend.1, hend.2, ?_⟩
  cases hresponse : (respond handler (newInteraction m) a₂.outer).bind normalizeElicitationResponse with
  | ok response =>
    exact hsettle (x := .markAction r.id r.index response.action) trivial response
      ⟨_, hinvoked₂, rfl, a₂.outer, Function.update_self _ _ _, (congrArg settled hresponse).symm⟩
  | error e =>
    exact hsettle (x := .markBridgeError r.id r.index (txt "Outer MCP elicitation failed or timed out.")) trivial cancelResponse
      ⟨_, hinvoked₂, rfl, a₂.outer, Function.update_self _ _ _, (congrArg settled hresponse).symm⟩

/-- A worker runs its handler, or finds its process gone. It still holds its slot. -/
theorem answerServerRequest_works {p : ℕ} {m : ServerRequest} {r : Routed} {handler : η} (hchosen : Chosen me p m r.id handler s)
    (hholds : Holds me p s.2) (hasks : Asks parties me p m) (hmethod : methodText m = elicitationMethod) :
    Works respond parties me (answerServerRequest me respond p m r handler) s fun _ s' =>
      Holds me p s'.2 ∧ (Gone p s'.1 ∨ Spoken respond me p m s') := by
  refine plain_works (x := .look) trivial fun s₁ _ h₁ _ h₁' => ?_
  cases hretired : s₁.1.retired p with
  | true => exact observes_pure ⟨hholds.same h₁'.own.same, .inl ⟨(hchosen.others h₁').born, .inr (.inl hretired)⟩⟩
  | false =>
    refine observes_bind ((runHandler_works (hchosen.others h₁') (hholds.same h₁'.own.same) hasks hmethod).mono fun res s₂ h₂ => ?_)
    obtain ⟨response, hres, hchosen₂, hholds₂, hjust₂⟩ := h₂
    refine ⟨fun response' hresponse => ?_, fun e he => absurd (he.symm.trans hres) error_ne_ok⟩
    cases Except.ok.inj (hres.symm.trans hresponse)
    refine plain_works (x := .look) trivial fun s₃ _ h₃ _ h₃' => ?_
    have hchosen₃ := hchosen₂.others h₃'
    cases hretired₃ : s₃.1.retired p with
    | true => exact observes_pure ⟨hholds₂.same h₃'.own.same, .inl ⟨hchosen₃.born, .inr (.inl hretired₃)⟩⟩
    | false =>
      have hjust₃ := hjust₂.same h₃'.own.same
      refine (sendReply_works hchosen₃.toAsked hasks fun _ heq => ?_).mono fun _ s₄ h₄ => ?_
      · cases heq
        exact hjust₃
      · exact ⟨(hholds₂.same h₃'.own.same).same h₄.1, .inr ⟨response, hjust₃.same h₄.1, h₄.2⟩⟩

/-- An error can be encoded when its reason can. -/
theorem encodableReply_error {m : ServerRequest} {code : ℤ} {reason : Text} (hreason : isEncodable reason = true)
    (h : Repliable m) : encodableReply m (.error code reason) = true := by
  simp only [Repliable, encodableReply, replyStrings, List.all_append, List.all_cons, List.all_nil, Bool.and_true, Bool.and_eq_true] at h ⊢
  exact ⟨h.1, hreason⟩

theorem rejectServerRequest_works {p : ℕ} {m : ServerRequest} {calls : List ℕ} {k : ℕ} (code : ℤ) (reason : Text)
    (hasked : Asked me p m calls s) (hidle : Idle me k s.2) (huninvoked : Uninvoked me s.2) (hasks : Asks parties me p m)
    (hencodable : Repliable m → encodableReply m (.error code reason) = true) :
    Works respond parties me (rejectServerRequest me p m code reason : Step η ι ω Unit) s (Finished respond me p m) := by
  refine (sendReply_works (r := .error code reason) hasked hasks nofun).mono fun r s₁ h₁ => ?_
  have hidle₁ := hidle.same h₁.1
  exact ⟨hidle₁.taken.trans hidle₁.freed.symm,
    .inr (.inr ⟨huninvoked.same h₁.1, .inr fun hrepliable => ⟨code, reason, h₁.2 (hencodable hrepliable)⟩⟩)⟩

/-- The slot of a party is free again. -/
theorem Holds.idle {p : ℕ} {x : Adapter η ι × History η ι ω} (hinv : Inv respond parties x) (hholds : Holds me p x.2) (a : Answer ω) :
    Idle me 1 (after (.freeSlot me p : Act η ι) a x).2 := by
  obtain ⟨-, htaken, hfreed⟩ := hinv.pools.held _ hholds.held
  refine ⟨htaken, by simp [note, hfreed], fun q hq => ?_⟩
  obtain ⟨hne, hmem⟩ := Finset.mem_erase.mp hq
  exact hne (congrArg (Prod.mk me) (hinv.pools.single me q p hmem hholds.held))

theorem completeServerRequest_works {p : ℕ} {m : ServerRequest} {r : Routed} {handler : η} (hchosen : Chosen me p m r.id handler s)
    (hholds : Holds me p s.2) (hasks : Asks parties me p m) (hmethod : methodText m = elicitationMethod) :
    Works respond parties me (completeServerRequest me respond p m r handler) s (Finished respond me p m) := by
  refine observes_bind (observes_attempt ((answerServerRequest_works hchosen hholds hasks hmethod).mono fun res s₁ h₁ =>
    ⟨fun _ _ => ?_, fun _ he => absurd he.symm error_ne_ok⟩))
  refine observes_act fun s₂ a h₂ hinv₂ _ => ?_
  have hholds₂ := h₁.1.same h₂.own.same
  have hstep := freeSlot_step hinv₂ a hholds₂.held hholds₂.ended
  have hidle := hholds₂.idle hinv₂ a
  refine ⟨hstep.1, hstep.2, observes_fromExcept ⟨hidle.taken.trans hidle.freed.symm, ?_⟩⟩
  refine h₁.2.imp (fun hgone => hstep.2.grows.gone p (h₂.grows.gone p hgone)) fun hspoken => .inl ?_
  obtain ⟨response, ⟨v, hv, hparty, hresponse⟩, hsent⟩ := hspoken.others h₂
  exact ⟨response, ⟨v, hv, hparty, hresponse⟩, fun hencodable => (hsent hencodable).imp id (.imp id (hstep.2.grows.gone p))⟩

/-- Who takes the lock knows as much as before. Who does not is still waiting. -/
theorem takeLifecycle_works (n : ℕ) : Works respond parties me (takeLifecycle me n : Step η ι ω Unit) s fun r s' =>
    Others me s s' ∧ ∀ e, r = .error e → e = .stillWaiting := by
  induction n generalizing s with
  | zero => exact observes_throw ⟨⟨.refl s.1, .refl me s.2⟩, fun e he => (Except.error.inj he).symm⟩
  | succ n ih =>
    refine plain_works (x := .takeLifecycle me) trivial fun s₁ _ _ _ h₁ => ?_
    split
    · exact observes_pure ⟨h₁, fun _ he => absurd he.symm error_ne_ok⟩
    · exact ih.mono fun _ _ hr => ⟨h₁.trans hr.1, hr.2⟩

/-- A pool that does not serve is retired, or was replaced. -/
theorem serving_works (n : ℕ) {p : ℕ} (hborn : p < s.1.spawned) :
    Works respond parties me (withLifecycle me n (look fun _ s => decide (s.pool = some p) && !s.retired p) : Step η ι ω Bool) s
      fun r s' => Others me s s' ∧ (r = .ok false → Gone p s'.1) ∧ ∀ e, r = .error e → e = .stillWaiting := by
  refine observes_bind ((takeLifecycle_works n).mono fun r s₁ h₁ => ⟨fun _ _ => ?_, fun e he => ⟨h₁.1, nofun, fun e' he' => ?_⟩⟩)
  · have hlook : Works respond parties me (look fun _ s => decide (s.pool = some p) && !s.retired p : Step η ι ω Bool) s₁
        fun r s' => Others me s s' ∧ ∃ b, r = .ok b ∧ (b = false → Gone p s'.1) := by
      refine observes_perform fun s₂ _ h₂ hinv₂ _ => ⟨hinv₂, ⟨.refl s₂.1, fun j _ => .refl j s₂.2⟩, h₁.1.trans h₂, _, rfl, fun hserves => ?_⟩
      have hborn₂ := Nat.lt_of_lt_of_le hborn (h₁.1.trans h₂).grows.spawned
      refine ⟨hborn₂, ?_⟩
      by_cases hprocess : s₂.1.process = some p
      · refine .inr (.inl ?_)
        cases hretired : s₂.1.retired p with
        | true => exact hretired
        | false =>
          have hpool := (hinv₂.pools.current p hprocess).2.resolve_right (by simp [hretired])
          simp [hpool, hretired] at hserves
      · exact .inl hprocess
    refine observes_bind (observes_attempt (hlook.mono fun r s₂ h₂ => ⟨fun r' hr' => ?_, fun _ he => absurd he.symm error_ne_ok⟩))
    cases Except.ok.inj hr'
    obtain ⟨hothers, b, hb, hgone⟩ := h₂
    refine plain_works (x := .freeLifecycle) trivial fun s₃ _ _ _ h₃ => observes_fromExcept ⟨hothers.trans h₃, fun hfalse => ?_, ?_⟩
    · exact h₃.grows.gone p (hgone (Except.ok.inj (hb.symm.trans hfalse)))
    · exact fun e he => absurd (he.symm.trans hb) error_ne_ok
  · exact h₁.2 e' (Except.error.inj he' ▸ he)

theorem tooManyReason_encodable : isEncodable tooManyReason = true := by decide +kernel
theorem notStartedReason_encodable : isEncodable notStartedReason = true := by decide +kernel
theorem uncorrelatedReason_encodable : isEncodable uncorrelatedReason = true := by decide +kernel

section
variable {p : ℕ} {m : ServerRequest} (hasks : Asks parties me p m)
include hasks

theorem startWorker_works {r : Routed} {handler : η} (hchosen : Chosen me p m r.id handler s) (hholds : Holds me p s.2)
    (huninvoked : Uninvoked me s.2) (hmethod : methodText m = elicitationMethod) :
    Works respond parties me (startWorker me respond p m r handler) s (Finished respond me p m) := by
  refine plain_works (x := .look) trivial fun s₁ a₁ _ _ h₁ => ?_
  have hholds₁ := hholds.same h₁.own.same
  split
  · exact completeServerRequest_works (hchosen.others h₁) hholds₁ hasks hmethod
  · refine observes_act fun s₂ a h₂ hinv₂ _ => ?_
    have hholds₂ := hholds₁.same h₂.own.same
    have hstep := freeSlot_step hinv₂ a hholds₂.held hholds₂.ended
    have hidle := hholds₂.idle hinv₂ a
    have hasked := ((hchosen.others h₁).others h₂).toAsked
    have hfreed : Asked me p m [r.id] (after (.freeSlot me p) a s₂) := ⟨hasked.correlated, hasked.born, hasked.calls, hasked.unreplied⟩
    refine ⟨hstep.1, hstep.2, plain_works (x := .markBridgeError r.id r.index _) trivial fun s₃ _ _ _ h₃ => ?_⟩
    have huninvoked₂ := (huninvoked.same h₁.own.same).same h₂.own.same
    have hrejected : Uninvoked me (after (.freeSlot me p : Act η ι) a s₂).2 := fun v hv => huninvoked₂ v hv
    exact rejectServerRequest_works (-32003) notStartedReason (hfreed.others h₃) (hidle.same h₃.own.same)
      (hrejected.same h₃.own.same) hasks (encodableReply_error notStartedReason_encodable)

theorem routeServerRequest_works {n : ℕ} {r : Routed} {handler : η} (hchosen : Chosen me p m r.id handler s) (hidle : Idle me 0 s.2)
    (huninvoked : Uninvoked me s.2) (hmethod : methodText m = elicitationMethod) :
    Works respond parties me (routeServerRequest me respond n p m r handler) s (Finished respond me p m) := by
  refine observes_bind ((serving_works n hchosen.born).mono fun res s₁ h₁ => ⟨fun serving hserving => ?_, fun e he => ?_⟩)
  · have hchosen₁ := hchosen.others h₁.1
    have hidle₁ := hidle.same h₁.1.own.same
    cases serving with
    | false => exact observes_pure ⟨hidle₁.taken.trans hidle₁.freed.symm, .inl (h₁.2.1 hserving)⟩
    | true =>
      refine observes_act fun s₂ a h₂ hinv₂ _ => ?_
      have hchosen₂ := hchosen₁.others h₂
      have hidle₂ := hidle₁.same h₂.own.same
      have hstep := takeSlot_step me hinv₂ a hchosen₂.born hidle₂.taken hidle₂.freed
      have huninvoked₂ := (huninvoked.same h₁.1.own.same).same h₂.own.same
      have hrejected : Uninvoked me (after (.takeSlot me p : Act η ι) a s₂).2 := by
        simp only [note]
        split <;> exact fun v hv => huninvoked₂ v hv
      refine ⟨hstep.1, hstep.2, ?_⟩
      have hkept : Chosen me p m r.id handler (after (.takeSlot me p) a s₂) := by
        simp only [after, note]
        split <;> exact ⟨⟨hchosen₂.correlated, hchosen₂.born, hchosen₂.calls, hchosen₂.unreplied⟩, hchosen₂.handler⟩
      by_cases hslot : 0 < s₂.1.slots p
      · have hholds : Holds me p (after (.takeSlot me p : Act η ι) a s₂).2 := by
          simp only [note, if_pos hslot]
          exact ⟨Finset.mem_insert_self _ _, fun q hq => hidle₂.free q (hinv₂.pools.running hq)⟩
        simp only [hslot, decide_true, ↓reduceIte]
        exact startWorker_works hasks hkept hholds hrejected hmethod
      · have hfree : Idle me 0 (after (.takeSlot me p : Act η ι) a s₂).2 := by
          simp only [note, if_neg hslot]
          exact hidle₂
        simp only [hslot, decide_false, Bool.false_eq_true, ↓reduceIte]
        refine plain_works (x := .markBridgeError r.id r.index _) trivial fun s₃ _ _ _ h₃ => ?_
        exact rejectServerRequest_works (-32002) tooManyReason (hkept.others h₃).toAsked (hfree.same h₃.own.same)
          (hrejected.same h₃.own.same) hasks (encodableReply_error tooManyReason_encodable)
  · have hidle₁ := hidle.same h₁.1.own.same
    exact ⟨hidle₁.taken.trans hidle₁.freed.symm,
      .inr (.inr ⟨huninvoked.same h₁.1.own.same, .inl (congrArg Except.error (h₁.2.2 e he))⟩)⟩

theorem dispatchServerRequest_works {n : ℕ} {calls : List ℕ} {routed : Option (Routed × η)} (hasked : Asked me p m calls s)
    (hidle : Idle me 0 s.2) (huninvoked : Uninvoked me s.2) (hrouted : ∀ x ∈ routed, Chosen me p m x.1.id x.2 s) :
    Works respond parties me (dispatchServerRequest me respond n p m routed) s (Finished respond me p m) := by
  unfold dispatchServerRequest
  split
  · next hmethod =>
    cases routed with
    | none =>
      exact rejectServerRequest_works (-32001) uncorrelatedReason hasked hidle huninvoked hasks
        (encodableReply_error uncorrelatedReason_encodable)
    | some x => exact routeServerRequest_works hasks (hrouted x rfl) hidle huninvoked hmethod
  · exact rejectServerRequest_works (-32601) (unsupportedReason m) hasked hidle huninvoked hasks fun hrepliable => hrepliable

end

/-- The party has not acted yet. -/
structure Fresh (me : ι) (h : History η ι ω) : Prop extends Idle me 0 h where
  uninvoked : Uninvoked me h
  unreplied : ∀ r ∈ h.replies, r.party ≠ me

theorem handleServerRequest_works {n p : ℕ} {m : ServerRequest} (hfresh : Fresh me s.2) (hasks : Asks parties me p m) :
    Works respond parties me (handleServerRequest me respond n p m) s (Finished respond me p m) := by
  refine observes_act fun s₁ a₁ h₁ hinv₁ hmet => ?_
  have hborn : p < s₁.1.spawned := hmet (p, m) rfl
  have hunreplied : ∀ r ∈ s₁.2.replies, r.party ≠ me := fun r hr hparty =>
    hfresh.unreplied r ((h₁.own.replies r hparty).mp hr) hparty
  have huninvoked₁ := hfresh.uninvoked.same h₁.own.same
  have huninvoked : Uninvoked me (after (.correlate me p m) a₁ s₁).2 := fun v hv => huninvoked₁ v hv
  have hstep := correlate_step me hinv₁ p m a₁ huninvoked₁
  have hcalls : ∀ id ∈ s₁.1.matchingPendingCalls p m, id < s₁.1.nextRequestId := by
    intro id hid
    unfold Adapter.matchingPendingCalls at hid
    split at hid
    · exact hinv₁.routes.pending id (List.mem_of_mem_filter hid)
    · exact absurd hid List.not_mem_nil
  have hasked : Asked me p m (s₁.1.matchingPendingCalls p m) (after (.correlate me p m) a₁ s₁) :=
    ⟨Function.update_self _ _ _, hborn, hcalls, hunreplied⟩
  have hidle : Idle me 0 (after (.correlate me p m) a₁ s₁).2 := by
    obtain ⟨htaken, hfreed, hfree⟩ := hfresh.toIdle.same h₁.own.same
    exact ⟨htaken, hfreed, hfree⟩
  refine ⟨hstep.1, hstep.2, plain_works (x := .note _ (newInteraction m)) trivial fun s₂ a₂ h₂ _ h₂' => ?_⟩
  refine dispatchServerRequest_works hasks (hasked.others h₂') (hidle.same h₂'.own.same)
    (huninvoked.same h₂'.own.same) fun x hx => ?_
  have hasked₂ := hasked.others h₂'
  generalize s₁.1.matchingPendingCalls p m = ids at hx hasked₂ ⊢
  match ids with
  | [id] =>
    obtain ⟨handler, hhandler, hchosen⟩ := Option.map_eq_some_iff.mp hx
    subst hchosen
    have hsteady : Steady s₂.1 ((Act.note [id] (newInteraction m)).effect a₂ s₂.1) := steady_effect a₂ s₂.1 (by simp)
    exact ⟨hasked₂, (congrArg RequestCall.handler (hsteady.call id)).trans hhandler⟩

end

/-! ## Runs -/

section
variable [DecidableEq ι] {respond parties}

abbrev Observed (η ι ω : Type) : Type := System ι (Act η ι) (Adapter η ι × History η ι ω) (Answer ω) (Except AdapterError Unit)

variable (respond parties) in
/-- All parties, with an adapter that has no process yet. -/
def observed : Observed η ι ω := (startSystem respond parties).observe note (startHistory η ι ω)

variable (respond parties) in
/-- A party that is a server request comes to its end. -/
def Served (i : ι) (r : Except AdapterError Unit) (x : Adapter η ι × History η ι ω) : Prop :=
  ∀ n p m, parties i = .serverRequest n p m → Finished respond i p m r x

theorem program_works (i : ι) : Works respond parties i ((parties i).program respond i) (startAdapter η ι, startHistory η ι ω)
    (Served respond parties i) := by
  by_cases hserves : ∃ n p m, parties i = .serverRequest n p m
  · obtain ⟨n, p, m, hparty⟩ := hserves
    have hfresh : Fresh i (startHistory η ι ω) := ⟨⟨rfl, rfl, nofun⟩, nofun, nofun⟩
    rw [hparty]
    refine (handleServerRequest_works hfresh ⟨n, hparty⟩).mono fun r x hfinished n' p' m' hparty' => ?_
    cases hparty.symm.trans hparty'
    exact hfinished
  · refine (parts_works.program (fun n p m hparty => absurd ⟨n, p, m, hparty⟩ hserves) _).mono fun r x _ n p m hparty => ?_
    exact absurd ⟨n, p, m, hparty⟩ hserves

theorem runs_served {q : Observed η ι ω} (hrun : Runs Sane (observed respond parties) q) :
    Inv respond parties q.state ∧ ∀ i r, q.rest i = .done r → Served respond parties i r q.state := by
  have hall : ∀ i, Upholds Sane (Inv respond parties) (Others i) (Guarantee Others i) ((observed respond parties).rest i)
      (startAdapter η ι, startHistory η ι ω) (Served respond parties i) :=
    fun i => Upholds.weaken (program_works i) fun _ _ hmine => hmine.guarantee
  have hresults := runs_results others_relies
    (fun _ _ _ _ hothers hserved n p m hparty => (hserved n p m hparty).others hothers) hrun (inv_startAdapter respond parties) hall
  refine ⟨hresults.1, fun i r hdone => ?_⟩
  have hi := hresults.2 i
  rw [hdone] at hi
  exact hi

theorem method_of_text {m : ServerRequest} (h : methodText m = elicitationMethod) : m.method = .str elicitationMethod := by
  have hunknown : txt "unknown" ≠ elicitationMethod := by decide
  unfold methodText at h
  cases hmethod : m.method with
  | str t =>
    rw [hmethod] at h
    exact congrArg Json.str h
  | _ =>
    rw [hmethod] at h
    exact absurd h hunknown

variable (respond parties) in
/-- What is recorded of elicitations: who ran which handler, where the replies went, and the slots. -/
structure FailClosed (q : Observed η ι ω) : Prop where
  invoked : ∀ v ∈ q.state.2.invocations, Asks parties v.party v.process v.message ∧ v.message.method = .str elicitationMethod ∧
    q.state.2.correlated v.party = some ⟨v.process, v.message, [v.call]⟩ ∧ (q.state.1.requests v.call).handler = some v.handler
  replied : ∀ y ∈ q.state.2.replies, Asks parties y.party y.process y.message
  slots : ∀ p < q.state.1.spawned, q.state.1.slots p + (q.state.2.held.filter fun x => x.2 = p).card = maxConcurrentServerRequests
  running : ∀ p, (q.state.2.running.filter fun x => x.2 = p).card ≤ maxConcurrentServerRequests
  released : ∀ i, q.state.2.freed i ≤ q.state.2.taken i ∧ q.state.2.taken i ≤ 1
  finished : ∀ i n p m r, parties i = .serverRequest n p m → q.rest i = .done r → Finished respond i p m r q.state

/-- Elicitations are routed to the handler of their one call or turned down, in every run. -/
theorem elicitations_fail_closed (respond : η → Interaction → ω → Except Unit Json) (parties : ι → Party η)
    {q : Observed η ι ω} (hrun : Runs Sane (observed respond parties) q) : FailClosed respond parties q := by
  obtain ⟨⟨hpools, hroutes⟩, hserved⟩ := runs_served hrun
  refine ⟨fun v hv => ?_, hroutes.replied, hpools.slots, hpools.running_le, hpools.once, ?_⟩
  · obtain ⟨hasks, hmethod, hcorrelated, -, hhandler⟩ := hroutes.invoked v hv
    exact ⟨hasks, method_of_text hmethod, hcorrelated, hhandler⟩
  · exact fun i n p m r hparty hdone => hserved i r hdone n p m hparty

end

/-! ## One tool call, and requests about it -/

def sampleElicitation : ServerRequest :=
  ⟨.int 5, .str elicitationMethod, .obj [(txt "threadId", .str (txt "t1")), (txt "serverName", .str (txt "s1"))]⟩

/-- The method is not supported, and the id of the second one holds a lone surrogate. -/
def sampleUnsupported (id : Json) : ServerRequest := ⟨id, .str (txt "item/tool/call"), .null⟩

def sampleParties : ℕ → Party Unit
  | 0 => .call 1 ⟨.mcpServerToolCall, some (txt "t1"), some (txt "s1"), some (), true⟩
  | 9 => .serverRequest 1 0 sampleElicitation
  | 10 => .serverRequest 1 0 (sampleUnsupported (.int 6))
  | 11 => .serverRequest 1 0 (sampleUnsupported (.str [0xD800]))
  | 12 => .exit 0
  | k => sampleResponse k (.obj [])

def sampleRespond (_ : Unit) (_ : Interaction) (_ : Unit) : Except Unit Json := .ok (.obj [(txt "action", .str (txt "decline"))])

def sampleSystem : Observed Unit ℕ Unit := observed sampleRespond sampleParties

/-- The call is made, an elicitation for it comes in, and its handler is run. -/
def routedSteps : List (ℕ × Answer Unit) := startSteps ++ sampleActs 0 4 ++ sampleActs 9 15

theorem elicitation_is_routed : FailClosed sampleRespond sampleParties (sampleSystem.acts routedSteps) ∧
    (sampleSystem.acts routedSteps).state.2.invocations.map Invocation.call = [9] ∧
      (sampleSystem.acts routedSteps).state.2.replies.map Reply.party = [9] := by
  have hmet : sampleSystem.AllMeet Sane routedSteps := by decide +kernel
  refine ⟨elicitations_fail_closed sampleRespond sampleParties (runs_acts_of_allMeet hmet (Runs.refl sampleSystem)), ?_, ?_⟩
  · decide +kernel
  · decide +kernel

/-- The party has come to its end without a handler and without a reply, and its process is not being retired. -/
def Unanswered (i p : ℕ) (q : Observed Unit ℕ Unit) : Prop :=
  (q.result i).isSome = true ∧ (∀ v ∈ q.state.2.invocations, v.party ≠ i) ∧ (∀ y ∈ q.state.2.replies, y.party ≠ i) ∧
    q.state.1.process = some p ∧ q.state.1.retired p = false

instance (i p : ℕ) (q : Observed Unit ℕ Unit) : Decidable (Unanswered i p q) := inferInstanceAs (Decidable (_ ∧ _))

def exitedSteps : List (ℕ × Answer Unit) := startSteps ++ sampleActs 12 1 ++ sampleActs 10 3

def surrogateSteps : List (ℕ × Answer Unit) := startSteps ++ sampleActs 11 3

/-- A process that has exited gets no reply, and a request with a lone surrogate gets none either. -/
theorem request_goes_unanswered :
    (∃ q, Runs Sane sampleSystem q ∧ Unanswered 10 0 q) ∧ ∃ q, Runs Sane sampleSystem q ∧ Unanswered 11 0 q := by
  have hexited : sampleSystem.AllMeet Sane exitedSteps := by decide +kernel
  have hsurrogate : sampleSystem.AllMeet Sane surrogateSteps := by decide +kernel
  refine ⟨⟨_, runs_acts_of_allMeet hexited (Runs.refl _), ?_⟩, _, runs_acts_of_allMeet hsurrogate (Runs.refl _), ?_⟩
  · decide +kernel
  · decide +kernel

end WebOauthMcp.ElicitationRouting
