import WebOauthMcp.AppServerParties

/-!
# Threads and their callers

A response that brings a thread is recorded: the thread is claimed, or abandoned when the
caller of the request has timed out. The response sets the event of its request before it is recorded,
a second response overwrites the first one, and a release forgets its thread without a look at
what was recorded meanwhile. Where none of this happens, every thread of the current process is
claimed or abandoned until it is released, as its callers require.
-/

namespace WebOauthMcp.ThreadOwnership
open CodePoints JsonText FaultyPrograms RelyGuarantee AppServerAdapter AppServerCalls AppServerParties

variable {η ι ω α β : Type}

/-- A process, a thread of it, and the request whose response brought it. -/
structure Delivery where
  key : ℕ × Text
  id : ℕ
  deriving DecidableEq

/-- A response of a process, and the request that it was taken for. -/
structure Resolution where
  id : ℕ
  process : ℕ
  response : Response

structure History where
  /-- What was delivered, and not released since. -/
  held : List Delivery
  /-- What callers have received of it. -/
  received : List Delivery
  /-- The requests whose responses were recorded. -/
  recorded : List ℕ
  /-- What was recorded when the event of a request was set already. -/
  since : ℕ → List Delivery
  resolved : List Resolution

def startHistory : History := ⟨[], [], [], fun _ => [], []⟩

/-- The thread that a caller receives. -/
def receivedThread (r : PendingRequest η ι) : Option Text := if r.error.isNone then r.broughtThread else none

def History.record (h : History) (s : Adapter η ι) (d : Delivery) : History := { h with
  held := d :: h.held
  since := fun id => if (s.requests id).event then d :: h.since id else h.since id }

/-- The caller of a request that was recorded receives what is still held. -/
def History.receive (h : History) (d : Delivery) : History :=
  if d.id ∈ h.recorded then
    if d ∈ h.held then { h with received := d :: h.received } else h
  else { h with held := d :: h.held, received := d :: h.received }

/-- The thread is released, but for what came later. -/
def History.release (h : History) (key : ℕ × Text) (later : List Delivery) : History := { h with
  held := h.held.filter fun d => d.key ≠ key ∨ d ∈ later
  received := h.received.filter fun d => d.key ≠ key ∨ d ∈ later }

def note : Act η ι → Answer ω → Adapter η ι → History → History
  | .answer id p m, _, _, h => { h with resolved := ⟨id, p, m⟩ :: h.resolved }
  | .record id p, _, s, h =>
    match (s.requests id).broughtThread with
    | none => { h with recorded := id :: h.recorded }
    | some t => { h.record s ⟨(p, t), id⟩ with recorded := id :: h.recorded }
  | .take id, _, s, h => (receivedThread (s.requests id)).elim h fun t => h.receive ⟨((s.requests id).process, t), id⟩
  | .discard t listed, _, s, h => s.process.elim h fun p => h.release (p, t) (h.since listed)
  | .discardAbandoned p t none, _, _, h => h.release (p, t) []
  | _, _, _, h => h

/-! ## The condition -/

def answers : Act η ι → Option ℕ
  | .answer id _ _ => some id
  | _ => none

def takes : Act η ι → Option ℕ
  | .take id => some id
  | _ => none

/-- The thread that is forgotten, and the request whose answer did not list it any more. -/
def forgets (s : Adapter η ι) : Act η ι → Option Delivery
  | .discard t listed => s.process.map fun p => ⟨(p, t), listed⟩
  | .discardAbandoned p t (some listed) => some ⟨(p, t), listed⟩
  | _ => none

/-- No request gets a second response, no caller receives a thread before it is recorded, and no thread
is forgotten that was delivered since it was last seen to be gone. -/
def Orderly (x : Act η ι) (s : Adapter η ι × History) (_ : Answer ω) : Prop :=
  (∀ id ∈ answers x, ∀ r ∈ s.2.resolved, r.id ≠ id) ∧
    (∀ id ∈ takes x, (receivedThread (s.1.requests id)).isSome = true → id ∈ s.2.recorded) ∧
    ∀ f ∈ forgets s.1 x, ∀ d ∈ s.2.held, d.key = f.key → d ∉ s.2.since f.id

instance (x : Act η ι) (s : Adapter η ι × History) (a : Answer ω) : Decidable (Orderly x s a) :=
  inferInstanceAs (Decidable (_ ∧ _ ∧ _))

/-! ## What holds -/

/-- A response is for the request with its id, which was sent to the process that the response came from. -/
def Resolution.Matches (r : Resolution) (s : Adapter η ι) : Prop :=
  requestKey r.response.id = some r.id ∧ (s.requests r.id).process = r.process

/-- What is asked of the records of the current process, and of all responses. -/
structure Sound (x : Adapter η ι × History) : Prop where
  recorded : ∀ p, x.1.process = some p → ∀ d ∈ x.2.held, d.key.1 = p →
    d.key ∈ x.1.claimedThreads ∧ d.key ∉ x.1.abandonedThreads ∨ d.key ∉ x.1.claimedThreads ∧ d.key ∈ x.1.abandonedThreads
  claimed : ∀ p, x.1.process = some p → ∀ d ∈ x.2.received, d.key.1 = p → d.key ∈ x.1.claimedThreads
  abandoned : ∀ p, x.1.process = some p → ∀ d ∈ x.2.held, d.key.1 = p → d.key ∈ x.1.abandonedThreads →
    (x.1.requests d.id).abandoned = true
  resolved : ∀ r ∈ x.2.resolved, r.Matches x.1
  once : (x.2.resolved.map Resolution.id).Nodup

structure Inv (x : Adapter η ι × History) : Prop where
  pending : ∀ id ∈ x.1.pending, id < x.1.nextRequestId ∧ (x.1.requests id).process < x.1.spawned
  current : ∀ p, x.1.process = some p → p < x.1.spawned
  born : ∀ d ∈ x.2.held, d.key.1 < x.1.spawned ∧ d.id < x.1.nextRequestId ∧ (x.1.requests d.id).event = true
  member : ∀ p, x.1.process = some p → ∀ d ∈ x.2.held, d.key.1 = p → d.key ∈ x.1.claimedThreads ∨ d.key ∈ x.1.abandonedThreads
  timedOut : ∀ p, x.1.process = some p → ∀ d ∈ x.2.held, d.key.1 = p → d.key ∈ x.1.abandonedThreads →
    (x.1.requests d.id).abandoned = true
  disjoint : ∀ key ∈ x.1.claimedThreads, key ∉ x.1.abandonedThreads
  received : ∀ d ∈ x.2.received, d ∈ x.2.held ∧ (x.1.requests d.id).abandoned = false
  resolved : ∀ r ∈ x.2.resolved, r.id < x.1.nextRequestId ∧ r.Matches x.1
  once : (x.2.resolved.map Resolution.id).Nodup

theorem Inv.sound {x : Adapter η ι × History} (h : Inv x) : Sound x where
  recorded p hp d hd hkey := by
    cases h.member p hp d hd hkey with
    | inl hclaimed => exact .inl ⟨hclaimed, h.disjoint _ hclaimed⟩
    | inr habandoned => exact .inr ⟨fun hclaimed => h.disjoint _ hclaimed habandoned, habandoned⟩
  claimed p hp d hd hkey := by
    obtain ⟨hheld, hwaited⟩ := h.received d hd
    refine (h.member p hp d hheld hkey).resolve_right fun habandoned => ?_
    exact Bool.false_ne_true (hwaited.symm.trans (h.timedOut p hp d hheld hkey habandoned))
  abandoned := h.timedOut
  resolved r hr := (h.resolved r hr).2
  once := h.once

/-! ## Reliance -/

/-- What every act keeps. -/
structure Grows (x y : Adapter η ι × History) : Prop where
  next : x.1.nextRequestId ≤ y.1.nextRequestId
  spawned : x.1.spawned ≤ y.1.spawned
  process : ∀ id < x.1.nextRequestId, (y.1.requests id).process = (x.1.requests id).process
  caller : ∀ id < x.1.nextRequestId, (y.1.requests id).caller = (x.1.requests id).caller
  event : ∀ id < x.1.nextRequestId, (x.1.requests id).event = true → (y.1.requests id).event = true
  current : ∀ p < x.1.spawned, y.1.process = some p → x.1.process = some p
  since : ∀ id, ∀ d ∈ x.2.since id, d ∈ y.2.since id
  fresh : ∀ d ∈ y.2.held, d ∈ x.2.held ∨ ∀ id < x.1.nextRequestId, (x.1.requests id).event = true → d ∈ y.2.since id

theorem Grows.refl (x : Adapter η ι × History) : Grows x x :=
  ⟨Nat.le_refl _, Nat.le_refl _, fun _ _ => rfl, fun _ _ => rfl, fun _ _ h => h, fun _ _ h => h, fun _ _ h => h, fun _ h => .inl h⟩

theorem Grows.trans {x y z : Adapter η ι × History} (hxy : Grows x y) (hyz : Grows y z) : Grows x z := by
  have hborn : ∀ {id}, id < x.1.nextRequestId → id < y.1.nextRequestId := fun hid => Nat.lt_of_lt_of_le hid hxy.next
  refine ⟨Nat.le_trans hxy.next hyz.next, Nat.le_trans hxy.spawned hyz.spawned, fun id hid => ?_, fun id hid => ?_, fun id hid h => ?_,
    fun p hp h => ?_, fun id d hd => hyz.since id d (hxy.since id d hd), fun d hd => ?_⟩
  · exact (hyz.process id (hborn hid)).trans (hxy.process id hid)
  · exact (hyz.caller id (hborn hid)).trans (hxy.caller id hid)
  · exact hyz.event id (hborn hid) (hxy.event id hid h)
  · exact hxy.current p hp (hyz.current p (Nat.lt_of_lt_of_le hp hxy.spawned) h)
  · cases hyz.fresh d hd with
    | inl hold =>
      refine (hxy.fresh d hold).imp_right fun hsince id hid h => ?_
      exact hyz.since id d (hsince id hid h)
    | inr hsince => exact .inr fun id hid h => hsince id (hborn hid) (hxy.event id hid h)

/-- Nobody abandons the request of another caller. -/
structure Others (me : ι) (x y : Adapter η ι × History) : Prop where
  grows : Grows x y
  own : ∀ id < x.1.nextRequestId, (x.1.requests id).caller = some me → (y.1.requests id).abandoned = (x.1.requests id).abandoned

/-- What the acts of one caller keep. -/
structure Mine (me : ι) (x y : Adapter η ι × History) : Prop where
  grows : Grows x y
  others : ∀ id < x.1.nextRequestId, (x.1.requests id).caller ≠ some me →
    (y.1.requests id).abandoned = (x.1.requests id).abandoned

theorem others_relies : Relies (Others (η := η) (ι := ι)) where
  refl _ x := ⟨.refl x, fun _ _ _ => rfl⟩
  trans _ _ _ _ hxy hyz := by
    refine ⟨hxy.grows.trans hyz.grows, fun id hid hcaller => ?_⟩
    have hnext := hyz.own id (Nat.lt_of_lt_of_le hid hxy.grows.next) ((hxy.grows.caller id hid).trans hcaller)
    exact hnext.trans (hxy.own id hid hcaller)

theorem Mine.guarantee {me : ι} {x y : Adapter η ι × History} (h : Mine me x y) : Guarantee Others me x y := by
  intro j hj
  refine ⟨h.grows, fun id hid hcaller => h.others id hid fun hme => ?_⟩
  exact hj (Option.some.inj (hcaller.symm.trans hme))

theorem inv_startAdapter : Inv (startAdapter η ι, startHistory) :=
  ⟨nofun, nofun, nofun, nofun, nofun, nofun, nofun, nofun, List.nodup_nil⟩

/-! ## Acts -/

/-- An act that neither opens a process nor registers or abandons a request. -/
structure Kept (s s' : Adapter η ι) : Prop extends Steady s s' where
  pending : ∀ id ∈ s'.pending, id ∈ s.pending
  abandoned : ∀ id, (s'.requests id).abandoned = (s.requests id).abandoned
  spawned : s'.spawned = s.spawned
  current : ∀ p, s'.process = some p → s.process = some p

theorem Resolution.Matches.steady {s s' : Adapter η ι} (hsteady : Steady s s') {r : Resolution} (h : r.Matches s) : r.Matches s' :=
  ⟨h.1, (hsteady.process r.id).trans h.2⟩

/-- The threads of the current process, and what is held of them. -/
structure Recorded (s : Adapter η ι) (h : History) : Prop where
  member : ∀ p, s.process = some p → ∀ d ∈ h.held, d.key.1 = p → d.key ∈ s.claimedThreads ∨ d.key ∈ s.abandonedThreads
  timedOut : ∀ p, s.process = some p → ∀ d ∈ h.held, d.key.1 = p → d.key ∈ s.abandonedThreads →
    (s.requests d.id).abandoned = true
  disjoint : ∀ key ∈ s.claimedThreads, key ∉ s.abandonedThreads

theorem Kept.inv {s s' : Adapter η ι} {h h' : History} (hkept : Kept s s') (hinv : Inv (s, h))
    (hheld : ∀ d ∈ h'.held, d ∈ h.held ∨ d.key.1 < s.spawned ∧ d.id < s.nextRequestId ∧ (s.requests d.id).event = true)
    (hrecorded : Recorded s' h')
    (hreceived : ∀ d ∈ h'.received, d ∈ h'.held ∧ (s.requests d.id).abandoned = false)
    (hresolved : h'.resolved = h.resolved) : Inv (s', h') where
  pending id hid := by
    have hbefore := hinv.pending id (hkept.pending id hid)
    show id < s'.nextRequestId ∧ (s'.requests id).process < s'.spawned
    rw [hkept.next, hkept.process, hkept.spawned]
    exact hbefore
  current p hp := hkept.spawned ▸ hinv.current p (hkept.current p hp)
  born d hd := by
    obtain ⟨hspawned, hnext, hevent⟩ := (hheld d hd).elim (hinv.born d) id
    exact ⟨hkept.spawned ▸ hspawned, hkept.next ▸ hnext, hkept.event d.id hevent⟩
  member := hrecorded.member
  timedOut := hrecorded.timedOut
  disjoint := hrecorded.disjoint
  received d hd := ⟨(hreceived d hd).1, (hkept.abandoned d.id).trans (hreceived d hd).2⟩
  resolved r hr := by
    have hbefore := hinv.resolved r (hresolved ▸ hr)
    exact ⟨hkept.next ▸ hbefore.1, hbefore.2.steady hkept.toSteady⟩
  once := (congrArg (fun l => (l.map Resolution.id).Nodup) hresolved).mpr hinv.once

theorem Kept.mine {s s' : Adapter η ι} (hkept : Kept s s') (me : ι) {h h' : History}
    (hsince : ∀ id, ∀ d ∈ h.since id, d ∈ h'.since id)
    (hfresh : ∀ d ∈ h'.held, d ∈ h.held ∨ ∀ id < s.nextRequestId, (s.requests id).event = true → d ∈ h'.since id) :
    Mine me (s, h) (s', h') where
  grows := ⟨hkept.next.ge, hkept.spawned.ge, fun id _ => hkept.process id, fun id _ => hkept.caller id, fun id _ => hkept.event id,
    fun p _ => hkept.current p, hsince, hfresh⟩
  others id _ _ := hkept.abandoned id

/-- An act that does not touch the threads either. -/
structure Quiet (s s' : Adapter η ι) : Prop extends Kept s s' where
  claimedThreads : s'.claimedThreads = s.claimedThreads
  abandonedThreads : s'.abandonedThreads = s.abandonedThreads

theorem Quiet.recorded {s s' : Adapter η ι} {h : History} (hquiet : Quiet s s') (hinv : Inv (s, h)) : Recorded s' h where
  member p hp d hd hkey := by
    rw [hquiet.claimedThreads, hquiet.abandonedThreads]
    exact hinv.member p (hquiet.current p hp) d hd hkey
  timedOut p hp d hd hkey habandoned := by
    rw [hquiet.abandonedThreads] at habandoned
    exact (hquiet.abandoned d.id).trans (hinv.timedOut p (hquiet.current p hp) d hd hkey habandoned)
  disjoint key hclaimed := by
    rw [hquiet.claimedThreads] at hclaimed
    rw [hquiet.abandonedThreads]
    exact hinv.disjoint key hclaimed

theorem Quiet.inv {s s' : Adapter η ι} {h : History} (hquiet : Quiet s s') (hinv : Inv (s, h)) : Inv (s', h) :=
  hquiet.toKept.inv hinv (fun _ hd => .inl hd) (hquiet.recorded hinv) hinv.received rfl

theorem Quiet.mine {s s' : Adapter η ι} (hquiet : Quiet s s') (me : ι) {h h' : History} (hheld : h'.held = h.held)
    (hsince : h'.since = h.since) : Mine me (s, h) (s', h') :=
  hquiet.toKept.mine me (fun _ _ hd => hsince ▸ hd) fun _ hd => .inl (hheld ▸ hd)

/-- A thread is recorded as claimed for a caller that waits, and as abandoned only if nobody claimed it before. -/
theorem recorded_record {s : Adapter η ι × History} (hinv : Inv s) (id p : ℕ) (t : Text) {s' : Adapter η ι} {recorded : List ℕ} (hkept : Kept s.1 s')
    (hclaimed : s'.claimedThreads = (s.1.recordThread p t (s.1.requests id).abandoned).claimedThreads)
    (habandoned : s'.abandonedThreads = (s.1.recordThread p t (s.1.requests id).abandoned).abandonedThreads) :
    Recorded s' { s.2.record s.1 ⟨(p, t), id⟩ with recorded := recorded } := by
  refine ⟨fun q hq d hd hkey => ?_, fun q hq d hd hkey hleft => ?_, fun key hkey hleft => ?_⟩
  · have hbefore : d.key = (p, t) ∨ d.key ∈ s.1.claimedThreads ∨ d.key ∈ s.1.abandonedThreads := by
      cases List.mem_cons.mp hd with
      | inl heq => exact .inl (heq ▸ rfl)
      | inr hold => exact .inr (hinv.member q (hkept.current q hq) d hold hkey)
    rw [hclaimed, habandoned, mem_claimed_recordThread, mem_abandoned_recordThread]
    by_cases hnew : d.key = (p, t)
    · rw [if_pos hnew]
      cases (s.1.requests id).abandoned with
      | false => exact .inl (.inr ⟨rfl, hnew⟩)
      | true =>
        by_cases hold : d.key ∈ s.1.claimedThreads
        · exact .inl (.inl hold)
        · exact .inr ⟨rfl, .inr hold⟩
    · rw [if_neg hnew]
      exact (hbefore.resolve_left hnew).imp_left .inl
  · rw [habandoned, mem_abandoned_recordThread] at hleft
    rw [hkept.abandoned]
    have hold : d ∈ s.2.held → d.key ∈ s.1.abandonedThreads ∨ d.key ∉ s.1.claimedThreads → (s.1.requests d.id).abandoned = true := by
      intro hheld hor
      have hmem := hinv.member q (hkept.current q hq) d hheld hkey
      exact hinv.timedOut q (hkept.current q hq) d hheld hkey (hor.elim (fun h => h) hmem.resolve_left)
    cases List.mem_cons.mp hd with
    | inl heq =>
      subst heq
      rw [if_pos rfl] at hleft
      exact hleft.1
    | inr hheld =>
      split at hleft
      · exact hold hheld hleft.2
      · exact hold hheld (.inl hleft)
  · rw [hclaimed, mem_claimed_recordThread] at hkey
    rw [habandoned, mem_abandoned_recordThread] at hleft
    have hold : key ∈ s.1.claimedThreads → False := by
      intro hmem
      split at hleft
      · exact hleft.2.elim (hinv.disjoint key hmem) fun h => h hmem
      · exact hinv.disjoint key hmem hleft
    cases hkey with
    | inl hmem => exact hold hmem
    | inr hnew =>
      rw [if_pos hnew.2] at hleft
      exact Bool.false_ne_true (hnew.1.symm.trans hleft.1)

/-- Threads are forgotten that are not held of the current process. -/
theorem recorded_forget {s : Adapter η ι × History} (hinv : Inv s) {s' : Adapter η ι} {h' : History} (hkept : Kept s.1 s')
    (gone : ℕ × Text → Prop) (hclaimed : ∀ key ∈ s'.claimedThreads, key ∈ s.1.claimedThreads)
    (habandoned : ∀ key ∈ s'.abandonedThreads, key ∈ s.1.abandonedThreads)
    (hstays : ∀ key, ¬gone key → (key ∈ s.1.claimedThreads → key ∈ s'.claimedThreads) ∧
      (key ∈ s.1.abandonedThreads → key ∈ s'.abandonedThreads))
    (hheld : ∀ q, s.1.process = some q → ∀ d ∈ h'.held, d.key.1 = q → d ∈ s.2.held ∧ ¬gone d.key) : Recorded s' h' where
  member q hq d hd hkey := by
    obtain ⟨hbefore, hgone⟩ := hheld q (hkept.current q hq) d hd hkey
    exact (hinv.member q (hkept.current q hq) d hbefore hkey).imp (hstays d.key hgone).1 (hstays d.key hgone).2
  timedOut q hq d hd hkey hleft := by
    obtain ⟨hbefore, -⟩ := hheld q (hkept.current q hq) d hd hkey
    exact (hkept.abandoned d.id).trans (hinv.timedOut q (hkept.current q hq) d hbefore hkey (habandoned d.key hleft))
  disjoint key hmem hleft := hinv.disjoint key (hclaimed key hmem) (habandoned key hleft)

/-- What is held of a released thread of the current process came after the last look at it. -/
def Released (key : ℕ × Text) (listed : ℕ) (x : Adapter η ι × History) : Prop :=
  x.1.process = some key.1 → ∀ d ∈ x.2.held, d.key = key → d ∈ x.2.since listed

theorem Released.grows {key : ℕ × Text} {listed : ℕ} {x y : Adapter η ι × History} (h : Released key listed x) (hxy : Grows x y)
    (hborn : key.1 < x.1.spawned) (hlisted : listed < x.1.nextRequestId) (hevent : (x.1.requests listed).event = true) :
    Released key listed y := by
  intro hcurrent d hd hkey
  cases hxy.fresh d hd with
  | inl hheld => exact hxy.since listed d (h (hxy.current key.1 hborn hcurrent) d hheld hkey)
  | inr hsince => exact hsince listed hlisted hevent

theorem release_mine (me : ι) {s : Adapter η ι × History} {s' : Adapter η ι} (hkept : Kept s.1 s') (key : ℕ × Text) (later : List Delivery) :
    Mine me s (s', s.2.release key later) :=
  hkept.mine me (fun _ _ hd => hd) fun _ hd => .inl (List.mem_of_mem_filter hd)

/-- The acts that leave the records as they are. -/
def Plain : Act η ι → Prop
  | .register _ _ _ | .giveUp _ _ | .popen => False
  | .answer _ _ _ | .record _ _ | .take _ | .discard _ _ | .discardAbandoned _ _ _ | .purge _ => False
  | _ => True

theorem note_of_plain {x : Act η ι} (hx : Plain x) (a : Answer ω) (s : Adapter η ι) (h : History) : note x a s h = h := by
  unfold note
  split <;> first | rfl | exact hx.elim

section
variable [DecidableEq ι]

theorem kept_effect {x : Act η ι} (a : Answer ω) (s : Adapter η ι) (hregister : ∀ me p c, x ≠ .register me p c)
    (hgiveUp : ∀ id removes, x ≠ .giveUp id removes) (hpopen : x ≠ .popen) : Kept s (x.effect a s) :=
  ⟨steady_effect a s hregister, fun _ h => pending_effect a s hregister h, abandoned_effect a s hregister hgiveUp,
    (process_effect a s hpopen).1, (process_effect a s hpopen).2⟩

theorem kept_of_thread_act {x : Act η ι} (hx : IsThreadAct x) (a : Answer ω) (s : Adapter η ι) : Kept s (x.effect a s) := by
  apply kept_effect
  · exact fun _ _ _ h => by rw [h] at hx; exact hx
  · exact fun _ _ h => by rw [h] at hx; exact hx
  · exact fun h => by rw [h] at hx; exact hx

theorem quiet_effect {x : Act η ι} (a : Answer ω) (s : Adapter η ι) (hregister : ∀ me p c, x ≠ .register me p c)
    (hgiveUp : ∀ id removes, x ≠ .giveUp id removes) (hpopen : x ≠ .popen) (hthread : ¬IsThreadAct x) : Quiet s (x.effect a s) :=
  ⟨kept_effect a s hregister hgiveUp hpopen, (threads_effect a s hthread).1, (threads_effect a s hthread).2⟩

theorem quiet_of_plain {x : Act η ι} (hx : Plain x) (a : Answer ω) (s : Adapter η ι) : Quiet s (x.effect a s) := by
  apply quiet_effect
  · exact fun _ _ _ h => by rw [h] at hx; exact hx
  · exact fun _ _ h => by rw [h] at hx; exact hx
  · exact fun h => by rw [h] at hx; exact hx
  · intro hthread
    cases x with
    | record | purge | discard | discardAbandoned => exact hx
    | _ => exact hthread

end

/-- The caller has its request for that process, and has not abandoned it. -/
structure Waits (me : ι) (id : ℕ) (x : Adapter η ι × History) : Prop where
  born : id < x.1.nextRequestId
  caller : (x.1.requests id).caller = some me
  waited : (x.1.requests id).abandoned = false

theorem Waits.others {me : ι} {id : ℕ} {x y : Adapter η ι × History} (h : Waits me id x) (hxy : Others me x y) : Waits me id y :=
  ⟨Nat.lt_of_lt_of_le h.born hxy.grows.next, (hxy.grows.caller id h.born).trans h.caller,
    (hxy.own id h.born h.caller).trans h.waited⟩

abbrev Works (me : ι) (x : Step η ι ω α) (s : Adapter η ι × History) (Q : Except AdapterError α → Adapter η ι × History → Prop) :
    Prop := Observes note Orderly Inv (Others me) (Mine me) x s Q

theorem along_works {me : ι} {s : Adapter η ι × History} {x : Step η ι ω α} {Q : Except AdapterError α → Adapter η ι × History → Prop} (h : Works me x s Q) :
    Works me x s fun r s' => Grows s s' ∧ Q r s' :=
  h.along Grows Grows.refl Grows.trans (fun _ _ hothers => hothers.grows) fun _ _ hmine => hmine.grows

/-- The event of the request is set. -/
def Answered (id : ℕ) (x : Adapter η ι × History) : Prop := id < x.1.nextRequestId ∧ (x.1.requests id).event = true

theorem Answered.grows {id : ℕ} {x y : Adapter η ι × History} (h : Answered id x) (hxy : Grows x y) : Answered id y :=
  ⟨Nat.lt_of_lt_of_le h.1 hxy.next, hxy.event id h.1 h.2⟩

/-- The process is not the current one any more. -/
def Gone (p : ℕ) (x : Adapter η ι × History) : Prop := p < x.1.spawned ∧ x.1.process ≠ some p

theorem Gone.grows {p : ℕ} {x y : Adapter η ι × History} (h : Gone p x) (hxy : Grows x y) : Gone p y :=
  ⟨Nat.lt_of_lt_of_le h.1 hxy.spawned, fun hcurrent => h.2 (hxy.current p h.1 hcurrent)⟩

/-- What a release leaves: its last list has been answered, and nothing older is held of the thread. -/
def Freed (t : Text) (r : Except AdapterError (Option ℕ)) (x : Adapter η ι × History) : Prop :=
  ∀ listed, r = .ok (some listed) → Answered listed x ∧ ∀ p, Released (p, t) listed x

/-- What the release of a thread of an expected process leaves. -/
def FreedOf (t : Text) (expected : Option ℕ) (r : Except AdapterError (Option ℕ)) (x : Adapter η ι × History) : Prop :=
  ∀ p, expected = some p → ∀ listed, r = .ok (some listed) → p < x.1.spawned ∧ Answered listed x ∧ Released (p, t) listed x

theorem FreedOf.grows {t : Text} {expected : Option ℕ} {r : Except AdapterError (Option ℕ)} {x y : Adapter η ι × History}
    (h : FreedOf t expected r x) (hxy : Grows x y) : FreedOf t expected r y := by
  intro p hp listed hr
  obtain ⟨hborn, hset, hreleased⟩ := h p hp listed hr
  exact ⟨Nat.lt_of_lt_of_le hborn hxy.spawned, hset.grows hxy, hreleased.grows hxy hborn hset.1 hset.2⟩

section
variable [DecidableEq ι] {me : ι} {s : Adapter η ι × History}

/-- What an act comes to, together with its history. -/
abbrev after (x : Act η ι) (a : Answer ω) (s : Adapter η ι × History) : Adapter η ι × History := (x.effect a s.1, note x a s.1 s.2)

variable (me) in
theorem plain_step {x : Act η ι} (hx : Plain x) (a : Answer ω) (hinv : Inv s) : Inv (after x a s) ∧ Mine me s (after x a s) := by
  rw [after, note_of_plain hx]
  exact ⟨(quiet_of_plain hx a s.1).inv hinv, (quiet_of_plain hx a s.1).mine me rfl rfl⟩

variable (me) in
theorem answer_step {id p : ℕ} {m : Response} {a : Answer ω} (hinv : Inv s) (hmet : Orderly (.answer id p m) s a)
    (hborn : id < s.1.nextRequestId) (hmatches : Resolution.Matches ⟨id, p, m⟩ s.1) :
    Inv (after (.answer id p m) a s) ∧ Mine me s (after (.answer id p m) a s) := by
  have hquiet : Quiet s.1 ((Act.answer id p m : Act η ι).effect a s.1) := quiet_effect a s.1 nofun nofun nofun fun h => h
  have hkept := hquiet.inv hinv
  refine ⟨⟨hkept.pending, hkept.current, hkept.born, hkept.member, hkept.timedOut, hkept.disjoint, hkept.received, fun r hr => ?_, ?_⟩,
    hquiet.mine me rfl rfl⟩
  · cases List.mem_cons.mp hr with
    | inl heq =>
      subst heq
      exact ⟨hquiet.next ▸ hborn, hmatches.steady hquiet.toSteady⟩
    | inr hold => exact hkept.resolved r hold
  · refine List.nodup_cons.mpr ⟨fun hmem => ?_, hinv.once⟩
    obtain ⟨r, hr, heq⟩ := List.mem_map.mp hmem
    exact hmet.1 id rfl r hr heq

variable (me) in
theorem register_step (hinv : Inv s) (hfull : s.1.full = false) {p : ℕ} (hp : p < s.1.spawned) (c : RequestCall η) (a : Answer ω) :
    Inv (after (.register me p c) a s) ∧ Mine me s (after (.register me p c) a s) ∧
      Waits me s.1.nextRequestId (after (.register me p c) a s) := by
  simp only [after, Act.effect, note, hfull, Bool.false_eq_true, ↓reduceIte]
  have hold : ∀ {id}, id < s.1.nextRequestId →
      Function.update s.1.requests s.1.nextRequestId (newRequest (some me) p c) id = s.1.requests id := fun hid =>
    Function.update_of_ne (Nat.ne_of_lt hid) _ _
  refine ⟨⟨fun id hid => ?_, hinv.current, fun d hd => ?_, hinv.member, fun q hq d hd hkey habandoned => ?_, hinv.disjoint,
    fun d hd => ?_, fun r hr => ?_, hinv.once⟩, ⟨⟨Nat.le_succ _, Nat.le_refl _, ?_, ?_, ?_, fun _ _ h => h, fun _ _ h => h,
    fun _ h => .inl h⟩, ?_⟩, ?_⟩
  · cases List.mem_append.mp hid with
    | inl hbefore =>
      have hpending := hinv.pending id hbefore
      simp only [hold hpending.1]
      exact ⟨Nat.lt_succ_of_lt hpending.1, hpending.2⟩
    | inr hnew =>
      rw [List.mem_singleton.mp hnew]
      exact ⟨Nat.lt_succ_self _, by simpa [newRequest] using hp⟩
  · obtain ⟨hspawned, hborn, hevent⟩ := hinv.born d hd
    exact ⟨hspawned, Nat.lt_succ_of_lt hborn, by simpa only [hold hborn] using hevent⟩
  · simpa only [hold (hinv.born d hd).2.1] using hinv.timedOut q hq d hd hkey habandoned
  · obtain ⟨hheld, hwaited⟩ := hinv.received d hd
    exact ⟨hheld, by simpa only [hold (hinv.born d hheld).2.1] using hwaited⟩
  · obtain ⟨hborn, hmatches⟩ := hinv.resolved r hr
    exact ⟨Nat.lt_succ_of_lt hborn, hmatches.1, by simpa only [hold hborn] using hmatches.2⟩
  · exact fun id hid => by simp only [hold hid]
  · exact fun id hid => by simp only [hold hid]
  · exact fun id hid => by simp only [hold hid, imp_self]
  · exact fun id hid _ => by simp only [hold hid]
  · exact ⟨Nat.lt_succ_self _, by simp [newRequest], by simp [newRequest]⟩

/-- Only a request without an event is abandoned, so nobody has received what it brought. -/
theorem giveUp_step (hinv : Inv s) {id : ℕ} (removes : Bool) (a : Answer ω) (hcaller : (s.1.requests id).caller = some me) :
    Inv (after (.giveUp id removes) a s) ∧ Mine me s (after (.giveUp id removes) a s) := by
  have hsteady : Steady s.1 ((Act.giveUp id removes : Act η ι).effect a s.1) := steady_effect a s.1 nofun
  have hprocess := process_effect (x := .giveUp id removes) a s.1 nofun
  have hthreads := threads_effect (x := .giveUp id removes) a s.1 fun h => h
  have hothers : ∀ j, j ≠ id → (((Act.giveUp id removes : Act η ι).effect a s.1).requests j).abandoned = (s.1.requests j).abandoned := by
    intro j hj
    simp only [Act.effect, Adapter.giveUp]
    split
    · rfl
    · split
      · split
        · exact congrArg PendingRequest.abandoned (requests_update_of_ne s.1 hj _)
        · rfl
      · rfl
  have hset : (s.1.requests id).event = true → (Act.giveUp id removes : Act η ι).effect a s.1 = s.1 := by
    intro hevent
    simp only [Act.effect, Adapter.giveUp, hevent, ↓reduceIte]
  have hgrow : ∀ j, (s.1.requests j).abandoned = true →
      (((Act.giveUp id removes : Act η ι).effect a s.1).requests j).abandoned = true := by
    intro j hj
    by_cases heq : j = id
    · subst heq
      simp only [Act.effect, Adapter.giveUp]
      split
      · exact hj
      · split
        · split
          · simp
          · exact hj
        · exact hj
    · exact (hothers j heq).trans hj
  refine ⟨⟨fun j hj => ?_, fun p hp => ?_, fun d hd => ?_, fun p hp d hd hkey => ?_, fun p hp d hd hkey habandoned => ?_,
    fun key hclaimed => ?_, fun d hd => ?_, fun r hr => ?_, hinv.once⟩, ⟨⟨hsteady.next.ge, hprocess.1.ge, fun j _ => hsteady.process j,
    fun j _ => hsteady.caller j, fun j _ => hsteady.event j, fun p _ => hprocess.2 p, fun _ _ h => h, fun _ h => .inl h⟩, fun j _ hne => ?_⟩⟩
  · have hbefore := hinv.pending j (pending_effect (x := .giveUp id removes) a s.1 nofun hj)
    rw [hsteady.next, hsteady.process, hprocess.1]
    exact hbefore
  · exact hprocess.1 ▸ hinv.current p (hprocess.2 p hp)
  · obtain ⟨hspawned, hborn, hevent⟩ := hinv.born d hd
    exact ⟨hprocess.1 ▸ hspawned, hsteady.next ▸ hborn, hsteady.event d.id hevent⟩
  · rw [hthreads.1, hthreads.2]
    exact hinv.member p (hprocess.2 p hp) d hd hkey
  · exact hgrow d.id (hinv.timedOut p (hprocess.2 p hp) d hd hkey (hthreads.2 ▸ habandoned))
  · rw [hthreads.2]
    exact hinv.disjoint key (hthreads.1 ▸ hclaimed)
  · obtain ⟨hheld, hwaited⟩ := hinv.received d hd
    refine ⟨hheld, ?_⟩
    by_cases heq : d.id = id
    · exact (congrArg (fun t => (t.requests d.id).abandoned) (hset (heq ▸ (hinv.born d hheld).2.2))).trans hwaited
    · exact (hothers d.id heq).trans hwaited
  · exact ⟨hsteady.next ▸ (hinv.resolved r hr).1, (hinv.resolved r hr).2.steady hsteady⟩
  · exact hothers j fun heq => hne (heq ▸ hcaller)

variable (me) in
theorem popen_step (hinv : Inv s) (a : Answer ω) : Inv (after .popen a s) ∧ Mine me s (after .popen a s) := by
  simp only [after, Act.effect, note]
  split
  · have hfresh : ∀ p, some s.1.spawned = some p → ∀ d ∈ s.2.held, d.key.1 ≠ p := by
      intro p hp d hd heq
      have hlt := (hinv.born d hd).1
      rw [heq, ← Option.some.inj hp] at hlt
      exact Nat.lt_irrefl _ hlt
    refine ⟨⟨fun id hid => ?_, fun p hp => ?_, fun d hd => ?_, fun p hp d hd hkey => absurd hkey (hfresh p hp d hd),
      fun p hp d hd hkey => absurd hkey (hfresh p hp d hd), hinv.disjoint, hinv.received, hinv.resolved, hinv.once⟩,
      ⟨⟨Nat.le_refl _, Nat.le_succ _, fun _ _ => rfl, fun _ _ => rfl, fun _ _ h => h, fun p hp hcurrent => ?_, fun _ _ h => h,
      fun _ h => .inl h⟩, fun _ _ _ => rfl⟩⟩
    · exact ⟨(hinv.pending id hid).1, Nat.lt_succ_of_lt (hinv.pending id hid).2⟩
    · exact Option.some.inj hp ▸ Nat.lt_succ_self _
    · obtain ⟨hspawned, hrest⟩ := hinv.born d hd
      exact ⟨Nat.lt_succ_of_lt hspawned, hrest⟩
    · exact absurd (Option.some.inj hcurrent ▸ hp) (Nat.lt_irrefl _)
  · exact ⟨hinv, ⟨.refl s, fun _ _ _ => rfl⟩⟩

variable (me) in
theorem record_step (hinv : Inv s) {id p : ℕ} (a : Answer ω) (hborn : id < s.1.nextRequestId) (hp : p < s.1.spawned)
    (hevent : (s.1.requests id).event = true) :
    Inv (after (.record id p) a s) ∧ Mine me s (after (.record id p) a s) := by
  have hkept : Kept s.1 ((Act.record id p : Act η ι).effect a s.1) := kept_of_thread_act (x := .record id p) trivial a s.1
  obtain ⟨hclaimed, habandoned⟩ := threads_record a s.1 id p
  cases hbrought : (s.1.requests id).broughtThread with
  | none =>
    have hthreads : s.1.recordBrought id p = s.1 := by simp only [Adapter.recordBrought, hbrought]
    rw [hthreads] at hclaimed habandoned
    have hquiet : Quiet s.1 ((Act.record id p : Act η ι).effect a s.1) := ⟨hkept, hclaimed, habandoned⟩
    simp only [after, note, hbrought]
    exact ⟨hkept.inv hinv (fun _ hd => .inl hd) ⟨(hquiet.recorded hinv).member, (hquiet.recorded hinv).timedOut, (hquiet.recorded hinv).disjoint⟩
      hinv.received rfl, hquiet.mine me rfl rfl⟩
  | some t =>
    have hthreads : s.1.recordBrought id p = s.1.recordThread p t (s.1.requests id).abandoned := by
      simp only [Adapter.recordBrought, hbrought]
    rw [hthreads] at hclaimed habandoned
    simp only [after, note, hbrought, History.record]
    refine ⟨hkept.inv hinv (fun d hd => ?_) (recorded_record hinv id p t hkept hclaimed habandoned)
      (fun d hd => ?_) rfl, hkept.mine me (fun j d hd => ?_) fun d hd => ?_⟩
    · cases List.mem_cons.mp hd with
      | inl heq => exact heq ▸ .inr ⟨hp, hborn, hevent⟩
      | inr hold => exact .inl hold
    · exact ⟨List.mem_cons_of_mem _ (hinv.received d hd).1, (hinv.received d hd).2⟩
    · show d ∈ if (s.1.requests j).event = true then _ else _
      split
      · exact List.mem_cons_of_mem _ hd
      · exact hd
    · cases List.mem_cons.mp hd with
      | inl heq =>
        refine .inr fun j _ hset => ?_
        simp only [hset, ↓reduceIte, heq, List.mem_cons_self]
      | inr hold => exact .inl hold

theorem take_step (hinv : Inv s) {id : ℕ} {a : Answer ω} (hmet : Orderly (.take id) s a) (hwaits : Waits me id s) :
    Inv (after (.take id) a s) ∧ Mine me s (after (.take id) a s) := by
  have hquiet : Quiet s.1 s.1 := quiet_of_plain (x := .look) trivial a s.1
  have hsame : Inv (s.1, s.2) ∧ Mine me s (s.1, s.2) := ⟨hinv, hquiet.mine me rfl rfl⟩
  simp only [after, Act.effect, note]
  cases hreceived : receivedThread (s.1.requests id) with
  | none => exact hsame
  | some t =>
    have hrecorded : id ∈ s.2.recorded := hmet.2.1 id rfl (hreceived ▸ rfl)
    simp only [Option.elim, History.receive, if_pos hrecorded]
    split
    · next hheld =>
      refine ⟨hquiet.toKept.inv hinv (fun _ hd => .inl hd) ⟨hinv.member, hinv.timedOut, hinv.disjoint⟩ (fun d hd => ?_) rfl,
        hquiet.mine me rfl rfl⟩
      cases List.mem_cons.mp hd with
      | inl heq =>
        subst heq
        exact ⟨hheld, hwaits.waited⟩
      | inr hold => exact hinv.received d hold
    · exact hsame

variable (me) in
theorem discard_step (hinv : Inv s) {t : Text} {listed : ℕ} {a : Answer ω} (hmet : Orderly (.discard t listed) s a) :
    Inv (after (.discard t listed) a s) ∧ Mine me s (after (.discard t listed) a s) ∧
      ∀ p, Released (p, t) listed (after (.discard t listed) a s) := by
  have hkept : Kept s.1 ((Act.discard t listed : Act η ι).effect a s.1) := kept_of_thread_act (x := .discard t listed) trivial a s.1
  cases hprocess : s.1.process with
  | none =>
    simp only [after, note, Act.effect, hprocess, Option.elim] at hkept ⊢
    exact ⟨hinv, (quiet_of_plain (x := .look) trivial a s.1).mine me rfl rfl, fun p hp => absurd (hp.symm.trans hprocess) (Option.some_ne_none p)⟩
  | some q =>
    have hlater : ∀ d ∈ s.2.held, d.key = (q, t) → d ∉ s.2.since listed := fun d hd hkey =>
      hmet.2.2 ⟨(q, t), listed⟩ (by simp [forgets, hprocess]) d hd hkey
    have hgone : ∀ d ∈ (s.2.release (q, t) (s.2.since listed)).held, d ∈ s.2.held ∧ d.key ≠ (q, t) := by
      intro d hd
      obtain ⟨hheld, hkept⟩ := List.mem_filter.mp hd
      exact ⟨hheld, fun hkey => (of_decide_eq_true hkept).elim (fun hne => hne hkey) (hlater d hheld hkey)⟩
    simp only [after, note, Act.effect, hprocess, Option.elim] at hkept ⊢
    refine ⟨hkept.inv hinv (fun d hd => .inl (hgone d hd).1) ?_ (fun d hd => ?_) rfl, release_mine me hkept _ _, fun p hp d hd hkey => ?_⟩
    · refine recorded_forget hinv hkept (fun key => key = (q, t)) ?_ ?_ ?_ fun _ _ d hd _ => hgone d hd
      · exact fun key hkey => List.mem_of_mem_filter hkey
      · exact fun key hkey => List.mem_of_mem_filter hkey
      · exact fun key hne => ⟨fun h => List.mem_filter.mpr ⟨h, decide_eq_true hne⟩, fun h => List.mem_filter.mpr ⟨h, decide_eq_true hne⟩⟩
    · obtain ⟨hmem, hstays⟩ := List.mem_filter.mp hd
      exact ⟨List.mem_filter.mpr ⟨(hinv.received d hmem).1, hstays⟩, (hinv.received d hmem).2⟩
    · have hq : q = p := Option.some.inj (hprocess.symm.trans hp)
      exact absurd (hq ▸ hkey) (hgone d hd).2

variable (me) in
/-- A thread of a process that is gone is released. One that was released before is not held any more. -/
theorem discardAbandoned_step (hinv : Inv s) {p : ℕ} {t : Text} {listed : Option ℕ} {a : Answer ω}
    (hmet : Orderly (.discardAbandoned p t listed) s a) (hreleased : ∀ id, listed = some id → Released (p, t) id s) :
    Inv (after (.discardAbandoned p t listed) a s) ∧ Mine me s (after (.discardAbandoned p t listed) a s) := by
  have hkept : Kept s.1 ((Act.discardAbandoned p t listed : Act η ι).effect a s.1) :=
    kept_of_thread_act (x := .discardAbandoned p t listed) trivial a s.1
  have hrecorded : ∀ h' : History, (∀ q, s.1.process = some q → ∀ d ∈ h'.held, d.key.1 = q → d ∈ s.2.held ∧ d.key ≠ (p, t)) →
      Recorded ((Act.discardAbandoned p t listed : Act η ι).effect a s.1) h' := fun h' hheld =>
    recorded_forget hinv hkept (fun key => key = (p, t)) (fun _ hkey => hkey) (fun _ hkey => List.mem_of_mem_filter hkey)
      (fun key hne => ⟨fun h => h, fun h => List.mem_filter.mpr ⟨h, decide_eq_true hne⟩⟩) hheld
  cases listed with
  | none =>
    have hgone : ∀ d ∈ (s.2.release (p, t) []).held, d ∈ s.2.held ∧ d.key ≠ (p, t) := by
      intro d hd
      obtain ⟨hheld, hstays⟩ := List.mem_filter.mp hd
      exact ⟨hheld, (of_decide_eq_true hstays).resolve_right nofun⟩
    refine ⟨hkept.inv hinv (fun d hd => .inl (hgone d hd).1) (hrecorded _ fun _ _ d hd _ => hgone d hd) (fun d hd => ?_) rfl,
      release_mine me hkept _ _⟩
    obtain ⟨hmem, hstays⟩ := List.mem_filter.mp hd
    exact ⟨List.mem_filter.mpr ⟨(hinv.received d hmem).1, hstays⟩, (hinv.received d hmem).2⟩
  | some id =>
    have hgone : ∀ q, s.1.process = some q → ∀ d ∈ s.2.held, d.key.1 = q → d ∈ s.2.held ∧ d.key ≠ (p, t) := by
      intro q hq d hd hkey
      refine ⟨hd, fun hsame => hmet.2.2 ⟨(p, t), id⟩ rfl d hd hsame (hreleased id rfl ?_ d hd hsame)⟩
      rw [hsame] at hkey
      exact hkey ▸ hq
    exact ⟨hkept.inv hinv (fun d hd => .inl hd) (hrecorded _ hgone) hinv.received rfl, hkept.mine me (fun _ _ hd => hd) fun _ hd => .inl hd⟩

variable (me) in
/-- The purged process is not the current one any more. -/
theorem purge_step (hinv : Inv s) {p : ℕ} (a : Answer ω) (hgone : s.1.process ≠ some p) :
    Inv (after (.purge p) a s) ∧ Mine me s (after (.purge p) a s) := by
  have hkept : Kept s.1 ((Act.purge p : Act η ι).effect a s.1) := kept_of_thread_act (x := .purge p) trivial a s.1
  have hrecorded : Recorded ((Act.purge p : Act η ι).effect a s.1) s.2 :=
    recorded_forget hinv hkept (fun key => key.1 = p) (fun _ hkey => List.mem_of_mem_filter hkey) (fun _ hkey => List.mem_of_mem_filter hkey)
      (fun key hne => ⟨fun h => List.mem_filter.mpr ⟨h, decide_eq_true hne⟩, fun h => List.mem_filter.mpr ⟨h, decide_eq_true hne⟩⟩)
      fun q hq d hd hkey => ⟨hd, fun hsame => hgone (hsame ▸ hkey ▸ hq)⟩
  exact ⟨hkept.inv hinv (fun d hd => .inl hd) hrecorded hinv.received rfl, hkept.mine me (fun _ _ hd => hd) fun _ hd => .inl hd⟩

/-! ## Programs -/

theorem plain_works {x : Act η ι} (hx : Plain x) {f : Answer ω → Adapter η ι → α} {rest : α → Step η ι ω β}
    {Q : Except AdapterError β → Adapter η ι × History → Prop}
    (h : ∀ s' a, Others me s s' → Inv s' → Works me (rest (f a s'.1)) (x.effect a s'.1, s'.2) Q) : Works me (act x f >>= rest) s Q := by
  refine observes_act fun s' a hothers hinv _ => ?_
  have hstep := plain_step me hx a hinv
  rw [after, note_of_plain hx] at hstep
  rw [note_of_plain hx]
  exact ⟨hstep.1, hstep.2, h s' a hothers hinv⟩

theorem inherited_works : Inherited fun α (x : Step η ι ω α) => ∀ s, Works me x s fun _ _ => True :=
  inherited_observes (fun _ _ _ => rfl) fun s => ⟨.refl s, fun _ _ _ => rfl⟩

theorem ofActs_works {k : Act η ι → Prop} (hplain : ∀ x, k x → Plain x) :
    OfActs (fun α (x : Step η ι ω α) => ∀ s, Works me x s fun _ _ => True) k :=
  ofActs_observes fun x hx _ a hinv _ => plain_step me (hplain x hx) a hinv

/-! ### Callers -/

theorem Waits.plain {id : ℕ} {x : Act η ι} (h : Waits me id s) (hx : Plain x) (a : Answer ω) : Waits me id (x.effect a s.1, s.2) := by
  have hquiet := quiet_of_plain hx a s.1
  exact ⟨hquiet.next ▸ h.born, (hquiet.caller id).trans h.caller, (hquiet.abandoned id).trans h.waited⟩

theorem takeOutcome_works {id : ℕ} (hwaits : Waits me id s) : Works me (takeOutcome id : Step η ι ω Json) s fun _ _ => True := by
  refine plain_works (x := .remove id) trivial fun s₁ a h₁ _ => ?_
  have hwaits₁ := (hwaits.others h₁).plain (x := .remove id) trivial a
  refine observes_act fun s₂ a h₂ hinv₂ hmet => ?_
  have hstep := take_step hinv₂ hmet (hwaits₁.others h₂)
  exact ⟨hstep.1, hstep.2, observes_fromExcept trivial⟩

theorem answered_works {id : ℕ} (hwaits : Waits me id s) (hset : (s.1.requests id).event = true) :
    Works me (takeOutcome id : Step η ι ω Json) s fun _ s' => Answered id s' :=
  (along_works (takeOutcome_works hwaits)).mono fun _ _ hr => Answered.grows ⟨hwaits.born, hset⟩ hr.1

/-- A wait that ends with a value has seen the event. -/
theorem waitPending_works {id : ℕ} (m : Method) (removes : Bool) (hwaits : Waits me id s) :
    Works me (waitPending m id removes : Step η ι ω Json) s fun r s' => ∀ v, r = .ok v → Answered id s' := by
  refine plain_works (x := .look) trivial fun s₁ a h₁ _ => ?_
  have hwaits₁ := hwaits.others h₁
  cases hevent : (s₁.1.requests id).event with
  | true => exact (answered_works hwaits₁ hevent).mono fun _ _ hr _ _ => hr
  | false =>
    refine observes_act fun s₂ a h₂ hinv₂ _ => ?_
    have hwaits₂ := hwaits₁.others h₂
    have hstep := giveUp_step hinv₂ removes a hwaits₂.caller
    refine ⟨hstep.1, hstep.2, ?_⟩
    cases hset : (s₂.1.requests id).event with
    | true =>
      have hsame : ((Act.giveUp id removes : Act η ι).effect a s₂.1, note (.giveUp id removes) a s₂.1 s₂.2) = s₂ := by
        simp only [Act.effect, Adapter.giveUp, hset, ↓reduceIte, note]
      rw [hsame]
      exact (answered_works hwaits₂ hset).mono fun _ _ hr _ _ => hr
    | false => exact observes_throw fun _ he => absurd he error_ne_ok

theorem sendRequest_works {id : ℕ} (p : ℕ) (c : RequestCall η) (hwaits : Waits me id s) :
    Works me (sendRequest p c id : Step η ι ω ℕ) s fun r s' => ∀ id', r = .ok id' → Waits me id' s' := by
  have hwrite : Works me (sendMessage c.encodable p fun _ => .write id : Step η ι ω Unit) s fun _ s' => Waits me id s' := by
    refine observes_sendMessage (fun _ _ _ => rfl) (fun s => ⟨.refl s, fun _ _ _ => rfl⟩) (fun _ h _ _ => hwaits.others h)
      (fun _ h _ _ => hwaits.others h) fun s₁ h₁ _ _ => plain_works (x := .write id) trivial fun s₂ a h₂ _ => ?_
    exact observes_fromExcept (((hwaits.others h₁).others h₂).plain (x := .write id) trivial a)
  refine observes_bind (observes_attempt (hwrite.mono fun r s₁ hr => ⟨fun sent hsent => ?_, fun _ he => absurd he.symm error_ne_ok⟩))
  cases Except.ok.inj hsent
  cases r with
  | ok _ => exact observes_pure fun _ hid => Except.ok.inj hid ▸ hr
  | error e => exact plain_works (x := .remove id) trivial fun _ _ _ _ => observes_throw fun _ he => absurd he error_ne_ok

theorem submitRequest_works (c : RequestCall η) :
    Works me (submitRequest me c : Step η ι ω ℕ) s fun r s' => ∀ id, r = .ok id → Waits me id s' := by
  refine plain_works (x := .look) trivial fun s₁ a _ hinv₁ => ?_
  cases halive : s₁.1.alive with
  | none => exact observes_throw fun _ he => absurd he error_ne_ok
  | some p =>
    have hprocess : s₁.1.process = some p := (Option.filter_eq_some_iff.mp halive).1
    refine observes_act fun s₂ a h₂ hinv₂ _ => ?_
    have hp : p < s₂.1.spawned := Nat.lt_of_lt_of_le (hinv₁.current p hprocess) h₂.grows.spawned
    cases hfull : s₂.1.full with
    | true =>
      have hsame : ((Act.register me p c).effect a s₂.1, note (.register me p c) a s₂.1 s₂.2) = s₂ := by
        simp [Act.effect, note, hfull]
      rw [hsame]
      exact ⟨hinv₂, ⟨.refl s₂, fun _ _ _ => rfl⟩, observes_throw fun _ he => absurd he error_ne_ok⟩
    | false =>
      have hstep := register_step me hinv₂ hfull hp c a
      exact ⟨hstep.1, hstep.2.1, sendRequest_works p c hstep.2.2⟩

theorem requestRaw_works (c : RequestCall η) :
    Works me (requestRaw me c : Step η ι ω Brought) s fun r s' => ∀ b, r = .ok b → Answered b.id s' := by
  refine observes_bind ((submitRequest_works c).mono fun r s₁ hr => ⟨fun id hid => ?_, fun _ _ _ he => absurd he error_ne_ok⟩)
  refine observes_bind ((waitPending_works c.method true (hr id hid)).mono fun r s₂ h₂ =>
    ⟨fun v hv => ?_, fun _ _ _ he => absurd he error_ne_ok⟩)
  exact observes_pure fun b hb => Except.ok.inj hb ▸ h₂ v hv

theorem commandExec_works (encodable : Bool) : Works me (commandExec me encodable : Step η ι ω Json) s fun _ _ => True := by
  have hremove : ∀ id : ℕ, ∀ s, Works me (tell (.remove id) : Step η ι ω Unit) s fun _ _ => True := fun id =>
    ofActs_works (k := fun x => x = .remove id) (fun x hx => hx ▸ trivial) _ rfl _ _
  refine observes_bind ((submitRequest_works _).mono fun r s₁ hr => ⟨fun id hid => ?_, fun _ _ => trivial⟩)
  refine observes_bind (observes_attempt ((waitPending_works .commandExec false (hr id hid)).mono fun waited s₂ _ =>
    ⟨fun _ _ => ?_, fun _ _ => trivial⟩))
  split
  · exact inherited_works.bind (inherited_works.attempt fun s => (requestRaw_works _).mono fun _ _ _ => trivial)
      (fun _ => inherited_works.bind (hremove id) fun _ => inherited_works.bind (hremove id) fun _ => inherited_works.throw _) s₂
  · exact inherited_works.bind (hremove id) (fun _ => inherited_works.fromExcept _) s₂

/-! ### Closing and resolving -/

theorem failPending_works (e : AdapterError) (process : Option ℕ) (closes : Bool) :
    Works me (failPending e process closes : Step η ι ω Unit) s fun _ _ => True :=
  inherited_works.bind (ofActs_works (k := fun x => x = .list process closes) (fun _ hx => hx ▸ trivial) _ rfl _ _)
    (fun _ => inherited_works.failAll fun id => ofActs_works (k := fun x => x = .fail id e) (fun _ hx => hx ▸ trivial) _ rfl _ _) s

theorem closeProcessLocked_works : Works me (closeProcessLocked : Step η ι ω Unit) s fun _ _ => True := by
  refine plain_works (x := .retire) trivial fun s₁ a₁ _ hinv₁ => ?_
  have hretired := (plain_step me (x := .retire) trivial a₁ hinv₁).2.grows
  have hborn : ∀ p, s₁.1.process = some p → p < ((Act.retire : Act η ι).effect a₁ s₁.1).spawned := fun p hp =>
    Nat.lt_of_lt_of_le (hinv₁.current p hp) hretired.spawned
  refine observes_bind ((along_works (failPending_works .unavailable s₁.1.process true)).mono fun _ s₂ h₂ => ⟨fun _ _ => ?_, fun _ _ => trivial⟩)
  cases hprocess : s₁.1.process with
  | none => exact observes_pure trivial
  | some p =>
    have hborn₂ := Nat.lt_of_lt_of_le (hborn p hprocess) h₂.1.spawned
    refine plain_works (x := .clear) trivial fun s₃ a₃ h₃ _ => ?_
    have hgone : Gone p ((Act.clear : Act η ι).effect a₃ s₃.1, s₃.2) := ⟨Nat.lt_of_lt_of_le hborn₂ h₃.grows.spawned, nofun⟩
    refine observes_act fun s₄ a₄ h₄ hinv₄ _ => ?_
    have hstep := purge_step me hinv₄ a₄ (hgone.grows h₄.grows).2
    exact ⟨hstep.1, hstep.2, ofActs_works (k := fun x => x = .closeInput p) (fun x hx => hx ▸ trivial) _ rfl _ _ _⟩

theorem resolveResponse_works (p : ℕ) (m : Response) : Works me (resolveResponse p m : Step η ι ω Unit) s fun _ _ => True := by
  refine plain_works (x := .look) trivial fun s₁ a₁ _ hinv₁ => ?_
  cases hfound : s₁.1.requestFor p m with
  | none => exact observes_pure trivial
  | some id =>
    obtain ⟨hkey, hpending⟩ := Option.filter_eq_some_iff.mp hfound
    obtain ⟨hmem, hprocess⟩ := of_decide_eq_true hpending
    obtain ⟨hborn, hspawned⟩ := hinv₁.pending id hmem
    have hlook := (plain_step me (x := .look) trivial a₁ hinv₁).2.grows
    refine observes_act fun s₂ a₂ h₂ hinv₂ hmet => ?_
    have hprocess₂ : (s₂.1.requests id).process = p := (h₂.grows.process id hborn).trans hprocess
    have hborn₂ := Nat.lt_of_lt_of_le hborn h₂.grows.next
    have hanswer := answer_step me hinv₂ hmet hborn₂ ⟨hkey, hprocess₂⟩
    refine ⟨hanswer.1, hanswer.2, plain_works (x := .setEvent id) trivial fun s₃ a₃ h₃ hinv₃ => ?_⟩
    have hset : Answered id ((Act.setEvent id : Act η ι).effect a₃ s₃.1, s₃.2) :=
      ⟨Nat.lt_of_lt_of_le (Nat.lt_of_lt_of_le hborn₂ hanswer.2.grows.next) h₃.grows.next, by simp [Act.effect]⟩
    have hp₃ : p < s₃.1.spawned := Nat.lt_of_lt_of_le (Nat.lt_of_lt_of_le
      (Nat.lt_of_lt_of_le (hprocess ▸ hspawned) h₂.grows.spawned) hanswer.2.grows.spawned) h₃.grows.spawned
    refine observes_perform fun s₄ a₄ h₄ hinv₄ _ => ?_
    have hset₄ := hset.grows h₄.grows
    have hstep := record_step me hinv₄ a₄ hset₄.1 (Nat.lt_of_lt_of_le hp₃ h₄.grows.spawned) hset₄.2
    exact ⟨hstep.1, hstep.2, trivial⟩

/-! ### Releasing -/

theorem loadedThreadIds_works (pages : ℕ) (seen ids : List Text) :
    Works me (loadedThreadIds me pages seen ids : Step η ι ω Loaded) s fun r s' => ∀ l, r = .ok l → Answered l.listed s' := by
  induction pages generalizing s seen ids with
  | zero => exact observes_throw fun _ he => absurd he error_ne_ok
  | succ pages ih =>
    refine plain_works (x := .look) trivial fun s₁ a₁ _ _ => ?_
    split
    · exact observes_throw fun _ he => absurd he error_ne_ok
    · refine observes_bind ((requestRaw_works _).mono fun r s₂ hr => ⟨fun b hb => ?_, fun _ _ _ he => absurd he error_ne_ok⟩)
      refine observes_bind (observes_fromExcept ⟨fun page _ => ?_, fun _ _ _ he => absurd he error_ne_ok⟩)
      obtain ⟨more, cursor⟩ := page
      cases cursor with
      | none => exact observes_pure fun l hl => Except.ok.inj hl ▸ hr b hb
      | some cursor => exact ih _ _

theorem waitUnloaded_works (t : Text) (rounds : ℕ) :
    Works me (waitUnloaded me t rounds : Step η ι ω ℕ) s fun r s' => ∀ listed, r = .ok listed → Answered listed s' := by
  induction rounds generalizing s with
  | zero => exact observes_throw fun _ he => absurd he error_ne_ok
  | succ rounds ih =>
    refine observes_bind ((loadedThreadIds_works _ _ _).mono fun r s₁ hr => ⟨fun l hl => ?_, fun _ _ _ he => absurd he error_ne_ok⟩)
    split
    · exact ih
    · exact observes_pure fun listed hlisted => Except.ok.inj hlisted ▸ hr l hl

theorem releaseLoaded_works (t : Text) :
    Works me (releaseLoaded me t : Step η ι ω (Option ℕ)) s (Freed t) := by
  have herror : ∀ {e : AdapterError} {x : Adapter η ι × History}, Freed t (.error e) x := fun _ he => absurd he error_ne_ok
  refine plain_works (x := .look) trivial fun s₂ _ _ _ => ?_
  split
  · exact observes_throw herror
  · refine observes_bind ((requestRaw_works _).mono fun r s₃ _ => ⟨fun b _ => ?_, fun _ _ => herror⟩)
    refine observes_bind (observes_fromExcept ⟨fun _ _ => ?_, fun _ _ => herror⟩)
    refine plain_works (x := .look) trivial fun s₄ _ _ _ => ?_
    refine observes_bind ((waitUnloaded_works t _).mono fun r s₅ hr => ⟨fun listed hlisted => ?_, fun _ _ => herror⟩)
    refine observes_act fun s₆ a h₆ hinv₆ hmet => ?_
    have hstep := discard_step me hinv₆ hmet
    refine ⟨hstep.1, hstep.2.1, observes_pure fun id hid => ?_⟩
    cases Option.some.inj (Except.ok.inj hid)
    exact ⟨((hr listed hlisted).grows h₆.grows).grows hstep.2.1.grows, hstep.2.2⟩

theorem releaseLocked_works (t : Text) (expected : Option ℕ) :
    Works me (releaseLocked me t expected : Step η ι ω (Option ℕ)) s (FreedOf t expected) := by
  refine plain_works (x := .look) trivial fun s₁ a _ hinv₁ => ?_
  split
  · next hloaded =>
    refine (along_works (releaseLoaded_works t)).mono fun r s₂ hr p hp listed hlisted => ?_
    have hprocess : s₁.1.process = some p := by
      have hall := (Bool.and_eq_true _ _ ▸ hloaded).2
      rw [hp] at hall
      exact of_decide_eq_true hall
    obtain ⟨hset, hreleased⟩ := hr.2 listed hlisted
    exact ⟨Nat.lt_of_lt_of_le (hinv₁.current p hprocess) hr.1.spawned, hset, hreleased p⟩
  · exact observes_pure fun _ _ _ hid => absurd (Except.ok.inj hid) nofun

theorem lifecycle_works : OfActs (fun α (x : Step η ι ω α) => ∀ s, Works me x s fun _ _ => True) IsLifecycleAct :=
  ofActs_works fun x hx => by cases x <;> trivial

theorem releaseThread_works (n : ℕ) (t : Text) (expected : Option ℕ) :
    Works me (releaseThread me n t expected : Step η ι ω (Option ℕ)) s (FreedOf t expected) := by
  have herror : ∀ {e : AdapterError} {x : Adapter η ι × History}, FreedOf t expected (.error e) x :=
    fun _ _ _ he => absurd he error_ne_ok
  refine observes_bind ((inherited_works.takeLifecycle lifecycle_works s).mono fun r s₁ _ => ⟨fun _ _ => ?_, fun _ _ => herror⟩)
  refine observes_bind (observes_attempt ((releaseLocked_works t expected).mono fun r s₂ h₂ =>
    ⟨fun r' hr' => ?_, fun _ _ => herror⟩))
  cases Except.ok.inj hr'
  refine plain_works (x := .freeLifecycle) trivial fun s₃ a h₃ hinv₃ => observes_fromExcept ?_
  exact (h₂.grows h₃.grows).grows (plain_step me (x := .freeLifecycle) trivial a hinv₃).2.grows

theorem cleanupAbandonedThreads_works (n : ℕ) :
    Works me (cleanupAbandonedThreads me n : Step η ι ω Unit) s fun _ _ => True := by
  refine plain_works (x := .look) trivial fun s₁ a _ _ => ?_
  have hall : ∀ (keys : List (ℕ × Text)) (s : Adapter η ι × History),
      Works me (cleanupThreads me n keys : Step η ι ω Unit) s fun _ _ => True := by
    intro keys
    induction keys with
    | nil => exact fun _ => observes_pure trivial
    | cons key keys ih =>
      intro s
      refine observes_bind ((releaseThread_works n key.2 (some key.1)).mono fun r s₂ h₂ => ⟨fun listed hlisted => ?_, fun _ _ => trivial⟩)
      refine observes_act fun s₃ a h₃ hinv₃ hmet => ?_
      have hfreed := h₂.grows h₃.grows
      have hstep := discardAbandoned_step me hinv₃ hmet fun id hid => (hfreed key.1 rfl id (hid ▸ hlisted)).2.2
      exact ⟨hstep.1, hstep.2, ih _⟩
  exact hall _ _

/-! ## Runs -/

theorem parts_works : Parts (fun α (x : Step η ι ω α) => ∀ s, Works me x s fun _ _ => True) me where
  inherited := inherited_works
  lifecycle := lifecycle_works
  request c _ := (requestRaw_works c).mono fun _ _ _ => trivial
  command encodable _ := commandExec_works encodable
  close _ := closeProcessLocked_works
  fail e process _ := failPending_works e process false
  popen _ _ := observes_perform fun _ a _ hinv _ => ⟨(popen_step me hinv a).1, (popen_step me hinv a).2, trivial⟩
  ready := ofActs_works (k := fun x => x = .ready) (fun _ hx => hx ▸ trivial) _ rfl _ _
  release n t expected _ := (releaseThread_works n t expected).mono fun _ _ _ => trivial
  cleanup n _ := cleanupAbandonedThreads_works n
  resolve p m _ := resolveResponse_works p m
  exit p := ofActs_works (k := fun x => x = .exit p) (fun _ hx => hx ▸ trivial) _ rfl _ _

theorem program_works (respond : η → Interaction → ω → Except Unit Json) (party : Party η) (s : Adapter η ι × History) :
    Works me (party.program respond me : Step η ι ω Unit) s fun _ _ => True :=
  parts_works.program (fun _ _ _ _ => inherited_works.handleServerRequest lifecycle_works
    (ofActs_works fun x hx => by cases x <;> trivial)) s

end

/-! ## A resumed thread -/

def sampleThread : Text := txt "t1"

def bringing (t : Text) : Json := .obj [(txt "thread", .obj [(txt "id", .str t)])]

/-- A call resumes a thread, and a release frees it. There are the responses to their requests, in either order,
and another response to the resumption. -/
def sampleParties : ℕ → Party Unit
  | 0 => .call 1 ⟨.threadResume, some sampleThread, none, none, true⟩
  | 9 => .release 1 sampleThread
  | 10 => sampleResponse 9 (.obj [(txt "status", .str (txt "unsubscribed"))])
  | 11 => sampleResponse 10 (.obj [(txt "data", .arr [])])
  | 12 => sampleResponse 11 (bringing sampleThread)
  | 13 => sampleResponse 9 (bringing sampleThread)
  | 14 => sampleResponse 9 (bringing (txt "t2"))
  | k => sampleResponse k (.obj [])

def sampleSystem : System ℕ (Act Unit ℕ) (Adapter Unit ℕ × History) (Answer Unit) (Except AdapterError Unit) :=
  (startSystem (fun _ _ _ => .error ()) sampleParties).observe note startHistory

/-- The response is recorded before the caller takes it. -/
def orderlySteps : List (ℕ × Answer Unit) := startSteps ++ sampleActs 0 4 ++ sampleActs 13 4 ++ sampleActs 0 3

/-- The caller takes its result when the event is set, and the reader has not recorded the thread yet. -/
def earlySteps : List (ℕ × Answer Unit) := startSteps ++ sampleActs 0 4 ++ sampleActs 13 3 ++ sampleActs 0 3

/-- Two responses to one request. -/
def secondSteps : List (ℕ × Answer Unit) := startSteps ++ sampleActs 0 4 ++ sampleActs 13 4 ++ sampleActs 14 4

/-- The release has seen that the thread is not loaded. Then the thread is resumed, and the release forgets it. -/
def resumedSteps : List (ℕ × Answer Unit) :=
  startSteps ++ sampleActs 9 7 ++ sampleActs 10 4 ++ sampleActs 9 9 ++ sampleActs 11 4 ++ sampleActs 9 3 ++
    sampleActs 0 4 ++ sampleActs 12 4 ++ sampleActs 0 3 ++ sampleActs 9 2

/-- A caller has received a thread of the process that still runs, and nobody owns it. -/
def Lost (x : Adapter Unit ℕ × History) : Prop :=
  x.1.alive = some 0 ∧ ∃ d ∈ x.2.received, d.key.1 = 0 ∧ d.key ∉ x.1.claimedThreads ∧ d.key ∉ x.1.abandonedThreads

instance (x : Adapter Unit ℕ × History) : Decidable (Lost x) := inferInstanceAs (Decidable (_ ∧ _))

end WebOauthMcp.ThreadOwnership
