import WebOauthMcp.AppServerParties

/-!
# Callers of a closing process

A close lists the pending requests and fails them, clears the process, and purges what is
still pending. A request that is registered after the listing and sent before the process is
cleared is lost: nobody sets its event. Where no such request is sent, every request that was
sent to a purged process has its event set, or its caller has given up before.
-/

namespace WebOauthMcp.StrandedCallers
open CodePoints JsonText FaultyPrograms RelyGuarantee AppServerAdapter AppServerCalls AppServerParties

variable {η ι ω α β : Type}

/-- What became of the requests, and of the processes. -/
structure History where
  sent : ℕ → Bool
  gaveUp : ℕ → Bool
  /-- The caller has removed the request. -/
  removed : ℕ → Bool
  /-- The request came after a close of its process had listed the pending ones. -/
  late : ℕ → Bool
  listed : ℕ → Bool
  purged : ℕ → Bool

/-- Nobody waits for a request that does not exist yet. -/
def startHistory : History := ⟨fun _ => false, fun _ => false, fun _ => true, fun _ => false, fun _ => false, fun _ => false⟩

/-- The message of a request reaches the pipe. -/
def written (id : ℕ) (a : Answer ω) (s : Adapter η ι) : Bool := a.writes && !s.closedInput (s.requests id).process

def note : Act η ι → Answer ω → Adapter η ι → History → History
  | .register _ p _, _, s, h =>
    if s.full then h
    else { h with
      sent := Function.update h.sent s.nextRequestId false
      gaveUp := Function.update h.gaveUp s.nextRequestId false
      removed := Function.update h.removed s.nextRequestId false
      late := Function.update h.late s.nextRequestId (h.listed p) }
  | .write id, a, s, h => { h with sent := Function.update h.sent id (written id a s) }
  | .giveUp id _, _, s, h => if (s.requests id).event then h else { h with gaveUp := Function.update h.gaveUp id true }
  | .remove id, _, _, h => { h with removed := Function.update h.removed id true }
  | .list (some p) true, _, _, h => { h with listed := Function.update h.listed p true }
  | .purge p, _, _, h => { h with purged := Function.update h.purged p true }
  | _, _, _, h => h

def sends : Act η ι → Option ℕ
  | .write id => some id
  | _ => none

/-- No late request is sent. -/
def InTime (x : Act η ι) (s : Adapter η ι × History) (a : Answer ω) : Prop :=
  ∀ id ∈ sends x, written id a s.1 = true → s.2.late id = false

instance (x : Act η ι) (s : Adapter η ι × History) (a : Answer ω) : Decidable (InTime x s a) :=
  inferInstanceAs (Decidable (∀ id ∈ sends x, _))

/-- The request was sent, and its caller waits for an event that is not set. -/
def Stranded (x : Adapter η ι × History) (id : ℕ) : Prop :=
  x.2.sent id = true ∧ x.2.gaveUp id = false ∧ (x.1.requests id).event = false

instance (x : Adapter η ι × History) (id : ℕ) : Decidable (Stranded x id) := inferInstanceAs (Decidable (_ ∧ _ ∧ _))

/-! ## Invariant and reliance -/

/-- A request in time that is not done with. -/
def Open (x : Adapter η ι × History) (id : ℕ) : Prop :=
  id < x.1.nextRequestId ∧ x.2.late id = false ∧ (x.1.requests id).event = false ∧ x.2.gaveUp id = false ∧ x.2.removed id = false

structure Inv (x : Adapter η ι × History) : Prop where
  listed : ∀ p, x.2.purged p = true → x.2.listed p = true
  waiting : ∀ id, Open x id → id ∈ x.1.pending ∧ x.2.purged (x.1.requests id).process = false
  abandoned : ∀ id, (x.1.requests id).abandoned = true → x.2.gaveUp id = true
  sent : ∀ id, x.2.sent id = true → id < x.1.nextRequestId ∧ x.2.late id = false ∧
    (x.2.removed id = true → (x.1.requests id).event = true ∨ x.2.gaveUp id = true)

theorem Inv.not_stranded {x : Adapter η ι × History} (h : Inv x) {id : ℕ}
    (hpurged : x.2.purged (x.1.requests id).process = true) : ¬Stranded x id := by
  intro hstranded
  obtain ⟨hsent, hgaveUp, hevent⟩ := hstranded
  obtain ⟨hborn, hlate, hremoved⟩ := h.sent id hsent
  cases hrem : x.2.removed id with
  | true =>
    cases hremoved hrem with
    | inl hset => exact Bool.false_ne_true (hevent.symm.trans hset)
    | inr hup => exact Bool.false_ne_true (hgaveUp.symm.trans hup)
  | false =>
    have hopen := h.waiting id ⟨hborn, hlate, hevent, hgaveUp, hrem⟩
    exact Bool.false_ne_true (hopen.2.symm.trans hpurged)

/-- What every act keeps. -/
structure Grows (x y : Adapter η ι × History) : Prop where
  next : x.1.nextRequestId ≤ y.1.nextRequestId
  process : ∀ id < x.1.nextRequestId, (y.1.requests id).process = (x.1.requests id).process
  caller : ∀ id < x.1.nextRequestId, (y.1.requests id).caller = (x.1.requests id).caller
  late : ∀ id < x.1.nextRequestId, y.2.late id = x.2.late id
  event : ∀ id < x.1.nextRequestId, (x.1.requests id).event = true → (y.1.requests id).event = true
  gaveUp : ∀ id < x.1.nextRequestId, x.2.gaveUp id = true → y.2.gaveUp id = true
  removed : ∀ id < x.1.nextRequestId, x.2.removed id = true → y.2.removed id = true
  listed : ∀ p, x.2.listed p = true → y.2.listed p = true
  fresh : ∀ id, x.1.nextRequestId ≤ id → id < y.1.nextRequestId →
    x.2.listed (y.1.requests id).process = true → y.2.late id = true

theorem Grows.refl (x : Adapter η ι × History) : Grows x x :=
  ⟨Nat.le_refl _, fun _ _ => rfl, fun _ _ => rfl, fun _ _ => rfl, fun _ _ h => h, fun _ _ h => h, fun _ _ h => h, fun _ h => h,
    fun _ hle hlt => absurd hlt (Nat.not_lt.mpr hle)⟩

theorem Grows.trans {x y z : Adapter η ι × History} (hxy : Grows x y) (hyz : Grows y z) : Grows x z := by
  have hborn : ∀ {id}, id < x.1.nextRequestId → id < y.1.nextRequestId := fun hid => Nat.lt_of_lt_of_le hid hxy.next
  refine ⟨Nat.le_trans hxy.next hyz.next, fun id hid => ?_, fun id hid => ?_, fun id hid => ?_, fun id hid h => ?_,
    fun id hid h => ?_, fun id hid h => ?_, fun p h => hyz.listed p (hxy.listed p h), fun id hle hlt hlisted => ?_⟩
  · exact (hyz.process id (hborn hid)).trans (hxy.process id hid)
  · exact (hyz.caller id (hborn hid)).trans (hxy.caller id hid)
  · exact (hyz.late id (hborn hid)).trans (hxy.late id hid)
  · exact hyz.event id (hborn hid) (hxy.event id hid h)
  · exact hyz.gaveUp id (hborn hid) (hxy.gaveUp id hid h)
  · exact hyz.removed id (hborn hid) (hxy.removed id hid h)
  · by_cases hid : id < y.1.nextRequestId
    · rw [hyz.process id hid] at hlisted
      exact (hyz.late id hid).trans (hxy.fresh id hle hid hlisted)
    · exact hyz.fresh id (Nat.le_of_not_lt hid) hlt (hxy.listed _ hlisted)

theorem Open.of_grows {x y : Adapter η ι × History} {id : ℕ} (hxy : Grows x y) (hborn : id < x.1.nextRequestId)
    (h : Open y id) : Open x id := by
  obtain ⟨-, hlate, hevent, hgaveUp, hremoved⟩ := h
  refine ⟨hborn, (hxy.late id hborn) ▸ hlate, ?_, ?_, ?_⟩
  · exact Bool.eq_false_iff.mpr fun h => Bool.false_ne_true (hevent.symm.trans (hxy.event id hborn h))
  · exact Bool.eq_false_iff.mpr fun h => Bool.false_ne_true (hgaveUp.symm.trans (hxy.gaveUp id hborn h))
  · exact Bool.eq_false_iff.mpr fun h => Bool.false_ne_true (hremoved.symm.trans (hxy.removed id hborn h))

/-- Nobody sends or removes the request of another caller. -/
structure Others (me : ι) (x y : Adapter η ι × History) : Prop where
  grows : Grows x y
  own : ∀ id < x.1.nextRequestId, (x.1.requests id).caller = some me →
    y.2.sent id = x.2.sent id ∧ y.2.removed id = x.2.removed id

/-- What the acts of one caller keep. -/
structure Mine (me : ι) (x y : Adapter η ι × History) : Prop where
  grows : Grows x y
  others : ∀ id < x.1.nextRequestId, (x.1.requests id).caller ≠ some me →
    y.2.sent id = x.2.sent id ∧ y.2.removed id = x.2.removed id

theorem others_relies : Relies (Others (η := η) (ι := ι)) where
  refl _ x := ⟨.refl x, fun _ _ _ => ⟨rfl, rfl⟩⟩
  trans _ _ _ _ hxy hyz := by
    refine ⟨hxy.grows.trans hyz.grows, fun id hid hcaller => ?_⟩
    have hnext := hyz.own id (Nat.lt_of_lt_of_le hid hxy.grows.next) ((hxy.grows.caller id hid).trans hcaller)
    have hown := hxy.own id hid hcaller
    exact ⟨hnext.1.trans hown.1, hnext.2.trans hown.2⟩

theorem Mine.guarantee {me : ι} {x y : Adapter η ι × History} (h : Mine me x y) : Guarantee Others me x y := by
  intro j hj
  refine ⟨h.grows, fun id hid hcaller => h.others id hid fun hme => ?_⟩
  exact hj (Option.some.inj (hcaller.symm.trans hme))

theorem inv_startAdapter : Inv (startAdapter η ι, startHistory) where
  listed := nofun
  waiting _ hopen := absurd hopen.2.2.2.2 nofun
  abandoned := nofun
  sent := nofun

/-! ## Acts -/

theorem grows_of_steady {s s' : Adapter η ι} {h h' : History} (hsteady : Steady s s') (hlate : h'.late = h.late)
    (hgaveUp : ∀ id, h.gaveUp id = true → h'.gaveUp id = true) (hremoved : ∀ id, h.removed id = true → h'.removed id = true)
    (hlisted : ∀ p, h.listed p = true → h'.listed p = true) : Grows (s, h) (s', h') :=
  ⟨hsteady.next.ge, fun id _ => hsteady.process id, fun id _ => hsteady.caller id, fun id _ => congrFun hlate id,
    fun id _ => hsteady.event id, fun id _ => hgaveUp id, fun id _ => hremoved id, hlisted,
    fun _ hle hlt => absurd (hsteady.next ▸ hlt) (Nat.not_lt.mpr hle)⟩

/-- An act that leaves requests to their callers. -/
structure Mild (s s' : Adapter η ι) : Prop extends Steady s s' where
  pending : ∀ id ∈ s.pending, (s.requests id).abandoned = false → id ∈ s'.pending
  abandoned : ∀ id, (s'.requests id).abandoned = (s.requests id).abandoned

theorem Mild.refl (s : Adapter η ι) : Mild s s := ⟨.refl s, fun _ h _ => h, fun _ => rfl⟩

theorem Mild.inv {s s' : Adapter η ι} {h : History} (hmild : Mild s s') (hinv : Inv (s, h)) : Inv (s', h) where
  listed := hinv.listed
  waiting id hopen := by
    have hevent : (s.requests id).event = false := by
      cases hset : (s.requests id).event with
      | true => exact absurd (hopen.2.2.1.symm.trans (hmild.event id hset)) Bool.false_ne_true
      | false => rfl
    have hbefore := hinv.waiting id ⟨hmild.next ▸ hopen.1, hopen.2.1, hevent, hopen.2.2.2⟩
    refine ⟨hmild.pending id hbefore.1 ?_, (congrArg h.purged (hmild.process id)).trans hbefore.2⟩
    cases habandoned : (s.requests id).abandoned with
    | true => exact absurd (hopen.2.2.2.1.symm.trans (hinv.abandoned id habandoned)) Bool.false_ne_true
    | false => rfl
  abandoned id habandoned := hinv.abandoned id ((hmild.abandoned id).symm.trans habandoned)
  sent id hsent := by
    have hbefore := hinv.sent id hsent
    exact ⟨hmild.next ▸ hbefore.1, hbefore.2.1, fun hremoved => (hbefore.2.2 hremoved).imp_left (hmild.event id)⟩

theorem Mild.mine {s s' : Adapter η ι} (hmild : Mild s s') (me : ι) (h : History) : Mine me (s, h) (s', h) where
  grows := grows_of_steady hmild.toSteady rfl (fun _ hup => hup) (fun _ hremoved => hremoved) fun _ hlisted => hlisted
  others _ _ _ := ⟨rfl, rfl⟩

/-- The acts that the history does not speak of. -/
def Plain : Act η ι → Prop
  | .register _ _ _ | .write _ | .giveUp _ _ | .remove _ | .list (some _) true | .purge _ => False
  | _ => True

theorem note_of_plain {x : Act η ι} (hx : Plain x) (a : Answer ω) (s : Adapter η ι) (h : History) : note x a s h = h := by
  unfold note
  split <;> first | rfl | exact hx.elim

theorem mild_of_plain [DecidableEq ι] {x : Act η ι} (hx : Plain x) (a : Answer ω) (s : Adapter η ι) : Mild s (x.effect a s) := by
  have hregister : ∀ me p c, x ≠ .register me p c := fun _ _ _ h => by rw [h] at hx; exact hx
  have hgiveUp : ∀ id removes, x ≠ .giveUp id removes := fun _ _ h => by rw [h] at hx; exact hx
  refine ⟨steady_effect a s hregister, fun j hj hwaits => ?_, abandoned_effect a s hregister hgiveUp⟩
  cases x with
  | register | write | remove | giveUp | purge => exact hx.elim
  | takeLifecycle me => simp only [Act.effect]; split <;> exact hj
  | record id p =>
    have hkept : j ∈ (s.recordBrought id p).pending := (pending_recordBrought s id p).symm ▸ hj
    simp only [Act.effect]
    split
    · next habandoned =>
      refine List.mem_filter.mpr ⟨hkept, decide_eq_true fun heq => ?_⟩
      subst heq
      exact Bool.false_ne_true (hwaits.symm.trans habandoned)
    · exact hkept
  | retire =>
    simp only [Act.effect]
    split
    · exact hj
    · split <;> exact hj
  | popen => simp only [Act.effect]; split <;> exact hj
  | discard t listed =>
    simp only [Act.effect]
    cases s.process <;> exact hj
  | _ => exact hj

/-! ## Programs -/

/-- The caller owns the request, which is meant for that process. -/
structure Owned (me : ι) (id p : ℕ) (x : Adapter η ι × History) : Prop where
  born : id < x.1.nextRequestId
  caller : (x.1.requests id).caller = some me
  process : (x.1.requests id).process = p

/-- The request is written but not removed yet, or neither. -/
structure Sends (me : ι) (id p : ℕ) (sent : Bool) (x : Adapter η ι × History) : Prop extends Owned me id p x where
  sent : x.2.sent id = sent
  removed : x.2.removed id = false

theorem Owned.grows {me : ι} {id p : ℕ} {x y : Adapter η ι × History} (h : Owned me id p x) (hxy : Grows x y) : Owned me id p y :=
  ⟨Nat.lt_of_lt_of_le h.born hxy.next, (hxy.caller id h.born).trans h.caller, (hxy.process id h.born).trans h.process⟩

theorem Sends.others {me : ι} {id p : ℕ} {sent : Bool} {x y : Adapter η ι × History} (h : Sends me id p sent x) (hxy : Others me x y) :
    Sends me id p sent y :=
  have hown := hxy.own id h.born h.caller
  ⟨h.toOwned.grows hxy.grows, hown.1.trans h.sent, hown.2.trans h.removed⟩

/-- The caller is done with its request: the event is set, or it gave up. -/
structure Done (me : ι) (id : ℕ) (x : Adapter η ι × History) : Prop where
  born : id < x.1.nextRequestId
  caller : (x.1.requests id).caller = some me
  ended : (x.1.requests id).event = true ∨ x.2.gaveUp id = true

theorem Done.grows {me : ι} {id : ℕ} {x y : Adapter η ι × History} (h : Done me id x) (hxy : Grows x y) : Done me id y :=
  ⟨Nat.lt_of_lt_of_le h.born hxy.next, (hxy.caller id h.born).trans h.caller, h.ended.imp (hxy.event id h.born) (hxy.gaveUp id h.born)⟩

theorem written_of_outcome {id p : ℕ} {a : Answer ω} {x : Adapter η ι × History} (howned : Owned me id p x) {e : AdapterError}
    (h : writeOutcome p a x.1 = .error e) : written id a x.1 = false := by
  rw [written, howned.process]
  rw [writeOutcome] at h
  split at h
  · next hclosed => simp [hclosed]
  · split at h
    · exact absurd h.symm error_ne_ok
    · next hwrites => simp [hwrites]

/-- The close has listed the requests of the process, and these are all that may still be open. -/
structure Covered (p : ℕ) (ids : List ℕ) (x : Adapter η ι × History) : Prop where
  listed : x.2.listed p = true
  ids : ∀ id, Open x id → (x.1.requests id).process = p → id ∈ ids

theorem Covered.grows {p : ℕ} {ids : List ℕ} {x y : Adapter η ι × History} (h : Covered p ids x) (hxy : Grows x y) :
    Covered p ids y where
  listed := hxy.listed p h.listed
  ids id hopen hprocess := by
    by_cases hborn : id < x.1.nextRequestId
    · exact h.ids id (hopen.of_grows hxy hborn) ((hxy.process id hborn).symm.trans hprocess)
    · have hlate := hxy.fresh id (Nat.le_of_not_lt hborn) hopen.1 (hprocess ▸ h.listed)
      exact absurd (hopen.2.1.symm.trans hlate) Bool.false_ne_true

section

abbrev Works (me : ι) (x : Step η ι ω α) (s : Adapter η ι × History) (Q : Except AdapterError α → Adapter η ι × History → Prop) :
    Prop := Observes note InTime Inv (Others me) (Mine me) x s Q

variable {me : ι} {s : Adapter η ι × History}

theorem done_along {id : ℕ} {x : Step η ι ω α} {Q : Except AdapterError α → Adapter η ι × History → Prop}
    (hdone : Done me id s) (h : Works me x s Q) : Works me x s fun r s' => Done me id s' ∧ Q r s' :=
  (h.along Grows Grows.refl Grows.trans (fun _ _ hothers => hothers.grows) fun _ _ hmine => hmine.grows).mono
    fun _ _ hr => ⟨hdone.grows hr.1, hr.2⟩

variable [DecidableEq ι]

theorem plain_works {x : Act η ι} (hx : Plain x) {f : Answer ω → Adapter η ι → α} {rest : α → Step η ι ω β}
    {Q : Except AdapterError β → Adapter η ι × History → Prop}
    (h : ∀ s' a, Grows s s' → Works me (rest (f a s'.1)) (x.effect a s'.1, s'.2) Q) : Works me (act x f >>= rest) s Q := by
  refine observes_act fun s' a hothers hinv _ => ?_
  rw [note_of_plain hx]
  exact ⟨(mild_of_plain hx a s'.1).inv hinv, (mild_of_plain hx a s'.1).mine me s'.2, h s' a hothers.grows⟩

variable (me) in
theorem register_step (hinv : Inv s) (hfull : s.1.full = false) (p : ℕ) (c : RequestCall η) (a : Answer ω) :
    Inv ((Act.register me p c).effect a s.1, note (.register me p c) a s.1 s.2) ∧
      Mine me s ((Act.register me p c).effect a s.1, note (.register me p c) a s.1 s.2) ∧
      Sends me s.1.nextRequestId p false ((Act.register me p c).effect a s.1, note (.register me p c) a s.1 s.2) := by
  simp only [Act.effect, note, hfull, Bool.false_eq_true, ↓reduceIte]
  have hold : ∀ id < s.1.nextRequestId, id ≠ s.1.nextRequestId := fun id hid => Nat.ne_of_lt hid
  refine ⟨⟨hinv.listed, fun id hopen => ?_, fun id habandoned => ?_, fun id hsent => ?_⟩, ⟨⟨Nat.le_succ _, ?_, ?_, ?_, ?_, ?_, ?_, ?_, ?_⟩, ?_⟩, ?_⟩
  · by_cases hid : id = s.1.nextRequestId
    · subst hid
      have hlisted : s.2.listed p = false := by simpa [Function.update_self] using hopen.2.1
      refine ⟨List.mem_append_right _ (List.mem_singleton.mpr rfl), ?_⟩
      simp only [Function.update_self, newRequest]
      exact Bool.eq_false_iff.mpr fun hpurged => Bool.false_ne_true (hlisted.symm.trans (hinv.listed p hpurged))
    · obtain ⟨hborn, hrest⟩ := hopen
      simp only [Function.update_of_ne hid] at hrest ⊢
      have hbefore := hinv.waiting id ⟨Nat.lt_of_le_of_ne (Nat.le_of_lt_succ hborn) hid, hrest⟩
      exact ⟨List.mem_append_left _ hbefore.1, hbefore.2⟩
  · by_cases hid : id = s.1.nextRequestId
    · subst hid
      simp [newRequest] at habandoned
    · simp only [Function.update_of_ne hid] at habandoned ⊢
      exact hinv.abandoned id habandoned
  · by_cases hid : id = s.1.nextRequestId
    · subst hid
      simp at hsent
    · simp only [Function.update_of_ne hid] at hsent ⊢
      exact ⟨Nat.lt_succ_of_lt (hinv.sent id hsent).1, (hinv.sent id hsent).2⟩
  · exact fun id hid => by simp only [Function.update_of_ne (hold id hid)]
  · exact fun id hid => by simp only [Function.update_of_ne (hold id hid)]
  · exact fun id hid => by simp only [Function.update_of_ne (hold id hid)]
  · exact fun id hid => by simpa only [Function.update_of_ne (hold id hid)] using fun h => h
  · exact fun id hid => by simpa only [Function.update_of_ne (hold id hid)] using fun h => h
  · exact fun id hid => by simpa only [Function.update_of_ne (hold id hid)] using fun h => h
  · exact fun _ h => h
  · intro id hle hlt
    have hid : id = s.1.nextRequestId := by
      have hlt' : id < s.1.nextRequestId + 1 := hlt
      omega
    subst hid
    simp only [Function.update_self, newRequest]
    exact fun h => h
  · exact fun id hid _ => by simp only [Function.update_of_ne (hold id hid), and_self]
  · exact ⟨⟨Nat.lt_succ_self _, by simp [newRequest], by simp [newRequest]⟩, by simp, by simp⟩

theorem write_step (hinv : Inv s) {id p : ℕ} {a : Answer ω} (hsends : Sends me id p false s) (htime : InTime (.write id) s a) :
    Inv ((Act.write id : Act η ι).effect a s.1, note (.write id) a s.1 s.2) ∧
      Mine me s ((Act.write id : Act η ι).effect a s.1, note (.write id) a s.1 s.2) ∧
      Sends me id p (written id a s.1) ((Act.write id : Act η ι).effect a s.1, note (.write id) a s.1 s.2) := by
  simp only [Act.effect, note]
  refine ⟨⟨hinv.listed, hinv.waiting, hinv.abandoned, fun j hsent => ?_⟩, ⟨?_, fun j _ hother => ?_⟩, ?_⟩
  · by_cases hj : j = id
    · subst hj
      simp only [Function.update_self] at hsent
      exact ⟨hsends.born, htime j rfl hsent, fun hremoved => absurd (hsends.removed.symm.trans hremoved) Bool.false_ne_true⟩
    · simp only [Function.update_of_ne hj] at hsent
      exact hinv.sent j hsent
  · exact grows_of_steady (Steady.refl s.1) rfl (fun _ h => h) (fun _ h => h) fun _ h => h
  · have hj : j ≠ id := fun heq => hother (heq ▸ hsends.caller)
    exact ⟨Function.update_of_ne hj _ _, rfl⟩
  · exact ⟨⟨hsends.born, hsends.caller, hsends.process⟩, Function.update_self _ _ _, hsends.removed⟩

/-- A request is removed when its caller is done with it, or did not send it. -/
theorem remove_step (hinv : Inv s) {id : ℕ} (a : Answer ω) (hcaller : (s.1.requests id).caller = some me)
    (hdone : s.2.sent id = true → (s.1.requests id).event = true ∨ s.2.gaveUp id = true) :
    Inv ((Act.remove id : Act η ι).effect a s.1, note (.remove id) a s.1 s.2) ∧
      Mine me s ((Act.remove id : Act η ι).effect a s.1, note (.remove id) a s.1 s.2) := by
  simp only [Act.effect, note, Adapter.pop]
  have hremoved : ∀ j, s.2.removed j = true → Function.update s.2.removed id true j = true := by
    intro j hj
    by_cases heq : j = id
    · rw [heq, Function.update_self]
    · rw [Function.update_of_ne heq, hj]
  refine ⟨⟨hinv.listed, fun j hopen => ?_, hinv.abandoned, fun j hsent => ?_⟩, ⟨?_, fun j _ hother => ?_⟩⟩
  · obtain ⟨hborn, hlate, hevent, hgaveUp, hleft⟩ := hopen
    by_cases hj : j = id
    · subst hj
      simp at hleft
    · simp only [Function.update_of_ne hj] at hleft
      have hbefore := hinv.waiting j ⟨hborn, hlate, hevent, hgaveUp, hleft⟩
      exact ⟨List.mem_filter.mpr ⟨hbefore.1, decide_eq_true hj⟩, hbefore.2⟩
  · have hbefore := hinv.sent j hsent
    refine ⟨hbefore.1, hbefore.2.1, fun hleft => ?_⟩
    by_cases hj : j = id
    · subst hj
      exact hdone hsent
    · simp only [Function.update_of_ne hj] at hleft
      exact hbefore.2.2 hleft
  · exact grows_of_steady (.of_requests rfl rfl) rfl (fun _ h => h) hremoved fun _ h => h
  · have hj : j ≠ id := fun heq => hother (heq ▸ hcaller)
    exact ⟨rfl, Function.update_of_ne hj _ _⟩

theorem giveUp_step (hinv : Inv s) {id : ℕ} (removes : Bool) (a : Answer ω) (hborn : id < s.1.nextRequestId)
    (hcaller : (s.1.requests id).caller = some me) :
    Inv ((Act.giveUp id removes : Act η ι).effect a s.1, note (.giveUp id removes) a s.1 s.2) ∧
      Mine me s ((Act.giveUp id removes : Act η ι).effect a s.1, note (.giveUp id removes) a s.1 s.2) ∧
      Done me id ((Act.giveUp id removes : Act η ι).effect a s.1, note (.giveUp id removes) a s.1 s.2) := by
  cases hevent : (s.1.requests id).event with
  | true =>
    simp only [Act.effect, note, Adapter.giveUp, hevent, ↓reduceIte]
    exact ⟨hinv, (Mild.refl s.1).mine me s.2, ⟨hborn, hcaller, .inl hevent⟩⟩
  | false =>
    have hgaveUp : ∀ j, s.2.gaveUp j = true → Function.update s.2.gaveUp id true j = true := by
      intro j hj
      by_cases heq : j = id
      · rw [heq, Function.update_self]
      · rw [Function.update_of_ne heq, hj]
    -- whether the request stays pending or not, it is not open any more
    have hstep : ∀ s' : Adapter η ι, Steady s.1 s' → (∀ j ∈ s.1.pending, j ≠ id → j ∈ s'.pending) →
        (∀ j, j ≠ id → (s'.requests j).abandoned = (s.1.requests j).abandoned) →
        Inv (s', { s.2 with gaveUp := Function.update s.2.gaveUp id true }) ∧
          Mine me s (s', { s.2 with gaveUp := Function.update s.2.gaveUp id true }) ∧
          Done me id (s', { s.2 with gaveUp := Function.update s.2.gaveUp id true }) := by
      intro s' hsteady hpending habandoned
      refine ⟨⟨hinv.listed, fun j hopen => ?_, fun j hj => ?_, fun j hsent => ?_⟩, ⟨?_, fun _ _ _ => ⟨rfl, rfl⟩⟩, ?_⟩
      · obtain ⟨hborn', hlate, hunset, hup, hleft⟩ := hopen
        have hj : j ≠ id := fun heq => by simp [heq] at hup
        simp only [Function.update_of_ne hj] at hup
        have hunset' : (s.1.requests j).event = false :=
          Bool.eq_false_iff.mpr fun hset => Bool.false_ne_true (hunset.symm.trans (hsteady.event j hset))
        have hbefore := hinv.waiting j ⟨hsteady.next ▸ hborn', hlate, hunset', hup, hleft⟩
        exact ⟨hpending j hbefore.1 hj, (congrArg s.2.purged (hsteady.process j)).trans hbefore.2⟩
      · by_cases heq : j = id
        · simp [heq]
        · simp only [Function.update_of_ne heq]
          exact hinv.abandoned j ((habandoned j heq).symm.trans hj)
      · have hbefore := hinv.sent j hsent
        exact ⟨hsteady.next ▸ hbefore.1, hbefore.2.1, fun hleft => (hbefore.2.2 hleft).imp (hsteady.event j) (hgaveUp j)⟩
      · exact grows_of_steady hsteady rfl hgaveUp (fun _ h => h) fun _ h => h
      · exact ⟨hsteady.next ▸ hborn, (hsteady.caller id).trans hcaller, .inr (Function.update_self _ _ _)⟩
    simp only [Act.effect, note, Adapter.giveUp, hevent, Bool.false_eq_true, ↓reduceIte]
    split
    · split
      · have hsame : ∀ j, j ≠ id → (s.1.update id fun r => { r with abandoned := true }).requests j = s.1.requests j :=
          fun j hj => Function.update_of_ne hj _ _
        exact hstep _ (.update rfl rfl rfl fun h => h) (fun _ h _ => h) fun j hj => congrArg PendingRequest.abandoned (hsame j hj)
      · exact hstep _ (.of_requests rfl rfl) (fun j hj hne => List.mem_filter.mpr ⟨hj, decide_eq_true hne⟩) fun _ _ => rfl
    · exact hstep _ (Steady.refl _) (fun _ h _ => h) fun _ _ => rfl

/-! ### Callers -/

theorem remove_works {id : ℕ} {f : Answer ω → Adapter η ι → α} {rest : α → Step η ι ω β}
    {Q : Except AdapterError β → Adapter η ι × History → Prop} (hdone : Done me id s)
    (h : ∀ s' a, Done me id s' → Works me (rest a) s' Q) : Works me (act (.remove id) f >>= rest) s Q := by
  refine observes_act fun s' a hothers hinv _ => ?_
  have hdone' := hdone.grows hothers.grows
  have hstep := remove_step hinv a hdone'.caller fun _ => hdone'.ended
  exact ⟨hstep.1, hstep.2, h _ _ (hdone'.grows hstep.2.grows)⟩

theorem takeOutcome_works {id : ℕ} (hdone : Done me id s) :
    Works me (takeOutcome id : Step η ι ω Json) s fun _ s' => Done me id s' :=
  remove_works hdone fun _ _ h₁ => plain_works (x := .take id) trivial fun _ _ hgrows => observes_fromExcept (h₁.grows hgrows)

theorem waitPending_works {id p : ℕ} (m : Method) (removes : Bool) (howned : Owned me id p s) :
    Works me (waitPending m id removes : Step η ι ω Json) s fun _ s' => Done me id s' := by
  refine observes_act fun s₁ _ h₁ hinv₁ _ => ⟨hinv₁, (Mild.refl s₁.1).mine me s₁.2, ?_⟩
  have howned₁ := howned.grows h₁.grows
  cases hevent : (s₁.1.requests id).event with
  | true => exact takeOutcome_works ⟨howned₁.born, howned₁.caller, .inl hevent⟩
  | false =>
    refine observes_act fun s₂ a h₂ hinv₂ _ => ?_
    have howned₂ := howned₁.grows h₂.grows
    have hstep := giveUp_step hinv₂ removes a howned₂.born howned₂.caller
    refine ⟨hstep.1, hstep.2.1, ?_⟩
    cases (s₂.1.requests id).event with
    | true => exact takeOutcome_works hstep.2.2
    | false => exact observes_throw hstep.2.2

theorem sendRequest_works {id p : ℕ} (c : RequestCall η) (hsends : Sends me id p false s) :
    Works me (sendRequest p c id : Step η ι ω ℕ) s fun r s' => ∀ id', r = .ok id' → Owned me id' p s' := by
  have hwrite : Works me (sendMessage c.encodable p fun _ => .write id : Step η ι ω Unit) s fun r s' =>
      Owned me id p s' ∧ ∀ e, r = .error e → Sends me id p false s' := by
    have hunsent : ∀ s' e, Others me s s' → Owned me id p s' ∧ ∀ e', (.error e : Except AdapterError Unit) = .error e' →
        Sends me id p false s' := fun s' _ h => ⟨(hsends.others h).toOwned, fun _ _ => hsends.others h⟩
    refine observes_sendMessage (fun _ _ _ => rfl) (fun s => (Mild.refl s.1).mine me s.2) (fun s' h _ _ => hunsent s' _ h)
      (fun s' h _ _ => hunsent s' _ h) fun s₁ h₁ _ _ => observes_act fun s₂ a h₂ hinv₂ htime => ?_
    have hsends₂ := (hsends.others h₁).others h₂
    have hstep := write_step hinv₂ hsends₂ htime
    refine ⟨hstep.1, hstep.2.1, observes_fromExcept ⟨hstep.2.2.toOwned, fun e he => ?_⟩⟩
    rw [written_of_outcome hsends₂.toOwned he] at hstep
    exact hstep.2.2
  refine observes_bind (observes_attempt (hwrite.mono fun r s₁ hr => ⟨fun sent hsent => ?_, fun _ he => absurd he.symm error_ne_ok⟩))
  cases Except.ok.inj hsent
  cases r with
  | ok _ => exact observes_pure fun _ hid => Except.ok.inj hid ▸ hr.1
  | error e =>
    refine observes_act fun s₂ a h₂ hinv₂ _ => ?_
    have hsends₂ := (hr.2 e rfl).others h₂
    have hstep := remove_step hinv₂ a hsends₂.caller fun hsent => absurd (hsends₂.sent.symm.trans hsent) Bool.false_ne_true
    exact ⟨hstep.1, hstep.2, observes_throw fun _ he => absurd he error_ne_ok⟩

theorem submitRequest_works (c : RequestCall η) :
    Works me (submitRequest me c : Step η ι ω ℕ) s fun r s' => ∀ id, r = .ok id → ∃ p, Owned me id p s' := by
  refine plain_works (x := .look) trivial fun s₁ _ _ => ?_
  cases s₁.1.alive with
  | none => exact observes_throw fun _ he => absurd he error_ne_ok
  | some p =>
    refine observes_act fun s₂ a _ hinv₂ _ => ?_
    cases hfull : s₂.1.full with
    | true =>
      have hsame : ((Act.register me p c).effect a s₂.1, note (.register me p c) a s₂.1 s₂.2) = s₂ := by
        simp [Act.effect, note, hfull]
      rw [hsame]
      exact ⟨hinv₂, (Mild.refl s₂.1).mine me s₂.2, observes_throw fun _ he => absurd he error_ne_ok⟩
    | false =>
      have hstep := register_step me hinv₂ hfull p c a
      exact ⟨hstep.1, hstep.2.1, (sendRequest_works c hstep.2.2).mono fun r s₃ hr id hid => ⟨p, hr id hid⟩⟩

theorem requestRaw_works (c : RequestCall η) : Works me (requestRaw me c : Step η ι ω Brought) s fun _ _ => True := by
  refine observes_bind ((submitRequest_works c).mono fun r s₁ hr => ⟨fun id hid => ?_, fun _ _ => trivial⟩)
  obtain ⟨p, howned⟩ := hr id hid
  exact observes_bind ((waitPending_works c.method true howned).mono fun _ _ _ => ⟨fun _ _ => trivial, fun _ _ => trivial⟩)

theorem commandExec_works (encodable : Bool) : Works me (commandExec me encodable : Step η ι ω Json) s fun _ _ => True := by
  refine observes_bind ((submitRequest_works _).mono fun r s₁ hr => ⟨fun id hid => ?_, fun _ _ => trivial⟩)
  obtain ⟨p, howned⟩ := hr id hid
  have hend : ∀ (r : Except AdapterError Json) s', Done me id s' → Works me (endCommand id r : Step η ι ω Json) s' fun _ _ => True :=
    fun r s' hdone => remove_works hdone fun _ _ _ => trivial
  refine observes_bind (observes_attempt ((waitPending_works .commandExec false howned).mono fun waited s₂ hdone =>
    ⟨fun waited' hwaited => ?_, fun _ _ => trivial⟩))
  cases Except.ok.inj hwaited
  split
  · refine observes_bind (observes_attempt ((done_along hdone (requestRaw_works _)).mono fun _ s₃ hdone₃ =>
      ⟨fun _ _ => ?_, fun _ _ => trivial⟩))
    exact remove_works hdone₃.1 fun _ _ h₄ => remove_works h₄ fun _ _ _ => trivial
  · exact hend _ _ hdone

theorem inherited_works : Inherited fun α (x : Step η ι ω α) => ∀ s, Works me x s fun _ _ => True :=
  inherited_observes (fun _ _ _ => rfl) fun s => (Mild.refl s.1).mine me s.2

theorem ofActs_works {k : Act η ι → Prop} (hplain : ∀ x, k x → Plain x) :
    OfActs (fun α (x : Step η ι ω α) => ∀ s, Works me x s fun _ _ => True) k := by
  refine ofActs_observes fun x hx s a hinv _ => ?_
  rw [note_of_plain (hplain x hx)]
  exact ⟨(mild_of_plain (hplain x hx) a s.1).inv hinv, (mild_of_plain (hplain x hx) a s.1).mine me s.2⟩

/-! ### Closing -/

variable (me) in
theorem list_step (hinv : Inv s) (p : ℕ) (a : Answer ω) :
    Inv ((Act.list (some p) true : Act η ι).effect a s.1, note (.list (some p) true) a s.1 s.2) ∧
      Mine me s ((Act.list (some p) true : Act η ι).effect a s.1, note (.list (some p) true) a s.1 s.2) ∧
      Covered p (s.1.pending.filter fun id => (some p).all fun p => (s.1.requests id).process = p)
        ((Act.list (some p) true : Act η ι).effect a s.1, note (.list (some p) true) a s.1 s.2) := by
  simp only [Act.effect, note]
  have hlisted : ∀ q, s.2.listed q = true → Function.update s.2.listed p true q = true := by
    intro q hq
    by_cases heq : q = p
    · rw [heq, Function.update_self]
    · rw [Function.update_of_ne heq, hq]
  refine ⟨⟨fun q hq => hlisted q (hinv.listed q hq), hinv.waiting, hinv.abandoned, hinv.sent⟩, ⟨?_, fun _ _ _ => ⟨rfl, rfl⟩⟩,
    ⟨Function.update_self _ _ _, fun id hopen hprocess => ?_⟩⟩
  · exact grows_of_steady (Steady.refl s.1) rfl (fun _ h => h) (fun _ h => h) hlisted
  · exact List.mem_filter.mpr ⟨(hinv.waiting id hopen).1, decide_eq_true hprocess⟩

variable (me) in
/-- No open request is purged. -/
theorem purge_step (hinv : Inv s) {p : ℕ} (hcovered : Covered p [] s) (a : Answer ω) :
    Inv ((Act.purge p : Act η ι).effect a s.1, note (.purge p) a s.1 s.2) ∧
      Mine me s ((Act.purge p : Act η ι).effect a s.1, note (.purge p) a s.1 s.2) := by
  simp only [Act.effect, note]
  refine ⟨⟨fun q hq => ?_, fun id hopen => ?_, hinv.abandoned, hinv.sent⟩, ⟨?_, fun _ _ _ => ⟨rfl, rfl⟩⟩⟩
  · by_cases heq : q = p
    · exact heq ▸ hcovered.listed
    · simp only [Function.update_of_ne heq] at hq
      exact hinv.listed q hq
  · have hbefore := hinv.waiting id hopen
    have hother : (s.1.requests id).process ≠ p := fun heq => List.not_mem_nil (hcovered.ids id hopen heq)
    exact ⟨List.mem_filter.mpr ⟨hbefore.1, decide_eq_true hother⟩, (Function.update_of_ne hother _ _).trans hbefore.2⟩
  · exact grows_of_steady (.of_requests rfl rfl) rfl (fun _ h => h) (fun _ h => h) fun _ h => h

theorem failAll_works {p : ℕ} {ids : List ℕ} (e : AdapterError) (hcovered : Covered p ids s) :
    Works me (failAll e ids : Step η ι ω Unit) s fun r s' => r = .ok () → Covered p [] s' := by
  induction ids generalizing s with
  | nil => exact observes_pure fun _ => hcovered
  | cons id ids ih =>
    have hone : Works me (failOne e id : Step η ι ω Unit) s fun _ s' => Covered p ids s' := by
      refine plain_works (x := .look) trivial fun s₁ _ h₁ => ?_
      have hcovered₁ := hcovered.grows h₁
      -- a request whose event is set is not open
      have hdrop : ∀ x : Adapter η ι × History, Covered p (id :: ids) x → (x.1.requests id).event = true → Covered p ids x := by
        intro x hx hset
        refine ⟨hx.listed, fun j hopen hprocess => (List.mem_cons.mp (hx.ids j hopen hprocess)).resolve_left fun heq => ?_⟩
        exact Bool.false_ne_true (hopen.2.2.1.symm.trans (heq ▸ hset))
      cases hevent : (s₁.1.requests id).event with
      | true => exact observes_pure (hdrop _ hcovered₁ hevent)
      | false =>
        refine observes_perform fun s₂ a h₂ hinv₂ _ => ?_
        have hmild := mild_of_plain (x := .fail id e) trivial a s₂.1
        have hmine := hmild.mine me s₂.2
        refine ⟨hmild.inv hinv₂, hmine, hdrop _ ((hcovered₁.grows h₂.grows).grows hmine.grows) ?_⟩
        simp [Act.effect, Adapter.update]
    exact observes_bind (hone.mono fun r s₁ h₁ => ⟨fun _ _ => ih h₁, fun _ _ hok => absurd hok error_ne_ok⟩)

theorem closeProcessLocked_works : Works me (closeProcessLocked : Step η ι ω Unit) s fun _ _ => True := by
  refine plain_works (x := .retire) trivial fun s₁ _ _ => ?_
  cases s₁.1.process with
  | none =>
    have hfail : ∀ ids s', Works me (failAll .unavailable ids : Step η ι ω Unit) s' fun _ _ => True := fun ids =>
      inherited_works.failAll fun id => ofActs_works (k := fun x => x = .fail id .unavailable) (fun x hx => hx ▸ trivial) _ rfl _ _
    refine observes_bind (plain_works (x := .list none true) trivial fun s₂ _ _ => (hfail _ _).mono fun _ _ _ => ?_)
    exact ⟨fun _ _ => observes_pure trivial, fun _ _ => trivial⟩
  | some p =>
    have hfail : ∀ s', Works me (failPending .unavailable (some p) true : Step η ι ω Unit) s' fun r s'' =>
        r = .ok () → Covered p [] s'' := fun s' =>
      observes_act fun s₂ a _ hinv₂ _ =>
        have hstep := list_step me hinv₂ p a
        ⟨hstep.1, hstep.2.1, failAll_works .unavailable hstep.2.2⟩
    refine observes_bind ((hfail _).mono fun r s₂ hr => ⟨fun done hdone => ?_, fun _ _ => trivial⟩)
    have h₂ := hr hdone
    refine plain_works (x := .clear) trivial fun s₃ a h₃ => ?_
    have hcleared := ((mild_of_plain (x := .clear) trivial a s₃.1).mine me s₃.2).grows
    have h₄ := (h₂.grows h₃).grows hcleared
    refine observes_act fun s₅ a h₅ hinv₅ _ => ?_
    have hstep := purge_step me hinv₅ (h₄.grows h₅.grows) a
    refine ⟨hstep.1, hstep.2, observes_perform fun s₆ a _ hinv₆ _ => ?_⟩
    have hmild := mild_of_plain (x := .closeInput p) trivial a s₆.1
    exact ⟨hmild.inv hinv₆, hmild.mine me s₆.2, trivial⟩

theorem release_works (n : ℕ) (t : Text) (expected : Option ℕ) (s : Adapter η ι × History) :
    Works me (releaseThread me n t expected : Step η ι ω (Option ℕ)) s fun _ _ => True :=
  inherited_works.releaseThread (ofActs_works fun x hx => by cases x <;> trivial) (fun c _ => requestRaw_works c)
    (fun t listed => ofActs_works (k := fun x => x = .discard t listed) (fun x hx => hx ▸ trivial) _ rfl _ _) n t expected s

theorem parts_works : Parts (fun α (x : Step η ι ω α) => ∀ s, Works me x s fun _ _ => True) me where
  inherited := inherited_works
  lifecycle := ofActs_works fun x hx => by cases x <;> trivial
  request c _ := requestRaw_works c
  command encodable _ := commandExec_works encodable
  close _ := closeProcessLocked_works
  fail e process := inherited_works.bind
    (ofActs_works (k := fun x => x = .list process false) (fun x hx => by subst hx; cases process <;> trivial) _ rfl _ _)
    fun _ => inherited_works.failAll fun id => ofActs_works (k := fun x => x = .fail id e) (fun x hx => hx ▸ trivial) _ rfl _ _
  popen f := ofActs_works (k := fun x => x = .popen) (fun x hx => hx ▸ trivial) _ rfl _ f
  ready := ofActs_works (k := fun x => x = .ready) (fun x hx => hx ▸ trivial) _ rfl _ _
  release n t expected := release_works n t expected
  cleanup n := inherited_works.cleanupAbandonedThreads (release_works n) fun p t listed =>
    ofActs_works (k := fun x => x = .discardAbandoned p t listed) (fun x hx => hx ▸ trivial) _ rfl _ _
  resolve p m := inherited_works.resolveResponse (ofActs_works fun x hx => by cases x <;> trivial)
  exit p := ofActs_works (k := fun x => x = .exit p) (fun x hx => hx ▸ trivial) _ rfl _ _

/-! ## Runs -/

theorem program_works (respond : η → Interaction → ω → Except Unit Json) (party : Party η) (s : Adapter η ι × History) :
    Works me (party.program respond me : Step η ι ω Unit) s fun _ _ => True :=
  parts_works.program (fun _ _ _ _ => inherited_works.handleServerRequest (ofActs_works fun x hx => by cases x <;> trivial)
    (ofActs_works fun x hx => by cases x <;> trivial)) s

/-- Whoever sent a request to a process that is closed by now has seen its event, or has given up. -/
theorem close_strands_no_caller (respond : η → Interaction → ω → Except Unit Json) (parties : ι → Party η)
    {q : System ι (Act η ι) (Adapter η ι × History) (Answer ω) (Except AdapterError Unit)}
    (hrun : Runs InTime ((startSystem respond parties).observe note startHistory) q) {id : ℕ}
    (hpurged : q.state.2.purged (q.state.1.requests id).process = true) : ¬Stranded q.state id := by
  have hall : ∀ i, Upholds InTime Inv (Others i) (Guarantee Others i)
      (((startSystem respond parties).observe note startHistory).rest i) (startAdapter η ι, startHistory) fun _ _ => True :=
    fun i => Upholds.weaken (program_works respond (parties i) _) fun _ _ hmine => hmine.guarantee
  exact (runs_invariant others_relies hrun inv_startAdapter hall).1.not_stranded hpurged

end

/-! ## A request in the gap -/

/-- A call, the responses to the requests that start the process, and a shutdown. -/
def sampleParties : ℕ → Party Unit
  | 0 => .call 1 ⟨.threadStart, none, none, none, true⟩
  | 9 => .shutdown 1
  | k => sampleResponse k (.obj [])

def sampleSystem : System ℕ (Act Unit ℕ) (Adapter Unit ℕ × History) (Answer Unit) (Except AdapterError Unit) :=
  (startSystem (fun _ _ _ => .error ()) sampleParties).observe note startHistory

/-- The call sends its request, and then the process is closed. -/
def orderlySteps : List (ℕ × Answer Unit) := startSteps ++ sampleActs 0 4 ++ sampleActs 9 10

theorem orderly_close_strands_no_caller : ¬Stranded (sampleSystem.acts orderlySteps).state 9 := by
  have hmet : sampleSystem.AllMeet InTime orderlySteps := by decide +kernel
  exact close_strands_no_caller (fun _ _ _ => .error ()) sampleParties
    (runs_acts_of_allMeet hmet (Runs.refl sampleSystem)) (by decide +kernel)

/-- The close lists the pending requests, then the call sends its request, and the close goes on. -/
def gapSteps : List (ℕ × Answer Unit) := startSteps ++ sampleActs 9 3 ++ sampleActs 0 4 ++ sampleActs 9 10

/-- The process is closed and the close is over, and the caller of a request that was sent to it waits on. -/
theorem caller_stranded_in_gap : ∃ q, Runs (fun _ _ _ => True) sampleSystem q ∧ q.state.2.purged 0 = true ∧
    q.state.1.closedInput 0 = true ∧ q.state.1.lifecycle = none ∧ (q.state.1.requests 9).process = 0 ∧ Stranded q.state 9 := by
  have hruns : Runs (fun _ _ _ => True) sampleSystem (sampleSystem.acts gapSteps) :=
    runs_acts (fun _ _ _ _ => trivial) (Runs.refl sampleSystem)
  exact ⟨_, hruns, by decide +kernel⟩

end WebOauthMcp.StrandedCallers
