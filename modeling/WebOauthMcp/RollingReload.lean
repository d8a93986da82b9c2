import WebOauthMcp.RollingSupervisor

/-!
# No stray server

Every server that was started and is not the current one has exited or was killed when the
loop is at its head, as long as a server that did not become ready exits in time. What the
supervisor relies on is that signals and exits leave everything else as it is.
-/

namespace WebOauthMcp.RollingReload
open CodePoints FaultyPrograms RelyGuarantee RollingSupervisor

variable {α β ι : Type}

def Gone (v : Server) : Prop := v.exitCode.isSome = true ∨ v.killed = true

instance (v : Server) : Decidable (Gone v) := inferInstanceAs (Decidable (_ ∨ _))

/-- A signal was sent to end the server. -/
def Hurt (v : Server) : Prop := v.terminated = true ∨ v.killed = true

def Ending (s : Supervisor) : Prop := s.phase = .stopping ∨ s.phase = .over

/-- What is asked of the supervisor. A signal that ends a server which was ready comes after
its replacement was ready, or at the end. A failed reload leaves the current server. At the head of
the loop no other server is left, and at the end none is. When the loop has passed its head twice
since a reload signal, a reload was started since. -/
structure Safe (s : Supervisor) : Prop where
  replaced : ∀ k, (s.server k).ready = true → Hurt (s.server k) →
    Ending s ∨ ∃ k', s.current = some k' ∧ k < k' ∧ (s.server k').ready = true
  kept : ∀ f ∈ s.failedReloads, f.after = f.before
  head : s.phase = .head → ∀ k < s.spawned, s.current ≠ some k → Gone (s.server k)
  drained : s.phase = .over → ∀ k < s.spawned, Gone (s.server k)
  answered : ∀ h ∈ s.hangups, h.rounds + 2 ≤ s.rounds → h.reloads < s.reloads

/-- A wait for a server that did not become ready finds that it has exited, and so does the wait
for a replaced server that was killed. -/
def InTime : Label → Supervisor → Answer → Prop
  | .plain, _, _ => True
  | .cleanup k, s, _ => (s.server k).exitCode.isSome = true
  | .reap k, s, _ => (s.server k).exitCode.isSome = true

/-! ## Invariant and reliance -/

/-- The request of a signal is still there, and the loop has not yet gone past its next look at it. -/
def Waiting (s : Supervisor) (h : Hangup) : Prop :=
  (s.reloadRequested = true ∧ (s.rounds ≤ h.rounds ∨ s.phase = .checking ∧ s.rounds ≤ h.rounds + 1)) ∨
    Ending s ∧ s.rounds ≤ h.rounds + 1

structure Inv (s : Supervisor) : Prop where
  current : ∀ k, s.current = some k → k < s.spawned ∧ (s.server k).ready = true
  unborn : ∀ k, s.spawned ≤ k → s.server k = .fresh
  replaced : ∀ k, (s.server k).ready = true → Hurt (s.server k) → Ending s ∨ ∃ k', s.current = some k' ∧ k < k'
  kept : ∀ f ∈ s.failedReloads, f.after = f.before
  head : s.phase = .head → ∀ k < s.spawned, s.current ≠ some k → Gone (s.server k)
  drained : s.phase = .over → ∀ k < s.spawned, Gone (s.server k)
  pending : ∀ h ∈ s.hangups, h.reloads < s.reloads ∨ h.reloads = s.reloads ∧ Waiting s h

theorem Inv.safe {s : Supervisor} (h : Inv s) : Safe s where
  replaced k hready hhurt := by
    cases h.replaced k hready hhurt with
    | inl hend => exact .inl hend
    | inr hlater =>
      obtain ⟨k', hcurrent, hlt⟩ := hlater
      exact .inr ⟨k', hcurrent, hlt, (h.current k' hcurrent).2⟩
  kept := h.kept
  head := h.head
  drained := h.drained
  answered hangup hmem hrounds := by
    cases h.pending hangup hmem with
    | inl hlt => exact hlt
    | inr hwaiting =>
      rw [Waiting] at hwaiting
      omega

/-- What signals and exits leave alone. -/
structure Apart (s s' : Supervisor) : Prop where
  spawned : s'.spawned = s.spawned
  current : s'.current = s.current
  phase : s'.phase = s.phase
  failedReloads : s'.failedReloads = s.failedReloads
  ready : ∀ k, (s'.server k).ready = (s.server k).ready
  terminated : ∀ k, (s'.server k).terminated = (s.server k).terminated
  killed : ∀ k, (s'.server k).killed = (s.server k).killed
  exited : ∀ k, (s.server k).exitCode.isSome = true → (s'.server k).exitCode.isSome = true

theorem Apart.refl (s : Supervisor) : Apart s s := ⟨rfl, rfl, rfl, rfl, fun _ => rfl, fun _ => rfl, fun _ => rfl, fun _ h => h⟩

theorem Apart.trans {a b c : Supervisor} (hab : Apart a b) (hbc : Apart b c) : Apart a c where
  spawned := hbc.spawned.trans hab.spawned
  current := hbc.current.trans hab.current
  phase := hbc.phase.trans hab.phase
  failedReloads := hbc.failedReloads.trans hab.failedReloads
  ready k := (hbc.ready k).trans (hab.ready k)
  terminated k := (hbc.terminated k).trans (hab.terminated k)
  killed k := (hbc.killed k).trans (hab.killed k)
  exited k h := hbc.exited k (hab.exited k h)

theorem Apart.gone {s s' : Supervisor} (h : Apart s s') {k : ℕ} (hgone : Gone (s.server k)) : Gone (s'.server k) := by
  cases hgone with
  | inl hexit => exact .inl (h.exited k hexit)
  | inr hkilled => exact .inr ((h.killed k).trans hkilled)

theorem Apart.hurt_iff {s s' : Supervisor} (h : Apart s s') (k : ℕ) : Hurt (s'.server k) ↔ Hurt (s.server k) := by
  rw [Hurt, Hurt, h.terminated, h.killed]

/-- Only the supervisor relies on the others. -/
def relied (me i : ι) (s s' : Supervisor) : Prop := i = me → Apart s s'

theorem relied_relies (me : ι) : Relies (relied me) where
  refl _ s _ := Apart.refl s
  trans _ _ _ _ hab hbc hi := (hab hi).trans (hbc hi)

/-- An event changes nothing that the supervisor relies on, and keeps the invariant. -/
theorem effect_apart (e : Event) (s : Supervisor) : Apart s (e.effect s) := by
  cases e with
  | hangup => exact ⟨rfl, rfl, rfl, rfl, fun _ => rfl, fun _ => rfl, fun _ => rfl, fun _ h => h⟩
  | stop => exact ⟨rfl, rfl, rfl, rfl, fun _ => rfl, fun _ => rfl, fun _ => rfl, fun _ h => h⟩
  | exits k code =>
    simp only [Event.effect]
    split
    · refine ⟨rfl, rfl, rfl, rfl, ?_, ?_, ?_, ?_⟩ <;> intro j <;> by_cases hj : j = k
      all_goals simp [Supervisor.put, hj]
    · exact Apart.refl s

/-! ## Steps that keep the invariant -/

section
variable {s : Supervisor}

/-- Another record of one server. -/
theorem Inv.put (h : Inv s) {k : ℕ} {v : Server} (hborn : k < s.spawned)
    (hready : (s.server k).ready = true → v.ready = true) (hgone : Gone (s.server k) → Gone v)
    (hhurt : v.ready = true → Hurt v → Ending s ∨ ∃ k', s.current = some k' ∧ k < k') : Inv (s.put k v) where
  current j hj := by
    refine ⟨(h.current j hj).1, ?_⟩
    by_cases hjk : j = k
    · subst hjk
      simpa [Supervisor.put] using hready (h.current j hj).2
    · simpa [Supervisor.put, Function.update_of_ne hjk] using (h.current j hj).2
  unborn j hj := by
    have hjk : j ≠ k := fun heq => absurd hborn (Nat.not_lt.mpr (heq ▸ hj))
    simpa [Supervisor.put, Function.update_of_ne hjk] using h.unborn j hj
  replaced j hj hhurtj := by
    by_cases hjk : j = k
    · subst hjk
      simp only [Supervisor.put, Function.update_self] at hj hhurtj
      exact hhurt hj hhurtj
    · simp only [Supervisor.put, Function.update_of_ne hjk] at hj hhurtj
      exact h.replaced j hj hhurtj
  kept := h.kept
  head hphase j hj hcurrent := by
    by_cases hjk : j = k
    · subst hjk
      simpa [Supervisor.put] using hgone (h.head hphase j hj hcurrent)
    · simpa [Supervisor.put, Function.update_of_ne hjk] using h.head hphase j hj hcurrent
  drained hphase j hj := by
    by_cases hjk : j = k
    · subst hjk
      simpa [Supervisor.put] using hgone (h.drained hphase j hj)
    · simpa [Supervisor.put, Function.update_of_ne hjk] using h.drained hphase j hj
  pending := h.pending

theorem Inv.effect (h : Inv s) (e : Event) : Inv (e.effect s) := by
  cases e with
  | hangup =>
    refine ⟨h.current, h.unborn, h.replaced, h.kept, h.head, h.drained, fun hangup hmem => ?_⟩
    cases List.mem_cons.mp hmem with
    | inl heq =>
      subst heq
      exact .inr ⟨rfl, .inl ⟨rfl, .inl (Nat.le_refl _)⟩⟩
    | inr hold =>
      refine (h.pending hangup hold).imp_right fun hwaiting => ⟨hwaiting.1, ?_⟩
      exact hwaiting.2.imp_left fun hrequested => ⟨rfl, hrequested.2⟩
  | stop => exact ⟨h.current, h.unborn, h.replaced, h.kept, h.head, h.drained, h.pending⟩
  | exits k code =>
    simp only [Event.effect]
    split
    · next hexits =>
      exact h.put hexits.1 (fun hready => hready) (fun _ => .inl rfl) fun hready hhurt => h.replaced k hready hhurt
    · exact h

/-- The next phase, where the requests that wait go on waiting. -/
theorem Inv.enter (h : Inv s) {p : Phase} (hending : ¬Ending s)
    (hhead : p = .head → ∀ k < s.spawned, s.current ≠ some k → Gone (s.server k)) (hover : p ≠ .over)
    (hwaiting : ∀ hangup, Waiting s hangup → Waiting (s.enter p) hangup) : Inv (s.enter p) where
  current := h.current
  unborn := h.unborn
  replaced k hready hhurt := .inr ((h.replaced k hready hhurt).resolve_left hending)
  kept := h.kept
  head hphase := hhead hphase
  drained hphase := absurd hphase hover
  pending hangup hmem := (h.pending hangup hmem).imp_right fun hw => ⟨hw.1, hwaiting hangup hw.2⟩

end

/-! ## Programs of the supervisor -/

/-- A task of the supervisor keeps the invariant, whatever signals and exits there are. -/
abbrev Works (me : ι) (x : Routine α) (s : Supervisor) (Q : Except Failure α → Supervisor → Prop) : Prop :=
  UpholdsAction InTime Inv (relied me me) (Guarantee (relied me) me) x s Q

section
variable {me : ι} {s : Supervisor}

theorem works_bind {x : Routine α} {f : α → Routine β} {Q : Except Failure β → Supervisor → Prop}
    (h : Works me x s fun r s' => (∀ a, r = .ok a → Works me (f a) s' Q) ∧ ∀ e, r = .error e → Q (.error e) s') :
    Works me (x >>= f) s Q := upholdsAction_bind h

theorem works_perform {l : Label} {g : Answer → Supervisor → Supervisor} {f : Answer → Supervisor → α}
    {Q : Except Failure α → Supervisor → Prop} (h : ∀ s' a, Apart s s' → Inv s' → InTime l s' a →
      Inv (g a s') ∧ Q (.ok (f a s')) (g a s')) : Works me (perform l g f) s Q :=
  upholdsAction_perform fun s' a hapart hinv htime =>
    have hact := h s' a (hapart rfl) hinv htime
    ⟨hact.1, fun _ hj hme => absurd hme hj, hact.2⟩

/-- An act in front of others. -/
theorem works_act {l : Label} {g : Answer → Supervisor → Supervisor} {f : Answer → Supervisor → α} {rest : α → Routine β}
    {Q : Except Failure β → Supervisor → Prop} (h : ∀ s' a, Apart s s' → Inv s' → InTime l s' a →
      Inv (g a s') ∧ Works me (rest (f a s')) (g a s') Q) : Works me (perform l g f >>= rest) s Q :=
  works_bind (works_perform fun s' a hapart hinv htime =>
    have hact := h s' a hapart hinv htime
    ⟨hact.1, fun _ hb => Except.ok.inj hb ▸ hact.2, fun _ he => absurd he.symm error_ne_ok⟩)

theorem works_attempt_bind {x : Routine α} {f : Except Failure α → Routine β} {Q : Except Failure β → Supervisor → Prop}
    (h : Works me x s fun r s' => Works me (f r) s' Q) : Works me (attempt x >>= f) s Q :=
  works_bind (upholdsAction_attempt (h.mono fun _ _ hr =>
    ⟨fun _ ha => Except.ok.inj ha ▸ hr, fun _ he => absurd he.symm error_ne_ok⟩))

end

/-- The phase, the current server, and the servers that may still run. -/
structure Left (p : Phase) (o : Option ℕ) (t : ℕ → Prop) (s : Supervisor) : Prop where
  phase : s.phase = p
  current : s.current = o
  gone : ∀ k < s.spawned, ¬t k → Gone (s.server k)

/-- Only the current server is left. -/
abbrev Settled (p : Phase) (o : Option ℕ) (s : Supervisor) : Prop := Left p o (fun k => o = some k) s

section
variable {me : ι} {s s' : Supervisor} {p : Phase} {o : Option ℕ} {t : ℕ → Prop}

theorem Left.apart (h : Left p o t s) (hapart : Apart s s') : Left p o t s' where
  phase := hapart.phase.trans h.phase
  current := hapart.current.trans h.current
  gone k hk hkt := hapart.gone (h.gone k (hapart.spawned ▸ hk) hkt)

theorem Left.put (h : Left p o t s) {k : ℕ} {v : Server} (hgone : Gone (s.server k) → Gone v) : Left p o t (s.put k v) where
  phase := h.phase
  current := h.current
  gone j hj hjt := by
    by_cases hjk : j = k
    · subst hjk
      simpa [Supervisor.put] using hgone (h.gone j hj hjt)
    · simpa [Supervisor.put, Function.update_of_ne hjk] using h.gone j hj hjt

/-- A server may be ended: its replacement is ready, or the loop has ended. -/
def MayEnd (p : Phase) (o : Option ℕ) (k : ℕ) : Prop := (p = .stopping ∨ p = .over) ∨ ∃ k', o = some k' ∧ k < k'

theorem Left.mayEnd (h : Left p o t s) {k : ℕ} (hmay : MayEnd p o k) : Ending s ∨ ∃ k', s.current = some k' ∧ k < k' := by
  rw [Ending, h.phase, h.current]
  exact hmay

theorem exited_works {l : Label} {k : ℕ} {Q : Except Failure Bool → Supervisor → Prop}
    (h : ∀ s' a, Apart s s' → Inv s' → InTime l s' a → Q (.ok (s'.server k).exitCode.isSome) s') :
    Works me (exited l k) s Q := works_perform fun s' a hapart hinv htime => ⟨hinv, h s' a hapart hinv htime⟩

/-- The wait is over, or the server has been killed before. -/
theorem waitFive_works {l : Label} {k : ℕ} {Q : Except Failure Unit → Supervisor → Prop}
    (hgone : ∀ s', Apart s s' → (s'.server k).exitCode.isSome = true → Q (.ok ()) s')
    (hlate : ∀ s' a, Apart s s' → InTime l s' a → (s'.server k).exitCode.isSome = false → Q (.error .waitExpired) s') :
    Works me (waitFive l k) s Q := by
  refine works_act fun s₁ a hs₁ hinv htime => ⟨hinv, ?_⟩
  cases hexit : (s₁.server k).exitCode.isSome with
  | true => exact upholdsAction_pure (hgone s₁ hs₁ hexit)
  | false => exact upholdsAction_throw (hlate s₁ a hs₁ htime hexit)

/-- The signal to end a server that may be ended. -/
theorem Inv.terminate (hinv : Inv s) {k : ℕ} (hborn : k < s.spawned)
    (hmay : (s.server k).ready = true → Ending s ∨ ∃ k', s.current = some k' ∧ k < k') : Inv (s.terminate k) := by
  rw [Supervisor.terminate]
  split
  · exact hinv
  · exact hinv.put hborn (fun hready => hready) (fun hgone => hgone) fun hready _ => hmay hready

theorem Inv.kill (hinv : Inv s) {k : ℕ} (hborn : k < s.spawned)
    (hmay : (s.server k).ready = true → Ending s ∨ ∃ k', s.current = some k' ∧ k < k') : Inv (s.kill k) := by
  rw [Supervisor.kill]
  split
  · exact hinv
  · exact hinv.put hborn (fun hready => hready) (fun _ => .inr rfl) fun hready _ => hmay hready

theorem Left.terminate (h : Left p o t s) (k : ℕ) : Left p o t (s.terminate k) := by
  rw [Supervisor.terminate]
  split
  · exact h
  · exact h.put fun hgone => hgone

theorem Left.kill (h : Left p o t s) (k : ℕ) : Left p o t (s.kill k) := by
  rw [Supervisor.kill]
  split
  · exact h
  · exact h.put fun _ => .inr rfl

theorem gone_kill (s : Supervisor) (k : ℕ) : Gone ((s.kill k).server k) := by
  rw [Supervisor.kill]
  split
  · next hexit => exact .inl hexit
  · exact .inr (by simp [Supervisor.put])

@[simp] theorem spawned_terminate (s : Supervisor) (k : ℕ) : (s.terminate k).spawned = s.spawned := by
  rw [Supervisor.terminate]
  split <;> rfl

@[simp] theorem ready_terminate (s : Supervisor) (k : ℕ) : ((s.terminate k).server k).ready = (s.server k).ready := by
  rw [Supervisor.terminate]
  split
  · rfl
  · simp [Supervisor.put]

/-- What ends a server, or kills it. -/
theorem terminateProcess_works (l : Label) {k : ℕ} (hborn : k < s.spawned) (h : Left p o t s)
    (hmay : (s.server k).ready = true → MayEnd p o k) :
    Works me (terminateProcess l k) s fun r s' => Left p o t s' ∧ Gone (s'.server k) ∧ (l = .reap k → r = .ok ()) := by
  refine works_bind (exited_works fun s₁ _ hs₁ hinv₁ _ => ⟨fun stopped hstopped => ?_, fun _ he => absurd he.symm error_ne_ok⟩)
  have h₁ := h.apart hs₁
  have hborn₁ : k < s₁.spawned := hs₁.spawned ▸ hborn
  split
  · next hexit =>
    rw [← Except.ok.inj hstopped] at hexit
    exact upholdsAction_pure ⟨h₁, .inl hexit, fun _ => rfl⟩
  · refine works_act fun s₂ _ hs₂ hinv₂ _ => ?_
    have h₂ := h₁.apart hs₂
    have hborn₂ : k < s₂.spawned := hs₂.spawned ▸ hborn₁
    have hmay₂ : (s₂.server k).ready = true → MayEnd p o k := fun hready =>
      hmay ((hs₁.ready k).symm.trans ((hs₂.ready k).symm.trans hready))
    refine ⟨hinv₂.terminate hborn₂ fun hready => h₂.mayEnd (hmay₂ hready), ?_⟩
    refine works_bind (exited_works fun s₃ _ hs₃ _ _ => ⟨fun gone hgone => ?_, fun _ he => absurd he.symm error_ne_ok⟩)
    have h₃ := (h₂.terminate k).apart hs₃
    split
    · next hexit =>
      rw [← Except.ok.inj hgone] at hexit
      exact upholdsAction_pure ⟨h₃, .inl hexit, fun _ => rfl⟩
    · refine works_act fun s₄ _ hs₄ hinv₄ _ => ?_
      have h₄ := h₃.apart hs₄
      have hborn₄ : k < s₄.spawned := by
        rw [hs₄.spawned, hs₃.spawned, spawned_terminate]
        exact hborn₂
      have hmay₄ : (s₄.server k).ready = true → MayEnd p o k := by
        intro hready
        rw [hs₄.ready, hs₃.ready, ready_terminate] at hready
        exact hmay₂ hready
      refine ⟨hinv₄.kill hborn₄ fun hready => h₄.mayEnd (hmay₄ hready), waitFive_works (fun s₅ hs₅ hexit => ?_)
        fun s₅ a hs₅ htime hexit => ?_⟩
      · exact ⟨(h₄.kill k).apart hs₅, .inl hexit, fun _ => rfl⟩
      · refine ⟨(h₄.kill k).apart hs₅, hs₅.gone (gone_kill s₄ k), fun hreap => ?_⟩
        subst hreap
        exact absurd (hexit.symm.trans htime) Bool.false_ne_true

/-! ## The start of a server -/

/-- A server was started, and it is not known yet whether it becomes ready. -/
structure Trial (p : Phase) (o : Option ℕ) (k : ℕ) (s : Supervisor) : Prop where
  left : Left p o (fun j => o = some j ∨ j = k) s
  born : k < s.spawned
  later : ∀ j, o = some j → j < k
  unhurt : ¬Hurt (s.server k)

theorem Trial.apart {k : ℕ} (h : Trial p o k s) (hapart : Apart s s') : Trial p o k s' where
  left := h.left.apart hapart
  born := hapart.spawned ▸ h.born
  later := h.later
  unhurt hhurt := h.unhurt ((hapart.hurt_iff k).mp hhurt)

theorem Trial.settled {k : ℕ} (h : Trial p o k s) (hgone : Gone (s.server k)) : Settled p o s where
  phase := h.left.phase
  current := h.left.current
  gone j hj hother := by
    by_cases hjk : j = k
    · exact hjk ▸ hgone
    · exact h.left.gone j hj fun hor => hor.elim hother hjk

/-- The pipe of a server on trial is read. -/
theorem readPipe_works {k : ℕ} (h : Trial p o k s) (hnot : (s.server k).ready = false)
    {Q : Except Failure (Option Bytes) → Supervisor → Prop}
    (hready : ∀ s' b, Trial p o k s' → (s'.server k).ready = true → readyPayload.isPrefixOf b = true → Q (.ok (some b)) s')
    (hother : ∀ s' r, Trial p o k s' → (s'.server k).ready = false → (∀ b, r = some b → readyPayload.isPrefixOf b = false) →
      Q (.ok r) s') : Works me (readPipe k) s Q := by
  refine works_perform fun s₁ a hs₁ hinv₁ _ => ?_
  have h₁ := h.apart hs₁
  have hnot₁ : (s₁.server k).ready = false := (hs₁.ready k).trans hnot
  cases hpayload : a.payload with
  | none => exact ⟨hinv₁, hother s₁ none h₁ hnot₁ nofun⟩
  | some b =>
    cases hopens : readyPayload.isPrefixOf b with
    | false =>
      simp only [Option.any_some, hopens, Bool.false_eq_true, ↓reduceIte]
      exact ⟨hinv₁, hother s₁ (some b) h₁ hnot₁ fun c hc => Option.some.inj hc ▸ hopens⟩
    | true =>
      simp only [Option.any_some, hopens, ↓reduceIte]
      refine ⟨hinv₁.put h₁.born (fun _ => rfl) (fun hgone => hgone) fun _ hhurt => absurd hhurt h₁.unhurt, ?_⟩
      refine hready _ b ⟨h₁.left.put fun hgone => hgone, h₁.born, h₁.later, fun hhurt => h₁.unhurt ?_⟩ ?_ hopens
      · simpa [Supervisor.put, Hurt] using hhurt
      · simp [Supervisor.put]

theorem waitForReadyPipe_works {k : ℕ} (looks : ℕ) (h : Trial p o k s) (hnot : (s.server k).ready = false) :
    Works me (waitForReadyPipe k looks) s fun r s' => Trial p o k s' ∧ (r = .ok () → (s'.server k).ready = true) ∧
      ∀ e, r = .error e → (s'.server k).ready = false := by
  induction looks generalizing s with
  | zero => exact upholdsAction_throw ⟨h, fun he => absurd he error_ne_ok, fun _ _ => hnot⟩
  | succ looks ih =>
    refine works_bind (exited_works fun s₁ _ hs₁ _ _ => ⟨fun stopped _ => ?_, fun _ he => absurd he.symm error_ne_ok⟩)
    have h₁ := h.apart hs₁
    have hnot₁ : (s₁.server k).ready = false := (hs₁.ready k).trans hnot
    split
    · exact upholdsAction_throw ⟨h₁, fun he => absurd he error_ne_ok, fun _ _ => hnot₁⟩
    · refine works_bind (readPipe_works h₁ hnot₁ (fun s₂ b h₂ hready hopens => ?_) fun s₂ r h₂ hnot₂ hother => ?_)
      · refine ⟨fun payload hpayload => ?_, fun _ he => absurd he.symm error_ne_ok⟩
        rw [← Except.ok.inj hpayload]
        simp only [hopens, ↓reduceIte]
        exact upholdsAction_pure ⟨h₂, fun _ => hready, fun _ he => absurd he.symm error_ne_ok⟩
      · refine ⟨fun payload hpayload => ?_, fun _ he => absurd he.symm error_ne_ok⟩
        rw [← Except.ok.inj hpayload]
        cases r with
        | none => exact ih h₂ hnot₂
        | some b =>
          simp only [hother b rfl, Bool.false_eq_true, ↓reduceIte]
          exact upholdsAction_throw ⟨h₂, fun he => absurd he error_ne_ok, fun _ _ => hnot₂⟩

/-- A server that is not ready is gone after the wait for it. -/
theorem cleanUp_works {k : ℕ} (h : Trial p o k s) (hnot : (s.server k).ready = false) :
    Works me (cleanUp k) s fun r s' => r = .ok () ∧ Settled p o s' := by
  refine works_bind (exited_works fun s₁ _ hs₁ _ _ => ⟨fun stopped hstopped => ?_, fun _ he => absurd he.symm error_ne_ok⟩)
  have h₁ := h.apart hs₁
  split
  · next hexit =>
    rw [← Except.ok.inj hstopped] at hexit
    exact upholdsAction_pure ⟨rfl, h₁.settled (.inl hexit)⟩
  · refine works_act fun s₂ _ hs₂ hinv₂ _ => ?_
    have h₂ := h₁.apart hs₂
    have hnot₂ : (s₂.server k).ready ≠ true := by
      rw [hs₂.ready, hs₁.ready, hnot]
      exact Bool.false_ne_true
    refine ⟨hinv₂.terminate h₂.born fun hready => absurd hready hnot₂, waitFive_works (fun s₃ hs₃ hexit => ?_)
      fun s₃ a _ htime hexit => absurd (hexit.symm.trans htime) Bool.false_ne_true⟩
    have hleft₃ := (h₂.left.terminate k).apart hs₃
    refine ⟨rfl, hleft₃.phase, hleft₃.current, fun j hj hother => ?_⟩
    by_cases hjk : j = k
    · exact .inl (hjk ▸ hexit)
    · exact hleft₃.gone j hj fun hor => hor.elim hother hjk

/-- A phase in which servers are started. -/
def Busy (p : Phase) : Prop := p = .starting ∨ p = .reloading

theorem Busy.ne_head (h : Busy p) : p ≠ .head := by
  cases h with
  | inl hp => exact hp ▸ Phase.noConfusion
  | inr hp => exact hp ▸ Phase.noConfusion

theorem Busy.ne_over (h : Busy p) : p ≠ .over := by
  cases h with
  | inl hp => exact hp ▸ Phase.noConfusion
  | inr hp => exact hp ▸ Phase.noConfusion

theorem server_spawn_of_ne {k : ℕ} (hk : k ≠ s.spawned) : s.spawn.server k = s.server k :=
  Function.update_of_ne hk _ _

theorem server_spawn_self (s : Supervisor) : s.spawn.server s.spawned = .fresh := Function.update_self _ _ _

theorem Inv.spawn (h : Inv s) (hbusy : Busy s.phase) : Inv s.spawn where
  current k hk := by
    have hold := h.current k hk
    refine ⟨Nat.lt_succ_of_lt hold.1, ?_⟩
    rw [server_spawn_of_ne (Nat.ne_of_lt hold.1)]
    exact hold.2
  unborn k hk := by
    rw [server_spawn_of_ne (Nat.ne_of_gt hk)]
    exact h.unborn k (Nat.le_of_succ_le hk)
  replaced k hready hhurt := by
    by_cases hk : k = s.spawned
    · subst hk
      rw [server_spawn_self] at hready
      exact absurd hready Bool.false_ne_true
    · rw [server_spawn_of_ne hk] at hready hhurt
      exact h.replaced k hready hhurt
  kept := h.kept
  head hphase := absurd hphase hbusy.ne_head
  drained hphase := absurd hphase hbusy.ne_over
  pending := h.pending

theorem popen_works (hbusy : Busy p) (h : Settled p o s) :
    Works me popen s fun r s' => (∀ k, r = .ok k → Trial p o k s' ∧ (s'.server k).ready = false) ∧
      ∀ e, r = .error e → Settled p o s' := by
  refine works_act fun s₁ a hs₁ hinv₁ _ => ⟨hinv₁, ?_⟩
  have h₁ := h.apart hs₁
  split
  · refine works_perform fun s₂ _ hs₂ hinv₂ _ => ?_
    have h₂ := h₁.apart hs₂
    refine ⟨hinv₂.spawn (h₂.phase ▸ hbusy), fun k hk => ?_, fun _ he => absurd he.symm error_ne_ok⟩
    obtain rfl := Except.ok.inj hk
    refine ⟨⟨⟨h₂.phase, h₂.current, fun j hj hother => ?_⟩, Nat.lt_succ_self _, fun j hj => ?_, ?_⟩, ?_⟩
    · have hold : j ≠ s₂.spawned := fun heq => hother (.inr heq)
      rw [server_spawn_of_ne hold]
      exact h₂.gone j (Nat.lt_of_le_of_ne (Nat.le_of_lt_succ hj) hold) fun hcurrent => hother (.inl hcurrent)
    · exact (hinv₂.current j (h₂.current.trans hj)).1
    · rw [server_spawn_self]
      exact fun hhurt => hhurt.elim Bool.noConfusion Bool.noConfusion
    · rw [server_spawn_self]
      rfl
  · exact upholdsAction_throw ⟨fun _ he => absurd he error_ne_ok, fun _ _ => h₁⟩

theorem spawnServer_works (hbusy : Busy p) (h : Settled p o s) :
    Works me spawnServer s fun r s' => (∀ k, r = .ok k → Trial p o k s' ∧ (s'.server k).ready = true) ∧
      ∀ e, r = .error e → Settled p o s' := by
  refine works_bind ((popen_works hbusy h).mono fun r s₁ hr => ?_)
  refine ⟨fun k hk => ?_, fun e he => ⟨fun _ hok => absurd hok error_ne_ok, fun _ _ => hr.2 e he⟩⟩
  obtain ⟨htrial, hnot⟩ := hr.1 k hk
  refine works_act fun s₂ a hs₂ hinv₂ _ => ⟨hinv₂, ?_⟩
  refine works_attempt_bind ((waitForReadyPipe_works _ (htrial.apart hs₂) ((hs₂.ready k).trans hnot)).mono fun ready s₃ hready => ?_)
  cases ready with
  | ok _ =>
    refine upholdsAction_pure ⟨fun j hj => ?_, fun _ he => absurd he.symm error_ne_ok⟩
    rw [← Except.ok.inj hj]
    exact ⟨hready.1, hready.2.1 rfl⟩
  | error e =>
    refine works_bind ((cleanUp_works hready.1 (hready.2.2 e rfl)).mono fun r s₄ hr => ?_)
    refine ⟨fun _ _ => upholdsAction_throw ⟨fun _ hok => absurd hok error_ne_ok, fun _ _ => hr.2⟩, fun _ he => ?_⟩
    exact absurd (he.symm.trans hr.1) error_ne_ok

/-! ## Reloads -/

/-- A server that is ready becomes the current one. -/
theorem Inv.setCurrent (h : Inv s) (hbusy : Busy s.phase) {k : ℕ} (hborn : k < s.spawned)
    (hready : (s.server k).ready = true) (hlater : ∀ j, s.current = some j → j < k) : Inv { s with current := some k } where
  current j hj := by
    rw [← Option.some.inj hj]
    exact ⟨hborn, hready⟩
  unborn := h.unborn
  replaced j hj hhurt := by
    refine (h.replaced j hj hhurt).imp_right fun hlate => ?_
    obtain ⟨k', hcurrent, hlt⟩ := hlate
    exact ⟨k, rfl, hlt.trans (hlater k' hcurrent)⟩
  kept := h.kept
  head hphase := absurd hphase hbusy.ne_head
  drained hphase := absurd hphase hbusy.ne_over
  pending := h.pending

theorem Trial.setCurrent {k : ℕ} (h : Trial p o k s) :
    Left p (some k) (fun j => o = some j ∨ some k = some j) { s with current := some k } where
  phase := h.left.phase
  current := rfl
  gone j hj hother := h.left.gone j hj fun hor => hother (hor.imp_right fun heq => congrArg some heq.symm)

theorem startInitialServer_works (hbusy : Busy p) (h : Settled p none s) :
    Works me startInitialServer s fun r s' => ∃ o', Settled p o' s' ∧ ∀ e, r = .error e → o' = none := by
  refine works_bind ((spawnServer_works hbusy h).mono fun r s₁ hr => ?_)
  refine ⟨fun k hk => ?_, fun e he => ⟨none, hr.2 e he, fun _ _ => rfl⟩⟩
  obtain ⟨htrial, hready⟩ := hr.1 k hk
  refine works_perform fun s₂ _ hs₂ hinv₂ _ => ?_
  have h₂ := htrial.apart hs₂
  refine ⟨hinv₂.setCurrent (h₂.left.phase ▸ hbusy) h₂.born ((hs₂.ready k).trans hready) fun j hj => ?_, some k, ?_, ?_⟩
  · exact h₂.later j (h₂.left.current.symm.trans hj)
  · exact ⟨h₂.left.phase, rfl, fun j hj hother => h₂.setCurrent.gone j hj fun hor => hor.elim nofun hother⟩
  · exact fun _ he => absurd he.symm error_ne_ok

theorem replaceServer_works (hbusy : Busy p) {old : ℕ} (h : Settled p (some old) s) :
    Works me (replaceServer old) s fun r s' => ∃ o', Settled p o' s' ∧ ∀ e, r = .error e → o' = some old := by
  refine works_bind ((spawnServer_works hbusy h).mono fun r s₁ hr => ?_)
  refine ⟨fun k hk => ?_, fun e he => ⟨some old, hr.2 e he, fun _ _ => rfl⟩⟩
  obtain ⟨htrial, hready⟩ := hr.1 k hk
  refine works_act fun s₂ _ hs₂ hinv₂ _ => ?_
  have h₂ := htrial.apart hs₂
  have hlt : old < k := h₂.later old rfl
  refine ⟨hinv₂.setCurrent (h₂.left.phase ▸ hbusy) h₂.born ((hs₂.ready k).trans hready) fun j hj => ?_, ?_⟩
  · exact h₂.later j (h₂.left.current.symm.trans hj)
  · have hends : Works me (terminateProcess (.reap old) old) { s₂ with current := some k } _ :=
      terminateProcess_works (.reap old) (hlt.trans h₂.born) h₂.setCurrent fun _ => .inr ⟨k, rfl, hlt⟩
    refine hends.mono fun r s₃ hr₃ => ⟨some k, ⟨hr₃.1.phase, hr₃.1.current, fun j hj hother => ?_⟩, fun e he => ?_⟩
    · by_cases hjold : j = old
      · exact hjold ▸ hr₃.2.1
      · exact hr₃.1.gone j hj fun hor => hor.elim (fun heq => hjold (Option.some.inj heq).symm) hother
    · exact absurd (he.symm.trans (hr₃.2.2 rfl)) error_ne_ok

/-- A reload that fails leaves the current server. -/
theorem reloadServer_works (hbusy : Busy p) (h : Settled p o s) :
    Works me reloadServer s fun r s' => ∃ o', Settled p o' s' ∧ ∀ e, r = .error e → o' = o := by
  refine works_act fun s₁ _ hs₁ hinv₁ _ => ⟨hinv₁, ?_⟩
  have h₁ := h.apart hs₁
  rw [h₁.current]
  cases o with
  | none => exact startInitialServer_works hbusy h₁
  | some old => exact replaceServer_works hbusy h₁

theorem Inv.beginReload (h : Inv s) (hphase : s.phase = .checking) :
    Inv { s with reloadRequested := false, phase := .reloading, reloads := s.reloads + 1 } where
  current := h.current
  unborn := h.unborn
  replaced k hready hhurt := by
    refine .inr ((h.replaced k hready hhurt).resolve_left fun hending => ?_)
    simp [Ending, hphase] at hending
  kept := h.kept
  head := nofun
  drained := nofun
  pending hangup hmem := by
    left
    cases h.pending hangup hmem with
    | inl hlt => exact Nat.lt_succ_of_lt hlt
    | inr hwaiting => exact Nat.lt_succ_of_le hwaiting.1.le

theorem Inv.endReload (h : Inv s) (hphase : s.phase = .reloading) {fs : List FailedReload}
    (hkept : ∀ f ∈ fs, f.after = f.before) : Inv { s with phase := .watching, failedReloads := fs } where
  current := h.current
  unborn := h.unborn
  replaced k hready hhurt := by
    refine .inr ((h.replaced k hready hhurt).resolve_left fun hending => ?_)
    simp [Ending, hphase] at hending
  kept := hkept
  head := nofun
  drained := nofun
  pending hangup hmem := by
    refine (h.pending hangup hmem).imp_right fun hwaiting => ⟨hwaiting.1, ?_⟩
    have hw := hwaiting.2
    simp only [Waiting, Ending, hphase, reduceCtorEq, false_and, or_false] at hw
    exact .inl ⟨hw.1, .inl hw.2⟩

theorem reload_works (h : Settled .checking o s) :
    Works me reload s fun r s' => r = .ok () ∧ ∃ o', Settled .watching o' s' := by
  refine works_act fun s₁ _ hs₁ hinv₁ _ => ?_
  have h₁ := h.apart hs₁
  refine ⟨hinv₁.beginReload h₁.phase, works_attempt_bind ?_⟩
  have hreloading : Settled .reloading o
      { s₁ with reloadRequested := false, phase := .reloading, reloads := s₁.reloads + 1 } := ⟨rfl, h₁.current, h₁.gone⟩
  refine (reloadServer_works (.inr rfl) hreloading).mono fun r s₂ hr => ?_
  obtain ⟨o', h₂, hfailed⟩ := hr
  refine works_perform fun s₃ _ hs₃ hinv₃ _ => ?_
  have h₃ := h₂.apart hs₃
  refine ⟨hinv₃.endReload h₃.phase ?_, rfl, o', rfl, h₃.current, h₃.gone⟩
  cases r with
  | ok _ => exact hinv₃.kept
  | error e =>
    intro f hf
    cases List.mem_cons.mp hf with
    | inl heq =>
      subst heq
      exact h₃.current.trans ((hfailed e rfl).trans h₁.current.symm)
    | inr hold => exact hinv₃.kept f hold

/-! ## The loop -/

/-- A request that waits at the end of a round waits at the head. -/
theorem watch_works (h : Settled .watching o s) :
    Works me watch s fun r s' => (∀ code, r = .ok (some code) → Settled .watching o s') ∧
      (r = .ok none → Settled .head o s') ∧ ∀ e, r ≠ .error e := by
  refine works_perform fun s₁ _ hs₁ hinv₁ _ => ?_
  have h₁ := h.apart hs₁
  cases hexit : s₁.currentExit with
  | some code =>
    refine ⟨hinv₁, fun _ _ => h₁, fun hnone => ?_, fun _ he => error_ne_ok he.symm⟩
    exact absurd (Except.ok.inj hnone) (Option.some_ne_none code)
  | none =>
    simp only [Option.isSome_none, Bool.false_eq_true, ↓reduceIte]
    have hending : ¬Ending s₁ := by simp [Ending, h₁.phase]
    refine ⟨hinv₁.enter hending (fun _ k hk hother => h₁.gone k hk fun heq => hother (h₁.current.trans heq)) nofun
      fun hangup hw => ?_, nofun, fun _ => ⟨rfl, h₁.current, h₁.gone⟩, fun _ he => error_ne_ok he.symm⟩
    simp only [Waiting, Ending, h₁.phase, reduceCtorEq, false_and, or_false] at hw
    exact .inl ⟨hw.1, .inl hw.2⟩

/-- What a round ends with: the loop goes on, or its end is known. -/
def Rounded (r : Except Failure (Option ℤ)) (s : Supervisor) : Prop :=
  (r = .ok none → ∃ o, Settled .head o s) ∧
    (r ≠ .ok none → ∃ p o, (p = .starting ∨ p = .checking ∨ p = .watching) ∧ Settled p o s)

theorem rounded_of_watch {r : Except Failure (Option ℤ)} (h : (∀ code, r = .ok (some code) → Settled .watching o s) ∧
    (r = .ok none → Settled .head o s) ∧ ∀ e, r ≠ .error e) : Rounded r s := by
  refine ⟨fun hnone => ⟨o, h.2.1 hnone⟩, fun hr => ⟨.watching, o, .inr (.inr rfl), ?_⟩⟩
  cases r with
  | ok code =>
    cases code with
    | none => exact absurd rfl hr
    | some n => exact h.1 n rfl
  | error e => exact absurd rfl (h.2.2 e)

theorem round_works (h : Settled .head o s) : Works me round s Rounded := by
  refine works_act fun s₁ _ hs₁ hinv₁ _ => ?_
  have h₁ := h.apart hs₁
  have hpassed : Settled .checking o { s₁ with phase := .checking, rounds := s₁.rounds + 1 } :=
    ⟨rfl, h₁.current, h₁.gone⟩
  refine ⟨⟨hinv₁.current, hinv₁.unborn, fun k hready hhurt => ?_, hinv₁.kept, nofun, nofun, fun hangup hmem => ?_⟩, ?_⟩
  · refine .inr ((hinv₁.replaced k hready hhurt).resolve_left fun hending => ?_)
    simp [Ending, h₁.phase] at hending
  · refine (hinv₁.pending hangup hmem).imp_right fun hwaiting => ⟨hwaiting.1, ?_⟩
    have hw := hwaiting.2
    simp only [Waiting, Ending, h₁.phase, reduceCtorEq, false_and, or_false] at hw
    exact .inl ⟨hw.1, .inr ⟨rfl, Nat.succ_le_succ hw.2⟩⟩
  · split
    · exact upholdsAction_pure ⟨nofun, fun _ => ⟨.checking, o, .inr (.inl rfl), hpassed⟩⟩
    · refine works_act fun s₂ _ hs₂ hinv₂ _ => ?_
      have h₂ := hpassed.apart hs₂
      cases hrequest : s₂.reloadRequested with
      | true =>
        refine ⟨hinv₂, works_bind ((reload_works h₂).mono fun r s₃ hr => ?_)⟩
        obtain ⟨rfl, o', h₃⟩ := hr
        exact ⟨fun _ _ => (watch_works h₃).mono fun _ _ => rounded_of_watch, fun _ he => absurd he.symm error_ne_ok⟩
      | false =>
        have hending : ¬Ending s₂ := by simp [Ending, h₂.phase]
        have hwatching : Settled .watching o (s₂.enter .watching) := ⟨rfl, h₂.current, h₂.gone⟩
        refine ⟨hinv₂.enter hending nofun nofun fun hangup hw => ?_, (watch_works hwatching).mono fun _ _ => rounded_of_watch⟩
        simp [Waiting, Ending, h₂.phase, hrequest] at hw

theorem loop_works (rounds : ℕ) (h : Settled .head o s) : Works me (loop rounds) s Rounded := by
  induction rounds generalizing o s with
  | zero => exact upholdsAction_pure ⟨fun _ => ⟨o, h⟩, fun hne => absurd rfl hne⟩
  | succ rounds ih =>
    refine works_bind ((round_works h).mono fun r s₁ hr => ⟨fun code hcode => ?_, fun e he => he ▸ hr⟩)
    cases code with
    | some n => exact upholdsAction_pure ⟨nofun, fun _ => hr.2 (hcode ▸ nofun)⟩
    | none =>
      obtain ⟨o', h₁⟩ := hr.1 hcode
      exact ih h₁

theorem serve_works (rounds : ℕ) (h : Settled .starting none s) : Works me (serve rounds) s Rounded := by
  refine works_bind ((startInitialServer_works (.inl rfl) h).mono fun r s₁ hr => ?_)
  obtain ⟨o, h₁, -⟩ := hr
  refine ⟨fun _ _ => works_act fun s₂ _ hs₂ hinv₂ _ => ?_, fun e _ => ⟨nofun, fun _ => ⟨.starting, o, .inl rfl, h₁⟩⟩⟩
  have h₂ := h₁.apart hs₂
  have hending : ¬Ending s₂ := by simp [Ending, h₂.phase]
  refine ⟨hinv₂.enter hending (fun _ k hk hother => h₂.gone k hk fun heq => hother (h₂.current.trans heq)) nofun
    fun hangup hw => ?_, loop_works rounds ⟨rfl, h₂.current, h₂.gone⟩⟩
  simp only [Waiting, Ending, h₂.phase, reduceCtorEq, false_and, or_false] at hw
  exact .inl ⟨hw.1, .inl hw.2⟩

/-! ## The end -/

/-- Requests that wait are not answered any more. -/
theorem Inv.stopping (h : Inv s) : Inv (s.enter .stopping) where
  current := h.current
  unborn := h.unborn
  replaced _ _ _ := .inl (.inl rfl)
  kept := h.kept
  head := nofun
  drained := nofun
  pending hangup hmem := by
    refine (h.pending hangup hmem).imp_right fun hwaiting => ⟨hwaiting.1, .inr ⟨.inl rfl, ?_⟩⟩
    have hw := hwaiting.2
    rw [Waiting] at hw
    show s.rounds ≤ hangup.rounds + 1
    omega

theorem Inv.finish (h : Inv s) (hphase : s.phase = .stopping) (hgone : ∀ k < s.spawned, Gone (s.server k)) :
    Inv (s.enter .over) where
  current := h.current
  unborn := h.unborn
  replaced _ _ _ := .inl (.inr rfl)
  kept := h.kept
  head := nofun
  drained _ := hgone
  pending hangup hmem := by
    refine (h.pending hangup hmem).imp_right fun hwaiting => ⟨hwaiting.1, .inr ⟨.inr rfl, ?_⟩⟩
    have hw := hwaiting.2
    simp only [Waiting, Ending, hphase, reduceCtorEq, false_and, or_false] at hw
    show s.rounds ≤ hangup.rounds + 1
    omega

theorem stopCurrent_works (h : Settled .stopping o s) (hborn : ∀ k, o = some k → k < s.spawned) :
    Works me (stopCurrent o) s fun _ s' => Left .stopping o (fun _ => False) s' := by
  cases o with
  | none => exact upholdsAction_pure ⟨h.phase, h.current, fun k hk _ => h.gone k hk nofun⟩
  | some k =>
    refine (terminateProcess_works .plain (hborn k rfl) h fun _ => .inl (.inl rfl)).mono fun r s₁ hr => ?_
    refine ⟨hr.1.phase, hr.1.current, fun j hj _ => ?_⟩
    by_cases hjk : j = k
    · exact hjk ▸ hr.2.1
    · exact hr.1.gone j hj fun heq => hjk (Option.some.inj heq).symm

theorem shutDown_works (h : Settled p o s) : Works me shutDown s fun _ s' => s'.phase = .over := by
  refine works_act fun s₁ _ hs₁ hinv₁ _ => ⟨hinv₁.stopping, works_attempt_bind ?_⟩
  have h₁ := h.apart hs₁
  rw [h₁.current]
  have hstopping : Settled .stopping o (s₁.enter .stopping) := ⟨rfl, h₁.current, h₁.gone⟩
  have hborn : ∀ k, o = some k → k < s₁.spawned := fun k hk => (hinv₁.current k (h₁.current.trans hk)).1
  refine (stopCurrent_works hstopping hborn).mono fun r s₂ h₂ => works_act fun s₃ _ hs₃ hinv₃ _ => ?_
  have h₃ := h₂.apart hs₃
  exact ⟨hinv₃.finish h₃.phase fun k hk => h₃.gone k hk id, upholdsAction_fromExcept rfl⟩

/-- The supervisor comes to its end with the phase that says so. -/
theorem run_works (rounds : ℕ) (h : Settled .starting none s) :
    Works me (run rounds) s fun r s' => r ≠ .ok none → s'.phase = .over := by
  refine works_attempt_bind ((serve_works rounds h).mono fun r s₁ hr => ?_)
  cases r with
  | ok code =>
    cases code with
    | none => exact upholdsAction_pure fun hne => absurd rfl hne
    | some n =>
      obtain ⟨p', o', -, h₁⟩ := hr.2 nofun
      exact works_bind ((shutDown_works h₁).mono fun r s₂ hover => ⟨fun _ _ => upholdsAction_pure fun _ => hover, fun _ _ _ => hover⟩)
  | error e =>
    obtain ⟨p', o', -, h₁⟩ := hr.2 nofun
    exact works_bind ((shutDown_works h₁).mono fun r s₂ hover => ⟨fun _ _ => upholdsAction_throw fun _ => hover, fun _ _ _ => hover⟩)

end

/-! ## Runs -/

theorem inv_startState : Inv startState where
  current := nofun
  unborn _ _ := rfl
  replaced _ hready := absurd hready Bool.false_ne_true
  kept := nofun
  head := nofun
  drained := nofun
  pending := nofun

/-- An event keeps the invariant. -/
theorem happen_upholds {me i : ι} (hi : i ≠ me) (e : Event) (s : Supervisor) :
    Upholds InTime Inv (relied me i) (Guarantee (relied me) i) e.happen.run s fun r s' =>
      i = me → r ≠ .ok none → s'.phase = .over := by
  intro s₁ a _ hinv _
  exact ⟨hinv.effect e, fun _ _ _ => effect_apart e s₁, fun h => absurd h hi⟩

/-- In a run whose waits end in time no server goes astray, and when the supervisor has
ended every server has exited or was killed. -/
theorem reload_leaves_no_stray [DecidableEq ι] (me : ι) (rounds : ℕ) (events : ι → Event)
    {p : System ι Label Supervisor Answer (Except Failure (Option ℤ))}
    (hrun : Runs InTime (startSystem me rounds events) p) :
    Safe p.state ∧ ∀ outcome, p.rest me = .done outcome → outcome ≠ .ok none →
      ∀ k < p.state.spawned, Gone (p.state.server k) := by
  have hall : ∀ i, Upholds InTime Inv (relied me i) (Guarantee (relied me) i) ((startSystem me rounds events).rest i) startState
      fun r s => i = me → r ≠ .ok none → s.phase = .over := by
    intro i
    by_cases hi : i = me
    · subst hi
      simp only [startSystem, ↓reduceIte]
      exact Upholds.mono (run_works rounds ⟨rfl, rfl, nofun⟩) fun _ _ hover _ => hover
    · simp only [startSystem, if_neg hi]
      exact happen_upholds hi (events i) startState
  have hresults := runs_results (relied_relies me)
    (fun i r s s' hrely hover hi hr => ((hrely hi).phase).trans (hover hi hr)) hrun inv_startState hall
  refine ⟨hresults.1.safe, fun outcome hdone hne => ?_⟩
  have hme := hresults.2 me
  rw [hdone] at hme
  exact hresults.1.drained (hme rfl hne)

/-! ## A replaced server and a stray one -/

inductive Party
  | supervisor
  | hangup
  | exit
  | stop
  deriving DecidableEq

/-- A reload signal, the end of the first server, and a signal to stop. -/
def sampleEvents : Party → Event
  | .exit => .exits 0 (-9)
  | .stop => .stop
  | _ => .hangup

def sampleSystem : System Party Label Supervisor Answer (Except Failure (Option ℤ)) :=
  startSystem .supervisor 2 sampleEvents

def readyAnswer : Answer := ⟨true, 1, some readyPayload⟩

/-- The first server is ready, and a reload signal arrives at the head of the loop. -/
def startSteps : List (Party × Answer) :=
  List.replicate 7 (Party.supervisor, readyAnswer) ++ [(Party.hangup, readyAnswer)]

/-- The second server is ready, and the first one exits only when it is killed. -/
def replaceSteps : List (Party × Answer) :=
  startSteps ++ List.replicate 14 (Party.supervisor, readyAnswer) ++ [(Party.exit, readyAnswer)] ++
    List.replicate 3 (Party.supervisor, readyAnswer)

theorem reload_replaces_server : (sampleSystem.acts replaceSteps).state.phase = .head ∧
    (sampleSystem.acts replaceSteps).state.current = some 1 ∧ Safe (sampleSystem.acts replaceSteps).state := by
  have hmet : sampleSystem.AllMeet InTime replaceSteps := by
    simp only [replaceSteps, startSteps]
    repeat' first | exact trivial | exact rfl | constructor
  refine ⟨by decide +kernel, by decide +kernel, ?_⟩
  exact (reload_leaves_no_stray .supervisor 2 sampleEvents (runs_acts_of_allMeet hmet (Runs.refl sampleSystem))).1

/-- A server that never becomes ready and does not exit in time either. -/
def stuckAnswer : Answer := ⟨true, 0, none⟩

/-- The reload fails, and the loop is at its head again. -/
def straySteps : List (Party × Answer) := startSteps ++ List.replicate 12 (Party.supervisor, stuckAnswer)

def strayEndSteps : List (Party × Answer) :=
  straySteps ++ [(Party.stop, stuckAnswer)] ++ List.replicate 8 (Party.supervisor, stuckAnswer)

/-- A server that ignores the signal after its failed start is left behind, at the head of the loop
and after the end. -/
theorem stray_server_left_behind :
    (∃ p, Runs (fun _ _ _ => True) sampleSystem p ∧ p.state.phase = .head ∧ 1 < p.state.spawned ∧
      p.state.current = some 0 ∧ ¬Gone (p.state.server 1)) ∧
    ∃ p, Runs (fun _ _ _ => True) sampleSystem p ∧ p.state.phase = .over ∧ 1 < p.state.spawned ∧
      ¬Gone (p.state.server 1) := by
  have hruns : ∀ steps, Runs (fun _ _ _ => True) sampleSystem (sampleSystem.acts steps) := fun steps =>
    runs_acts (fun _ _ _ _ => trivial) (Runs.refl sampleSystem)
  refine ⟨⟨_, hruns straySteps, ?_⟩, _, hruns strayEndSteps, ?_⟩
  · decide +kernel
  · decide +kernel

end WebOauthMcp.RollingReload
