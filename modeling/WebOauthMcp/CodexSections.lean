import WebOauthMcp.CodexBindings
import WebOauthMcp.CodexCalls

/-!
# What the sections do

Every section that releases threads keeps the cell sound and does not touch the slots. The
sections of requests and status calls leave alone what the owner of the allocation lock relies on.
-/

namespace WebOauthMcp.CodexSections
open CodePoints Words FaultyPrograms CodexRuntimes CodexCalls CodexBindings

variable {ι α β : Type}

/-! ## Rules -/

/-- Whatever the answers are, the section ends in a result and a cell that satisfy `Q`. -/
def Gives (x : Section ι α) (c : Cell ι) (Q : Except CodexError α → Cell ι → Prop) : Prop :=
  Action.Ensures x (fun _ => c) fun r s => Q r (s ())

section
variable {x : Section ι α} {f : α → Section ι β} {c : Cell ι}

theorem Gives.run {Q : Except CodexError α → Cell ι → Prop} (h : Gives x c Q) (answers : ℕ → Answer) :
    Q (runSection x answers c).result ((runSection x answers c).store ()) := Prog.Ensures.run h answers

theorem Gives.mono {Q R : Except CodexError α → Cell ι → Prop} (h : Gives x c Q) (hqr : ∀ r c', Q r c' → R r c') :
    Gives x c R := Action.Ensures.mono h fun r s' => hqr r (s' ())

theorem gives_bind {Q : Except CodexError β → Cell ι → Prop}
    (h : Gives x c fun r c' => (∀ a, r = .ok a → Gives (f a) c' Q) ∧ ∀ e, r = .error e → Q (.error e) c') :
    Gives (x >>= f) c Q := action_ensures_bind h

theorem gives_pure {a : α} {Q : Except CodexError α → Cell ι → Prop} (h : Q (.ok a) c) : Gives (pure a) c Q := h

theorem gives_throw {e : CodexError} {Q : Except CodexError α → Cell ι → Prop} (h : Q (.error e) c) :
    Gives (throw e : Section ι α) c Q := h

theorem gives_fromExcept {r : Except CodexError α} {Q : Except CodexError α → Cell ι → Prop} (h : Q r c) :
    Gives (fromExcept r) c Q := h

theorem gives_attempt {Q : Except CodexError (Except CodexError α) → Cell ι → Prop}
    (h : Gives x c fun r c' => Q (.ok r) c') : Gives (attempt x) c Q := action_ensures_attempt h

theorem gives_ask {g : Answer → Cell ι → α} {Q : Except CodexError α → Cell ι → Prop} (h : ∀ a, Q (.ok (g a c)) c) :
    Gives (ask g) c Q := h

theorem gives_change {g : Cell ι → Cell ι} {Q : Except CodexError Unit → Cell ι → Prop} (h : Q (.ok ()) (g c)) :
    Gives (change g) c Q := fun _ => h

theorem gives_ask_bind {g : Answer → Cell ι → α} {Q : Except CodexError β → Cell ι → Prop}
    (h : ∀ a, Gives (f (g a c)) c Q) : Gives (ask g >>= f) c Q :=
  gives_bind (gives_ask fun a => ⟨fun _ hb => Except.ok.inj hb ▸ h a, fun _ he => nomatch he⟩)

theorem gives_change_bind {g : Cell ι → Cell ι} {k : Unit → Section ι β} {Q : Except CodexError β → Cell ι → Prop}
    (h : Gives (k ()) (g c) Q) : Gives (change g >>= k) c Q :=
  gives_bind (gives_change ⟨fun _ _ => h, fun _ he => nomatch he⟩)

/-- The first question of a section gets the first answer. -/
theorem Gives.run_ask_bind {g : Answer → Cell ι → α} {Q : Except CodexError β → Cell ι → Prop} {answers : ℕ → Answer}
    (h : Gives (f (g (answers 0) c)) c Q) :
    Q (runSection (ask g >>= f) answers c).result ((runSection (ask g >>= f) answers c).store ()) :=
  Gives.run h fun n => answers (n + 1)

theorem gives_require_bind {e : CodexError} {a : α} {k : α → Section ι β} {Q : Except CodexError β → Cell ι → Prop}
    (h : Gives (k a) c Q) : Gives (require e (some a) >>= k) c Q := h

end

/-- The section carries `P` on, whether it ends in a value or not. -/
def Keeps (P : Cell ι → Prop) (x : Section ι α) : Prop := ∀ c, P c → Gives x c fun _ c' => P c'

section
variable {P : Cell ι → Prop} {x : Section ι α}

theorem keeps_bind {f : α → Section ι β} (hx : Keeps P x) (hf : ∀ a, Keeps P (f a)) : Keeps P (x >>= f) := by
  intro c hc
  refine gives_bind ((hx c hc).mono fun r c' hc' => ?_)
  exact ⟨fun a _ => hf a c' hc', fun _ _ => hc'⟩

theorem keeps_pure (a : α) : Keeps P (pure a) := fun _ hc => hc

theorem keeps_throw (e : CodexError) : Keeps P (throw e : Section ι α) := fun _ hc => hc

theorem keeps_fromExcept (r : Except CodexError α) : Keeps P (fromExcept r) := fun _ hc => hc

theorem keeps_ask (g : Answer → Cell ι → α) : Keeps P (ask g) := fun _ hc => gives_ask fun _ => hc

theorem keeps_change {g : Cell ι → Cell ι} (h : ∀ c, P c → P (g c)) : Keeps P (change g) := fun c hc =>
  gives_change (h c hc)

theorem keeps_attempt (hx : Keeps P x) : Keeps P (attempt x) := fun c hc => gives_attempt (hx c hc)

theorem keeps_saveBindings {g : Cell ι → Cell ι} (h : ∀ c, P c → P (g c)) : Keeps P (saveBindings g) :=
  keeps_bind (keeps_ask _) fun _ => keeps_bind (keeps_fromExcept _) fun _ => keeps_change h

end

/-! ## Releasing -/

/-- The cell is sound, the slots and the allocation lock are as they were, some threads are not
bound to any runtime, and some are not released. -/
structure Steady (c₀ : Cell ι) (unbound loaded : List Text) (c : Cell ι) : Prop where
  sound : Sound c
  allocation : c.allocation = c₀.allocation
  users : c.users = c₀.users
  active : c.activeRequests = c₀.activeRequests
  unbound : ∀ t ∈ unbound, ∀ b ∈ c.bindings, b.threadId ≠ t
  loaded : ∀ t ∈ loaded, t ∉ c.released

variable {c₀ c : Cell ι} {unbound loaded : List Text}

namespace Steady
variable (h : Steady c₀ unbound loaded c)
include h

theorem syncGeneration (g : Option ℕ) : Steady c₀ unbound loaded (c.syncGeneration g) := by
  have hsound := h.sound.syncGeneration g
  cases g with
  | none => exact h
  | some g =>
    rw [Cell.syncGeneration] at hsound ⊢
    split
    · exact h
    · next hne =>
      rw [if_neg hne] at hsound
      exact ⟨hsound, h.allocation, h.users, h.active, h.unbound, h.loaded⟩

theorem beginRelease (t : Text) : Steady c₀ unbound loaded (c.beginRelease t) := by
  refine ⟨h.sound.beginRelease t, h.allocation, h.users, h.active, fun u hu b hb => ?_, h.loaded⟩
  obtain ⟨a, ha, rfl⟩ := List.mem_map.mp hb
  split <;> exact h.unbound u hu a ha

theorem unload {t : Text} (ht : t ∉ loaded) (hunused : Unused c t) : Steady c₀ unbound loaded (c.unload t) := by
  refine ⟨h.sound.unload hunused, h.allocation, h.users, h.active, h.unbound, fun u hu hmem => ?_⟩
  cases List.mem_cons.mp hmem with
  | inl heq => exact ht (heq ▸ hu)
  | inr hold => exact h.loaded u hu (mem_without.mp hold).1

theorem confirmRelease {t : Text} (ht : t ∉ loaded) (hunused : Unused c t) :
    Steady c₀ unbound loaded (c.confirmRelease t) :=
  ⟨h.sound.confirmRelease hunused, h.allocation, h.users, h.active, h.unbound, (h.unload ht hunused).loaded⟩

theorem dropBindings (dropped : List RuntimeBinding) : Steady c₀ unbound loaded (c.dropBindings dropped) :=
  ⟨h.sound.dropBindings dropped, h.allocation, h.users, h.active,
    fun u hu b hb => h.unbound u hu b (List.mem_of_mem_filter hb), h.loaded⟩

end Steady

theorem syncConnectionGeneration_keeps : Keeps (Steady c₀ unbound loaded) (syncConnectionGeneration : Section ι Unit) :=
  keeps_bind (keeps_ask _) fun g => keeps_change fun _ h => h.syncGeneration g

/-- The question whether a thread is in use changes nothing. -/
theorem threadInUse_gives (t : Text) (c : Cell ι) : Gives (threadInUse t) c fun r c' => c' = c ∧
    (r = .ok false → ∀ b ∈ c.bindings, b.threadId = t → c.activeRequests b.runtimeId = 0) := by
  rw [threadInUse]
  apply gives_ask_bind
  intro _
  split
  · exact gives_pure ⟨rfl, fun h => (nomatch h)⟩
  · next hused =>
    refine gives_ask fun _ => ⟨rfl, fun _ b hb hthread => ?_⟩
    simp only [Bool.not_eq_true, List.any_eq_false, decide_eq_true_eq, not_and, not_lt] at hused
    exact Nat.le_zero.mp (hused b hb hthread)

/-- After the runtimes of an idle thread are detached, nothing uses it. -/
theorem unused_beginRelease {t : Text} (hidle : ∀ b ∈ c.bindings, b.threadId = t → c.activeRequests b.runtimeId = 0) :
    Unused (c.beginRelease t) t := by
  refine ⟨fun hlive => (mem_without.mp hlive).2 rfl, fun b hb hthread => ?_⟩
  obtain ⟨a, ha, rfl⟩ := List.mem_map.mp hb
  split at hthread
  · next hat =>
    rw [if_pos hat]
    exact ⟨fun h => RuntimeStatus.noConfusion h, hidle a ha hat⟩
  · next hat => exact absurd hthread hat

theorem releaseOwned_keeps {t : Text} (ht : t ∉ loaded) : Keeps (Steady c₀ unbound loaded) (releaseOwned t : Section ι Unit) := by
  intro c hc
  refine gives_bind ((threadInUse_gives t c).mono fun r c' hr => ?_)
  obtain ⟨rfl, hidle⟩ := hr
  refine ⟨fun inUse hok => ?_, fun _ _ => hc⟩
  cases inUse with
  | true => exact gives_throw hc
  | false =>
    have hbegun := hc.beginRelease t
    apply gives_change_bind
    apply gives_ask_bind
    intro a
    refine gives_bind (gives_fromExcept ⟨fun confirmed _ => ?_, fun _ _ => hbegun⟩)
    cases confirmed with
    | true => exact gives_change (hbegun.confirmRelease ht (unused_beginRelease (hidle hok)))
    | false => exact gives_throw hbegun

theorem releaseThread_keeps {t : Text} (ht : t ∉ loaded) : Keeps (Steady c₀ unbound loaded) (releaseThread t : Section ι Unit) := by
  apply keeps_bind syncConnectionGeneration_keeps
  intro _
  apply keeps_bind (keeps_ask _)
  intro owned
  split
  · exact releaseOwned_keeps ht
  · exact keeps_pure ()

theorem releaseAll_keeps {ts : List Text} (hts : ∀ t ∈ ts, t ∉ loaded) :
    Keeps (Steady c₀ unbound loaded) (releaseAll ts : Section ι Unit) := by
  induction ts with
  | nil => exact keeps_pure ()
  | cons t ts ih =>
    apply keeps_bind (releaseThread_keeps (hts t List.mem_cons_self))
    exact fun _ => ih fun u hu => hts u (List.mem_cons_of_mem t hu)

/-! ## Collecting -/

theorem Steady.thread_not_loaded (hsub : ∀ t ∈ loaded, t ∈ unbound) (h : Steady c₀ unbound loaded c) {b : RuntimeBinding} (hb : b ∈ c.bindings) :
    b.threadId ∉ loaded := fun hloaded => h.unbound b.threadId (hsub _ hloaded) b hb rfl

theorem idleBindings_gives (test : RuntimeBinding → Bool) (bs : List RuntimeBinding) (c : Cell ι) :
    Gives (idleBindings test bs) c fun r c' => c' = c ∧ ∀ idle, r = .ok idle → ∀ b ∈ idle, b ∈ bs := by
  induction bs with
  | nil => exact gives_pure ⟨rfl, fun idle h b hb => Except.ok.inj h ▸ hb⟩
  | cons b bs ih =>
    have htail : ∀ {idle : List RuntimeBinding}, (∀ x ∈ idle, x ∈ bs) → ∀ x ∈ idle, x ∈ b :: bs :=
      fun h x hx => List.mem_cons_of_mem b (h x hx)
    rw [idleBindings]
    split
    · refine gives_bind ((threadInUse_gives b.threadId c).mono fun r c' hr => ?_)
      obtain ⟨rfl, _⟩ := hr
      refine ⟨fun inUse _ => gives_bind (ih.mono fun r c' hr => ?_), fun e _ => ⟨rfl, fun _ h => nomatch h⟩⟩
      obtain ⟨rfl, hrest⟩ := hr
      refine ⟨fun rest hok => gives_pure ⟨rfl, fun idle h => ?_⟩, fun e _ => ⟨rfl, fun _ h => nomatch h⟩⟩
      rw [← Except.ok.inj h]
      cases inUse with
      | true => exact htail (hrest rest hok)
      | false => exact List.forall_mem_cons.mpr ⟨List.mem_cons_self, htail (hrest rest hok)⟩
    · exact ih.mono fun r c' hr => ⟨hr.1, fun idle h => htail (hr.2 idle h)⟩

theorem releaseExpired_keeps {bs : List RuntimeBinding} (hbs : ∀ b ∈ bs, b.threadId ∉ loaded) :
    Keeps (Steady c₀ unbound loaded) (releaseExpired bs : Section ι (List RuntimeBinding)) := by
  induction bs with
  | nil => exact keeps_pure []
  | cons b bs ih =>
    apply keeps_bind (keeps_ask _)
    intro stop
    split
    · exact keeps_pure []
    · apply keeps_bind (keeps_attempt (releaseThread_keeps (hbs b List.mem_cons_self)))
      intro released
      apply keeps_bind (ih fun x hx => hbs x (List.mem_cons_of_mem b hx))
      exact fun rest => keeps_pure _

theorem dropExpired_keeps (suppressErrors : Bool) (expired : List RuntimeBinding) :
    Keeps (Steady c₀ unbound loaded) (dropExpired suppressErrors expired : Section ι (List Text)) := by
  rw [dropExpired]
  split
  · exact keeps_pure []
  · apply keeps_bind (keeps_attempt (keeps_saveBindings fun _ h => h.dropBindings expired))
    intro saved
    cases saved with
    | ok _ => exact keeps_pure _
    | error e =>
      dsimp only
      split
      · exact keeps_pure []
      · exact keeps_throw e

theorem collectExpiredIdleLocked_keeps (hsub : ∀ t ∈ loaded, t ∈ unbound) (ttl : ℚ) (suppressErrors : Bool) :
    Keeps (Steady c₀ unbound loaded) (collectExpiredIdleLocked ttl suppressErrors : Section ι (List Text)) := by
  intro c hc
  apply gives_ask_bind
  intro a
  apply gives_ask_bind
  intro _
  refine gives_bind ((idleBindings_gives _ c.bindings c).mono fun r c' hr => ?_)
  obtain ⟨rfl, hidle⟩ := hr
  refine ⟨fun idle hok => ?_, fun _ _ => hc⟩
  have hfree : ∀ b ∈ idle, b.threadId ∉ loaded := fun b hb => Steady.thread_not_loaded hsub hc (hidle idle hok b hb)
  exact keeps_bind (releaseExpired_keeps hfree) (fun expired => dropExpired_keeps suppressErrors expired) c' hc

theorem evict_keeps {bs : List RuntimeBinding} (hbs : ∀ b ∈ bs, b.threadId ∉ loaded) :
    Keeps (Steady c₀ unbound loaded) (evict bs : Section ι (List Text)) := by
  have hthreads : ∀ t ∈ bs.map (·.threadId), t ∉ loaded := by
    intro t ht
    obtain ⟨b, hb, rfl⟩ := List.mem_map.mp ht
    exact hbs b hb
  apply keeps_bind (releaseAll_keeps hthreads)
  intro _
  apply keeps_bind (keeps_saveBindings fun _ h => h.dropBindings bs)
  exact fun _ => keeps_pure _

theorem ensureCapacityLocked_keeps (hsub : ∀ t ∈ loaded, t ∈ unbound) (l : Limits) (required : ℕ) :
    Keeps (Steady c₀ unbound loaded) (ensureCapacityLocked l required : Section ι (List Text)) := by
  rw [ensureCapacityLocked]
  split
  · exact keeps_pure []
  · apply keeps_bind (collectExpiredIdleLocked_keeps hsub _ _)
    intro _
    apply keeps_bind (keeps_ask _)
    intro overflow
    split
    · exact keeps_pure []
    · intro c hc
      apply gives_ask_bind
      intro _
      refine gives_bind ((idleBindings_gives _ c.bindings c).mono fun r c' hr => ?_)
      obtain ⟨rfl, hidle⟩ := hr
      refine ⟨fun candidates hok => ?_, fun _ _ => hc⟩
      split
      · exact gives_throw hc
      · refine evict_keeps (fun b hb => ?_) c' hc
        have hmem : b ∈ candidates := List.mem_mergeSort.mp (List.mem_of_mem_take hb)
        exact Steady.thread_not_loaded hsub hc (hidle candidates hok b hmem)

/-- Sections under the allocation lock. They may move bindings and threads, but they keep the
cell sound and leave the locks and the slots alone. -/
abbrev Steadily (x : Section ι α) (c : Cell ι) : Prop := Gives x c fun _ c' => Steady c [] [] c'

theorem steady_self (h : Sound c) : Steady c [] [] c :=
  ⟨h, rfl, rfl, rfl, fun _ ht => absurd ht List.not_mem_nil, fun _ ht => absurd ht List.not_mem_nil⟩

/-- A thread that no runtime uses may be released. -/
theorem releaseAbandoned_gives {ts : List Text} (h : Steady c₀ [] [] c) (hts : ∀ t ∈ ts, Unused c t) :
    Gives (releaseAbandoned ts) c fun _ c' => Steady c₀ [] [] c' := by
  induction ts generalizing c with
  | nil => exact gives_pure h
  | cons t ts ih =>
    apply gives_ask_bind
    intro a
    refine gives_bind (gives_fromExcept ⟨fun _ _ => ?_, fun _ _ => h⟩)
    apply gives_change_bind
    exact ih (h.unload List.not_mem_nil (hts t List.mem_cons_self)) fun u hu => hts u (List.mem_cons_of_mem t hu)

theorem cleanupThreads_gives (h : Sound c) (hunused : ∀ t ∈ c.abandoned, Unused c t) : Steadily cleanupThreads c := by
  apply gives_ask_bind
  intro a
  have harranged : ∀ t ∈ a.arrange c.abandoned, Unused c t := fun t ht =>
    hunused t ((a.arrange_perm c.abandoned).mem_iff.mp ht)
  refine gives_bind ((releaseAbandoned_gives (steady_self h) harranged).mono fun r c' hc' => ⟨fun _ _ => ?_, fun _ _ => hc'⟩)
  apply gives_ask_bind
  intro _
  exact releaseAll_keeps (fun _ _ => List.not_mem_nil) c' hc'

/-- The generation of a collection is the first answer. -/
theorem Gives.run_sync_bind {k : Unit → Section ι α} {Q : Except CodexError α → Cell ι → Prop} {answers : ℕ → Answer}
    (h : Gives (k ()) (c.syncGeneration (answers 0).generation) Q) :
    Q (runSection (syncConnectionGeneration >>= k) answers c).result
      ((runSection (syncConnectionGeneration >>= k) answers c).store ()) :=
  Gives.run_ask_bind (f := fun g => change (fun c => c.syncGeneration g) >>= k) (gives_change_bind h)

theorem collectSynced_gives (h : Sound c) (hunused : ∀ t ∈ c.abandoned, Unused c t) (ttl : ℚ) (suppressErrors : Bool) :
    Steadily (collectSynced ttl suppressErrors) c := by
  have hcollect : Keeps (Steady c [] []) (collectExpiredIdleLocked ttl suppressErrors) :=
    collectExpiredIdleLocked_keeps (fun _ ht => ht) ttl suppressErrors
  refine gives_bind (gives_attempt ((cleanupThreads_gives h hunused).mono fun r c' hc' => ?_))
  refine ⟨fun cleaned _ => ?_, fun _ he => nomatch he⟩
  cases cleaned with
  | ok _ => exact hcollect c' hc'
  | error e =>
    dsimp only
    split
    · exact hcollect c' hc'
    · exact gives_throw hc'

/-! ## Closing and committing -/

/-- Closing works on a runtime that is not in use. -/
theorem closeLocked_gives (h : Sound c) (runtimeId : Text) (releaseResources : Bool) :
    Steadily (closeLocked runtimeId releaseResources) c := by
  apply gives_ask_bind
  intro _
  cases hb : c.binding runtimeId with
  | none => exact gives_throw (steady_self h)
  | some b =>
    apply gives_require_bind
    refine gives_bind ((threadInUse_gives b.threadId c).mono fun r c' hr => ?_)
    obtain ⟨rfl, hidle⟩ := hr
    refine ⟨fun inUse hok => ?_, fun _ _ => steady_self h⟩
    cases inUse with
    | true => exact gives_throw (steady_self h)
    | false =>
      have hrelease : Keeps (Steady c' [] []) (releaseIf releaseResources b.threadId) := by
        rw [releaseIf]
        split
        · exact releaseThread_keeps List.not_mem_nil
        · exact keeps_pure ()
      have hzero : c'.activeRequests b.runtimeId = 0 := hidle hok b (binding_mem hb).1 rfl
      refine gives_bind ((hrelease c' (steady_self h)).mono fun r c₁ hc₁ => ⟨fun _ _ => ?_, fun _ _ => hc₁⟩)
      apply gives_ask_bind
      intro a
      refine keeps_bind (keeps_saveBindings fun c₂ hc₂ => ?_) (fun _ => keeps_pure _) c₁ hc₁
      have hsound := hc₂.sound.closeBinding (b := { b with status := .detached, lastUsedAt := a.now }) rfl
        ((congrFun hc₂.active b.runtimeId).trans hzero)
      exact ⟨hsound, hc₂.allocation, hc₂.users, hc₂.active, fun _ ht => absurd ht List.not_mem_nil, hc₂.loaded⟩

theorem threadId_readyBinding (t : ResumeTarget) (name : Option Text) (threadId newRuntimeId : Text) (now : ℚ) :
    (readyBinding t name threadId newRuntimeId now).threadId = threadId := by
  cases he : t.existing <;> simp [readyBinding, he]

/-- A loaded thread is committed. A new runtime needs a thread of its own, so that making room for
it does not release the thread. -/
theorem commit_gives (h : Sound c) (l : Limits) (t : ResumeTarget) (name : Option Text) {threadId : Text}
    (hloaded : threadId ∉ c.released) (hnew : t.existing = none → ∀ b ∈ c.bindings, b.threadId ≠ threadId) :
    Steadily (commit l t name threadId) c := by
  have hcapacity : Gives (makeRoom l t) c fun _ c' => Steady c [] [threadId] c' := by
    rw [makeRoom]
    split
    · next hnone =>
      have hstart : Steady c [threadId] [threadId] c :=
        ⟨h, rfl, rfl, rfl, fun u hu => List.mem_singleton.mp hu ▸ hnew (Option.isNone_iff_eq_none.mp hnone),
          fun u hu => List.mem_singleton.mp hu ▸ hloaded⟩
      refine (ensureCapacityLocked_keeps (fun _ ht => ht) l 1 c hstart).mono fun r c' hc' => ?_
      exact ⟨hc'.sound, hc'.allocation, hc'.users, hc'.active, fun _ ht => absurd ht List.not_mem_nil, hc'.loaded⟩
    · exact gives_pure ⟨h, rfl, rfl, rfl, fun _ ht => absurd ht List.not_mem_nil,
        fun u hu => List.mem_singleton.mp hu ▸ hloaded⟩
  have hforget : ∀ {c' : Cell ι}, Steady c [] [threadId] c' → Steady c [] [] c' := fun hc' =>
    ⟨hc'.sound, hc'.allocation, hc'.users, hc'.active, hc'.unbound, fun _ ht => absurd ht List.not_mem_nil⟩
  apply gives_ask_bind
  intro _
  apply gives_ask_bind
  intro _
  refine gives_bind (Q := fun _ c' => Steady c [] [] c') (hcapacity.mono fun r c₁ hc₁ =>
    ⟨fun _ _ => ?_, fun _ _ => hforget hc₁⟩)
  apply gives_change_bind
  have hlive : Steady c [] [threadId] (c₁.addLive threadId) :=
    ⟨hc₁.sound.addLive (hc₁.loaded threadId (List.mem_singleton_self threadId)), hc₁.allocation, hc₁.users, hc₁.active,
      hc₁.unbound, hc₁.loaded⟩
  apply gives_ask_bind
  intro _
  refine Gives.mono (keeps_bind (keeps_saveBindings fun c₂ hc₂ => ?_) (fun _ => keeps_pure _) _ hlive) fun r c' hc' =>
    hforget hc'
  refine ⟨hc₂.sound.commitBinding ?_, hc₂.allocation, hc₂.users, hc₂.active, fun _ ht => absurd ht List.not_mem_nil,
    hc₂.loaded⟩
  rw [threadId_readyBinding]
  exact hc₂.loaded threadId (List.mem_singleton_self threadId)

/-- The release of a replaced thread, unless it fails for a runtime that was closed. -/
theorem releaseReplaced_gives (h : Sound c) (threadId : Text) (m : Committed) :
    Gives (releaseReplaced threadId m) c fun r c' => (m.wasClosed = true → r = .ok ()) → Steady c [] [] c' := by
  refine gives_bind (gives_attempt ((releaseThread_keeps List.not_mem_nil c (steady_self h)).mono fun r c' hc' => ?_))
  refine ⟨fun released _ => ?_, fun _ he => nomatch he⟩
  cases released with
  | ok _ => exact gives_pure fun _ => hc'
  | error e =>
    apply gives_change_bind
    refine gives_throw fun hok => ?_
    split
    · next hclosed => exact nomatch hok hclosed
    · exact hc'

/-! ## Requests -/

/-- What the owner of the allocation lock relies on. -/
structure Undisturbed (c c' : Cell ι) : Prop where
  allocation : c'.allocation = c.allocation
  released : c'.released = c.released
  threads : c'.bindings.map (·.threadId) = c.bindings.map (·.threadId)

theorem Undisturbed.refl (c : Cell ι) : Undisturbed c c := ⟨rfl, rfl, rfl⟩

theorem Undisturbed.trans {c c' c'' : Cell ι} (h : Undisturbed c c') (h' : Undisturbed c' c'') : Undisturbed c c'' :=
  ⟨h'.allocation.trans h.allocation, h'.released.trans h.released, h'.threads.trans h.threads⟩

theorem undisturbed_put (h : Sound c) {a b : RuntimeBinding} (ha : a ∈ c.bindings) (hid : a.runtimeId = b.runtimeId)
    (hthread : a.threadId = b.threadId) : Undisturbed c (c.put b) :=
  ⟨rfl, rfl, threads_put h.nodup ha hid hthread⟩

theorem undisturbed_detach (h : Sound c) (runtimeId : Text) : Undisturbed c (c.detach runtimeId) := by
  rw [Cell.detach]
  cases hb : c.binding runtimeId with
  | none => exact Undisturbed.refl c
  | some b => exact undisturbed_put h (binding_mem hb).1 rfl rfl

theorem undisturbed_touched (h : Sound c) (runtimeId : Text) (count : Option ℕ) (now : ℚ) :
    Undisturbed c (c.touched runtimeId count now) := by
  rw [Cell.touched]
  cases hb : c.binding runtimeId with
  | none => exact Undisturbed.refl c
  | some b => exact undisturbed_put h (binding_mem hb).1 rfl rfl

theorem users_detach (runtimeId : Text) : (c.detach runtimeId).users = c.users := by
  rw [Cell.detach]
  cases c.binding runtimeId <;> rfl

theorem users_touched (runtimeId : Text) (count : Option ℕ) (now : ℚ) : (c.touched runtimeId count now).users = c.users := by
  rw [Cell.touched]
  cases c.binding runtimeId <;> rfl

/-- A section of a request or of a status call by `me`. -/
structure Aside (me : ι) (c c' : Cell ι) : Prop where
  sound : Sound c'
  undisturbed : Undisturbed c c'
  others : ∀ j, j ≠ me → ∀ runtimeId, j ∈ c.users runtimeId → j ∈ c'.users runtimeId

variable {me : ι}

theorem aside_self (h : Sound c) : Aside me c c := ⟨h, Undisturbed.refl c, fun _ _ _ hj => hj⟩

theorem aside_detach (h : Sound c) (runtimeId : Text) : Aside me c (c.detach runtimeId) :=
  ⟨h.detach runtimeId, undisturbed_detach h runtimeId, fun _ _ _ hj => (users_detach runtimeId).symm ▸ hj⟩

theorem aside_touched (h : Sound c) {runtimeId : Text} (count : Option ℕ) (now : ℚ)
    (hmay : ∀ b, c.binding runtimeId = some b → MayBeReady c b) : Aside me c (c.touched runtimeId count now) :=
  ⟨h.touched count now hmay, undisturbed_touched h runtimeId count now, fun _ _ _ hj =>
    (users_touched runtimeId count now).symm ▸ hj⟩

theorem activeBinding_gives (me : ι) (h : Sound c) (runtimeId : Text) : Gives (activeBinding runtimeId) c fun r c' =>
    Aside me c c' ∧ ∀ b, r = .ok b → c' = c ∧ b ∈ c.bindings ∧ b.runtimeId = runtimeId ∧ b.status = .ready := by
  apply gives_ask_bind
  intro _
  cases hb : c.binding runtimeId with
  | none => exact gives_throw ⟨aside_self h, fun _ he => nomatch he⟩
  | some b =>
    apply gives_ask_bind
    intro a
    split
    · split
      · next hready =>
        refine gives_pure ⟨aside_self h, fun x hx => ?_⟩
        rw [← Except.ok.inj hx]
        exact ⟨rfl, (binding_mem hb).1, (binding_mem hb).2, hready⟩
      · exact gives_throw ⟨aside_self h, fun _ he => nomatch he⟩
    · apply gives_change_bind
      exact gives_throw ⟨aside_detach h runtimeId, fun _ he => nomatch he⟩

theorem register_gives (h : Sound c) (runtimeId threadId : Text) :
    Gives (register me runtimeId threadId) c fun r c' => Aside me c c' ∧ (r = .ok () → me ∈ c'.users runtimeId) := by
  refine gives_bind ((activeBinding_gives me h runtimeId).mono fun r c' hr => ?_)
  refine ⟨fun b hok => ?_, fun _ _ => ⟨hr.1, fun he => absurd he error_ne_ok⟩⟩
  obtain ⟨rfl, hb, rfl, hready⟩ := hr.2 b hok
  split
  · refine gives_change ⟨⟨h.register me hb hready, ⟨rfl, rfl, rfl⟩, fun j _ r hj => ?_⟩, fun _ => ?_⟩
    · by_cases hr : r = b.runtimeId
      · subst hr
        simpa [Cell.register] using Or.inr hj
      · simpa [Cell.register, Function.update_of_ne hr] using hj
    · simp [Cell.register]
  · exact gives_throw ⟨aside_self h, fun he => absurd he error_ne_ok⟩

/-- Leaving the slot touches a runtime in use. -/
theorem leaveSlot_gives [DecidableEq ι] (h : Sound c) {runtimeId : Text} (hme : me ∈ c.users runtimeId) :
    Gives (leaveSlot me runtimeId) c fun _ c' => Aside me c c' := by
  have hmay : ∀ b, c.binding runtimeId = some b → MayBeReady c b := by
    intro b hb
    apply h.used b (binding_mem hb).1
    rw [(binding_mem hb).2, h.counted]
    exact List.length_pos_of_mem hme
  apply gives_bind
  apply gives_ask_bind
  intro a
  have htouched : Aside me c (c.touched runtimeId none a.now) := aside_touched h none a.now hmay
  refine gives_change ⟨fun _ _ => gives_change ?_, fun _ he => nomatch he⟩
  have hstill : me ∈ (c.touched runtimeId none a.now).users runtimeId := (users_touched runtimeId none a.now).symm ▸ hme
  refine ⟨htouched.sound.unregister hstill, ?_, fun j hj r hmem => ?_⟩
  · exact ⟨htouched.undisturbed.allocation, htouched.undisturbed.released, htouched.undisturbed.threads⟩
  · have hbefore := htouched.others j hj r hmem
    by_cases hr : r = runtimeId
    · subst hr
      simpa [Cell.unregister] using (List.mem_erase_of_ne hj).mpr hbefore
    · simpa [Cell.unregister, Function.update_of_ne hr] using hbefore

theorem touch_gives (h : Sound c) {runtimeId : Text} (count : Option ℕ)
    (hmay : ∀ b, c.binding runtimeId = some b → MayBeReady c b) :
    Gives (touch runtimeId count) c fun _ c' => Aside me c c' := by
  apply gives_ask_bind
  intro a
  exact gives_change (aside_touched h count a.now hmay)

theorem runtimeStatus_gives (h : Sound c) (runtimeId : Text) :
    Gives (runtimeStatus runtimeId) c fun _ c' => Aside me c c' := by
  apply gives_ask_bind
  intro _
  cases c.binding runtimeId with
  | none => exact gives_throw (aside_self h)
  | some b =>
    apply gives_ask_bind
    intro a
    split
    · apply gives_change_bind
      exact gives_pure (aside_detach h runtimeId)
    · exact gives_pure (aside_self h)

end WebOauthMcp.CodexSections
