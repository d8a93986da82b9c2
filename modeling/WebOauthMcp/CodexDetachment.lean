import WebOauthMcp.CodexSections

/-!
# Closed runtimes stay detached

Calls of the runtime manager in any order. The owner of the allocation lock relies on the
threads and the bindings of threads, a request relies on its place in the slot. The touch
after the slot relies on nothing, and so it may make a closed runtime ready.
-/

namespace WebOauthMcp.CodexDetachment
open CodePoints Words FaultyPrograms RelyGuarantee CodexRuntimes CodexCalls CodexBindings CodexSections

variable {ι α β : Type}

/-! ## Conditions on a step -/

/-- `thread/start` answers with a thread that is new. -/
def NewThread : Label → Cell ι → (ℕ → Answer) → Prop
  | .start, c, answers => ∀ thread, (answers 0).threadStart = .ok thread → ∀ b ∈ c.bindings, b.threadId ≠ thread.threadId
  | _, _, _ => True

/-- What the manager does not see to: a late touch finds its runtime closed or its thread
released, an abandoned thread belongs to a runtime that is ready or in use, or a resume of a
closed runtime fails after it committed the binding. -/
def Harmless : Label → Cell ι → (ℕ → Answer) → Prop
  | .lateTouch runtimeId, c, _ => ∀ b, c.binding runtimeId = some b → MayBeReady c b
  | .cleanup, c, answers => ∀ t ∈ c.abandoned, Unused (c.syncGeneration (answers 0).generation) t
  | .replaced threadId m, c, answers => m.wasClosed = true → (runSection (releaseReplaced threadId m) answers c).result = .ok ()
  | _, _, _ => True

/-- The steps of a run that keep closed runtimes detached. -/
def Careful (l : Label) (c : Cell ι) (answers : ℕ → Answer) : Prop := NewThread l c answers ∧ Harmless l c answers

/-! ## Reliance -/

structure Frame (i : ι) (c c' : Cell ι) : Prop where
  users : ∀ runtimeId, i ∈ c.users runtimeId → i ∈ c'.users runtimeId
  held : c.allocation = some i → Undisturbed c c'

theorem frame_relies : Relies (Frame : ι → Cell ι → Cell ι → Prop) where
  refl _ c := ⟨fun _ h => h, fun _ => Undisturbed.refl c⟩
  trans _ _ _ _ hab hbc :=
    ⟨fun r h => hbc.users r (hab.users r h), fun h =>
      (hab.held h).trans (hbc.held ((hab.held h).allocation.trans h))⟩

theorem guarantee_of_aside {me : ι} {c c' : Cell ι} (h : Aside me c c') : Guarantee Frame me c c' := fun j hj =>
  ⟨h.others j hj, fun _ => h.undisturbed⟩

/-- The owner of the allocation lock leaves the slots alone. -/
theorem guarantee_of_owner {me : ι} {c c' : Cell ι} (howner : c.allocation = some me) (husers : c'.users = c.users) :
    Guarantee Frame me c c' := by
  refine fun j hj => ⟨fun r h => husers ▸ h, fun hheld => ?_⟩
  exact absurd (Option.some.inj (hheld.symm.trans howner)) hj

/-- A call keeps every cell sound, whatever the others do. -/
abbrev Behaves (me : ι) (x : Call ι α) (c : Cell ι) (Q : Except CodexError α → Cell ι → Prop) : Prop :=
  UpholdsAction Careful Sound (Frame me) (Guarantee Frame me) x c Q

section
variable {me : ι} {c : Cell ι}

theorem behaves_bind {x : Call ι α} {f : α → Call ι β} {Q : Except CodexError β → Cell ι → Prop}
    (h : Behaves me x c fun r c' => (∀ a, r = .ok a → Behaves me (f a) c' Q) ∧ ∀ e, r = .error e → Q (.error e) c') :
    Behaves me (x >>= f) c Q := upholdsAction_bind h

theorem behaves_pure {a : α} {Q : Except CodexError α → Cell ι → Prop} (h : Q (.ok a) c) :
    Behaves me (pure a) c Q := h

theorem behaves_throw {e : CodexError} {Q : Except CodexError α → Cell ι → Prop} (h : Q (.error e) c) :
    Behaves me (throw e) c Q := h

theorem behaves_fromExcept {r : Except CodexError α} {Q : Except CodexError α → Cell ι → Prop} (h : Q r c) :
    Behaves me (fromExcept r) c Q := h

/-- A section alone. -/
theorem behaves_atomically {l : Label} {x : Section ι α} {Q : Except CodexError α → Cell ι → Prop}
    (h : ∀ c' answers, Frame me c c' → Sound c' → Careful l c' answers → ∀ r c'', r = (runSection x answers c').result →
      c'' = (runSection x answers c').store () → Sound c'' ∧ Guarantee Frame me c' c'' ∧ Q r c'') :
    Behaves me (atomically l x) c Q := fun c' answers hframe hsound hcareful =>
  h c' answers hframe hsound hcareful _ _ rfl rfl

theorem behaves_gives {l : Label} {x : Section ι α} {Q : Except CodexError α → Cell ι → Prop}
    (h : ∀ c' answers, Frame me c c' → Sound c' → Careful l c' answers →
      Gives x c' fun r c'' => Sound c'' ∧ Guarantee Frame me c' c'' ∧ Q r c'') : Behaves me (atomically l x) c Q :=
  behaves_atomically fun c' answers hframe hsound hcareful _ _ hr hc => by
    rw [hr, hc]
    exact (h c' answers hframe hsound hcareful).run answers

/-! ## Requests -/

/-- A section that only looks. -/
theorem behaves_ask {g : Answer → Cell ι → α} {Q : Except CodexError α → Cell ι → Prop}
    (h : ∀ c', Frame me c c' → Sound c' → ∀ a, Q (.ok (g a c')) c') : Behaves me (atomically .plain (ask g)) c Q :=
  behaves_gives fun c' _ hframe hsound _ => gives_ask fun a =>
    ⟨hsound, Guarantee.refl frame_relies me c', h c' hframe hsound a⟩

theorem behaves_aside {l : Label} {x : Section ι α} {Q : Except CodexError α → Cell ι → Prop}
    (h : ∀ c' answers, Frame me c c' → Sound c' → Careful l c' answers → Gives x c' fun r c'' => Aside me c' c'' ∧ Q r c'') :
    Behaves me (atomically l x) c Q :=
  behaves_gives fun c' answers hframe hsound hcareful => (h c' answers hframe hsound hcareful).mono fun _ _ hr =>
    ⟨hr.1.sound, guarantee_of_aside hr.1, hr.2⟩

theorem acquireSlot_behaves {Q : Except CodexError Unit → Cell ι → Prop} (h : ∀ r c', Frame me c c' → Sound c' → Q r c') :
    Behaves me acquireSlot c Q := by
  refine behaves_bind (behaves_ask fun c' hframe hsound a => ⟨fun free _ => ?_, fun _ he => nomatch he⟩)
  split
  · exact behaves_pure (h _ c' hframe hsound)
  · exact behaves_throw (h _ c' hframe hsound)

theorem withRequestSlot_behaves [DecidableEq ι] (runtimeId threadId : Text) (call : Answer → Except CodexError β) :
    Behaves me (withRequestSlot me runtimeId threadId call) c fun _ _ => True := by
  refine behaves_bind (acquireSlot_behaves fun r c₁ _ _ => ⟨fun _ _ => ?_, fun _ _ => trivial⟩)
  refine behaves_bind (behaves_aside fun c₂ _ _ hsound _ => (register_gives hsound runtimeId threadId).mono
    fun r c₃ hr => ⟨hr.1, fun _ hok => ?_, fun _ _ => trivial⟩)
  have hme : me ∈ c₃.users runtimeId := hr.2 hok
  refine behaves_bind (behaves_ask fun c₄ hframe _ a => ⟨fun _ _ => ?_, fun _ _ => trivial⟩)
  have hme₄ : me ∈ c₄.users runtimeId := hframe.users runtimeId hme
  refine behaves_bind (behaves_aside fun c₅ _ hframe₅ hsound _ =>
    (leaveSlot_gives hsound (hframe₅.users runtimeId hme₄)).mono fun r c₆ hr => ⟨hr, fun _ _ => ?_, fun _ _ => trivial⟩)
  exact behaves_fromExcept trivial

/-- The touch after the slot is the only step of a request that may go wrong. -/
theorem lateTouch_behaves (runtimeId : Text) (count : Option ℕ) :
    Behaves me (atomically (.lateTouch runtimeId) (touch runtimeId count)) c fun _ _ => True :=
  behaves_aside fun _ _ _ hsound hcareful => (touch_gives hsound count hcareful.2).mono fun _ _ h => ⟨h, trivial⟩

theorem activeBinding_behaves (runtimeId : Text) :
    Behaves me (atomically .plain (activeBinding runtimeId)) c fun _ _ => True :=
  behaves_aside fun _ _ _ hsound _ => (activeBinding_gives me hsound runtimeId).mono fun _ _ h => ⟨h.1, trivial⟩

/-- A sequence of steps that rely on nothing from each other. -/
theorem behaves_then {x : Call ι α} {f : α → Call ι β} (hx : Behaves me x c fun _ _ => True)
    (hf : ∀ a c', Behaves me (f a) c' fun _ _ => True) : Behaves me (x >>= f) c fun _ _ => True :=
  behaves_bind (hx.mono fun _ c' _ => ⟨fun a _ => hf a c', fun _ _ => trivial⟩)

theorem execCommand_behaves [DecidableEq ι] (runtimeId : Text) (checks : Checks) :
    Behaves me (execCommand me runtimeId checks) c fun _ _ => True := by
  apply behaves_then (activeBinding_behaves runtimeId)
  intro b _
  apply behaves_then (behaves_fromExcept trivial)
  intro _ _
  apply behaves_then (withRequestSlot_behaves runtimeId b.threadId _)
  intro result _
  apply behaves_then (lateTouch_behaves runtimeId none)
  exact fun _ _ => behaves_fromExcept trivial

theorem mcpInventory_behaves [DecidableEq ι] (runtimeId : Text) (checks : Checks) :
    Behaves me (mcpInventory me runtimeId checks) c fun _ _ => True := by
  apply behaves_then (activeBinding_behaves runtimeId)
  intro b _
  apply behaves_then (behaves_fromExcept trivial)
  intro _ _
  apply behaves_then (withRequestSlot_behaves runtimeId b.threadId _)
  intro result c'
  cases result with
  | none => exact behaves_throw trivial
  | some serverCount =>
    apply behaves_then (lateTouch_behaves runtimeId (some serverCount))
    exact fun _ _ => behaves_pure trivial

theorem mcpCall_behaves [DecidableEq ι] (runtimeId : Text) (checks : Checks) :
    Behaves me (mcpCall me runtimeId checks) c fun _ _ => True := by
  apply behaves_then (activeBinding_behaves runtimeId)
  intro b _
  apply behaves_then (behaves_fromExcept trivial)
  intro _ _
  apply behaves_then (withRequestSlot_behaves runtimeId b.threadId _)
  intro result _
  apply behaves_then (lateTouch_behaves runtimeId none)
  intro _ _
  cases result with
  | none => exact behaves_throw trivial
  | some isError => exact behaves_pure trivial

/-! ## The owner of the allocation lock -/

/-- The lock is held, some threads are not bound to any runtime, and some are loaded. -/
structure Holding (me : ι) (unbound loaded : List Text) (c : Cell ι) : Prop where
  allocation : c.allocation = some me
  unbound : ∀ t ∈ unbound, ∀ b ∈ c.bindings, b.threadId ≠ t
  loaded : ∀ t ∈ loaded, t ∉ c.released

variable {unbound loaded : List Text}

theorem Holding.frame {c' : Cell ι} (h : Holding me unbound loaded c) (hframe : Frame me c c') :
    Holding me unbound loaded c' := by
  have hsame := hframe.held h.allocation
  refine ⟨hsame.allocation.trans h.allocation, fun t ht b hb heq => ?_, fun t ht => hsame.released ▸ h.loaded t ht⟩
  have hmem : t ∈ c.bindings.map (·.threadId) := hsame.threads ▸ List.mem_map.mpr ⟨b, hb, heq⟩
  obtain ⟨a, ha, hat⟩ := List.mem_map.mp hmem
  exact h.unbound t ht a ha hat

theorem Holding.lock (h : Holding me unbound loaded c) : Holding me [] [] c :=
  ⟨h.allocation, fun _ ht => absurd ht List.not_mem_nil, fun _ ht => absurd ht List.not_mem_nil⟩

theorem Holding.steady (h : Holding me unbound loaded c) (hsound : Sound c) : Steady c unbound loaded c :=
  ⟨hsound, rfl, rfl, rfl, h.unbound, h.loaded⟩

theorem holding_of_steady {c' : Cell ι} (h : c.allocation = some me) (hsteady : Steady c unbound loaded c') :
    Holding me unbound loaded c' :=
  ⟨hsteady.allocation.trans h, hsteady.unbound, hsteady.loaded⟩

/-- A section of the owner. -/
theorem behaves_steady {l : Label} {x : Section ι α} {unbound' loaded' : List Text} (h : Holding me unbound loaded c)
    (hx : ∀ c' answers, Holding me unbound loaded c' → Sound c' → Careful l c' answers →
      Gives x c' fun _ c'' => Steady c' unbound' loaded' c'') :
    Behaves me (atomically l x) c fun _ c' => Holding me unbound' loaded' c' :=
  behaves_gives fun c' answers hframe hsound hcareful => by
    have hc' := h.frame hframe
    refine (hx c' answers hc' hsound hcareful).mono fun _ c'' hsteady => ?_
    exact ⟨hsteady.sound, guarantee_of_owner hc'.allocation hsteady.users, holding_of_steady hc'.allocation hsteady⟩

theorem behaves_keeps {l : Label} {x : Section ι α} (h : Holding me unbound loaded c)
    (hx : ∀ c', Keeps (Steady c' unbound loaded) x) :
    Behaves me (atomically l x) c fun _ c' => Holding me unbound loaded c' :=
  behaves_steady h fun c' _ hc' hsound _ => hx c' c' (hc'.steady hsound)

/-- A sequence of steps of the owner, whose errors release nothing that must be kept. -/
theorem behaves_holding {x : Call ι α} {f : α → Call ι β} {unbound' loaded' : List Text}
    (hx : Behaves me x c fun _ c' => Holding me unbound' loaded' c')
    (hf : ∀ a c', Holding me unbound' loaded' c' → Behaves me (f a) c' fun _ c'' => Holding me [] [] c'') :
    Behaves me (x >>= f) c fun _ c' => Holding me [] [] c' :=
  behaves_bind (hx.mono fun _ c' hc' => ⟨fun a _ => hf a c' hc', fun _ _ => hc'.lock⟩)

/-! ## Resuming and opening -/

/-- A new runtime needs a thread of its own. -/
def ownThread (t : ResumeTarget) (threadId : Text) : List Text := if t.existing.isNone then [threadId] else []

theorem mem_ownThread {t : ResumeTarget} {threadId u : Text} :
    u ∈ ownThread t threadId ↔ t.existing = none ∧ u = threadId := by
  rw [ownThread]
  split
  · next h => simp [Option.isNone_iff_eq_none.mp h]
  · next h => simpa using fun hnone => absurd hnone (by simpa using h)

theorem resumeTarget_gives (r : ResumeRequest) (c : Cell ι) : Gives (resumeTarget r) c fun result c' => c' = c ∧
    ∀ t, result = .ok t → t.existing = none → ∀ b ∈ c.bindings, b.threadId ≠ t.threadId := by
  have hbound : ∀ b t, boundTarget r b = .ok t → t.existing ≠ none := by
    intro b t ht
    rw [boundTarget] at ht
    split at ht
    · rw [← Except.ok.inj ht]
      exact fun h => nomatch h
    · exact nomatch ht
  rw [resumeTarget]
  split
  · apply gives_ask_bind
    intro _
    cases c.binding _ with
    | none => exact gives_throw ⟨rfl, fun _ he => nomatch he⟩
    | some b => exact gives_fromExcept ⟨rfl, fun t ht hnone => absurd hnone (hbound b t ht)⟩
  · next threadId _ _ =>
    apply gives_ask_bind
    intro _
    cases hfound : c.bindings.find? (·.threadId = threadId) with
    | some b => exact gives_fromExcept ⟨rfl, fun t ht hnone => absurd hnone (hbound b t ht)⟩
    | none =>
      refine gives_fromExcept ⟨rfl, fun t ht _ b hb heq => ?_⟩
      have hthread : t.threadId = threadId := by
        rw [unboundTarget] at ht
        split at ht
        · rw [← Except.ok.inj ht]
        · exact nomatch ht
      exact List.find?_eq_none.mp hfound b hb (by simpa using heq.trans hthread)
  · exact gives_throw ⟨rfl, fun _ he => nomatch he⟩

theorem releaseIfPending_keeps (threadId : Text) (c₀ : Cell ι) :
    Keeps (Steady c₀ unbound []) (releaseIfPending threadId) := by
  apply keeps_bind (keeps_ask _)
  intro isPending
  split
  · exact releaseThread_keeps List.not_mem_nil
  · exact keeps_pure ()

/-- A thread that the App Server has just loaded. -/
theorem Holding.load (h : Holding me unbound [] c) (hsound : Sound c) (t : Text) : Sound (c.load t) ∧
    Guarantee Frame me c (c.load t) ∧ Holding me unbound [t] (c.load t) := by
  refine ⟨hsound.load t, guarantee_of_owner h.allocation rfl, h.allocation, h.unbound, fun u hu hmem => ?_⟩
  exact (mem_without.mp hmem).2 (List.mem_singleton.mp hu)

theorem resumeThread_behaves (h : Holding me unbound [] c) :
    Behaves me (atomically .plain resumeThread) c fun r c' => Holding me unbound [] c' ∧
      ∀ thread, r = .ok (some thread) → Holding me unbound [thread.threadId] c' := by
  refine behaves_gives fun c' _ hframe hsound _ => ?_
  have hc' := h.frame hframe
  have hquiet := Guarantee.refl frame_relies me c'
  apply gives_ask_bind
  intro a
  cases a.threadResume with
  | loaded thread =>
    have hload := hc'.load hsound thread.threadId
    apply gives_change_bind
    refine gives_pure ⟨hload.1, hload.2.1, ⟨hload.2.2.allocation, hload.2.2.unbound, fun _ ht => absurd ht List.not_mem_nil⟩, ?_⟩
    intro x hx
    obtain rfl := Option.some.inj (Except.ok.inj hx)
    exact hload.2.2
  | noRollout => exact gives_pure ⟨hsound, hquiet, hc', fun _ hx => nomatch Except.ok.inj hx⟩
  | failed e => exact gives_throw ⟨hsound, hquiet, hc', fun _ hx => nomatch hx⟩

theorem startThread_behaves (h : Holding me unbound [] c) :
    Behaves me (atomically .start startThread) c fun r c' => Holding me [] [] c' ∧
      ∀ thread, r = .ok thread → Holding me [thread.threadId] [thread.threadId] c' := by
  refine behaves_atomically fun c' answers hframe hsound hcareful r c'' hr hc'' => ?_
  have hc' := h.frame hframe
  rw [hr, hc'']
  refine Gives.run_ask_bind (f := startedThread) (Q := fun r c'' => Sound c'' ∧ Guarantee Frame me c' c'' ∧
    Holding me [] [] c'' ∧ ∀ thread, r = .ok thread → Holding me [thread.threadId] [thread.threadId] c'') ?_
  cases hanswer : (answers 0).threadStart with
  | error e =>
    exact gives_throw ⟨hsound, Guarantee.refl frame_relies me c', hc'.lock, fun _ hx => nomatch hx⟩
  | ok thread =>
    have hnew := hcareful.1 thread hanswer
    have hown : Holding me [thread.threadId] [] c' :=
      ⟨hc'.allocation, fun u hu => List.mem_singleton.mp hu ▸ hnew, fun _ ht => absurd ht List.not_mem_nil⟩
    have hload := hown.load hsound thread.threadId
    apply gives_change_bind
    refine gives_pure ⟨hload.1, hload.2.1, hload.2.2.lock, fun x hx => ?_⟩
    rw [← Except.ok.inj hx]
    exact hload.2.2

theorem verified_eq {thread : LoadedThread} {threadId : Text} (h : verified thread = .ok threadId) :
    thread.threadId = threadId := by
  rw [verified] at h
  split at h
  · exact Except.ok.inj h
  · exact nomatch h

/-- What a commit needs of the connected thread. -/
abbrev Ready (me : ι) (t : ResumeTarget) (threadId : Text) (c : Cell ι) : Prop :=
  Holding me (ownThread t threadId) [threadId] c

theorem Holding.ready {threadId : Text} (h : Holding me [threadId] [threadId] c) (t : ResumeTarget) :
    Ready me t threadId c := by
  refine ⟨h.allocation, fun u hu => h.unbound u ?_, h.loaded⟩
  exact List.mem_singleton.mpr (mem_ownThread.mp hu).2

theorem recreate_behaves (t : ResumeTarget) (h : Holding me unbound [] c) :
    Behaves me (recreate t) c fun r c' => Holding me [] [] c' ∧ ∀ k, r = .ok k → Ready me t k.threadId c' := by
  refine behaves_bind ((startThread_behaves h).mono fun r c' hr => ⟨fun thread hok => ?_, fun _ _ =>
    ⟨hr.1, fun _ he => nomatch he⟩⟩)
  refine behaves_bind (behaves_fromExcept ⟨fun threadId hverified => ?_, fun _ _ => ⟨hr.1, fun _ he => nomatch he⟩⟩)
  refine behaves_pure ⟨hr.1, fun k hk => ?_⟩
  rw [← Except.ok.inj hk, ← verified_eq hverified]
  exact (hr.2 thread hok).ready t

theorem connect_behaves (t : ResumeTarget) (h : Holding me (ownThread t t.threadId) [] c) :
    Behaves me (connect t) c fun r c' => Holding me [] [] c' ∧ ∀ k, r = .ok k → Ready me t k.threadId c' := by
  refine behaves_bind (behaves_ask fun c₁ hframe hsound a => ⟨fun reused hreused => ?_, fun _ he => absurd he.symm error_ne_ok⟩)
  have hc₁ := h.frame hframe
  split
  · next htrue =>
    -- the thread of a reused connection is live, so it is loaded
    have hlive : t.threadId ∈ c₁.liveThreadIds := by
      have hall := Except.ok.inj hreused
      rw [htrue] at hall
      exact of_decide_eq_true (Bool.and_eq_true_iff.mp hall).2
    refine behaves_pure ⟨hc₁.lock, fun k hk => ?_⟩
    rw [← Except.ok.inj hk]
    exact ⟨hc₁.allocation, hc₁.unbound, fun u hu => List.mem_singleton.mp hu ▸ hsound.live _ hlive⟩
  · refine behaves_bind (acquireSlot_behaves fun r c₂ hframe₂ _ => ?_)
    have hc₂ := hc₁.frame hframe₂
    refine ⟨fun _ _ => ?_, fun _ _ => ⟨hc₂.lock, fun _ he => absurd he error_ne_ok⟩⟩
    refine behaves_bind ((resumeThread_behaves hc₂).mono fun r c₃ hr => ?_)
    refine ⟨fun resumed hok => ?_, fun _ _ => ⟨hr.1.lock, fun _ he => absurd he error_ne_ok⟩⟩
    cases resumed with
    | none => exact recreate_behaves t hr.1
    | some thread =>
      refine behaves_bind (behaves_fromExcept ⟨fun threadId hverified => ?_, fun _ _ => ⟨hr.1.lock, fun _ he => absurd he error_ne_ok⟩⟩)
      split
      · next hsame =>
        refine behaves_pure ⟨hr.1.lock, fun k hk => ?_⟩
        have hloaded := hr.2 thread hok
        rw [verified_eq hverified, hsame] at hloaded
        rw [← Except.ok.inj hk]
        dsimp only
        rw [hsame]
        exact hloaded
      · exact behaves_throw ⟨hr.1.lock, fun _ he => absurd he error_ne_ok⟩

theorem commitOrRelease_behaves (l : Limits) (t : ResumeTarget) (name : Option Text) (k : Connected)
    (h : Ready me t k.threadId c) :
    Behaves me (commitOrRelease l t name k) c fun _ c' => Holding me [] [] c' := by
  have hcommit : Behaves me (atomically .plain (commit l t name k.threadId)) c fun _ c' => Holding me [] [] c' := by
    refine behaves_steady h fun c' _ hc' hsound _ => ?_
    apply commit_gives hsound l t name (hc'.loaded _ (List.mem_singleton_self _))
    exact fun hnone => hc'.unbound _ (mem_ownThread.mpr ⟨hnone, rfl⟩)
  refine behaves_bind (upholdsAction_attempt (hcommit.mono fun r c₁ hc₁ => ⟨fun committed _ => ?_, fun _ _ => hc₁⟩))
  cases committed with
  | ok m => exact behaves_pure hc₁
  | error e =>
    have hcompensate : Behaves me (compensateAllocation k) c₁ fun _ c' => Holding me [] [] c' := by
      rw [compensateAllocation]
      split
      · exact behaves_pure hc₁
      · exact upholdsAction_attempt (behaves_keeps hc₁ fun _ => releaseThread_keeps List.not_mem_nil)
    exact behaves_holding hcompensate fun _ _ hc₂ => behaves_throw hc₂

theorem releasePrevious_behaves (k : Connected) (m : Committed) (h : Holding me [] [] c) :
    Behaves me (releasePrevious k m) c fun _ c' => Holding me [] [] c' := by
  rw [releasePrevious]
  split
  · exact behaves_pure h
  · next threadId _ =>
    refine behaves_atomically fun c' answers hframe hsound hcareful r c'' hr hc'' => ?_
    have hc' := h.frame hframe
    have hsteady := (releaseReplaced_gives hsound threadId m).run answers hcareful.2
    rw [← hc''] at hsteady
    exact ⟨hsteady.sound, guarantee_of_owner hc'.allocation hsteady.users, holding_of_steady hc'.allocation hsteady⟩

theorem resumeHeld_behaves (l : Limits) (r : ResumeRequest) (h : Holding me [] [] c) :
    Behaves me (resumeHeld l r) c fun _ c' => Holding me [] [] c' := by
  refine behaves_bind (behaves_gives (Q := fun result c' => Holding me [] [] c' ∧
    ∀ t, result = .ok t → Holding me (ownThread t t.threadId) [] c') ?_ |>.mono ?_)
  · intro c' _ hframe hsound _
    refine (resumeTarget_gives r c').mono fun result c'' hresult => ?_
    obtain ⟨rfl, hnew⟩ := hresult
    have hc' := h.frame hframe
    refine ⟨hsound, Guarantee.refl frame_relies me c'', hc', fun t hok => ⟨hc'.allocation, fun u hu => ?_, hc'.loaded⟩⟩
    have hown := mem_ownThread.mp hu
    rw [hown.2]
    exact hnew t hok hown.1
  · intro result c' hresult
    refine ⟨fun t hok => ?_, fun _ _ => hresult.1⟩
    apply behaves_holding (behaves_keeps (hresult.2 t hok) fun _ => syncConnectionGeneration_keeps)
    intro _ c₁ hc₁
    apply behaves_holding (behaves_keeps hc₁ fun c₀ => releaseIfPending_keeps t.threadId c₀)
    intro _ c₂ hc₂
    refine behaves_bind ((connect_behaves t hc₂).mono fun connected c₃ hc₃ => ⟨fun k hk => ?_, fun _ _ => hc₃.1⟩)
    apply behaves_holding (behaves_keeps (hc₃.2 k hk) fun _ => syncConnectionGeneration_keeps)
    intro _ c₄ hc₄
    apply behaves_holding (commitOrRelease_behaves l t none k hc₄)
    intro m c₅ hc₅
    apply behaves_holding (releasePrevious_behaves k m hc₅)
    exact fun _ _ hc₆ => behaves_pure hc₆

theorem openHeld_behaves (l : Limits) (cwd : Text) (sandbox : SandboxMode) (name : Option Text)
    (h : Holding me [] [] c) : Behaves me (openHeld l cwd sandbox name) c fun _ c' => Holding me [] [] c' := by
  apply behaves_holding (behaves_keeps h fun _ => ensureCapacityLocked_keeps (fun _ ht => ht) l 1)
  intro _ c₁ hc₁
  refine behaves_bind (acquireSlot_behaves fun _ c₂ hframe _ => ⟨fun _ _ => ?_, fun _ _ => hc₁.frame hframe⟩)
  refine behaves_bind ((startThread_behaves (hc₁.frame hframe)).mono fun r c₃ hr => ⟨fun thread hok => ?_, fun _ _ => hr.1⟩)
  refine behaves_bind (behaves_fromExcept ⟨fun threadId hverified => ?_, fun _ _ => hr.1⟩)
  have hthread := hr.2 thread hok
  rw [verified_eq hverified] at hthread
  apply behaves_holding (behaves_keeps (hthread.ready ⟨none, threadId, cwd, sandbox⟩) fun _ => syncConnectionGeneration_keeps)
  intro _ c₄ hc₄
  apply behaves_holding (commitOrRelease_behaves l _ name ⟨threadId, none, false⟩ hc₄)
  exact fun _ _ hc₅ => behaves_pure hc₅

theorem collectExpiredIdle_behaves (ttl : ℚ) (suppressErrors : Bool) (h : Holding me [] [] c) :
    Behaves me (atomically .cleanup (collectExpiredIdle ttl suppressErrors)) c fun _ c' => Holding me [] [] c' := by
  refine behaves_atomically fun c' answers hframe hsound hcareful r c'' hr hc'' => ?_
  have hc' := h.frame hframe
  have hsync : Steady c' [] [] (c'.syncGeneration (answers 0).generation) :=
    (hc'.steady hsound).syncGeneration (answers 0).generation
  have hunused : ∀ t ∈ (c'.syncGeneration (answers 0).generation).abandoned,
      Unused (c'.syncGeneration (answers 0).generation) t := by
    rw [abandoned_syncGeneration]
    exact hcareful.2
  have hsteady : Steady (c'.syncGeneration (answers 0).generation) [] [] c'' := by
    rw [hc'']
    exact Gives.run_sync_bind (k := fun _ => collectSynced ttl suppressErrors)
      (Q := fun _ c'' => Steady (c'.syncGeneration (answers 0).generation) [] [] c'')
      (collectSynced_gives hsync.sound hunused ttl suppressErrors)
  have howner : (c'.syncGeneration (answers 0).generation).allocation = some me := hsync.allocation.trans hc'.allocation
  exact ⟨hsteady.sound, guarantee_of_owner hc'.allocation (hsteady.users.trans hsync.users), holding_of_steady howner hsteady⟩

theorem acquireHeld_behaves (l : Limits) (cwd : Text) (sandbox : SandboxMode) (name : Option Text)
    (h : Holding me [] [] c) : Behaves me (acquireHeld l cwd sandbox name) c fun _ c' => Holding me [] [] c' := by
  cases name with
  | none => exact behaves_throw h
  | some given =>
    apply behaves_holding (collectExpiredIdle_behaves _ _ h)
    intro _ c₁ hc₁
    refine behaves_bind (behaves_ask fun c₂ hframe _ _ => ⟨fun existing _ => ?_, fun _ he => nomatch he⟩)
    cases existing with
    | none => exact openHeld_behaves l cwd sandbox (some given) (hc₁.frame hframe)
    | some b => exact resumeHeld_behaves l _ (hc₁.frame hframe)

/-! ## All calls -/

theorem takeAllocation_behaves (n : ℕ) :
    Behaves me (takeAllocation me n) c fun r c' => r = .ok () → Holding me [] [] c' := by
  induction n generalizing c with
  | zero => exact behaves_throw fun he => nomatch he
  | succ n ih =>
    refine behaves_bind (behaves_gives (Q := fun r c' => r = .ok true → Holding me [] [] c') ?_ |>.mono ?_)
    · intro c' _ _ hsound _
      apply gives_ask_bind
      intro _
      split
      · next hfree =>
        apply gives_change_bind
        refine gives_pure ⟨hsound.forget (List.Sublist.refl _) rfl rfl rfl rfl fun _ ht => ht, fun j _ => ?_, fun _ =>
          ⟨rfl, fun _ ht => absurd ht List.not_mem_nil, fun _ ht => absurd ht List.not_mem_nil⟩⟩
        refine ⟨fun _ hj => hj, fun hheld => ?_⟩
        rw [Option.isNone_iff_eq_none.mp hfree] at hheld
        exact nomatch hheld
      · exact gives_pure ⟨hsound, Guarantee.refl frame_relies me c', fun he => nomatch Except.ok.inj he⟩
    · intro r c' hr
      refine ⟨fun taken hok => ?_, fun _ _ he => nomatch he⟩
      cases taken with
      | true => exact behaves_pure fun _ => hr hok
      | false => exact ih

theorem holdingAllocation_behaves (n : ℕ) {x : Call ι α}
    (hx : ∀ c', Holding me [] [] c' → Behaves me x c' fun _ c'' => Holding me [] [] c'') :
    Behaves me (holdingAllocation me n x) c fun _ _ => True := by
  refine behaves_bind ((takeAllocation_behaves n).mono fun r c₁ hr => ⟨fun _ hok => ?_, fun _ _ => trivial⟩)
  refine behaves_bind (upholdsAction_attempt ((hx c₁ (hr hok)).mono fun r c₂ hc₂ => ⟨fun result _ => ?_, fun _ _ => trivial⟩))
  refine behaves_bind (behaves_gives fun c₃ _ hframe hsound _ => gives_change ?_)
  refine ⟨hsound.forget (List.Sublist.refl _) rfl rfl rfl rfl fun _ ht => ht,
    guarantee_of_owner (hc₂.frame hframe).allocation rfl, fun _ _ => behaves_fromExcept trivial, fun _ _ => trivial⟩

theorem program_behaves [DecidableEq ι] (l : Limits) (call : RuntimeCall) :
    Behaves me (call.program l me) c fun _ _ => True := by
  have hquiet : ∀ {f : Cell ι → Cell ι}, (∀ c, Sound c → Aside me c (f c)) →
      Behaves me (atomically .plain (change f)) c fun _ _ => True := fun hf =>
    behaves_aside fun c' _ _ hsound _ => gives_change ⟨hf c' hsound, trivial⟩
  cases call with
  | execCommand runtimeId checks => exact execCommand_behaves runtimeId checks
  | mcpInventory runtimeId checks => exact mcpInventory_behaves runtimeId checks
  | mcpCall runtimeId checks => exact mcpCall_behaves runtimeId checks
  | status runtimeId =>
    refine behaves_then (behaves_aside fun c' _ _ hsound _ => ?_) fun _ _ => behaves_pure trivial
    exact (runtimeStatus_gives hsound runtimeId).mono fun _ _ h => ⟨h, trivial⟩
  | close n runtimeId releaseResources =>
    refine holdingAllocation_behaves n fun c' hc' => ?_
    refine behaves_holding (behaves_steady hc' fun c₁ _ _ hsound _ => ?_) fun _ _ hc₂ => behaves_pure hc₂
    exact closeLocked_gives hsound runtimeId releaseResources
  | collect n suppressErrors =>
    refine holdingAllocation_behaves n fun c' hc' => ?_
    exact behaves_holding (collectExpiredIdle_behaves _ suppressErrors hc') fun _ _ hc₁ => behaves_pure hc₁
  | openRuntime n cwd sandbox name => exact holdingAllocation_behaves n fun _ => openHeld_behaves l cwd sandbox name
  | resume n r => exact holdingAllocation_behaves n fun _ => resumeHeld_behaves l r
  | acquire n cwd sandbox name => exact holdingAllocation_behaves n fun _ => acquireHeld_behaves l cwd sandbox name
  | shutdown n =>
    refine holdingAllocation_behaves n fun c' hc' => ?_
    refine behaves_holding (behaves_keeps hc' fun _ => keeps_change fun c₁ hc₁ => ?_) fun _ _ hc₂ => behaves_pure hc₂
    exact ⟨hc₁.sound.detachAll, hc₁.allocation, hc₁.users, hc₁.active, fun _ ht => absurd ht List.not_mem_nil, hc₁.loaded⟩
  | lateAnswer threadId =>
    refine behaves_then (hquiet fun c' hsound => ⟨?_, ⟨rfl, rfl, rfl⟩, fun _ _ _ hj => hj⟩) fun _ _ => behaves_pure trivial
    exact hsound.forget (List.Sublist.refl _) rfl rfl rfl rfl fun _ ht => ht
  | processEnded =>
    refine behaves_then (hquiet fun c' hsound => ⟨?_, ⟨rfl, rfl, rfl⟩, fun _ _ _ hj => hj⟩) fun _ _ => behaves_pure trivial
    exact hsound.forget (List.Sublist.refl _) rfl rfl rfl rfl fun _ ht => ht

end

theorem sound_startCell {bindings : List RuntimeBinding} (hids : (bindings.map (·.runtimeId)).Nodup)
    (generation : Option ℕ) : Sound (startCell bindings generation : Cell ι) where
  nodup := hids
  attached _ _ := ⟨fun h => absurd h List.not_mem_nil, fun _ => List.not_mem_nil⟩
  used _ _ h := absurd h (Nat.lt_irrefl 0)
  counted _ := rfl
  live _ h := absurd h List.not_mem_nil

/-- In a run of careful steps closed runtimes are detached, and no ready runtime has a thread that
was released and not loaded since. -/
theorem closed_runtimes_stay_detached [DecidableEq ι] (l : Limits) {bindings : List RuntimeBinding}
    (hids : (bindings.map (·.runtimeId)).Nodup) (generation : Option ℕ) (calls : ι → RuntimeCall)
    {p : System ι Label (Cell ι) (ℕ → Answer) (Except CodexError Reply)}
    (hrun : Runs Careful (startSystem l bindings generation calls) p) : Attached p.state :=
  (runs_invariant frame_relies hrun (sound_startCell hids generation) fun i => program_behaves l (calls i)).1.attached

/-! ## A late touch -/

def limits : Limits := ⟨64, 28800⟩

def storedBinding : RuntimeBinding where
  runtimeId := txt "rt_1"
  threadId := txt "thread-1"
  cwd := txt "/work"
  sandbox := .readOnly
  name := none
  createdAt := 0
  lastUsedAt := 0
  status := .detached
  mcpServerCount := none

/-- An App Server that does what it is asked. -/
def willing (_ : ℕ) : Answer where
  now := 1
  running := true
  generation := some 1
  pendingOperations := false
  ownsThread := false
  release := .ok true
  saved := .ok ()
  gcStop := false
  slotFree := true
  newRuntimeId := txt "rt_2"
  threadStart := .error (.adapter (txt "codex_app_server_unavailable"))
  threadResume := .loaded ⟨txt "thread-1", true⟩
  commandExec := .ok ⟨some 0, some [], some []⟩
  mcpInventory := .ok (some 0)
  mcpCall := .ok (some false)
  arrange ts := ts
  arrange_perm := List.Perm.refl

/-- A resume, a command and a close of one runtime. -/
inductive Party
  | resumer
  | commander
  | closer
  deriving DecidableEq

def racingCalls : Party → RuntimeCall
  | .resumer => .resume 1 ⟨some (txt "rt_1"), none, none, none⟩
  | .commander => .execCommand (txt "rt_1") fun _ => .ok ()
  | .closer => .close 1 (txt "rt_1") true

def racingSystem : System Party Label (Cell Party) (ℕ → Answer) (Except CodexError Reply) :=
  startSystem limits [storedBinding] (some 1) racingCalls

/-- The resume runs to its end, the command leaves its slot, the close succeeds, and then the
command touches the runtime. -/
def racingSteps : List (Party × (ℕ → Answer)) :=
  (List.replicate 10 Party.resumer ++ List.replicate 5 Party.commander ++ List.replicate 3 Party.closer ++
    [Party.commander]).map fun i => (i, willing)

theorem newThread_willing (l : Label) (c : Cell ι) : NewThread l c willing := by
  cases l with
  | start => exact fun _ h => nomatch h
  | _ => trivial

/-- The late touch makes a closed runtime ready whose thread was released. -/
theorem closed_runtime_ready_again : ∃ p, Runs NewThread racingSystem p ∧ ∃ b ∈ p.state.bindings,
    b.status = .ready ∧ b.runtimeId ∈ p.state.closed ∧ b.threadId ∈ p.state.released := by
  have hmet : ∀ step ∈ racingSteps, ∀ l (c : Cell Party), NewThread l c step.2 := by
    intro step hstep l c
    obtain ⟨i, _, rfl⟩ := List.mem_map.mp hstep
    exact newThread_willing l c
  have hready : (racingSystem.acts racingSteps).state.bindings.any (fun b => b.status = .ready ∧
      b.runtimeId ∈ (racingSystem.acts racingSteps).state.closed ∧
      b.threadId ∈ (racingSystem.acts racingSteps).state.released) = true := by decide +kernel
  obtain ⟨b, hb, hfound⟩ := List.any_eq_true.mp hready
  exact ⟨_, runs_acts hmet (Runs.refl _), b, hb, of_decide_eq_true hfound⟩

/-- Closing a stored runtime that nobody has resumed. -/
def closingCalls : Unit → RuntimeCall := fun _ => .close 1 (txt "rt_1") false

def closingSystem : System Unit Label (Cell Unit) (ℕ → Answer) (Except CodexError Reply) :=
  startSystem limits [storedBinding] (some 1) closingCalls

theorem closing_stays_detached : Attached (((closingSystem.act () willing).act () willing).act () willing).state := by
  have hids : ([storedBinding].map (·.runtimeId)).Nodup := List.nodup_singleton _
  have hplain : ∀ c : Cell Unit, Careful .plain c willing := fun _ => ⟨trivial, trivial⟩
  have htaken : Runs Careful closingSystem (closingSystem.act () willing) := (Runs.refl closingSystem).act () (hplain _)
  have hclosed : Runs Careful closingSystem ((closingSystem.act () willing).act () willing) := htaken.act () (hplain _)
  exact closed_runtimes_stay_detached limits hids (some 1) closingCalls (hclosed.act () (hplain _))

end WebOauthMcp.CodexDetachment
