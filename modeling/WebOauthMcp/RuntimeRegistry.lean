import WebOauthMcp.CodexEviction

/-!
# The registry of runtimes

The calls of the manager in any order are steps of a bounded registry: each act forgets some
runtimes, and then it may put one, in place of the same runtime or where there is room for one more.
The owner of the allocation lock relies on the registry as it is. What it puts has the settled fields
of the runtime that it replaces, a thread that no other runtime has, and, if it is found by its
name, a name that is free in its directory and sandbox.
-/

namespace WebOauthMcp.RuntimeRegistry
open CodePoints Words FaultyPrograms RelyGuarantee CodexRuntimes CodexCalls CodexBindings CodexSections CodexEviction Registries
open CodexDetachment (NewThread verified_eq storedBinding limits willing)

variable {ι α β : Type}

/-- What never changes about a runtime. -/
def settled (i : Identity) : Text × SandboxMode × Option Text × ℚ := (i.cwd, i.sandbox, i.name, i.createdAt)

/-- What an acquire looks for. -/
def key (i : Identity) : Option (Text × SandboxMode × Text) := i.name.map fun n => (i.cwd, i.sandbox, n)

/-- What a run is about: the limits, the number of the bindings that were stored, whether threads
and ids are new, and whether only acquires give names. -/
structure Terms where
  limits : Limits
  stored : ℕ
  honest : Prop
  named : Prop

variable {T : Terms}

/-- What an entry that is put has to fit. -/
structure Fits (T : Terms) (t : List Identity) (e : Identity) : Prop where
  settled : T.honest → ∀ a ∈ t, a.runtimeId = e.runtimeId → settled a = settled e
  thread : T.honest → ∀ a ∈ t, a.threadId = e.threadId → a.runtimeId = e.runtimeId
  key : T.named → ∀ a ∈ t, ∀ k, key a = some k → key e = some k → a.runtimeId = e.runtimeId

/-- A step of the registry. -/
abbrev Act (T : Terms) : List Identity → List Identity → Prop := Step Identity.runtimeId T.limits.maxRuntimes (Fits T)

structure Orderly (T : Terms) (t : List Identity) : Prop where
  bounded : t.length ≤ max T.stored T.limits.maxRuntimes
  nodup : (t.map Identity.runtimeId).Nodup
  threads : T.honest → Unique Identity.runtimeId (fun i => some i.threadId) t
  keys : T.named → Unique Identity.runtimeId key t

theorem Orderly.act {t t' : List Identity} (h : Orderly T t) (hact : Act T t t') : Orderly T t' where
  bounded := hact.bounded (Nat.le_max_right _ _) h.bounded
  nodup := hact.nodup h.nodup
  threads hhonest := by
    apply hact.unique (fun e he a ha v hav hev => ?_) (h.threads hhonest)
    exact he.thread hhonest a ha (Option.some.inj (hav.trans hev.symm))
  keys hnamed := hact.unique (fun _ he => he.key hnamed) (h.keys hnamed)

/-- `thread/start` answers with a thread that is new, and the id that is drawn for a runtime is new. -/
def AllNew (x : Label) (c : Cell ι) (answers : ℕ → Answer) : Prop :=
  NewThread x c answers ∧ ∀ n, (answers n).newRuntimeId ∉ ids c

def Fresh (honest : Prop) (x : Label) (c : Cell ι) (answers : ℕ → Answer) : Prop := honest → AllNew x c answers

theorem Orderly.ids {c : Cell ι} (h : Orderly T (table c)) : (ids c).Nodup := map_runtimeId_table c ▸ h.nodup

/-! ## Reliance -/

/-- Others leave the registry alone while `i` holds the allocation lock. -/
def Leaves (i : ι) (c c' : Cell ι) : Prop := c.allocation = some i → Still c c'

theorem leaves_relies : Relies (Leaves : ι → Cell ι → Cell ι → Prop) where
  refl _ c _ := Still.refl c
  trans i a b c hab hbc ha := by
    have hb := hab ha
    have hc := hbc (hb.allocation.trans ha)
    exact ⟨hc.table.trans hb.table, hc.allocation.trans hb.allocation⟩

/-- What an act of `me` does to the registry. -/
structure Does (T : Terms) (me : ι) (c c' : Cell ι) : Prop where
  others : Guarantee Leaves me c c'
  act : Act T (table c) (table c')

theorem act_of_table {c c' : Cell ι} (h : table c' = table c) : Act T (table c) (table c') :=
  .forget (h ▸ List.Sublist.refl _)

theorem does_still {me : ι} {c c' : Cell ι} (h : Still c c') : Does T me c c' :=
  ⟨fun _ _ _ => h, act_of_table h.table⟩

theorem does_held {me : ι} {c c' : Cell ι} (hme : c.allocation = some me) (h : Act T (table c) (table c')) :
    Does T me c c' :=
  ⟨fun _ hj hother => absurd (Option.some.inj (hother.symm.trans hme)) hj, h⟩

/-- A call makes steps of the registry, whatever the others do. -/
abbrev Registers (T : Terms) (me : ι) (x : Call ι α) (c : Cell ι) (Q : Except CodexError α → Cell ι → Prop) : Prop :=
  UpholdsAction (Fresh T.honest) (fun c => Orderly T (table c)) (Leaves me) (Does T me) x c Q

section
variable {me : ι} {c : Cell ι}

theorem registers_bind {x : Call ι α} {f : α → Call ι β} {Q : Except CodexError β → Cell ι → Prop}
    (h : Registers T me x c fun r c' => (∀ a, r = .ok a → Registers T me (f a) c' Q) ∧ ∀ e, r = .error e → Q (.error e) c') :
    Registers T me (x >>= f) c Q := upholdsAction_bind h

theorem registers_pure {a : α} {Q : Except CodexError α → Cell ι → Prop} (h : Q (.ok a) c) :
    Registers T me (pure a) c Q := h

theorem registers_throw {e : CodexError} {Q : Except CodexError α → Cell ι → Prop} (h : Q (.error e) c) :
    Registers T me (throw e) c Q := h

theorem registers_fromExcept {r : Except CodexError α} {Q : Except CodexError α → Cell ι → Prop} (h : Q r c) :
    Registers T me (fromExcept r) c Q := h

/-- A section alone, under its answers. -/
theorem registers_atomically {x : Label} {y : Section ι α} {Q : Except CodexError α → Cell ι → Prop}
    (h : ∀ c' answers, Leaves me c c' → Orderly T (table c') → Fresh T.honest x c' answers → ∀ r c'',
      r = (runSection y answers c').result → c'' = (runSection y answers c').store () → Does T me c' c'' ∧ Q r c'') :
    Registers T me (atomically x y) c Q := by
  intro c' answers hleaves horderly hfresh
  have hsection := h c' answers hleaves horderly hfresh _ _ rfl rfl
  exact ⟨horderly.act hsection.1.act, hsection.1, hsection.2⟩

theorem registers_gives {x : Label} {y : Section ι α} {Q : Except CodexError α → Cell ι → Prop}
    (h : ∀ c', Leaves me c c' → Orderly T (table c') → Gives y c' fun r c'' => Does T me c' c'' ∧ Q r c'') :
    Registers T me (atomically x y) c Q := by
  apply registers_atomically
  intro c' answers hleaves horderly _ r c'' hr hc''
  rw [hr, hc'']
  exact (h c' hleaves horderly).run answers

/-! ## Requests -/

/-- A section that leaves the registry alone. -/
theorem registers_still {x : Label} {y : Section ι α} (h : ∀ c' : Cell ι, (ids c').Nodup → Gives y c' fun _ c'' => Still c' c'') :
    Registers T me (atomically x y) c fun _ _ => True := by
  apply registers_gives
  intro c' _ horderly
  exact (h c' horderly.ids).mono fun _ _ hstill => ⟨does_still hstill, trivial⟩

/-- A sequence of steps that rely on nothing from each other. -/
theorem registers_then {x : Call ι α} {f : α → Call ι β} (hx : Registers T me x c fun _ _ => True)
    (hf : ∀ a c', Registers T me (f a) c' fun _ _ => True) : Registers T me (x >>= f) c fun _ _ => True :=
  registers_bind (hx.mono fun _ c' _ => ⟨fun a _ => hf a c', fun _ _ => trivial⟩)

theorem detach_still {c : Cell ι} (hids : (ids c).Nodup) (runtimeId : Text) : Still c (c.detach runtimeId) := by
  refine ⟨table_detach hids runtimeId, ?_⟩
  rw [Cell.detach]
  cases c.binding runtimeId <;> rfl

theorem touched_still {c : Cell ι} (hids : (ids c).Nodup) (runtimeId : Text) (count : Option ℕ) (now : ℚ) :
    Still c (c.touched runtimeId count now) := by
  refine ⟨table_touched hids runtimeId count now, ?_⟩
  rw [Cell.touched]
  cases c.binding runtimeId <;> rfl

theorem activeBinding_still {c : Cell ι} (hids : (ids c).Nodup) (runtimeId : Text) :
    Gives (activeBinding runtimeId) c fun _ c' => Still c c' := by
  apply gives_ask_bind
  intro _
  cases c.binding runtimeId with
  | none => exact gives_throw (Still.refl c)
  | some b =>
    apply gives_ask_bind
    intro a
    split
    · split
      · exact gives_pure (Still.refl c)
      · exact gives_throw (Still.refl c)
    · apply gives_change_bind
      exact gives_throw (detach_still hids runtimeId)

theorem runtimeStatus_still {c : Cell ι} (hids : (ids c).Nodup) (runtimeId : Text) :
    Gives (runtimeStatus runtimeId) c fun _ c' => Still c c' := by
  apply gives_ask_bind
  intro _
  cases c.binding runtimeId with
  | none => exact gives_throw (Still.refl c)
  | some b =>
    apply gives_ask_bind
    intro a
    split
    · apply gives_change_bind
      exact gives_pure (detach_still hids runtimeId)
    · exact gives_pure (Still.refl c)

theorem touch_still {c : Cell ι} (hids : (ids c).Nodup) (runtimeId : Text) (count : Option ℕ) :
    Gives (touch runtimeId count) c fun _ c' => Still c c' := by
  apply gives_ask_bind
  intro a
  exact gives_change (touched_still hids runtimeId count a.now)

theorem touch_registers (x : Label) (runtimeId : Text) (count : Option ℕ) :
    Registers T me (atomically x (touch runtimeId count)) c fun _ _ => True :=
  registers_still fun _ hids => touch_still hids runtimeId count

theorem ask_registers {x : Label} (g : Answer → Cell ι → α) : Registers T me (atomically x (ask g)) c fun _ _ => True :=
  registers_still fun c' _ => gives_ask fun _ => Still.refl c'

theorem activeBinding_registers (runtimeId : Text) :
    Registers T me (atomically .plain (activeBinding runtimeId)) c fun _ _ => True :=
  registers_still fun _ hids => activeBinding_still hids runtimeId

theorem acquireSlot_registers : Registers T me acquireSlot c fun _ _ => True := by
  apply registers_then (ask_registers _)
  intro free _
  split
  · exact registers_pure trivial
  · exact registers_throw trivial

theorem register_still [DecidableEq ι] {c : Cell ι} (hids : (ids c).Nodup) (runtimeId threadId : Text) :
    Gives (register me runtimeId threadId) c fun _ c' => Still c c' := by
  refine gives_bind ((activeBinding_still hids runtimeId).mono fun r c' hstill => ⟨fun b _ => ?_, fun _ _ => hstill⟩)
  split
  · exact gives_change ⟨hstill.table, hstill.allocation⟩
  · exact gives_throw hstill

section
variable [DecidableEq ι]

theorem leaveSlot_still {c : Cell ι} (hids : (ids c).Nodup) (runtimeId : Text) :
    Gives (leaveSlot me runtimeId) c fun _ c' => Still c c' :=
  gives_bind ((touch_still hids runtimeId none).mono fun _ _ hstill =>
    ⟨fun _ _ => gives_change ⟨hstill.table, hstill.allocation⟩, fun _ _ => hstill⟩)

theorem withRequestSlot_registers (runtimeId threadId : Text) (call : Answer → Except CodexError β) :
    Registers T me (withRequestSlot me runtimeId threadId call) c fun _ _ => True := by
  apply registers_then acquireSlot_registers
  intro _ _
  apply registers_then (registers_still fun _ hids => register_still hids runtimeId threadId)
  intro _ _
  apply registers_then (ask_registers _)
  intro result _
  apply registers_then (registers_still fun _ hids => leaveSlot_still hids runtimeId)
  exact fun _ _ => registers_fromExcept trivial

theorem execCommand_registers (runtimeId : Text) (checks : Checks) :
    Registers T me (execCommand me runtimeId checks) c fun _ _ => True := by
  apply registers_then (activeBinding_registers runtimeId)
  intro b _
  apply registers_then (registers_fromExcept trivial)
  intro _ _
  apply registers_then (withRequestSlot_registers runtimeId b.threadId _)
  intro result _
  apply registers_then (touch_registers _ runtimeId none)
  exact fun _ _ => registers_fromExcept trivial

theorem mcpInventory_registers (runtimeId : Text) (checks : Checks) :
    Registers T me (mcpInventory me runtimeId checks) c fun _ _ => True := by
  apply registers_then (activeBinding_registers runtimeId)
  intro b _
  apply registers_then (registers_fromExcept trivial)
  intro _ _
  apply registers_then (withRequestSlot_registers runtimeId b.threadId _)
  intro result c'
  cases result with
  | none => exact registers_throw trivial
  | some serverCount =>
    apply registers_then (touch_registers _ runtimeId (some serverCount))
    exact fun _ _ => registers_pure trivial

theorem mcpCall_registers (runtimeId : Text) (checks : Checks) :
    Registers T me (mcpCall me runtimeId checks) c fun _ _ => True := by
  apply registers_then (activeBinding_registers runtimeId)
  intro b _
  apply registers_then (registers_fromExcept trivial)
  intro _ _
  apply registers_then (withRequestSlot_registers runtimeId b.threadId _)
  intro result _
  apply registers_then (touch_registers _ runtimeId none)
  intro _ _
  cases result with
  | none => exact registers_throw trivial
  | some isError => exact registers_pure trivial

end

end

/-! ## The owner of the allocation lock -/

/-- The lock is held, and `K` is known of the registry. -/
structure Held (me : ι) (K : List Identity → Prop) (c : Cell ι) : Prop where
  allocation : c.allocation = some me
  known : K (table c)

/-- Nothing is known. -/
abbrev Holds (me : ι) (c : Cell ι) : Prop := Held me (fun _ => True) c

section
variable {me : ι} {c : Cell ι} {K K' : List Identity → Prop}

theorem Held.leaves {c' : Cell ι} (h : Held me K c) (hleaves : Leaves me c c') : Held me K c' := by
  have hstill := hleaves h.allocation
  exact ⟨hstill.allocation.trans h.allocation, hstill.table.symm ▸ h.known⟩

theorem Held.still {c' : Cell ι} (h : Held me K c) (hstill : Still c c') : Held me K c' :=
  ⟨hstill.allocation.trans h.allocation, hstill.table.symm ▸ h.known⟩

theorem Held.mono (h : Held me K c) (hk : ∀ t, K t → K' t) : Held me K' c := ⟨h.allocation, hk _ h.known⟩

theorem Held.holds (h : Held me K c) : Holds me c := h.mono fun _ _ => trivial

/-- A section of the owner. -/
theorem registers_held {x : Label} {y : Section ι α} {Q : Except CodexError α → Cell ι → Prop} (h : Held me K c)
    (hy : ∀ c', Held me K c' → Orderly T (table c') →
      Gives y c' fun r c'' => Act T (table c') (table c'') ∧ Q r c'') :
    Registers T me (atomically x y) c Q := by
  apply registers_gives
  intro c' hleaves horderly
  have hc' := h.leaves hleaves
  exact (hy c' hc' horderly).mono fun _ _ hr => ⟨does_held hc'.allocation hr.1, hr.2⟩

/-- A section of the owner that leaves the registry alone. -/
theorem registers_held_still {x : Label} {y : Section ι α} (h : Held me K c) (hy : ∀ c₀ : Cell ι, Keeps (Still c₀) y) :
    Registers T me (atomically x y) c fun _ c' => Held me K c' := by
  apply registers_held h
  intro c' hc' _
  exact (hy c' c' (Still.refl c')).mono fun _ _ hstill => ⟨act_of_table hstill.table, hc'.still hstill⟩

/-- A section of the owner that only forgets, where what is known survives that. -/
theorem registers_held_shrunk {x : Label} {y : Section ι α} (h : Held me K c) (hk : ∀ t t', List.Sublist t' t → K t → K t')
    (hy : ∀ c' : Cell ι, (ids c').Nodup → Gives y c' fun _ c'' => Shrunk c' c'') :
    Registers T me (atomically x y) c fun _ c' => Held me K c' := by
  apply registers_held h
  intro c' hc' horderly
  refine (hy c' horderly.ids).mono fun _ c'' hshrunk => ⟨.forget hshrunk.table, ?_⟩
  exact ⟨hshrunk.allocation.trans hc'.allocation, hk _ _ hshrunk.table hc'.known⟩

/-- A sequence of steps of the owner. -/
theorem registers_holding {x : Call ι α} {f : α → Call ι β} (hx : Registers T me x c fun _ c' => Held me K c')
    (hf : ∀ a c', Held me K c' → Registers T me (f a) c' fun _ c'' => Holds me c'') :
    Registers T me (x >>= f) c fun _ c' => Holds me c' :=
  registers_bind (hx.mono fun _ c' hc' => ⟨fun a _ => hf a c' hc', fun _ _ => hc'.holds⟩)

theorem acquireSlot_held (h : Held me K c) : Registers T me acquireSlot c fun _ c' => Held me K c' := by
  refine registers_bind ((registers_held_still h fun c₀ => keeps_ask _).mono fun _ c' hc' => ⟨fun free _ => ?_, fun _ _ => hc'⟩)
  split
  · exact registers_pure hc'
  · exact registers_throw hc'

/-! ## Committing -/

/-- What is known of the runtime that a resume is about. -/
structure Targets (t : ResumeTarget) (table : List Identity) : Prop where
  bound : ∀ b, t.existing = some b → identity b ∈ table
  unbound : t.existing = none → ∀ a ∈ table, a.threadId ≠ t.threadId

/-- No other runtime has the thread. -/
def OwnThread (honest : Prop) (t : ResumeTarget) (threadId : Text) (table : List Identity) : Prop :=
  honest → ∀ a ∈ table, a.threadId = threadId → ∃ b, t.existing = some b ∧ a.runtimeId = b.runtimeId

/-- The name of a new runtime is free. -/
def FreeName (named : Prop) (cwd : Text) (sandbox : SandboxMode) (name : Option Text) (table : List Identity) : Prop :=
  named → ∀ n, name = some n → ∀ a ∈ table, key a ≠ some (cwd, sandbox, n)

/-- What a commit relies on. -/
structure Ready (T : Terms) (t : ResumeTarget) (name : Option Text) (threadId : Text) (table : List Identity) : Prop where
  bound : ∀ b, t.existing = some b → identity b ∈ table
  thread : OwnThread T.honest t threadId table
  free : t.existing = none → FreeName T.named t.cwd t.sandbox name table

/-- The directory of a runtime is the one that it was bound with. -/
def SameDirectory (t : ResumeTarget) : Prop := ∀ b, t.existing = some b → t.cwd = b.cwd

theorem fits_readyBinding {t : ResumeTarget} {name : Option Text} {threadId newRuntimeId : Text} {table : List Identity}
    (hdirectory : SameDirectory t) (hready : Ready T t name threadId table) (horderly : Orderly T table)
    (hnew : T.honest → newRuntimeId ∉ table.map Identity.runtimeId) (now : ℚ) :
    Fits T table (identity (readyBinding t name threadId newRuntimeId now)) := by
  have hthread := hready.thread
  cases hexisting : t.existing with
  | none =>
    simp only [readyBinding, hexisting]
    refine ⟨fun hhonest a ha hid => ?_, fun hhonest a ha hid => ?_, fun hnamed a ha k hak hek => ?_⟩
    · exact absurd (List.mem_map.mpr ⟨a, ha, hid⟩) (hnew hhonest)
    · obtain ⟨b, hb, -⟩ := hthread hhonest a ha hid
      exact elim_none (hexisting.symm.trans hb)
    · obtain ⟨n, hn, hkey⟩ := Option.map_eq_some_iff.mp hek
      exact absurd (hak.trans (congrArg some hkey.symm)) (hready.free hexisting hnamed n hn a ha)
  | some b =>
    have hb := hready.bound b hexisting
    have hcwd := hdirectory b hexisting
    simp only [readyBinding, hexisting]
    refine ⟨fun _ a ha hid => ?_, fun hhonest a ha hid => ?_, fun hnamed a ha k hak hek => ?_⟩
    · rw [List.inj_on_of_nodup_map horderly.nodup ha hb hid]
      simp only [settled, identity, hcwd]
    · obtain ⟨x, hx, hax⟩ := hthread hhonest a ha hid
      rw [hexisting] at hx
      exact Option.some.inj hx ▸ hax
    · refine horderly.keys hnamed a ha (identity b) hb k hak ?_
      rw [← hek]
      simp only [key, identity, hcwd]

theorem makeRoom_gives {c : Cell ι} (hids : (ids c).Nodup) (l : Limits) (t : ResumeTarget) :
    Gives (makeRoom l t) c fun r c' => Shrunk c c' ∧ (t.existing ≠ none → Still c c') ∧
      ∀ evicted, r = .ok evicted → t.existing = none → c'.bindings.length < l.maxRuntimes := by
  rw [makeRoom]
  split
  · next hnone =>
    have hnew : t.existing = none := Option.isNone_iff_eq_none.mp hnone
    refine (ensureCapacityLocked_evicts hids l one_pos).mono fun r c' hroom => ⟨?_, fun h => absurd hnew h, fun evicted hok _ => ?_⟩
    · exact hroom.shrunk
    · subst hok
      exact hroom.room hids
  · next hsome => exact gives_pure ⟨(Still.refl c).shrunk, fun _ => Still.refl c, fun _ _ hnone => absurd (by simp [hnone]) hsome⟩

theorem commit_does {t : ResumeTarget} {name : Option Text} {threadId : Text} {answers : ℕ → Answer} {c : Cell ι}
    (hdirectory : SameDirectory t) (hready : Ready T t name threadId (table c)) (horderly : Orderly T (table c))
    (hnew : T.honest → (answers 0).newRuntimeId ∉ ids c) :
    Act T (table c) (table ((runSection (commit T.limits t name threadId) answers c).store ())) ∧
      ((runSection (commit T.limits t name threadId) answers c).store ()).allocation = c.allocation := by
  have hids : (ids c).Nodup := horderly.ids
  apply Gives.run_ask_bind (Q := fun _ c' => Act T (table c) (table c') ∧ c'.allocation = c.allocation)
  apply gives_ask_bind
  intro a
  refine gives_bind ((makeRoom_gives hids T.limits t).mono fun r c₁ hroom =>
    ⟨fun evicted hok => ?_, fun _ _ => ⟨.forget hroom.1.table, hroom.1.allocation⟩⟩)
  apply gives_change_bind
  apply gives_ask_bind
  intro _
  have hforgot : Act T (table c) (table c₁) := .forget hroom.1.table
  refine gives_bind (gives_ask_bind fun answer => gives_bind (gives_fromExcept ⟨fun _ _ => gives_change ?_, fun _ _ => ?_⟩))
  · refine ⟨fun _ _ => gives_pure ⟨?_, hroom.1.allocation⟩, fun _ he => elim_ok he⟩
    have hput : table ((c₁.addLive threadId).commitBinding (readyBinding t name threadId (answers 0).newRuntimeId a.now)) =
        put Identity.runtimeId (identity (readyBinding t name threadId (answers 0).newRuntimeId a.now)) (table c₁) :=
      table_put (c₁.addLive threadId) _
    rw [hput]
    refine .put hroom.1.table ?_ (fits_readyBinding hdirectory hready horderly ((map_runtimeId_table c).symm ▸ hnew) a.now)
    cases hexisting : t.existing with
    | none =>
      right
      rw [length_table]
      exact hroom.2.2 evicted hok hexisting
    | some b =>
      left
      have hb : identity b ∈ table c₁ := by
        rw [(hroom.2.1 (by simp [hexisting])).table]
        exact hready.bound b hexisting
      simp only [readyBinding, hexisting]
      exact List.mem_map.mpr ⟨identity b, hb, rfl⟩
  · exact ⟨fun _ he => elim_error he, fun _ _ => ⟨hforgot, hroom.1.allocation⟩⟩

/-! ## Opening and resuming -/

/-- A thread that is no runtime's. -/
def Unbound (honest : Prop) (threadId : Text) (table : List Identity) : Prop := honest → ∀ a ∈ table, a.threadId ≠ threadId

theorem Unbound.own {threadId : Text} {table : List Identity} (h : Unbound T.honest threadId table) (t : ResumeTarget) :
    OwnThread T.honest t threadId table := fun hhonest a ha hid => absurd hid (h hhonest a ha)

theorem Unbound.sublist {threadId : Text} {table table' : List Identity} (h : Unbound T.honest threadId table) (hsub : table'.Sublist table) :
    Unbound T.honest threadId table' := fun hhonest a ha => h hhonest a (hsub.subset ha)

theorem FreeName.sublist {cwd : Text} {sandbox : SandboxMode} {name : Option Text} {table table' : List Identity}
    (h : FreeName T.named cwd sandbox name table) (hsub : table'.Sublist table) : FreeName T.named cwd sandbox name table' :=
  fun hnamed n hn a ha => h hnamed n hn a (hsub.subset ha)

theorem freeName_none (cwd : Text) (sandbox : SandboxMode) (table : List Identity) : FreeName T.named cwd sandbox none table :=
  fun _ _ hn => elim_none hn

theorem load_keeps (t : Text) (c₀ : Cell ι) : Keeps (Still c₀) (change fun c => c.load t : Section ι Unit) :=
  keeps_change fun _ h => ⟨h.table, h.allocation⟩

theorem startThread_registers (h : Held me K c) : Registers T me (atomically .start startThread) c fun r c' =>
    Held me K c' ∧ ∀ thread, r = .ok thread → Unbound T.honest thread.threadId (table c') := by
  apply registers_atomically
  intro c' answers hleaves horderly hfresh r c'' hr hc''
  have hc' := h.leaves hleaves
  rw [hr, hc'']
  apply Gives.run_ask_bind (f := startedThread) (Q := fun r c'' => Does T me c' c'' ∧ Held me K c'' ∧
    ∀ thread, r = .ok thread → Unbound T.honest thread.threadId (table c''))
  cases hanswer : (answers 0).threadStart with
  | error e => exact gives_throw ⟨does_still (Still.refl c'), hc', fun _ hx => nomatch hx⟩
  | ok thread =>
    have hstill : Still c' (c'.load thread.threadId) := ⟨rfl, rfl⟩
    apply gives_change_bind
    refine gives_pure ⟨does_still hstill, hc'.still hstill, fun x hx hhonest a ha => ?_⟩
    obtain ⟨b, hb, rfl⟩ := List.mem_map.mp ha
    rw [← Except.ok.inj hx]
    exact (hfresh hhonest).1 thread hanswer b hb

theorem resumeThread_still (c₀ : Cell ι) : Keeps (Still c₀) (resumeThread : Section ι (Option LoadedThread)) := by
  apply keeps_bind (keeps_ask _)
  intro answer
  cases answer with
  | loaded thread => exact keeps_bind (load_keeps thread.threadId c₀) fun _ => keeps_pure _
  | noRollout => exact keeps_pure _
  | failed e => exact keeps_throw e

/-- The runtime of a resume is bound as its target says, or the thread is no runtime's. -/
theorem resumeTarget_targets (r : ResumeRequest) (c : Cell ι) : Gives (resumeTarget r) c fun result c' => c' = c ∧
    ∀ t, result = .ok t → Targets t (table c) ∧ SameDirectory t ∧ ∀ b, t.existing = some b → t.threadId = b.threadId := by
  have hbound : ∀ b t, b ∈ c.bindings → boundTarget r b = .ok t →
      Targets t (table c) ∧ SameDirectory t ∧ ∀ b, t.existing = some b → t.threadId = b.threadId := by
    intro b t hb ht
    rw [boundTarget] at ht
    split at ht
    · rw [← Except.ok.inj ht]
      have hsame : ∀ x, some b = some x → b = x := fun _ hx => Option.some.inj hx
      have htarget : Targets ⟨some b, b.threadId, b.cwd, b.sandbox⟩ (table c) :=
        ⟨fun x hx => hsame x hx ▸ mem_table hb, fun hnone => elim_none hnone.symm⟩
      exact ⟨htarget, fun x hx => hsame x hx ▸ rfl, fun x hx => hsame x hx ▸ rfl⟩
    · exact elim_error ht
  rw [resumeTarget]
  split
  · apply gives_ask_bind
    intro _
    cases hfound : c.binding _ with
    | none => exact gives_throw ⟨rfl, fun _ he => elim_error he⟩
    | some b => exact gives_fromExcept ⟨rfl, fun t ht => hbound b t (binding_mem hfound).1 ht⟩
  · next threadId _ _ =>
    apply gives_ask_bind
    intro _
    cases hfound : c.bindings.find? (·.threadId = threadId) with
    | some b => exact gives_fromExcept ⟨rfl, fun t ht => hbound b t (List.mem_of_find?_eq_some hfound) ht⟩
    | none =>
      refine gives_fromExcept ⟨rfl, fun t ht => ?_⟩
      rw [unboundTarget] at ht
      split at ht
      · rw [← Except.ok.inj ht]
        refine ⟨⟨fun _ hb => elim_none hb, fun _ a ha heq => ?_⟩, fun _ hb => elim_none hb, fun _ hb => elim_none hb⟩
        obtain ⟨b, hb, rfl⟩ := List.mem_map.mp ha
        exact List.find?_eq_none.mp hfound b hb (decide_eq_true heq)
      · exact elim_error ht
  · exact gives_throw ⟨rfl, fun _ he => elim_error he⟩

/-- The thread of the target itself is no other runtime's. -/
theorem ownThread_target {t : ResumeTarget} {table : List Identity} (htarget : Targets t table)
    (hthread : ∀ b, t.existing = some b → t.threadId = b.threadId) (horderly : Orderly T table) :
    OwnThread T.honest t t.threadId table := by
  intro hhonest a ha hid
  cases hexisting : t.existing with
  | none => exact absurd hid (htarget.unbound hexisting a ha)
  | some b =>
    refine ⟨b, rfl, ?_⟩
    have hsame : a.threadId = (identity b).threadId := hid.trans (hthread b hexisting)
    exact horderly.threads hhonest a ha (identity b) (htarget.bound b hexisting) a.threadId rfl (congrArg some hsame.symm)

/-- What is known of the target's thread after connecting. -/
def Connects (honest : Prop) (t : ResumeTarget) (threadId : Text) (table : List Identity) : Prop :=
  Targets t table ∧ (threadId = t.threadId ∨ Unbound honest threadId table)

theorem recreate_registers (t : ResumeTarget) (h : Held me (Targets t) c) : Registers T me (recreate t) c fun r c' =>
    Holds me c' ∧ ∀ k, r = .ok k → Held me (Connects T.honest t k.threadId) c' := by
  refine registers_bind ((startThread_registers h).mono fun r c' hr =>
    ⟨fun thread hok => ?_, fun _ _ => ⟨hr.1.holds, fun _ he => nomatch he⟩⟩)
  refine registers_bind (registers_fromExcept ⟨fun threadId hverified => ?_, fun _ _ => ⟨hr.1.holds, fun _ he => nomatch he⟩⟩)
  have hthread := hr.2 thread hok
  rw [verified_eq hverified] at hthread
  refine registers_pure ⟨hr.1.holds, fun k hk => ?_⟩
  rw [← Except.ok.inj hk]
  exact ⟨hr.1.allocation, hr.1.known, .inr hthread⟩

theorem connect_registers (t : ResumeTarget) (h : Held me (Targets t) c) : Registers T me (connect t) c fun r c' =>
    Holds me c' ∧ ∀ k, r = .ok k → Held me (Connects T.honest t k.threadId) c' := by
  have hsame : ∀ {c' : Cell ι} {k : Connected}, Held me (Targets t) c' → k.threadId = t.threadId →
      Held me (Connects T.honest t k.threadId) c' := fun hc' hk => ⟨hc'.allocation, hc'.known, .inl hk⟩
  refine registers_bind ((registers_held_still h fun c₀ => keeps_ask _).mono fun r c₁ hc₁ =>
    ⟨fun reused _ => ?_, fun _ _ => ⟨hc₁.holds, fun _ he => nomatch he⟩⟩)
  cases reused with
  | true =>
    refine registers_pure ⟨hc₁.holds, fun k hk => ?_⟩
    rw [← Except.ok.inj hk]
    exact hsame hc₁ rfl
  | false =>
    refine registers_bind ((acquireSlot_held hc₁).mono fun r c₂ hc₂ =>
      ⟨fun _ _ => ?_, fun _ _ => ⟨hc₂.holds, fun _ he => nomatch he⟩⟩)
    refine registers_bind ((registers_held_still hc₂ resumeThread_still).mono fun r c₃ hc₃ =>
      ⟨fun resumed _ => ?_, fun _ _ => ⟨hc₃.holds, fun _ he => nomatch he⟩⟩)
    cases resumed with
    | none => exact recreate_registers t hc₃
    | some thread =>
      refine registers_bind (registers_fromExcept ⟨fun threadId _ => ?_, fun _ _ => ⟨hc₃.holds, fun _ he => nomatch he⟩⟩)
      split
      · next heq =>
        refine registers_pure ⟨hc₃.holds, fun k hk => ?_⟩
        rw [← Except.ok.inj hk]
        exact hsame hc₃ heq
      · exact registers_throw ⟨hc₃.holds, fun _ he => nomatch he⟩

theorem commitOrRelease_registers {t : ResumeTarget} {name : Option Text} (k : Connected) (hdirectory : SameDirectory t)
    (h : Held me K c) (hready : ∀ table, Orderly T table → K table → Ready T t name k.threadId table) :
    Registers T me (commitOrRelease T.limits t name k) c fun _ c' => Holds me c' := by
  have hcommit : Registers T me (atomically .plain (commit T.limits t name k.threadId)) c fun _ c' => Holds me c' := by
    apply registers_atomically
    intro c' answers hleaves horderly hfresh r c'' hr hc''
    have hc' := h.leaves hleaves
    have hdone := commit_does hdirectory (hready _ horderly hc'.known) horderly fun hhonest => (hfresh hhonest).2 0
    rw [← hc''] at hdone
    exact ⟨does_held hc'.allocation hdone.1, hdone.2.trans hc'.allocation, trivial⟩
  refine registers_bind (upholdsAction_attempt (hcommit.mono fun r c₁ hc₁ => ⟨fun committed _ => ?_, fun _ _ => hc₁⟩))
  cases committed with
  | ok m => exact registers_pure hc₁
  | error e =>
    have hcompensate : Registers T me (compensateAllocation k) c₁ fun _ c' => Holds me c' := by
      rw [compensateAllocation]
      split
      · exact registers_pure hc₁
      · exact upholdsAction_attempt (registers_held_still hc₁ fun c₀ => releaseThread_loose (still_loose c₀) k.threadId)
    exact registers_holding hcompensate fun _ _ hc₂ => registers_throw hc₂

theorem releaseReplaced_still (threadId : Text) (m : Committed) (c₀ : Cell ι) : Keeps (Still c₀) (releaseReplaced threadId m) := by
  apply keeps_bind (keeps_attempt (releaseThread_loose (still_loose c₀) threadId))
  intro released
  cases released with
  | ok _ => exact keeps_pure ()
  | error e =>
    refine keeps_bind (keeps_change fun c hc => ?_) fun _ => keeps_throw e
    split
    · exact ⟨hc.table, hc.allocation⟩
    · exact hc

theorem releasePrevious_registers (k : Connected) (m : Committed) (h : Holds me c) :
    Registers T me (releasePrevious k m) c fun _ c' => Holds me c' := by
  rw [releasePrevious]
  split
  · exact registers_pure h
  · exact registers_held_still h fun c₀ => releaseReplaced_still _ m c₀

theorem resumeHeld_registers (r : ResumeRequest) (h : Holds me c) :
    Registers T me (resumeHeld T.limits r) c fun _ c' => Holds me c' := by
  have htarget : Registers T me (atomically .plain (resumeTarget r)) c fun result c' => Holds me c' ∧
      ∀ t, result = .ok t → Held me (Targets t) c' ∧ SameDirectory t ∧ ∀ b, t.existing = some b → t.threadId = b.threadId := by
    apply registers_held h
    intro c' hc' _
    refine (resumeTarget_targets r c').mono fun result c'' hresult => ?_
    obtain ⟨rfl, ht⟩ := hresult
    exact ⟨act_of_table rfl, hc', fun t hok => ⟨⟨hc'.allocation, (ht t hok).1⟩, (ht t hok).2⟩⟩
  refine registers_bind (htarget.mono fun result c₁ hresult => ⟨fun t hok => ?_, fun _ _ => hresult.1⟩)
  obtain ⟨hc₁, hdirectory, hthread⟩ := hresult.2 t hok
  apply registers_holding (registers_held_still hc₁ fun c₀ => syncConnectionGeneration_loose (still_loose c₀))
  intro _ c₂ hc₂
  apply registers_holding (registers_held_still hc₂ fun c₀ => releaseIfPending_loose (still_loose c₀) t.threadId)
  intro _ c₃ hc₃
  refine registers_bind ((connect_registers t hc₃).mono fun connected c₄ hc₄ => ⟨fun k hk => ?_, fun _ _ => hc₄.1⟩)
  apply registers_holding (registers_held_still (hc₄.2 k hk) fun c₀ => syncConnectionGeneration_loose (still_loose c₀))
  intro _ c₅ hc₅
  refine registers_holding (commitOrRelease_registers k hdirectory hc₅ fun table horderly hconnects => ?_) fun m c₆ hc₆ => ?_
  · refine ⟨hconnects.1.bound, ?_, fun _ => freeName_none t.cwd t.sandbox table⟩
    cases hconnects.2 with
    | inl hsame => exact hsame ▸ ownThread_target hconnects.1 hthread horderly
    | inr hunbound => exact hunbound.own t
  · apply registers_holding (releasePrevious_registers k m hc₆)
    exact fun _ _ hc₇ => registers_pure hc₇

theorem openHeld_registers {cwd : Text} {sandbox : SandboxMode} {name : Option Text} (h : Held me (FreeName T.named cwd sandbox name) c) :
    Registers T me (openHeld T.limits cwd sandbox name) c fun _ c' => Holds me c' := by
  refine registers_holding (registers_held_shrunk h (fun _ _ hsub hk => hk.sublist hsub) fun c' hids => ?_) fun _ c₁ hc₁ => ?_
  · exact (ensureCapacityLocked_evicts hids T.limits one_pos).mono fun _ _ hroom => hroom.shrunk
  apply registers_holding (acquireSlot_held hc₁)
  intro _ c₂ hc₂
  refine registers_bind ((startThread_registers hc₂).mono fun r c₃ hr => ⟨fun thread hok => ?_, fun _ _ => hr.1.holds⟩)
  refine registers_bind (registers_fromExcept ⟨fun threadId hverified => ?_, fun _ _ => hr.1.holds⟩)
  have hthread := hr.2 thread hok
  rw [verified_eq hverified] at hthread
  have hknown : Held me (fun table => FreeName T.named cwd sandbox name table ∧ Unbound T.honest threadId table) c₃ :=
    ⟨hr.1.allocation, hr.1.known, hthread⟩
  apply registers_holding (registers_held_still hknown fun c₀ => syncConnectionGeneration_loose (still_loose c₀))
  intro _ c₄ hc₄
  refine registers_holding (commitOrRelease_registers ⟨threadId, none, false⟩ (fun _ hb => nomatch hb) hc₄
    fun table _ hk => ?_) fun _ _ hc₅ => registers_pure hc₅
  exact ⟨fun _ hb => (nomatch hb), hk.2.own _, fun _ => hk.1⟩

/-- Closing changes the status of a binding, and when it was used. -/
theorem closeLocked_still {c : Cell ι} (hids : (ids c).Nodup) (runtimeId : Text) (releaseResources : Bool) :
    Gives (closeLocked runtimeId releaseResources) c fun _ c' => Still c c' := by
  apply gives_ask_bind
  intro _
  cases hb : c.binding runtimeId with
  | none => exact gives_throw (Still.refl c)
  | some b =>
    apply gives_require_bind
    refine gives_bind ((threadInUse_keeps b.threadId c (Still.refl c)).mono fun r c₁ hc₁ => ⟨fun inUse _ => ?_, fun _ _ => hc₁⟩)
    cases inUse with
    | true => exact gives_throw hc₁
    | false =>
      have hrelease := releaseIf_loose (still_loose c) releaseResources b.threadId c₁ hc₁
      refine gives_bind (hrelease.mono fun r c₂ hc₂ => ⟨fun _ _ => ?_, fun _ _ => hc₂⟩)
      apply gives_ask_bind
      intro a
      refine keeps_bind (keeps_saveBindings fun c₃ hc₃ => ?_) (fun _ => keeps_pure _) c₂ hc₂
      have hput : table (c₃.put { b with status := .detached, lastUsedAt := a.now }) = table c := by
        have hself : identity b ∈ table c := mem_table (binding_mem hb).1
        rw [table_put, hc₃.table]
        exact put_self ((map_runtimeId_table c).symm ▸ hids) hself
      exact ⟨hput, hc₃.allocation⟩

theorem closeLocked_registers (h : Holds me c) (runtimeId : Text) (releaseResources : Bool) :
    Registers T me (atomically .plain (closeLocked runtimeId releaseResources)) c fun _ c' => Holds me c' := by
  apply registers_held h
  intro c' hc' horderly
  exact (closeLocked_still horderly.ids runtimeId releaseResources).mono fun _ _ hstill => ⟨act_of_table hstill.table, hc'.still hstill⟩

theorem freeName_of_logicalRuntime {cwd : Text} {sandbox : SandboxMode} {name : Text} {c : Cell ι}
    (h : logicalRuntime cwd sandbox name c.bindings = none) : FreeName T.named cwd sandbox (some name) (table c) := by
  intro _ n hn a ha hkey
  obtain ⟨b, hb, rfl⟩ := List.mem_map.mp ha
  obtain ⟨m, hm, hsame⟩ := Option.map_eq_some_iff.mp hkey
  simp only [Prod.mk.injEq] at hsame
  have hfound : b ∈ c.bindings.filter fun b => b.name = some name ∧ b.cwd = cwd ∧ b.sandbox = sandbox := by
    refine List.mem_filter.mpr ⟨hb, decide_eq_true ⟨?_, hsame.1, hsame.2.1⟩⟩
    exact hm.trans (congrArg some (hsame.2.2.trans (Option.some.inj hn).symm))
  have hsorted : b ∈ (c.bindings.filter fun b => b.name = some name ∧ b.cwd = cwd ∧ b.sandbox = sandbox).mergeSort
      fun a b => usedBefore b a := List.mem_mergeSort.mpr hfound
  rw [logicalRuntime, List.head?_eq_none_iff] at h
  rw [h] at hsorted
  exact absurd hsorted List.not_mem_nil

theorem acquireHeld_registers (cwd : Text) (sandbox : SandboxMode) (name : Option Text) (h : Holds me c) :
    Registers T me (acquireHeld T.limits cwd sandbox name) c fun _ c' => Holds me c' := by
  cases name with
  | none => exact registers_throw h
  | some given =>
    refine registers_holding (registers_held_shrunk h (fun _ _ _ hk => hk) fun c' hids => ?_) fun _ c₁ hc₁ => ?_
    · exact collectExpiredIdle_shrunk hids _ _
    have hfound : Registers T me (atomically .plain (ask fun _ c => logicalRuntime cwd sandbox given c.bindings)) c₁ fun r c' =>
        Holds me c' ∧ (r = .ok none → Held me (FreeName T.named cwd sandbox (some given)) c') := by
      apply registers_held hc₁
      intro c' hc' _
      refine gives_ask fun _ => ⟨act_of_table rfl, hc', fun hnone => ⟨hc'.allocation, ?_⟩⟩
      exact freeName_of_logicalRuntime (Except.ok.inj hnone)
    refine registers_bind (hfound.mono fun r c₂ hr => ⟨fun existing hok => ?_, fun _ _ => hr.1⟩)
    cases existing with
    | none => exact openHeld_registers (hr.2 hok)
    | some b => exact resumeHeld_registers _ hr.1

/-! ## All calls -/

theorem takeAllocation_registers (n : ℕ) :
    Registers T me (takeAllocation me n) c fun r c' => r = .ok () → Holds me c' := by
  induction n generalizing c with
  | zero => exact registers_throw fun he => nomatch he
  | succ n ih =>
    have htry : Registers T me (atomically .plain (tryAllocation me)) c fun r c' => r = .ok true → Holds me c' := by
      apply registers_gives
      intro c' _ _
      apply gives_ask_bind
      intro _
      split
      · next hfree =>
        apply gives_change_bind
        refine gives_pure ⟨⟨fun j _ hheld => ?_, act_of_table rfl⟩, fun _ => ⟨rfl, trivial⟩⟩
        rw [Option.isNone_iff_eq_none.mp hfree] at hheld
        exact nomatch hheld
      · exact gives_pure ⟨does_still (Still.refl c'), fun he => nomatch Except.ok.inj he⟩
    refine registers_bind (htry.mono fun r c' hr => ⟨fun taken hok => ?_, fun _ _ he => nomatch he⟩)
    cases taken with
    | true => exact registers_pure fun _ => hr hok
    | false => exact ih

theorem holdingAllocation_registers (n : ℕ) {x : Call ι α}
    (hx : ∀ c', Holds me c' → Registers T me x c' fun _ c'' => Holds me c'') :
    Registers T me (holdingAllocation me n x) c fun _ _ => True := by
  refine registers_bind ((takeAllocation_registers n).mono fun r c₁ hr => ⟨fun _ hok => ?_, fun _ _ => trivial⟩)
  refine registers_bind (upholdsAction_attempt ((hx c₁ (hr hok)).mono fun r c₂ hc₂ => ⟨fun result _ => ?_, fun _ _ => trivial⟩))
  have hfreed : Registers T me (atomically .plain (change fun c => { c with allocation := none })) c₂ fun _ _ => True := by
    apply registers_held hc₂
    exact fun c' _ _ => gives_change ⟨act_of_table rfl, trivial⟩
  exact registers_then hfreed fun _ _ => registers_fromExcept trivial

/-- The call gives no name to a runtime that it has not looked for. -/
def NamesByAcquire : RuntimeCall → Prop
  | .openRuntime _ _ _ name => name = none
  | _ => True

theorem program_registers [DecidableEq ι] (call : RuntimeCall) (hcall : T.named → NamesByAcquire call) :
    Registers T me (call.program T.limits me) c fun _ _ => True := by
  cases call with
  | execCommand runtimeId checks => exact execCommand_registers runtimeId checks
  | mcpInventory runtimeId checks => exact mcpInventory_registers runtimeId checks
  | mcpCall runtimeId checks => exact mcpCall_registers runtimeId checks
  | status runtimeId => exact registers_then (registers_still fun _ hids => runtimeStatus_still hids runtimeId) fun _ _ => registers_pure trivial
  | close n runtimeId releaseResources =>
    apply holdingAllocation_registers n
    intro c' hc'
    apply registers_holding (closeLocked_registers hc' runtimeId releaseResources)
    exact fun _ _ hc₁ => registers_pure hc₁
  | collect n suppressErrors =>
    apply holdingAllocation_registers n
    intro c' hc'
    refine registers_holding (registers_held_shrunk hc' (fun _ _ _ hk => hk) fun c'' hids => ?_) fun _ _ hc₁ => registers_pure hc₁
    exact collectExpiredIdle_shrunk hids _ suppressErrors
  | openRuntime n cwd sandbox name =>
    apply holdingAllocation_registers n
    intro c' hc'
    apply openHeld_registers
    exact ⟨hc'.allocation, fun hnamed n hn => nomatch (hcall hnamed).symm.trans hn⟩
  | resume n r => exact holdingAllocation_registers n fun _ => resumeHeld_registers r
  | acquire n cwd sandbox name => exact holdingAllocation_registers n fun _ => acquireHeld_registers cwd sandbox name
  | shutdown n =>
    apply holdingAllocation_registers n
    intro c' hc'
    refine registers_holding (registers_held_still hc' fun c₀ => keeps_change fun c₁ hc₁ => ?_) fun _ _ hc₂ => registers_pure hc₂
    exact ⟨(table_detachAll c₁).trans hc₁.table, hc₁.allocation⟩
  | lateAnswer threadId =>
    exact registers_then (registers_still fun c' _ => gives_change ⟨rfl, rfl⟩) fun _ _ => registers_pure trivial
  | processEnded =>
    exact registers_then (registers_still fun c' _ => gives_change ⟨rfl, rfl⟩) fun _ _ => registers_pure trivial

end

/-! ## Runs -/

section
variable {bindings : List RuntimeBinding} {generation : Option ℕ}

/-- The stored bindings that a manager may start with. -/
structure Stored (bindings : List RuntimeBinding) : Prop where
  runtimes : (bindings.map (·.runtimeId)).Nodup
  threads : (bindings.map (·.threadId)).Nodup

theorem unique_threads (h : (bindings.map (·.threadId)).Nodup) :
    Unique Identity.runtimeId (fun i => some i.threadId) (bindings.map identity) := by
  intro a ha b hb v hav hbv
  obtain ⟨x, hx, rfl⟩ := List.mem_map.mp ha
  obtain ⟨y, hy, rfl⟩ := List.mem_map.mp hb
  rw [List.inj_on_of_nodup_map h hx hy (Option.some.inj (hav.trans hbv.symm))]

theorem orderly_start (hstored : T.stored = bindings.length) (hids : (bindings.map (·.runtimeId)).Nodup)
    (hthreads : T.honest → (bindings.map (·.threadId)).Nodup) (hnames : T.named → Unique Identity.runtimeId key (bindings.map identity)) :
    Orderly T (table (startCell bindings generation : Cell ι)) where
  bounded := by
    rw [length_table, hstored]
    exact Nat.le_max_left _ _
  nodup := (map_runtimeId_table (startCell bindings generation : Cell ι)).symm ▸ hids
  threads hhonest := unique_threads (hthreads hhonest)
  keys := hnames

variable [DecidableEq ι] {calls : ι → RuntimeCall} {l : Limits}
  {p q : System ι Label (Cell ι) (ℕ → Answer) (Except CodexError Reply)}

/-- In every state that is reached the registry is orderly, and whatever happens next is a step of it. -/
theorem runs_register (hstart : Orderly T (table (startCell bindings generation : Cell ι)))
    (hcalls : T.named → ∀ i, NamesByAcquire (calls i)) (hrun : Runs (Fresh T.honest) (startSystem T.limits bindings generation calls) p) :
    Orderly T (table p.state) ∧ ∀ q, Move (Fresh T.honest) p q → Act T (table p.state) (table q.state) := by
  have hall := runs_guaranteed leaves_relies (fun _ _ _ hdoes => hdoes.others) (fun _ _ _ _ _ _ => trivial) hrun hstart
    fun i => program_registers (calls i) fun hnamed => hcalls hnamed i
  refine ⟨hall.1, fun q hmove => ?_⟩
  obtain ⟨i, hdoes⟩ := moves_guaranteed leaves_relies hmove hall.1 hall.2
  exact hdoes.act

/-- However the calls interleave, and whatever the App Server, the clock and the store answer, there are
never more runtimes than allowed, if there were not at the start. -/
theorem runtimes_bounded (hids : (bindings.map (·.runtimeId)).Nodup)
    (hrun : Runs (fun _ _ _ => True) (startSystem l bindings generation calls) p) :
    p.state.bindings.length ≤ max bindings.length l.maxRuntimes := by
  let T : Terms := ⟨l, bindings.length, False, False⟩
  have hstart : Orderly T (table (startCell bindings generation : Cell ι)) := orderly_start rfl hids False.elim False.elim
  have hfresh : Runs (Fresh T.honest) (startSystem l bindings generation calls) p := hrun.mono fun _ _ _ _ => False.elim
  rw [← length_table]
  exact (runs_register hstart (fun h => h.elim) hfresh).1.bounded

/-- Where threads and ids are new, each step of a run is a step of the registry. -/
theorem runs_register_new (hstored : Stored bindings) (hrun : Runs AllNew (startSystem l bindings generation calls) p) :
    Orderly ⟨l, bindings.length, True, False⟩ (table p.state) ∧
      ∀ q, Move AllNew p q → Act ⟨l, bindings.length, True, False⟩ (table p.state) (table q.state) := by
  have hstart : Orderly ⟨l, bindings.length, True, False⟩ (table (startCell bindings generation : Cell ι)) :=
    orderly_start rfl hstored.runtimes (fun _ => hstored.threads) False.elim
  have hall := runs_register hstart (fun h => h.elim) (hrun.mono fun _ _ _ h _ => h)
  exact ⟨hall.1, fun q hmove => hall.2 q (hmove.mono fun _ _ _ h _ => h)⟩

/-- Two runtimes never have the same thread, as long as the App Server starts threads that are new. -/
theorem threads_distinct (hstored : Stored bindings) (hrun : Runs AllNew (startSystem l bindings generation calls) p) :
    (p.state.bindings.map (·.threadId)).Nodup := by
  have horderly := (runs_register_new hstored hrun).1
  refine List.Nodup.map_on (fun a ha b hb hthread => ?_) (List.Nodup.of_map _ horderly.ids)
  have hid := horderly.threads trivial (identity a) (mem_table ha) (identity b) (mem_table hb) a.threadId rfl (congrArg some hthread.symm)
  exact List.inj_on_of_nodup_map horderly.ids ha hb hid

end

/-! ## An open and two acquires -/

/-- Room for one runtime. -/
def narrow : Limits := ⟨1, 28800⟩

/-- The App Server starts a thread that is new. -/
def starting (_ : ℕ) : Answer := { willing 0 with threadStart := .ok ⟨txt "thread-2", true⟩ }

def openingSystem : System Unit Label (Cell Unit) (ℕ → Answer) (Except CodexError Reply) :=
  startSystem narrow [storedBinding] (some 1) fun _ => .openRuntime 1 (txt "/new") .readOnly none

theorem stored_storedBinding : Stored [storedBinding] := ⟨List.nodup_singleton _, List.nodup_singleton _⟩

theorem allNew_starting (x : Label) {c : Cell ι} (h : ∀ b ∈ c.bindings, b.threadId ≠ txt "thread-2" ∧ b.runtimeId ≠ txt "rt_2") :
    AllNew x c starting := by
  refine ⟨?_, fun _ hmem => ?_⟩
  · cases x with
    | start =>
      intro thread hthread b hb
      rw [← Except.ok.inj hthread]
      exact (h b hb).1
    | _ => trivial
  · obtain ⟨b, hb, hid⟩ := List.mem_map.mp hmem
    exact (h b hb).2 hid

/-- The open takes the lock, evicts the stored runtime and puts its own. -/
theorem opening_runs : Runs AllNew openingSystem (openingSystem.acts (List.replicate 6 ((), starting))) := by
  have hmet : openingSystem.AllMeet (fun _ c _ => c.bindings.all (fun b => b.threadId ≠ txt "thread-2" ∧ b.runtimeId ≠ txt "rt_2") = true)
      (List.replicate 6 ((), starting)) := by decide +kernel
  refine runs_acts_of_allMeet (hmet.mono fun step hstep x c h => ?_) (Runs.refl openingSystem)
  rw [(List.mem_replicate.mp hstep).2]
  exact allNew_starting x fun b hb => of_decide_eq_true (List.all_eq_true.mp h b hb)

/-- The new runtime has taken the place of the stored one. -/
theorem opened_runtimes_bounded : ids (openingSystem.acts (List.replicate 6 ((), starting))).state = [txt "rt_2"] ∧
    (openingSystem.acts (List.replicate 6 ((), starting))).state.bindings.length ≤ 1 :=
  ⟨by decide +kernel, runtimes_bounded stored_storedBinding.runtimes (opening_runs.mono fun _ _ _ _ => trivial)⟩

theorem opened_threads_distinct : ((openingSystem.acts (List.replicate 6 ((), starting))).state.bindings.map (·.threadId)).Nodup :=
  threads_distinct stored_storedBinding opening_runs

/-- Two callers acquire the same runtime. -/
def acquiringSystem : System Bool Label (Cell Bool) (ℕ → Answer) (Except CodexError Reply) :=
  startSystem limits [] (some 1) fun _ => .acquire 1 (txt "/work") .readOnly (some (txt "build"))

def acquiringSteps : List (Bool × (ℕ → Answer)) := (List.replicate 10 true ++ List.replicate 12 false).map fun i => (i, starting)

end WebOauthMcp.RuntimeRegistry
