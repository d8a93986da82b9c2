import WebOauthMcp.CodexDetachment
import WebOauthMcp.Registries

/-!
# Eviction of runtimes

The bindings are a registry of runtimes. A release of threads changes the status of bindings
and leaves the registry alone. A collection forgets runtimes that were not used for long, and
whoever needs room evicts as many idle runtimes as are too many, the least recently used ones, or none.
-/

namespace WebOauthMcp.CodexEviction
open CodePoints Words FaultyPrograms CodexRuntimes CodexCalls CodexBindings CodexSections Registries
open CodexDetachment (storedBinding)

variable {ι α β : Type}

theorem elim_error {ε : Type} {e : ε} {a : α} {P : Prop} (h : (Except.error e : Except ε α) = .ok a) : P := by
  cases h

theorem elim_ok {ε : Type} {e : ε} {a : α} {P : Prop} (h : (Except.ok a : Except ε α) = .error e) : P := by
  cases h

theorem elim_none {a : α} {P : Prop} (h : none = some a) : P := by
  cases h

/-- What a binding is about, apart from its use. -/
structure Identity where
  runtimeId : Text
  threadId : Text
  cwd : Text
  sandbox : SandboxMode
  name : Option Text
  createdAt : ℚ

def identity (b : RuntimeBinding) : Identity := ⟨b.runtimeId, b.threadId, b.cwd, b.sandbox, b.name, b.createdAt⟩

/-- The registry of a cell. -/
def table (c : Cell ι) : List Identity := c.bindings.map identity

def ids (c : Cell ι) : List Text := c.bindings.map (·.runtimeId)

theorem map_runtimeId_table (c : Cell ι) : (table c).map Identity.runtimeId = ids c := List.map_map

theorem length_table (c : Cell ι) : (table c).length = c.bindings.length := List.length_map _

theorem ids_eq_of_table {c c' : Cell ι} (h : table c' = table c) : ids c' = ids c := by
  rw [← map_runtimeId_table, ← map_runtimeId_table, h]

theorem mem_table {c : Cell ι} {b : RuntimeBinding} (h : b ∈ c.bindings) : identity b ∈ table c := List.mem_map_of_mem h

/-! ## Changes that leave the registry alone -/

theorem map_putBinding (b : RuntimeBinding) (bs : List RuntimeBinding) :
    (putBinding b bs).map identity = put Identity.runtimeId (identity b) (bs.map identity) := by
  have hany : ((bs.map identity).any fun a => a.runtimeId = (identity b).runtimeId) = bs.any (·.runtimeId = b.runtimeId) := by
    rw [List.any_map]
    rfl
  rw [putBinding, put, hany]
  split
  · rw [List.map_map, List.map_map]
    apply List.map_congr_left
    intro a _
    exact apply_ite identity (a.runtimeId = b.runtimeId) b a
  · exact List.map_append

theorem table_put (c : Cell ι) (b : RuntimeBinding) : table (c.put b) = put Identity.runtimeId (identity b) (table c) :=
  map_putBinding b c.bindings

/-- A binding in the place of one with the same identity. -/
theorem table_put_self {c : Cell ι} (hids : (ids c).Nodup) {a b : RuntimeBinding} (ha : a ∈ c.bindings) (hab : identity b = identity a) :
    table (c.put b) = table c := by
  rw [table_put, hab]
  exact put_self ((map_runtimeId_table c).symm ▸ hids) (mem_table ha)

theorem table_detach {c : Cell ι} (hids : (ids c).Nodup) (runtimeId : Text) : table (c.detach runtimeId) = table c := by
  rw [Cell.detach]
  cases hb : c.binding runtimeId with
  | none => rfl
  | some b => exact table_put_self hids (binding_mem hb).1 rfl

theorem table_touched {c : Cell ι} (hids : (ids c).Nodup) (runtimeId : Text) (count : Option ℕ) (now : ℚ) :
    table (c.touched runtimeId count now) = table c := by
  rw [Cell.touched]
  cases hb : c.binding runtimeId with
  | none => rfl
  | some b => exact table_put_self hids (binding_mem hb).1 rfl

theorem table_syncGeneration (c : Cell ι) (g : Option ℕ) : table (c.syncGeneration g) = table c := by
  cases g with
  | none => rfl
  | some g =>
    rw [Cell.syncGeneration]
    split <;> rfl

theorem allocation_syncGeneration (c : Cell ι) (g : Option ℕ) : (c.syncGeneration g).allocation = c.allocation := by
  cases g with
  | none => rfl
  | some g =>
    rw [Cell.syncGeneration]
    split <;> rfl

theorem table_beginRelease (c : Cell ι) (t : Text) : table (c.beginRelease t) = table c := by
  rw [table, table, Cell.beginRelease, List.map_map]
  apply List.map_congr_left
  intro b _
  simp only [Function.comp_apply]
  split <;> rfl

theorem table_detachAll (c : Cell ι) : table c.detachAll = table c := by
  rw [table, table, Cell.detachAll, List.map_map]
  rfl

theorem table_dropBindings (c : Cell ι) (dropped : List RuntimeBinding) :
    table (c.dropBindings dropped) = (table c).filter fun i => i.runtimeId ∉ dropped.map (·.runtimeId) := by
  rw [table, table, Cell.dropBindings, List.filter_map]
  rfl

/-! ## Releasing -/

/-- What the release of threads carries on. -/
structure Loose (P : Cell ι → Prop) : Prop where
  sync : ∀ c g, P c → P (c.syncGeneration g)
  begun : ∀ c t, P c → P (c.beginRelease t)
  unloaded : ∀ c t, P c → P (c.unload t)
  confirmed : ∀ c t, P c → P (c.confirmRelease t)

/-- The registry and the allocation lock are as they were. -/
structure Still (c₀ c : Cell ι) : Prop where
  table : table c = table c₀
  allocation : c.allocation = c₀.allocation

theorem Still.refl (c : Cell ι) : Still c c := ⟨rfl, rfl⟩

theorem still_loose (c₀ : Cell ι) : Loose (Still c₀) where
  sync c g h := ⟨(table_syncGeneration c g).trans h.table, (allocation_syncGeneration c g).trans h.allocation⟩
  begun c t h := ⟨(table_beginRelease c t).trans h.table, h.allocation⟩
  unloaded _ _ h := ⟨h.table, h.allocation⟩
  confirmed _ _ h := ⟨h.table, h.allocation⟩

/-- Runtimes may have been forgotten. -/
structure Shrunk (c₀ c : Cell ι) : Prop where
  table : (table c).Sublist (table c₀)
  allocation : c.allocation = c₀.allocation

theorem Still.shrunk {c₀ c : Cell ι} (h : Still c₀ c) : Shrunk c₀ c := ⟨h.table ▸ List.Sublist.refl _, h.allocation⟩

theorem Shrunk.trans {a b c : Cell ι} (h : Shrunk a b) (h' : Shrunk b c) : Shrunk a c :=
  ⟨h'.table.trans h.table, h'.allocation.trans h.allocation⟩

theorem Shrunk.nodup {c₀ c : Cell ι} (h : Shrunk c₀ c) (hids : (ids c₀).Nodup) : (ids c).Nodup := by
  rw [← map_runtimeId_table] at hids ⊢
  exact hids.sublist (h.table.map _)

theorem threadInUse_keeps {P : Cell ι → Prop} (t : Text) : Keeps P (threadInUse t : Section ι Bool) := fun c hc =>
  (threadInUse_gives t c).mono fun _ _ hr => hr.1.symm ▸ hc

section
variable {P : Cell ι → Prop} (h : Loose P)
include h

theorem syncConnectionGeneration_loose : Keeps P (syncConnectionGeneration : Section ι Unit) := by
  apply keeps_bind (keeps_ask _)
  intro g
  exact keeps_change fun c hc => h.sync c g hc

theorem releaseOwned_loose (t : Text) : Keeps P (releaseOwned t : Section ι Unit) := by
  apply keeps_bind (threadInUse_keeps t)
  intro inUse
  cases inUse with
  | true => exact keeps_throw _
  | false =>
    apply keeps_bind (keeps_change fun c hc => h.begun c t hc)
    intro _
    apply keeps_bind (keeps_ask _)
    intro answer
    apply keeps_bind (keeps_fromExcept answer)
    intro confirmed
    cases confirmed with
    | true => exact keeps_change fun c hc => h.confirmed c t hc
    | false => exact keeps_throw _

theorem releaseThread_loose (t : Text) : Keeps P (releaseThread t : Section ι Unit) := by
  apply keeps_bind (syncConnectionGeneration_loose h)
  intro _
  apply keeps_bind (keeps_ask _)
  intro owned
  split
  · exact releaseOwned_loose h t
  · exact keeps_pure ()

theorem releaseAll_loose (ts : List Text) : Keeps P (releaseAll ts : Section ι Unit) := by
  induction ts with
  | nil => exact keeps_pure ()
  | cons t ts ih => exact keeps_bind (releaseThread_loose h t) fun _ => ih

theorem releaseAbandoned_loose (ts : List Text) : Keeps P (releaseAbandoned ts : Section ι Unit) := by
  induction ts with
  | nil => exact keeps_pure ()
  | cons t ts ih =>
    apply keeps_bind (keeps_ask _)
    intro answer
    apply keeps_bind (keeps_fromExcept answer)
    intro _
    exact keeps_bind (keeps_change fun c hc => h.unloaded c t hc) fun _ => ih

theorem cleanupThreads_loose : Keeps P (cleanupThreads : Section ι Unit) := by
  apply keeps_bind (keeps_ask _)
  intro abandoned
  apply keeps_bind (releaseAbandoned_loose h abandoned)
  intro _
  apply keeps_bind (keeps_ask _)
  exact fun unbound => releaseAll_loose h unbound

theorem releaseIf_loose (releaseResources : Bool) (t : Text) : Keeps P (releaseIf releaseResources t : Section ι Unit) := by
  rw [releaseIf]
  split
  · exact releaseThread_loose h t
  · exact keeps_pure ()

theorem releaseIfPending_loose (t : Text) : Keeps P (releaseIfPending t : Section ι Unit) := by
  apply keeps_bind (keeps_ask _)
  intro isPending
  split
  · exact releaseThread_loose h t
  · exact keeps_pure ()

end

/-! ## Collecting -/

/-- No request is in the slot of a runtime of that thread. -/
def Idle (c : Cell ι) (b : RuntimeBinding) : Prop :=
  ∀ a ∈ c.bindings, a.threadId = b.threadId → c.activeRequests a.runtimeId = 0

theorem idleBindings_idle (test : RuntimeBinding → Bool) (bs : List RuntimeBinding) (c : Cell ι) :
    Gives (idleBindings test bs) c fun r c' => c' = c ∧
      ∀ idle, r = .ok idle → idle.Sublist bs ∧ ∀ b ∈ idle, test b = true ∧ Idle c b := by
  induction bs with
  | nil =>
    refine gives_pure ⟨rfl, fun idle h => ?_⟩
    rw [← Except.ok.inj h]
    exact ⟨List.Sublist.refl _, fun b hb => absurd hb List.not_mem_nil⟩
  | cons b bs ih =>
    rw [idleBindings]
    split
    · next htest =>
      refine gives_bind ((threadInUse_gives b.threadId c).mono fun r c' hr => ?_)
      obtain ⟨rfl, hidle⟩ := hr
      refine ⟨fun inUse hused => gives_bind (ih.mono fun r c' hr => ?_), fun e _ => ⟨rfl, fun _ h => elim_error h⟩⟩
      obtain ⟨rfl, hrest⟩ := hr
      refine ⟨fun rest hok => gives_pure ⟨rfl, fun idle h => ?_⟩, fun e _ => ⟨rfl, fun _ h => elim_error h⟩⟩
      obtain ⟨hsub, hall⟩ := hrest rest hok
      rw [← Except.ok.inj h]
      cases inUse with
      | true => exact ⟨hsub.cons b, hall⟩
      | false => exact ⟨hsub.cons_cons b, List.forall_mem_cons.mpr ⟨⟨htest, hidle hused⟩, hall⟩⟩
    · exact ih.mono fun r c' hr => ⟨hr.1, fun idle h => ⟨(hr.2 idle h).1.cons b, (hr.2 idle h).2⟩⟩

/-- Bindings that are released leave the registry alone, and no others are dropped. -/
theorem releaseExpired_sublist (bs : List RuntimeBinding) {c₀ c : Cell ι} (hc : Still c₀ c) :
    Gives (releaseExpired bs) c fun r c' => Still c₀ c' ∧ ∀ released, r = .ok released → released.Sublist bs := by
  induction bs generalizing c with
  | nil => exact gives_pure ⟨hc, fun released h => Except.ok.inj h ▸ List.Sublist.refl _⟩
  | cons b bs ih =>
    apply gives_ask_bind
    intro a
    split
    · exact gives_pure ⟨hc, fun released h => Except.ok.inj h ▸ List.nil_sublist _⟩
    · refine gives_bind (gives_attempt ((releaseThread_loose (still_loose c₀) b.threadId c hc).mono fun r c₁ hc₁ => ?_))
      refine ⟨fun released _ => gives_bind ((ih hc₁).mono fun r c₂ hr => ?_), fun _ he => nomatch he⟩
      refine ⟨fun rest hok => gives_pure ⟨hr.1, fun kept h => ?_⟩, fun e _ => ⟨hr.1, fun _ h => nomatch h⟩⟩
      rw [← Except.ok.inj h]
      split
      · exact (hr.2 rest hok).cons_cons b
      · exact (hr.2 rest hok).cons b

/-- Only runtimes that were not used for that long are forgotten. -/
structure Expired (ttl : ℚ) (c c' : Cell ι) : Prop extends Shrunk c c' where
  gone : ∃ now, ∀ b ∈ c.bindings, b.runtimeId ∉ ids c' → ttl ≤ now - b.lastUsedAt ∧ Idle c b

theorem expired_of_still {ttl : ℚ} {c c' : Cell ι} (h : Still c c') : Expired ttl c c' := by
  refine ⟨h.shrunk, 0, fun b hb hgone => absurd ?_ hgone⟩
  rw [ids_eq_of_table h.table]
  exact List.mem_map_of_mem hb

theorem expired_dropBindings {ttl now : ℚ} {c c' : Cell ι} (hids : (ids c).Nodup) (h : Still c c') {dropped : List RuntimeBinding}
    (hsub : dropped.Sublist c.bindings) (hold : ∀ b ∈ dropped, ttl ≤ now - b.lastUsedAt ∧ Idle c b) :
    Expired ttl c (c'.dropBindings dropped) := by
  have htable : table (c'.dropBindings dropped) = (table c).filter fun i => i.runtimeId ∉ dropped.map (·.runtimeId) := by
    rw [table_dropBindings, h.table]
  refine ⟨⟨htable ▸ List.filter_sublist, h.allocation⟩, now, fun b hb hgone => ?_⟩
  rw [← map_runtimeId_table, htable] at hgone
  have hdropped : b.runtimeId ∈ dropped.map (·.runtimeId) := by
    by_contra hkept
    apply hgone
    exact List.mem_map.mpr ⟨identity b, List.mem_filter.mpr ⟨mem_table hb, decide_eq_true hkept⟩, rfl⟩
  obtain ⟨a, ha, hid⟩ := List.mem_map.mp hdropped
  have hab : a = b := List.inj_on_of_nodup_map hids (hsub.subset ha) hb hid
  exact hab ▸ hold a ha

/-- A collection forgets runtimes that were not used for long, or fails and forgets none. -/
theorem collectExpiredIdleLocked_expired {c : Cell ι} (hids : (ids c).Nodup) (ttl : ℚ) (suppressErrors : Bool) :
    Gives (collectExpiredIdleLocked ttl suppressErrors) c fun _ c' => Expired ttl c c' := by
  have hstill : ∀ {c' : Cell ι}, Still c c' → Expired ttl c c' := expired_of_still
  apply gives_ask_bind
  intro a
  apply gives_ask_bind
  intro _
  refine gives_bind ((idleBindings_idle _ c.bindings c).mono fun r c' hr => ?_)
  obtain ⟨rfl, hidle⟩ := hr
  refine ⟨fun idle hok => ?_, fun _ _ => hstill (Still.refl _)⟩
  obtain ⟨hsub, hall⟩ := hidle idle hok
  refine gives_bind ((releaseExpired_sublist idle (Still.refl _)).mono fun r c₁ hr => ?_)
  refine ⟨fun expired hexpired => ?_, fun _ _ => hstill hr.1⟩
  have hleft : expired.Sublist idle := hr.2 expired hexpired
  have hdropped : Expired ttl c' (c₁.dropBindings expired) := by
    apply expired_dropBindings hids hr.1 (hleft.trans hsub)
    exact fun b hb => ⟨of_decide_eq_true (hall b (hleft.subset hb)).1, (hall b (hleft.subset hb)).2⟩
  rw [dropExpired]
  split
  · exact gives_pure (hstill hr.1)
  · have hsave : Gives (saveBindings fun c => c.dropBindings expired) c₁ fun r c₂ => Expired ttl c' c₂ := by
      apply gives_ask_bind
      intro answer
      refine gives_bind (gives_fromExcept ⟨fun _ _ => gives_change hdropped, fun _ _ => hstill hr.1⟩)
    refine gives_bind (gives_attempt (hsave.mono fun r c₂ hc₂ => ⟨fun saved _ => ?_, fun _ he => elim_ok he⟩))
    cases saved with
    | ok _ => exact gives_pure hc₂
    | error e =>
      dsimp only
      split
      · exact gives_pure hc₂
      · exact gives_throw hc₂

theorem collectSynced_shrunk {c₀ c : Cell ι} (hids : (ids c₀).Nodup) (hc : Still c₀ c) (ttl : ℚ) (suppressErrors : Bool) :
    Gives (collectSynced ttl suppressErrors) c fun _ c' => Shrunk c₀ c' := by
  have hcollect : ∀ {c' : Cell ι}, Still c₀ c' → Gives (collectExpiredIdleLocked ttl suppressErrors) c' fun _ c'' => Shrunk c₀ c'' := by
    intro c' hc'
    have hnodup : (ids c').Nodup := ids_eq_of_table hc'.table ▸ hids
    exact (collectExpiredIdleLocked_expired hnodup ttl suppressErrors).mono fun _ _ h => hc'.shrunk.trans h.toShrunk
  refine gives_bind (gives_attempt ((cleanupThreads_loose (still_loose c₀) c hc).mono fun r c' hc' => ?_))
  refine ⟨fun cleaned _ => ?_, fun _ he => nomatch he⟩
  cases cleaned with
  | ok _ => exact hcollect hc'
  | error e =>
    dsimp only
    split
    · exact hcollect hc'
    · exact gives_throw hc'.shrunk

/-- A whole collection only forgets. -/
theorem collectExpiredIdle_shrunk {c : Cell ι} (hids : (ids c).Nodup) (ttl : ℚ) (suppressErrors : Bool) :
    Gives (collectExpiredIdle ttl suppressErrors) c fun _ c' => Shrunk c c' := by
  refine gives_bind ((syncConnectionGeneration_loose (still_loose c) c (Still.refl c)).mono fun r c' hc' => ?_)
  exact ⟨fun _ _ => collectSynced_shrunk hids hc' ttl suppressErrors, fun _ _ => hc'.shrunk⟩

/-! ## Room for more -/

theorem usedBefore_trans (a b c : RuntimeBinding) (hab : usedBefore a b = true) (hbc : usedBefore b c = true) :
    usedBefore a c = true := by
  simp only [usedBefore] at *
  grind [textLe_trans]

theorem usedBefore_total (a b : RuntimeBinding) : (usedBefore a b || usedBefore b a) = true := by
  have htext := textLe_total a.runtimeId b.runtimeId
  simp only [usedBefore, Bool.or_eq_true] at *
  grind

/-- As many runtimes as are too many give way: idle ones, of which none that stays was used before. -/
structure Evicted (l : Limits) (required : ℕ) (c c' : Cell ι) (candidates : List RuntimeBinding) (evicted : List Text) : Prop where
  number : evicted.length = c.overflow l required
  nodup : evicted.Nodup
  left : table c' = (table c).filter fun i => i.runtimeId ∉ evicted
  idle : ∀ b ∈ candidates, b ∈ c.bindings ∧ b.status = .detached ∧ Idle c b
  chosen : ∀ r ∈ evicted, ∃ b ∈ candidates, b.runtimeId = r
  oldest : ∀ b ∈ candidates, b.runtimeId ∈ evicted → ∀ a ∈ candidates, a.runtimeId ∉ evicted → usedBefore b a = true

theorem evicted_none {l : Limits} {required : ℕ} {c : Cell ι} (h : c.overflow l required = 0) : Evicted l required c c [] [] where
  number := h.symm
  nodup := List.nodup_nil
  left := by simp
  idle _ h := absurd h List.not_mem_nil
  chosen _ h := absurd h List.not_mem_nil
  oldest _ h := absurd h List.not_mem_nil

/-- The first ones of the sorted candidates. -/
theorem evicted_take {l : Limits} {required : ℕ} {c c' : Cell ι} (hids : (ids c).Nodup) {candidates : List RuntimeBinding}
    (hsub : candidates.Sublist c.bindings) (hidle : ∀ b ∈ candidates, b.status = .detached ∧ Idle c b)
    (hmany : c.overflow l required ≤ candidates.length)
    (hleft : table c' = (table c).filter fun i =>
      i.runtimeId ∉ ((candidates.mergeSort usedBefore).take (c.overflow l required)).map (·.runtimeId)) :
    Evicted l required c c' candidates (((candidates.mergeSort usedBefore).take (c.overflow l required)).map (·.runtimeId)) := by
  have hmem : ∀ {b}, b ∈ candidates.mergeSort usedBefore ↔ b ∈ candidates := List.mem_mergeSort
  refine ⟨?_, ?_, hleft, fun b hb => ⟨hsub.subset hb, hidle b hb⟩, fun r hr => ?_, fun b hb hgone a ha hkept => ?_⟩
  · rw [List.length_map, List.length_take, List.length_mergeSort]
    exact Nat.min_eq_left hmany
  · have hnodup : ((candidates.mergeSort usedBefore).map (·.runtimeId)).Nodup :=
      ((List.mergeSort_perm candidates usedBefore).map _).nodup_iff.mpr (hids.sublist (hsub.map _))
    exact hnodup.sublist ((List.take_sublist _ _).map _)
  · obtain ⟨b, hb, hid⟩ := List.mem_map.mp hr
    exact ⟨b, hmem.mp (List.mem_of_mem_take hb), hid⟩
  · have hsorted := List.pairwise_mergeSort usedBefore_trans usedBefore_total candidates
    rw [← List.take_append_drop (c.overflow l required) (candidates.mergeSort usedBefore), List.pairwise_append] at hsorted
    obtain ⟨x, hx, hid⟩ := List.mem_map.mp hgone
    have hxb : x = b := by
      apply List.inj_on_of_nodup_map hids (hsub.subset (hmem.mp (List.mem_of_mem_take hx))) (hsub.subset hb) hid
    have hrest : a ∈ (candidates.mergeSort usedBefore).drop (c.overflow l required) := by
      have ha' := hmem.mpr ha
      rw [← List.take_append_drop (c.overflow l required) (candidates.mergeSort usedBefore)] at ha'
      exact (List.mem_append.mp ha').resolve_left fun htaken => hkept (List.mem_map_of_mem htaken)
    exact hsorted.2.2 b (hxb ▸ hx) a hrest

/-- How making room ends: after a collection the runtimes that are too many are evicted, or none. -/
def MadeRoom (l : Limits) (required : ℕ) (c : Cell ι) (r : Except CodexError (List Text)) (c' : Cell ι) : Prop :=
  ∃ c₁, Expired l.idleTtlSeconds c c₁ ∧ c'.allocation = c₁.allocation ∧ match r with
    | .ok evicted => ∃ candidates, Evicted l required c₁ c' candidates evicted
    | .error _ => table c' = table c₁

/-- Whatever the App Server and the store answer, making room evicts exactly the runtimes that are too
many, the least recently used ones that are detached and idle, or it fails and evicts none. -/
theorem ensureCapacityLocked_evicts {c : Cell ι} (hids : (ids c).Nodup) (l : Limits) {required : ℕ} (hrequired : 0 < required) :
    Gives (ensureCapacityLocked l required) c (MadeRoom l required c) := by
  rw [ensureCapacityLocked, if_neg hrequired.ne']
  refine gives_bind ((collectExpiredIdleLocked_expired hids _ _).mono fun r c₁ hexpired => ?_)
  refine ⟨fun _ _ => ?_, fun _ _ => ⟨c₁, hexpired, rfl, rfl⟩⟩
  have hids₁ : (ids c₁).Nodup := hexpired.nodup hids
  apply gives_ask_bind
  intro _
  split
  · next hfits => exact gives_pure ⟨c₁, hexpired, rfl, [], evicted_none hfits⟩
  · apply gives_ask_bind
    intro _
    refine gives_bind ((idleBindings_idle _ c₁.bindings c₁).mono fun r c₂ hr => ?_)
    obtain ⟨rfl, hidle⟩ := hr
    refine ⟨fun candidates hok => ?_, fun _ _ => ⟨c₂, hexpired, rfl, rfl⟩⟩
    obtain ⟨hsub, hall⟩ := hidle candidates hok
    split
    · exact gives_throw ⟨c₂, hexpired, rfl, rfl⟩
    · next hmany =>
      have hfailed : ∀ {c₃ : Cell ι} {e : CodexError}, Still c₂ c₃ → MadeRoom l required c (.error e) c₃ := fun hc₃ =>
        ⟨c₂, hexpired, hc₃.allocation, hc₃.table⟩
      refine gives_bind ((releaseAll_loose (still_loose c₂) _ c₂ (Still.refl c₂)).mono fun r c₃ hc₃ => ?_)
      refine ⟨fun _ _ => ?_, fun _ _ => hfailed hc₃⟩
      refine gives_bind (gives_ask_bind fun answer => gives_bind (gives_fromExcept ⟨fun _ _ => gives_change ?_, fun _ _ => ?_⟩))
      · refine ⟨fun _ _ => gives_pure ⟨c₂, hexpired, hc₃.allocation, candidates, ?_⟩, fun _ he => elim_ok he⟩
        apply evicted_take hids₁ hsub (fun b hb => ⟨of_decide_eq_true (hall b hb).1, (hall b hb).2⟩) (Nat.not_lt.mp hmany)
        rw [table_dropBindings, hc₃.table]
      · exact ⟨fun _ he => elim_error he, fun _ _ => hfailed hc₃⟩

/-- Where there is room for one runtime only, an idle one gives way. -/
theorem idle_runtime_gives_way :
    Gives (ensureCapacityLocked ⟨1, 28800⟩ 1) (startCell [storedBinding] none : Cell Unit)
      (MadeRoom ⟨1, 28800⟩ 1 (startCell [storedBinding] none)) := by
  have hids : (ids (startCell [storedBinding] none : Cell Unit)).Nodup := List.nodup_singleton _
  exact ensureCapacityLocked_evicts hids _ one_pos

theorem MadeRoom.shrunk {l : Limits} {required : ℕ} {c c' : Cell ι} {r : Except CodexError (List Text)} (h : MadeRoom l required c r c') :
    Shrunk c c' := by
  obtain ⟨c₁, hexpired, hallocation, hleft⟩ := h
  refine hexpired.toShrunk.trans ⟨?_, hallocation⟩
  cases r with
  | ok evicted =>
    obtain ⟨candidates, hevicted⟩ := hleft
    exact hevicted.left ▸ List.filter_sublist
  | error e => exact hleft ▸ List.Sublist.refl _

/-- Where room was made, there is room. -/
theorem MadeRoom.room {l : Limits} {required : ℕ} {c c' : Cell ι} {evicted : List Text} (hids : (ids c).Nodup)
    (h : MadeRoom l required c (.ok evicted) c') : c'.bindings.length + required ≤ l.maxRuntimes := by
  obtain ⟨c₁, hexpired, -, candidates, hevicted⟩ := h
  have hgone : ∀ r ∈ evicted, r ∈ (table c₁).map Identity.runtimeId := by
    intro r hr
    obtain ⟨b, hb, rfl⟩ := hevicted.chosen r hr
    exact List.mem_map_of_mem (f := Identity.runtimeId) (mem_table (hevicted.idle b hb).1)
  have hcount : (table c').length + evicted.length = (table c₁).length := by
    rw [hevicted.left]
    convert length_forget ((map_runtimeId_table c₁).symm ▸ hexpired.nodup hids) hevicted.nodup hgone
  have hnumber := hevicted.number
  rw [length_table, length_table] at hcount
  rw [Cell.overflow] at hnumber
  omega

end WebOauthMcp.CodexEviction
