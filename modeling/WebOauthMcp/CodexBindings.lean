import WebOauthMcp.CodexRuntimes

/-!
# Bindings of live threads

A closed runtime is detached, and a ready one has a thread that was not released. The
changes of the sections keep that, as long as a thread is released only when no runtime that
is ready or in use is bound to it.
-/

namespace WebOauthMcp.CodexBindings
open CodePoints Words FaultyPrograms CodexRuntimes

variable {ι : Type}

/-- A closed runtime is detached, and the thread of a ready one was not released since it was
loaded. -/
def Attached (c : Cell ι) : Prop :=
  ∀ b ∈ c.bindings, (b.runtimeId ∈ c.closed → b.status = .detached) ∧ (b.status = .ready → b.threadId ∉ c.released)

/-- A runtime may be ready. -/
def MayBeReady (c : Cell ι) (b : RuntimeBinding) : Prop := b.runtimeId ∉ c.closed ∧ b.threadId ∉ c.released

structure Sound (c : Cell ι) : Prop where
  nodup : (c.bindings.map (·.runtimeId)).Nodup
  attached : Attached c
  /-- A runtime in use may become ready again. -/
  used : ∀ b ∈ c.bindings, 0 < c.activeRequests b.runtimeId → MayBeReady c b
  counted : ∀ runtimeId, c.activeRequests runtimeId = (c.users runtimeId).length
  live : ∀ t ∈ c.liveThreadIds, t ∉ c.released

/-- No runtime that is ready or in use is bound to the thread. -/
def Unused (c : Cell ι) (t : Text) : Prop :=
  t ∉ c.liveThreadIds ∧ ∀ b ∈ c.bindings, b.threadId = t → b.status ≠ .ready ∧ c.activeRequests b.runtimeId = 0

/-! ## Tables of bindings -/

theorem mem_without {t u : Text} {ts : List Text} : u ∈ without t ts ↔ u ∈ ts ∧ u ≠ t := by
  simp [without]

theorem eq_or_mem_of_mem_put {a b : RuntimeBinding} {bs : List RuntimeBinding} (h : a ∈ putBinding b bs) :
    a = b ∨ (a ∈ bs ∧ a.runtimeId ≠ b.runtimeId) := by
  rw [putBinding] at h
  split at h
  · obtain ⟨x, hx, rfl⟩ := List.mem_map.mp h
    split
    · exact .inl rfl
    · next hne => exact .inr ⟨hx, hne⟩
  · next hnone =>
    simp only [Bool.not_eq_true, List.any_eq_false, decide_eq_true_eq] at hnone
    cases List.mem_append.mp h with
    | inl hold => exact .inr ⟨hold, hnone a hold⟩
    | inr hnew => exact .inl (List.mem_singleton.mp hnew)

theorem ids_put (b : RuntimeBinding) (bs : List RuntimeBinding) :
    (putBinding b bs).map (·.runtimeId) = bs.map (·.runtimeId) ∨
      (b.runtimeId ∉ bs.map (·.runtimeId) ∧ (putBinding b bs).map (·.runtimeId) = bs.map (·.runtimeId) ++ [b.runtimeId]) := by
  rw [putBinding]
  split
  · left
    rw [List.map_map]
    apply List.map_congr_left
    intro a _
    simp only [Function.comp_apply]
    split
    · next heq => exact heq.symm
    · rfl
  · next hnone =>
    right
    refine ⟨fun hmem => ?_, by simp⟩
    obtain ⟨a, ha, heq⟩ := List.mem_map.mp hmem
    exact hnone (List.any_eq_true.mpr ⟨a, ha, by simpa using heq⟩)

theorem nodup_put {b : RuntimeBinding} {bs : List RuntimeBinding} (h : (bs.map (·.runtimeId)).Nodup) :
    ((putBinding b bs).map (·.runtimeId)).Nodup := by
  cases ids_put b bs with
  | inl hsame => exact hsame ▸ h
  | inr hnew =>
    rw [hnew.2]
    exact List.nodup_append.mpr ⟨h, List.nodup_singleton _, fun a ha x hx => by
      rw [List.mem_singleton.mp hx]
      exact fun heq => hnew.1 (heq ▸ ha)⟩

/-- A binding that is put in the place of one with the same thread leaves the list of threads. -/
theorem threads_put {a b : RuntimeBinding} {bs : List RuntimeBinding} (hnodup : (bs.map (·.runtimeId)).Nodup)
    (ha : a ∈ bs) (hid : a.runtimeId = b.runtimeId) (hthread : a.threadId = b.threadId) :
    (putBinding b bs).map (·.threadId) = bs.map (·.threadId) := by
  have hany : bs.any (·.runtimeId = b.runtimeId) = true := List.any_eq_true.mpr ⟨a, ha, by simpa using hid⟩
  rw [putBinding, if_pos hany, List.map_map]
  apply List.map_congr_left
  intro x hx
  simp only [Function.comp_apply]
  split
  · next hxb =>
    have hxa : x = a := List.inj_on_of_nodup_map hnodup hx ha (hxb.trans hid.symm)
    rw [hxa, hthread]
  · rfl

theorem mem_put (b : RuntimeBinding) (bs : List RuntimeBinding) : b ∈ putBinding b bs := by
  rw [putBinding]
  split
  · next hany =>
    obtain ⟨a, ha, hid⟩ := List.any_eq_true.mp hany
    exact List.mem_map.mpr ⟨a, ha, if_pos (by simpa using hid)⟩
  · exact List.mem_append_right bs (List.mem_singleton_self b)

theorem binding_mem {c : Cell ι} {runtimeId : Text} {b : RuntimeBinding} (h : c.binding runtimeId = some b) :
    b ∈ c.bindings ∧ b.runtimeId = runtimeId := by
  refine ⟨List.mem_of_find?_eq_some h, ?_⟩
  simpa using List.find?_some h

@[simp] theorem abandoned_syncGeneration (c : Cell ι) (g : Option ℕ) : (c.syncGeneration g).abandoned = c.abandoned := by
  cases g with
  | none => rfl
  | some g =>
    rw [Cell.syncGeneration]
    split <;> rfl

/-! ## Changes that keep the cell sound -/

namespace Sound
variable {c : Cell ι} (h : Sound c)
include h

theorem mayBeReady_of_ready {b : RuntimeBinding} (hb : b ∈ c.bindings) (hready : b.status = .ready) : MayBeReady c b := by
  refine ⟨fun hclosed => ?_, (h.attached b hb).2 hready⟩
  have hdetached := (h.attached b hb).1 hclosed
  rw [hready] at hdetached
  exact nomatch hdetached

theorem put {b : RuntimeBinding} (hclosed : b.runtimeId ∈ c.closed → b.status = .detached)
    (hready : b.status = .ready → b.threadId ∉ c.released)
    (hused : 0 < c.activeRequests b.runtimeId → MayBeReady c b) : Sound (c.put b) where
  nodup := nodup_put h.nodup
  attached a ha := by
    cases eq_or_mem_of_mem_put ha with
    | inl heq =>
      subst heq
      exact ⟨hclosed, hready⟩
    | inr hold => exact h.attached a hold.1
  used a ha := by
    cases eq_or_mem_of_mem_put ha with
    | inl heq =>
      subst heq
      exact hused
    | inr hold => exact h.used a hold.1
  counted := h.counted
  live := h.live

theorem detach (runtimeId : Text) : Sound (c.detach runtimeId) := by
  rw [Cell.detach]
  cases hb : c.binding runtimeId with
  | none => exact h
  | some b =>
    apply h.put (fun _ => rfl) (fun hready => RuntimeStatus.noConfusion hready)
    exact h.used b (binding_mem hb).1

theorem touched {runtimeId : Text} (count : Option ℕ) (now : ℚ)
    (hmay : ∀ b, c.binding runtimeId = some b → MayBeReady c b) : Sound (c.touched runtimeId count now) := by
  rw [Cell.touched]
  cases hb : c.binding runtimeId with
  | none => exact h
  | some b =>
    have hready := hmay b hb
    exact h.put (fun hclosed => absurd hclosed hready.1) (fun _ => hready.2) fun _ => hready

/-- A touch keeps closed runtimes detached exactly when it finds a runtime that may be ready. -/
theorem touched_attached_iff (runtimeId : Text) (count : Option ℕ) (now : ℚ) :
    Attached (c.touched runtimeId count now) ↔ ∀ b, c.binding runtimeId = some b → MayBeReady c b := by
  refine ⟨fun hattached b hb => ?_, fun hmay => (h.touched count now hmay).attached⟩
  rw [Cell.touched, hb] at hattached
  have htouched := hattached _ (mem_put _ _)
  exact ⟨fun hclosed => RuntimeStatus.noConfusion (htouched.1 hclosed), htouched.2 rfl⟩

/-- Changes that only forget live threads, bindings or abandoned threads. -/
theorem forget {c' : Cell ι} (hbindings : c'.bindings.Sublist c.bindings) (hactive : c'.activeRequests = c.activeRequests)
    (husers : c'.users = c.users) (hclosed : c'.closed = c.closed) (hreleased : c'.released = c.released)
    (hlive : ∀ t ∈ c'.liveThreadIds, t ∈ c.liveThreadIds) : Sound c' where
  nodup := h.nodup.sublist (hbindings.map _)
  attached b hb := by
    rw [hclosed, hreleased]
    exact h.attached b (hbindings.subset hb)
  used b hb := by
    rw [hactive, MayBeReady, hclosed, hreleased]
    exact h.used b (hbindings.subset hb)
  counted runtimeId := by
    rw [hactive, husers]
    exact h.counted runtimeId
  live t ht := by
    rw [hreleased]
    exact h.live t (hlive t ht)

theorem syncGeneration (g : Option ℕ) : Sound (c.syncGeneration g) := by
  cases g with
  | none => exact h
  | some g =>
    rw [Cell.syncGeneration]
    split
    · exact h
    · exact h.forget (List.Sublist.refl _) rfl rfl rfl rfl fun t ht => absurd ht List.not_mem_nil

theorem dropBindings (dropped : List RuntimeBinding) : Sound (c.dropBindings dropped) :=
  h.forget List.filter_sublist rfl rfl rfl rfl fun _ ht => List.mem_of_mem_filter ht

/-- Detaching some of the runtimes. -/
theorem detachSome {c' : Cell ι} {f : RuntimeBinding → RuntimeBinding} (hbindings : c'.bindings = c.bindings.map f)
    (hf : ∀ b, (f b).runtimeId = b.runtimeId ∧ (f b).threadId = b.threadId ∧ ((f b).status = .detached ∨ f b = b))
    (hactive : c'.activeRequests = c.activeRequests) (husers : c'.users = c.users) (hclosed : c'.closed = c.closed)
    (hreleased : c'.released = c.released) (hlive : ∀ t ∈ c'.liveThreadIds, t ∈ c.liveThreadIds) : Sound c' where
  nodup := by
    have hids : (c.bindings.map f).map (·.runtimeId) = c.bindings.map (·.runtimeId) := by
      rw [List.map_map]
      exact List.map_congr_left fun b _ => (hf b).1
    rw [hbindings, hids]
    exact h.nodup
  attached b hb := by
    rw [hbindings] at hb
    obtain ⟨a, ha, rfl⟩ := List.mem_map.mp hb
    rw [hclosed, hreleased]
    cases (hf a).2.2 with
    | inl hdetached => exact ⟨fun _ => hdetached, fun hready => nomatch hdetached.symm.trans hready⟩
    | inr hsame => exact hsame.symm ▸ h.attached a ha
  used b hb := by
    rw [hbindings] at hb
    obtain ⟨a, ha, rfl⟩ := List.mem_map.mp hb
    rw [hactive, MayBeReady, hclosed, hreleased, (hf a).1, (hf a).2.1]
    exact h.used a ha
  counted runtimeId := by
    rw [hactive, husers]
    exact h.counted runtimeId
  live t ht := by
    rw [hreleased]
    exact h.live t (hlive t ht)

theorem beginRelease (t : Text) : Sound (c.beginRelease t) := by
  refine h.detachSome rfl (fun b => ?_) rfl rfl rfl rfl fun u hu => (mem_without.mp hu).1
  split
  · exact ⟨rfl, rfl, .inl rfl⟩
  · exact ⟨rfl, rfl, .inr rfl⟩

theorem detachAll : Sound c.detachAll :=
  h.detachSome rfl (fun _ => ⟨rfl, rfl, .inl rfl⟩) rfl rfl rfl rfl fun _ hu => absurd hu List.not_mem_nil

/-- The release of a thread that no ready runtime and no runtime in use is bound to. -/
theorem unload {t : Text} (hunused : Unused c t) : Sound (c.unload t) := by
  have hreleased : ∀ {u : Text}, u ∉ c.released → u ≠ t → u ∉ (c.unload t).released := by
    intro u hu hne hmem
    cases List.mem_cons.mp hmem with
    | inl heq => exact hne heq
    | inr hold => exact hu (mem_without.mp hold).1
  refine ⟨h.nodup, fun b hb => ?_, fun b hb hactive => ?_, h.counted, fun u hu => ?_⟩
  · refine ⟨(h.attached b hb).1, fun hready => hreleased ((h.attached b hb).2 hready) fun heq => ?_⟩
    exact (hunused.2 b hb heq).1 hready
  · refine ⟨(h.used b hb hactive).1, hreleased (h.used b hb hactive).2 fun heq => ?_⟩
    exact absurd (hunused.2 b hb heq).2 hactive.ne'
  · exact hreleased (h.live u hu) fun heq => hunused.1 (heq ▸ hu)

theorem confirmRelease {t : Text} (hunused : Unused c t) : Sound (c.confirmRelease t) :=
  (h.unload hunused).forget (List.Sublist.refl _) rfl rfl rfl rfl fun _ ht => ht

theorem load (t : Text) : Sound (c.load t) := by
  have hreleased : ∀ {u : Text}, u ∉ c.released → u ∉ (c.load t).released := fun hu hmem => hu (mem_without.mp hmem).1
  refine ⟨h.nodup, fun b hb => ?_, fun b hb hactive => ?_, h.counted, fun u hu => hreleased (h.live u hu)⟩
  · exact ⟨(h.attached b hb).1, fun hready => hreleased ((h.attached b hb).2 hready)⟩
  · exact ⟨(h.used b hb hactive).1, hreleased (h.used b hb hactive).2⟩

theorem addLive {t : Text} (ht : t ∉ c.released) : Sound (c.addLive t) := by
  refine ⟨h.nodup, h.attached, h.used, h.counted, fun u hu => ?_⟩
  cases List.mem_cons.mp hu with
  | inl heq => exact heq ▸ ht
  | inr hold => exact h.live u (mem_without.mp hold).1

/-- Closing a runtime that is not in use. -/
theorem closeBinding {b : RuntimeBinding} (hdetached : b.status = .detached) (hidle : c.activeRequests b.runtimeId = 0) :
    Sound (c.closeBinding b) := by
  refine ⟨nodup_put h.nodup, fun a ha => ?_, fun a ha hactive => ?_, h.counted, h.live⟩
  · cases eq_or_mem_of_mem_put ha with
    | inl heq =>
      subst heq
      exact ⟨fun _ => hdetached, fun hready => nomatch hdetached.symm.trans hready⟩
    | inr hold =>
      refine ⟨fun hclosed => (h.attached a hold.1).1 ?_, (h.attached a hold.1).2⟩
      exact (mem_without.mp ((List.mem_cons.mp hclosed).resolve_left hold.2)).1
  · cases eq_or_mem_of_mem_put ha with
    | inl heq =>
      subst heq
      exact absurd hidle hactive.ne'
    | inr hold =>
      refine ⟨fun hclosed => (h.used a hold.1 hactive).1 ?_, (h.used a hold.1 hactive).2⟩
      exact (mem_without.mp ((List.mem_cons.mp hclosed).resolve_left hold.2)).1

/-- A runtime is resumed with a thread that is loaded. -/
theorem commitBinding {b : RuntimeBinding} (hthread : b.threadId ∉ c.released) : Sound (c.commitBinding b) := by
  have hclosed : ∀ {r : Text}, r ∈ (c.commitBinding b).closed → r ∈ c.closed := fun hr => (mem_without.mp hr).1
  have hself : b.runtimeId ∉ (c.commitBinding b).closed := fun hr => (mem_without.mp hr).2 rfl
  refine ⟨nodup_put h.nodup, fun a ha => ?_, fun a ha hactive => ?_, h.counted, h.live⟩
  · cases eq_or_mem_of_mem_put ha with
    | inl heq =>
      subst heq
      exact ⟨fun hr => absurd hr hself, fun _ => hthread⟩
    | inr hold => exact ⟨fun hr => (h.attached a hold.1).1 (hclosed hr), (h.attached a hold.1).2⟩
  · cases eq_or_mem_of_mem_put ha with
    | inl heq =>
      subst heq
      exact ⟨hself, hthread⟩
    | inr hold => exact ⟨fun hr => (h.used a hold.1 hactive).1 (hclosed hr), (h.used a hold.1 hactive).2⟩

/-- A request enters its slot while its runtime is ready. -/
theorem register (me : ι) {b : RuntimeBinding} (hb : b ∈ c.bindings) (hready : b.status = .ready) :
    Sound (c.register me b.runtimeId) := by
  refine ⟨h.nodup, h.attached, fun a ha hactive => ?_, fun r => ?_, h.live⟩
  · by_cases heq : a.runtimeId = b.runtimeId
    · have hab : a = b := List.inj_on_of_nodup_map h.nodup ha hb heq
      rw [hab]
      exact h.mayBeReady_of_ready hb hready
    · simp only [Cell.register, Function.update_of_ne heq] at hactive
      exact h.used a ha hactive
  · by_cases hr : r = b.runtimeId
    · subst hr
      simp [Cell.register, h.counted]
    · simp [Cell.register, Function.update_of_ne hr, h.counted]

theorem unregister [DecidableEq ι] {me : ι} {runtimeId : Text} (hme : me ∈ c.users runtimeId) : Sound (c.unregister me runtimeId) := by
  refine ⟨h.nodup, h.attached, fun a ha hactive => h.used a ha ?_, fun r => ?_, h.live⟩
  · by_cases heq : a.runtimeId = runtimeId
    · simp only [Cell.unregister, heq, Function.update_self] at hactive ⊢
      exact Nat.lt_of_lt_of_le hactive (Nat.sub_le _ _)
    · simpa only [Cell.unregister, Function.update_of_ne heq] using hactive
  · by_cases hr : r = runtimeId
    · subst hr
      simp [Cell.unregister, h.counted, List.length_erase_of_mem hme]
    · simp [Cell.unregister, Function.update_of_ne hr, h.counted]

end Sound

end WebOauthMcp.CodexBindings
