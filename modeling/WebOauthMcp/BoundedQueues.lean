import Mathlib.Data.List.Basic
import Mathlib.Data.List.Infix
import Mathlib.Data.List.TakeWhile

/-!
# Bounded queues

Entries wait in a queue until a signal frees them. They leave in order, and signals change those
that stay. An entry that finds the queue full ends everything, and what waits is lost.
-/

namespace WebOauthMcp.BoundedQueues

variable {α σ : Type}

/-- Which entries a signal frees, and how it changes the others. -/
structure Discipline (α σ : Type) where
  frees : σ → α → Bool
  change : σ → α → α
  stable : ∀ s t a, frees s (change t a) = frees s a

inductive Op (α σ : Type)
  | queue (a : α)
  | signal (s : σ)

def Op.entry : Op α σ → Option α
  | .queue a => some a
  | .signal _ => none

def queued (ops : List (Op α σ)) : List α := ops.filterMap Op.entry

variable (d : Discipline α σ)

/-- An entry, as it leaves in the end. -/
def completed (a : α) : List (Op α σ) → α
  | [] => a
  | .queue _ :: ops => completed a ops
  | .signal s :: ops => if d.frees s a then a else completed (d.change s a) ops

def results : List (Op α σ) → List α
  | [] => []
  | .queue a :: ops => completed d a ops :: results ops
  | .signal _ :: ops => results ops

/-- What leaves a queue with room for `cap` entries, and whether one found it full. At the end
all leave. -/
def emit (cap : ℕ) : List α → List (Op α σ) → List α × Bool
  | waiting, [] => (waiting, false)
  | waiting, .queue a :: ops => if cap ≤ waiting.length then ([], true) else emit cap (waiting ++ [a]) ops
  | waiting, .signal s :: ops =>
    let r := emit cap ((waiting.dropWhile (d.frees s)).map (d.change s)) ops
    (waiting.takeWhile (d.frees s) ++ r.1, r.2)

/-- What has left so far, and what still waits unless an entry found the queue full. -/
def release (cap : ℕ) : List α → List (Op α σ) → List α × Option (List α)
  | waiting, [] => ([], some waiting)
  | waiting, .queue a :: ops => if cap ≤ waiting.length then ([], none) else release cap (waiting ++ [a]) ops
  | waiting, .signal s :: ops =>
    let r := release cap ((waiting.dropWhile (d.frees s)).map (d.change s)) ops
    (waiting.takeWhile (d.frees s) ++ r.1, r.2)

/-- What frees the one frees the other. -/
def Discipline.Before (a b : α) : Prop := ∀ s, d.frees s b = true → d.frees s a = true

/-- As long as the entry waits, none is queued that would be freed first. -/
def Ahead (a : α) (ops : List (Op α σ)) : Prop :=
  ∀ mid b rest, ops = mid ++ .queue b :: rest → (∀ s, .signal s ∈ mid → d.frees s a = false) → d.Before a b

def Orderly (ops : List (Op α σ)) : Prop := ∀ front a rest, ops = front ++ .queue a :: rest → Ahead d a rest

/-- Each entry is freed before the queue is full behind it. -/
def Timely (cap : ℕ) (ops : List (Op α σ)) : Prop := ∀ front a mid b rest, ops = front ++ .queue a :: (mid ++ .queue b :: rest) →
  (queued mid).length + 1 = cap → ∃ s, .signal s ∈ mid ∧ d.frees s a = true

/-- The operations behind the first `n` entries. -/
def skip : ℕ → List (Op α σ) → List (Op α σ)
  | 0, ops => ops
  | _ + 1, [] => []
  | n + 1, .queue _ :: ops => skip n ops
  | n + 1, .signal _ :: ops => skip (n + 1) ops

variable {d} {cap : ℕ} {ops : List (Op α σ)} {waiting : List α} {a : α}

@[simp] theorem queued_queue : queued (.queue a :: ops) = a :: queued ops := rfl

@[simp] theorem queued_signal {s : σ} : queued (.signal s :: ops) = queued ops := rfl

theorem queued_append (a b : List (Op α σ)) : queued (a ++ b) = queued a ++ queued b := List.filterMap_append

theorem queued_map (entries : List α) : queued (entries.map (.queue : α → Op α σ)) = entries := by
  induction entries with
  | nil => rfl
  | cons a entries ih => exact congrArg _ ih

theorem queued_map_append (entries : List α) (ops : List (Op α σ)) : queued (entries.map .queue ++ ops) = entries ++ queued ops := by
  rw [queued_append, queued_map]

theorem completed_queues (a : α) (entries : List α) (ops : List (Op α σ)) :
    completed d a (entries.map .queue ++ ops) = completed d a ops := by
  induction entries with
  | nil => rfl
  | cons b entries ih => exact ih

theorem results_queues (entries : List α) (ops : List (Op α σ)) :
    results d (entries.map .queue ++ ops) = entries.map (fun a => completed d a ops) ++ results d ops := by
  induction entries with
  | nil => rfl
  | cons a entries ih => rw [List.map_cons, List.cons_append, results, completed_queues, ih, List.map_cons, List.cons_append]

/-- Entries that no signal changes leave as they came. -/
theorem results_of_unchanged (h : ∀ s, .signal s ∈ ops → ∀ a, d.change s a = a) : results d ops = queued ops := by
  have hone : ∀ (ops : List (Op α σ)) (a : α), (∀ s, .signal s ∈ ops → ∀ a, d.change s a = a) → completed d a ops = a := by
    intro ops a h
    induction ops with
    | nil => rfl
    | cons op ops ih =>
      have hrest := ih fun s hs => h s (List.mem_cons_of_mem _ hs)
      cases op with
      | queue b => exact hrest
      | signal s =>
        rw [completed, h s (List.mem_cons_self ..), hrest]
        exact ite_self a
  induction ops with
  | nil => rfl
  | cons op ops ih =>
    have hrest : ∀ s, .signal s ∈ ops → ∀ a, d.change s a = a := fun s hs => h s (List.mem_cons_of_mem _ hs)
    cases op with
    | queue a => rw [results, queued_queue, hone ops a hrest, ih hrest]
    | signal s => exact ih hrest

theorem length_results (ops : List (Op α σ)) : (results d ops).length = (queued ops).length := by
  induction ops with
  | nil => rfl
  | cons op ops ih =>
    cases op with
    | queue a => exact congrArg Nat.succ ih
    | signal s => exact ih

@[simp] theorem skip_zero (ops : List (Op α σ)) : skip 0 ops = ops := by
  cases ops with
  | nil => rfl
  | cons op ops => rfl

theorem results_skip (n : ℕ) (ops : List (Op α σ)) : results d (skip n ops) = (results d ops).drop n := by
  induction ops generalizing n with
  | nil =>
    cases n with
    | zero => rfl
    | succ n => rfl
  | cons op ops ih =>
    cases n with
    | zero => rfl
    | succ n =>
      cases op with
      | queue a => exact ih n
      | signal s => exact ih (n + 1)

theorem skip_suffix (n : ℕ) (ops : List (Op α σ)) : skip n ops <:+ ops := by
  induction ops generalizing n with
  | nil =>
    cases n with
    | zero => exact List.suffix_refl []
    | succ n => exact List.suffix_refl []
  | cons op ops ih =>
    cases n with
    | zero => exact List.suffix_refl _
    | succ n =>
      cases op with
      | queue a => exact (ih n).trans (List.suffix_cons _ _)
      | signal s => exact (ih (n + 1)).trans (List.suffix_cons _ _)

theorem skip_of_lt {n : ℕ} (h : (queued ops).length < n) : skip n ops = [] := by
  induction ops generalizing n with
  | nil =>
    cases n with
    | zero => rfl
    | succ n => rfl
  | cons op ops ih =>
    cases n with
    | zero => exact absurd h (Nat.not_lt_zero _)
    | succ n =>
      cases op with
      | queue a => exact ih (Nat.lt_of_succ_lt_succ h)
      | signal s => exact ih h

theorem Orderly.suffix {ops' : List (Op α σ)} (h : Orderly d ops) (hs : ops' <:+ ops) : Orderly d ops' := by
  obtain ⟨before, rfl⟩ := hs
  intro front a rest hsplit
  refine h (before ++ front) a rest ?_
  rw [hsplit, List.append_assoc]

theorem Discipline.before_change {s t : σ} {a b : α} : d.Before (d.change s a) (d.change t b) ↔ d.Before a b := by
  simp only [Discipline.Before, d.stable]

theorem Ahead.change {s : σ} (h : Ahead d a ops) : Ahead d (d.change s a) ops := by
  intro mid b rest hsplit hwaits u hu
  rw [d.stable]
  exact h mid b rest hsplit (fun v hv => (d.stable v s a).symm.trans (hwaits v hv)) u hu

theorem Ahead.queue {b : α} (h : Ahead d a (.queue b :: ops)) : d.Before a b ∧ Ahead d a ops := by
  refine ⟨h [] b ops rfl fun s hs => absurd hs List.not_mem_nil, fun mid c rest hsplit hwaits => ?_⟩
  refine h (.queue b :: mid) c rest (congrArg _ hsplit) fun s hs => hwaits s ?_
  exact (List.mem_cons.mp hs).resolve_left (by simp)

theorem Ahead.signal {s : σ} (h : Ahead d a (.signal s :: ops)) (hwaits : d.frees s a = false) : Ahead d a ops := by
  intro mid c rest hsplit hmid
  refine h (.signal s :: mid) c rest (congrArg _ hsplit) fun t ht => ?_
  cases List.mem_cons.mp ht with
  | inl heq =>
    cases heq
    exact hwaits
  | inr hmem => exact hmid t hmem

/-- What waits is in the order in which it will be freed. -/
structure Queue (d : Discipline α σ) (waiting : List α) (ops : List (Op α σ)) : Prop where
  ordered : waiting.Pairwise d.Before
  ahead : ∀ a ∈ waiting, Ahead d a ops

theorem queue_nil : Queue d [] ops := ⟨List.Pairwise.nil, fun _ ha => absurd ha List.not_mem_nil⟩

theorem Queue.queue (h : Queue d waiting (.queue a :: ops)) (hnew : Ahead d a ops) : Queue d (waiting ++ [a]) ops := by
  refine ⟨List.pairwise_append.mpr ⟨h.ordered, List.pairwise_singleton _ _, fun b hb c hc => ?_⟩, fun b hb => ?_⟩
  · cases List.mem_singleton.mp hc
    exact (h.ahead b hb).queue.1
  · cases List.mem_append.mp hb with
    | inl hold => exact (h.ahead b hold).queue.2
    | inr hlast =>
      cases List.mem_singleton.mp hlast
      exact hnew

/-- Where the first is not freed, none is. -/
theorem not_freed_of_dropWhile {s : σ} (h : waiting.Pairwise d.Before) : ∀ b ∈ waiting.dropWhile (d.frees s), d.frees s b = false := by
  induction waiting with
  | nil => exact fun b hb => absurd hb List.not_mem_nil
  | cons a waiting ih =>
    obtain ⟨hfirst, hrest⟩ := List.pairwise_cons.mp h
    by_cases hfree : d.frees s a = true
    · rw [List.dropWhile_cons_of_pos hfree]
      exact ih hrest
    · rw [List.dropWhile_cons_of_neg hfree]
      intro b hb
      cases List.mem_cons.mp hb with
      | inl heq => exact heq ▸ Bool.eq_false_iff.mpr hfree
      | inr hlater => exact Bool.eq_false_iff.mpr fun hb => hfree (hfirst b hlater s hb)

theorem Queue.signal {s : σ} (h : Queue d waiting (.signal s :: ops)) : Queue d ((waiting.dropWhile (d.frees s)).map (d.change s)) ops := by
  have hrest := List.dropWhile_suffix (d.frees s) (l := waiting)
  refine ⟨List.pairwise_map.mpr ((h.ordered.sublist hrest.sublist).imp fun hb => d.before_change.mpr hb), fun b hb => ?_⟩
  obtain ⟨c, hc, rfl⟩ := List.mem_map.mp hb
  exact ((h.ahead c (hrest.subset hc)).signal (not_freed_of_dropWhile h.ordered c hc)).change

/-- All that is to leave, while this waits. -/
def outlook (d : Discipline α σ) (waiting : List α) (ops : List (Op α σ)) : List α :=
  waiting.map (fun a => completed d a ops) ++ results d ops

theorem outlook_queue : outlook d (waiting ++ [a]) ops = outlook d waiting (.queue a :: ops) := by
  rw [outlook, outlook, List.map_append, List.append_assoc]
  rfl

theorem outlook_signal {s : σ} (h : waiting.Pairwise d.Before) : outlook d waiting (.signal s :: ops) =
    waiting.takeWhile (d.frees s) ++ outlook d ((waiting.dropWhile (d.frees s)).map (d.change s)) ops := by
  have hfreed : (waiting.takeWhile (d.frees s)).map (fun a => completed d a (.signal s :: ops)) = waiting.takeWhile (d.frees s) := by
    refine (List.map_congr_left fun a ha => ?_).trans (List.map_id _)
    have hfree : d.frees s a = true := List.mem_takeWhile_imp ha
    exact if_pos hfree
  have hkept : (waiting.dropWhile (d.frees s)).map (fun a => completed d a (.signal s :: ops)) =
      ((waiting.dropWhile (d.frees s)).map (d.change s)).map (fun a => completed d a ops) := by
    rw [List.map_map]
    refine List.map_congr_left fun a ha => ?_
    have hwaits := not_freed_of_dropWhile h a ha
    exact if_neg (by simp [hwaits])
  have hsplit : waiting.map (fun a => completed d a (.signal s :: ops)) = waiting.takeWhile (d.frees s) ++
      ((waiting.dropWhile (d.frees s)).map (d.change s)).map (fun a => completed d a ops) := by
    rw [← hfreed, ← hkept, ← List.map_append, List.takeWhile_append_dropWhile]
  rw [outlook, outlook, hsplit, List.append_assoc]
  rfl

/-- What leaves is the front of all that is to leave, and all of it unless the queue was full. -/
theorem emit_spec (hcap : 0 < cap) (hq : Queue d waiting ops) (hops : Orderly d ops) :
    (emit d cap waiting ops).1 <+: outlook d waiting ops ∧
      (emit d cap waiting ops).2 = decide ((emit d cap waiting ops).1.length < (outlook d waiting ops).length) := by
  induction ops generalizing waiting with
  | nil =>
    have hall : outlook d waiting [] = waiting := (List.append_nil _).trans (List.map_id waiting)
    rw [hall]
    exact ⟨List.prefix_refl _, (decide_eq_false (Nat.lt_irrefl _)).symm⟩
  | cons op ops ih =>
    have hrest : Orderly d ops := hops.suffix (List.suffix_cons op ops)
    cases op with
    | queue a =>
      rw [← outlook_queue, emit]
      split
      · refine ⟨List.nil_prefix, (decide_eq_true ?_).symm⟩
        rw [outlook, List.length_append, List.length_map, List.length_append, List.length_singleton, List.length_nil]
        omega
      · exact ih (hq.queue (hops [] a ops rfl)) hrest
    | signal s =>
      obtain ⟨hfront, hflag⟩ := ih hq.signal hrest
      rw [outlook_signal hq.ordered, emit]
      refine ⟨(List.prefix_append_right_inj _).mpr hfront, ?_⟩
      simp only [List.length_append, Nat.add_lt_add_iff_left]
      exact hflag

/-- At the end what still waits leaves. -/
theorem emit_eq_release (waiting : List α) (ops : List (Op α σ)) : emit d cap waiting ops =
    ((release d cap waiting ops).1 ++ (release d cap waiting ops).2.getD [], (release d cap waiting ops).2.isNone) := by
  induction ops generalizing waiting with
  | nil => rfl
  | cons op ops ih =>
    cases op with
    | queue a =>
      rw [emit, release]
      split
      · rfl
      · exact ih _
    | signal s =>
      rw [emit, release, ih]
      simp only [List.append_assoc]

theorem emit_queues (h : waiting.length ≤ cap) (entries : List α) (ops : List (Op α σ)) :
    emit d cap waiting (entries.map .queue ++ ops) =
      if waiting.length + entries.length ≤ cap then emit d cap (waiting ++ entries) ops else ([], true) := by
  induction entries generalizing waiting with
  | nil => rw [List.length_nil, Nat.add_zero, if_pos h, List.append_nil, List.map_nil, List.nil_append]
  | cons a entries ih =>
    rw [List.map_cons, List.cons_append, emit, List.length_cons]
    by_cases hfull : cap ≤ waiting.length
    · rw [if_pos hfull, if_neg (by omega)]
    · have hlength : (waiting ++ [a]).length = waiting.length + 1 := List.length_append
      rw [if_neg hfull, ih (by omega), hlength, List.append_assoc, List.singleton_append, Nat.add_assoc, Nat.add_comm 1]

theorem length_emit_le (waiting : List α) (ops : List (Op α σ)) :
    (emit d cap waiting ops).1.length ≤ waiting.length + (queued ops).length := by
  induction ops generalizing waiting with
  | nil => exact Nat.le_add_right _ _
  | cons op ops ih =>
    cases op with
    | queue a =>
      rw [emit, queued_queue, List.length_cons]
      split
      · exact Nat.zero_le _
      · have hrest := ih (waiting ++ [a])
        rw [List.length_append, List.length_singleton] at hrest
        omega
    | signal s =>
      have hrest := ih ((waiting.dropWhile (d.frees s)).map (d.change s))
      have hsplit : (waiting.takeWhile (d.frees s)).length + (waiting.dropWhile (d.frees s)).length = waiting.length := by
        rw [← List.length_append, List.takeWhile_append_dropWhile]
      rw [List.length_map] at hrest
      rw [emit, queued_signal, List.length_append]
      omega

/-- Unless the queue was full, nothing is lost: all that was queued has left or waits. -/
theorem length_release {left : List α} (h : (release d cap waiting ops).2 = some left) :
    (release d cap waiting ops).1.length + left.length = waiting.length + (queued ops).length := by
  induction ops generalizing waiting with
  | nil =>
    cases Option.some.inj h
    exact Nat.add_comm _ _
  | cons op ops ih =>
    cases op with
    | queue a =>
      rw [release] at h ⊢
      split at h
      · exact absurd h.symm (Option.some_ne_none left)
      · next hroom =>
        rw [if_neg hroom, ih h, List.length_append, List.length_singleton, queued_queue, List.length_cons]
        omega
    | signal s =>
      have hsplit : (waiting.takeWhile (d.frees s)).length + (waiting.dropWhile (d.frees s)).length = waiting.length := by
        rw [← List.length_append, List.takeWhile_append_dropWhile]
      have hrest := ih h
      rw [List.length_map] at hrest
      rw [release, queued_signal, List.length_append]
      omega

/-- The first of a queue leaves when it is freed before the queue is full. -/
theorem emit_ne_nil_iff (hroom : waiting.length + 1 ≤ cap) : (emit d cap (a :: waiting) ops).1 ≠ [] ↔
    ∀ mid b rest, ops = mid ++ .queue b :: rest → (queued mid).length + waiting.length + 1 = cap →
      ∃ s, .signal s ∈ mid ∧ d.frees s a = true := by
  induction ops generalizing a waiting with
  | nil => exact iff_of_true (List.cons_ne_nil _ _) fun mid b rest hsplit => absurd hsplit (by simp)
  | cons op ops ih =>
    cases op with
    | queue c =>
      rw [emit]
      split
      · next hfull =>
        refine iff_of_false (fun h => h rfl) fun h => ?_
        obtain ⟨s, hs, -⟩ := h [] c ops rfl (by rw [List.length_cons] at hfull; simp only [queued, List.filterMap_nil, List.length_nil]; omega)
        exact List.not_mem_nil hs
      · next hfull =>
        rw [List.length_cons] at hfull
        have hlength : (waiting ++ [c]).length = waiting.length + 1 := by rw [List.length_append, List.length_singleton]
        have hroomy : (waiting ++ [c]).length + 1 ≤ cap := by omega
        refine (ih hroomy).trans ?_
        rw [hlength]
        constructor
        · intro h mid b rest hsplit hcount
          cases mid with
          | nil =>
            simp only [queued, List.filterMap_nil, List.length_nil] at hcount
            omega
          | cons op' mid =>
            obtain ⟨rfl, hrest⟩ := List.cons.inj hsplit
            have hmore : (queued mid).length + (waiting.length + 1) + 1 = cap := by
              rw [queued_queue, List.length_cons] at hcount
              omega
            obtain ⟨s, hs, hfree⟩ := h mid b rest hrest hmore
            exact ⟨s, List.mem_cons_of_mem _ hs, hfree⟩
        · intro h mid b rest hsplit hcount
          have hmore : (queued (.queue c :: mid)).length + waiting.length + 1 = cap := by
            rw [queued_queue, List.length_cons]
            omega
          obtain ⟨s, hs, hfree⟩ := h (.queue c :: mid) b rest (congrArg _ hsplit) hmore
          exact ⟨s, (List.mem_cons.mp hs).resolve_left (by simp), hfree⟩
    | signal s =>
      by_cases hfree : d.frees s a = true
      · refine iff_of_true ?_ fun mid b rest hsplit _ => ?_
        · rw [emit, List.takeWhile_cons_of_pos hfree]
          exact List.cons_ne_nil _ _
        · cases mid with
          | nil => exact absurd (List.cons.inj hsplit).1 (by simp)
          | cons op' mid =>
            obtain ⟨rfl, -⟩ := List.cons.inj hsplit
            exact ⟨s, List.mem_cons_self .., hfree⟩
      · have hmap : (waiting.map (d.change s)).length = waiting.length := List.length_map ..
        rw [emit, List.takeWhile_cons_of_neg hfree, List.dropWhile_cons_of_neg hfree, List.map_cons, List.nil_append]
        have hroomy : (waiting.map (d.change s)).length + 1 ≤ cap := by omega
        refine (ih hroomy).trans ?_
        rw [hmap]
        simp only [d.stable]
        constructor
        · intro h mid b rest hsplit hcount
          cases mid with
          | nil => exact absurd (List.cons.inj hsplit).1 (by simp)
          | cons op' mid =>
            obtain ⟨rfl, hrest⟩ := List.cons.inj hsplit
            obtain ⟨t, ht, hfreed⟩ := h mid b rest hrest hcount
            exact ⟨t, List.mem_cons_of_mem _ ht, hfreed⟩
        · intro h mid b rest hsplit hcount
          obtain ⟨t, ht, hfreed⟩ := h (.signal s :: mid) b rest (congrArg _ hsplit) hcount
          cases List.mem_cons.mp ht with
          | inl heq =>
            cases heq
            exact absurd hfreed hfree
          | inr hmem => exact ⟨t, hmem, hfreed⟩

theorem exists_entry {i : ℕ} (h : i < (queued ops).length) : ∃ front a rest, ops = front ++ .queue a :: rest ∧ (queued front).length = i := by
  induction ops generalizing i with
  | nil => exact absurd h (Nat.not_lt_zero i)
  | cons op ops ih =>
    cases op with
    | queue a =>
      cases i with
      | zero => exact ⟨[], a, ops, rfl, rfl⟩
      | succ i =>
        obtain ⟨front, b, rest, rfl, hcount⟩ := ih (Nat.lt_of_succ_lt_succ h)
        exact ⟨.queue a :: front, b, rest, rfl, congrArg Nat.succ hcount⟩
    | signal s =>
      obtain ⟨front, b, rest, rfl, hcount⟩ := ih h
      exact ⟨.signal s :: front, b, rest, rfl, hcount⟩

/-- Behind the entries that are skipped the next is the first in the queue. -/
theorem emit_skip (hcap : 0 < cap) (front : List (Op α σ)) (a : α) (rest : List (Op α σ)) :
    emit d cap [] (skip (queued front).length (front ++ .queue a :: rest)) = emit d cap [a] rest := by
  have hfirst : emit d cap [] (.queue a :: rest) = emit d cap [a] rest := if_neg (Nat.not_le.mpr hcap)
  induction front with
  | nil => exact hfirst
  | cons op front ih =>
    cases op with
    | queue b => exact ih
    | signal s =>
      rw [queued_signal]
      cases hcount : (queued front).length with
      | zero =>
        rw [hcount, skip_zero] at ih
        rw [skip_zero]
        exact ih
      | succ n =>
        rw [hcount] at ih
        exact ih

/-- Each entry is freed in time when, whatever is skipped, something leaves. -/
theorem timely_iff (hcap : 0 < cap) : Timely d cap ops ↔ ∀ i < (queued ops).length, (emit d cap [] (skip i ops)).1 ≠ [] := by
  constructor
  · intro h i hi
    obtain ⟨front, a, rest, rfl, rfl⟩ := exists_entry hi
    rw [emit_skip hcap]
    refine (emit_ne_nil_iff hcap).mpr fun mid b more hsplit hcount => ?_
    subst hsplit
    exact h front a mid b more rfl hcount
  · intro h front a mid b rest hsplit hcount
    have hlt : (queued front).length < (queued ops).length := by
      rw [hsplit, queued_append, List.length_append]
      exact Nat.lt_add_of_pos_right (Nat.succ_pos _)
    have hleaves := h _ hlt
    rw [hsplit, emit_skip hcap] at hleaves
    exact (emit_ne_nil_iff hcap).mp hleaves mid b rest rfl hcount

/-- More entries than there is room for, with no signal between them. -/
theorem not_timely_of_many {entries : List α} (hmany : cap < entries.length) (hcap : 0 < cap) (front rest : List (Op α σ)) :
    ¬Timely d cap (front ++ (entries.map .queue ++ rest)) := by
  intro h
  obtain ⟨n, rfl⟩ : ∃ n, cap = n + 1 := ⟨cap - 1, by omega⟩
  cases entries with
  | nil => exact absurd hmany (Nat.not_lt_zero _)
  | cons a entries =>
    rw [List.length_cons] at hmany
    have hlt : n < entries.length := by omega
    have hsplit : front ++ ((a :: entries).map .queue ++ rest) = front ++ .queue a :: ((entries.take n).map .queue ++
        .queue entries[n] :: ((entries.drop (n + 1)).map .queue ++ rest)) := by
      have hentries : entries = entries.take n ++ entries[n] :: entries.drop (n + 1) := by
        rw [← List.drop_eq_getElem_cons hlt, List.take_append_drop]
      have hmapped : entries.map (.queue : α → Op α σ) =
          (entries.take n).map .queue ++ .queue entries[n] :: (entries.drop (n + 1)).map .queue := by
        rw [← List.map_cons, ← List.map_append, ← hentries]
      rw [List.map_cons, hmapped, List.cons_append, List.append_assoc, List.cons_append]
    have hcount : (queued ((entries.take n).map (.queue : α → Op α σ))).length + 1 = n + 1 := by
      rw [queued_map, List.length_take, Nat.min_eq_left (Nat.le_of_lt hlt)]
    obtain ⟨s, hs, -⟩ := h front a _ entries[n] _ hsplit hcount
    obtain ⟨b, -, hb⟩ := List.mem_map.mp hs
    exact absurd hb (by simp)

end WebOauthMcp.BoundedQueues
