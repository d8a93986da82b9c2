import Mathlib.Data.Fintype.Card
import Mathlib.Data.Fintype.EquivFin
import Mathlib.Data.List.Nodup
import WebOauthMcp.FaultyPrograms

/-!
# Transactions that lock in an order

Every call takes its locks one by one in an ascending order, runs its body on the cells it
has locked, and gives the locks back one by one. Its effect is the one it would have after
all calls whose bodies ended before its own, and no call waits for itself along a chain of
others.
-/

namespace WebOauthMcp.LockedTransactions
open FaultyPrograms

variable {ι K V F α : Type} {lt : K → K → Prop}

/-- A body and the locks it needs. -/
structure Transaction (K V F α : Type) (lt : K → K → Prop) where
  locks : List K
  body : Prog K V F α
  ascending : locks.Pairwise lt
  within : body.Within {k | k ∈ locks} fun _ => True

inductive Phase (K V F α : Type)
  | acquiring (wanted : List K)
  | running (rest : Prog K V F α) (faults : ℕ → F)
  | ended (a : α)

/-- The locks that a call holds, the newest first, and where it is. -/
structure Thread (K V F α : Type) where
  held : List K
  phase : Phase K V F α

structure System (ι K V F α : Type) where
  store : K → V
  threads : ι → Thread K V F α

section
variable [DecidableEq ι] [DecidableEq K]

def System.set (s : System ι K V F α) (i : ι) (t : Thread K V F α) : System ι K V F α where
  store := s.store
  threads := Function.update s.threads i t

/-- Nobody holds `k`. -/
def System.Free (s : System ι K V F α) (k : K) : Prop := ∀ j, k ∉ (s.threads j).held

instance [Fintype ι] (s : System ι K V F α) (k : K) : Decidable (s.Free k) :=
  inferInstanceAs (Decidable (∀ j, k ∉ (s.threads j).held))

def initial (T : ι → Transaction K V F α lt) (s₀ : K → V) : System ι K V F α where
  store := s₀
  threads i := ⟨[], .acquiring (T i).locks⟩

/-- One step of the call `i`. -/
def advance [Fintype ι] (T : ι → Transaction K V F α lt) (faults : ι → ℕ → F) (s : System ι K V F α) (i : ι) :
    Option (System ι K V F α) :=
  match s.threads i with
  | ⟨held, .acquiring (k :: wanted)⟩ => if s.Free k then some (s.set i ⟨k :: held, .acquiring wanted⟩) else none
  | ⟨held, .acquiring []⟩ => some (s.set i ⟨held, .running (T i).body (faults i)⟩)
  | ⟨held, .running (.access k change next) fs⟩ => some
      { store := Function.update s.store k (change (fs 0) (s.store k))
        threads := Function.update s.threads i ⟨held, .running (next (fs 0) (s.store k)) fun n => fs (n + 1)⟩ }
  | ⟨held, .running (.done a) _⟩ => some (s.set i ⟨held, .ended a⟩)
  | ⟨_ :: held, .ended a⟩ => some (s.set i ⟨held, .ended a⟩)
  | ⟨[], .ended _⟩ => none

/-- The steps by their kinds. -/
inductive Step (T : ι → Transaction K V F α lt) (faults : ι → ℕ → F) (s : System ι K V F α) :
    System ι K V F α → Prop
  | acquire {i : ι} {held : List K} {k : K} {wanted : List K} (at_lock : s.threads i = ⟨held, .acquiring (k :: wanted)⟩)
      (free : s.Free k) : Step T faults s (s.set i ⟨k :: held, .acquiring wanted⟩)
  | start {i : ι} {held : List K} (at_start : s.threads i = ⟨held, .acquiring []⟩) :
      Step T faults s (s.set i ⟨held, .running (T i).body (faults i)⟩)
  | access {i : ι} {held : List K} {k : K} {change : F → V → V} {next : F → V → Prog K V F α} {fs : ℕ → F}
      (at_access : s.threads i = ⟨held, .running (.access k change next) fs⟩) :
      Step T faults s
        { store := Function.update s.store k (change (fs 0) (s.store k))
          threads := Function.update s.threads i ⟨held, .running (next (fs 0) (s.store k)) fun n => fs (n + 1)⟩ }
  | finish {i : ι} {held : List K} {a : α} {fs : ℕ → F} (at_end : s.threads i = ⟨held, .running (.done a) fs⟩) :
      Step T faults s (s.set i ⟨held, .ended a⟩)
  | release {i : ι} {k : K} {held : List K} {a : α} (at_release : s.threads i = ⟨k :: held, .ended a⟩) :
      Step T faults s (s.set i ⟨held, .ended a⟩)

theorem step_of_advance [Fintype ι] {T : ι → Transaction K V F α lt} {faults : ι → ℕ → F} {s s' : System ι K V F α}
    {i : ι} (h : advance T faults s i = some s') : Step T faults s s' := by
  rw [advance] at h
  split at h
  case h_1 held k wanted hi =>
    split_ifs at h with hfree
    exact Option.some.inj h ▸ .acquire hi hfree
  case h_2 held hi => exact Option.some.inj h ▸ .start hi
  case h_3 held k change next fs hi => exact Option.some.inj h ▸ .access hi
  case h_4 held a fs hi => exact Option.some.inj h ▸ .finish hi
  case h_5 k held a hi => exact Option.some.inj h ▸ .release hi
  case h_6 a hi => exact nomatch h

/-- The states of all interleavings. -/
inductive Reachable [Fintype ι] (T : ι → Transaction K V F α lt) (faults : ι → ℕ → F) (s₀ : K → V) :
    System ι K V F α → Prop
  | init : Reachable T faults s₀ (initial T s₀)
  | step {s s' : System ι K V F α} {i : ι} :
      Reachable T faults s₀ s → advance T faults s i = some s' → Reachable T faults s₀ s'

/-- Steps in the order of a schedule. -/
def schedule [Fintype ι] (T : ι → Transaction K V F α lt) (faults : ι → ℕ → F) :
    List ι → System ι K V F α → Option (System ι K V F α)
  | [], s => some s
  | i :: is, s => (advance T faults s i).bind (schedule T faults is)

theorem reachable_schedule [Fintype ι] {T : ι → Transaction K V F α lt} {faults : ι → ℕ → F} {s₀ : K → V}
    {s s' : System ι K V F α} {is : List ι} (hs : Reachable T faults s₀ s) (h : schedule T faults is s = some s') :
    Reachable T faults s₀ s' := by
  induction is generalizing s with
  | nil => exact Option.some.inj h ▸ hs
  | cons i is ih =>
    obtain ⟨mid, hmid, hrest⟩ := Option.bind_eq_some_iff.mp h
    exact ih (hs.step hmid) hrest

end

/-! ## Locks -/

/-- `i` is about to take the lock on `k`. -/
def System.Wants (s : System ι K V F α) (i : ι) (k : K) : Prop :=
  ∃ held wanted, s.threads i = ⟨held, .acquiring (k :: wanted)⟩

/-- `i` wants a lock that `j` holds. -/
def System.Waits (s : System ι K V F α) (i j : ι) : Prop := ∃ k, s.Wants i k ∧ k ∈ (s.threads j).held

/-- What a call holds and still wants are its locks, in their order. -/
def Thread.Orderly (locks : List K) : Thread K V F α → Prop
  | ⟨held, .acquiring wanted⟩ => held.reverse ++ wanted = locks
  | ⟨held, .running _ _⟩ => held.reverse = locks
  | ⟨_, .ended _⟩ => True

structure LockInv (T : ι → Transaction K V F α lt) (s : System ι K V F α) : Prop where
  exclusive : ∀ i j k, k ∈ (s.threads i).held → k ∈ (s.threads j).held → i = j
  orderly : ∀ i, (s.threads i).Orderly (T i).locks

section
variable {T : ι → Transaction K V F α lt} {faults : ι → ℕ → F} {s s' : System ι K V F α}

theorem orderly_update [DecidableEq ι] {threads : ι → Thread K V F α} (h : ∀ i, (threads i).Orderly (T i).locks) {i : ι}
    {t : Thread K V F α} (ht : t.Orderly (T i).locks) (j : ι) : (Function.update threads i t j).Orderly (T j).locks := by
  by_cases hj : j = i
  · subst hj
    rwa [Function.update_self]
  · rw [Function.update_of_ne hj]
    exact h j

/-- Locks stay exclusive when a call holds only what it held, or what nobody held. -/
theorem exclusive_update [DecidableEq ι] {threads : ι → Thread K V F α}
    (h : ∀ i j k, k ∈ (threads i).held → k ∈ (threads j).held → i = j) {i : ι} {t : Thread K V F α}
    (ht : ∀ k ∈ t.held, k ∈ (threads i).held ∨ ∀ j, k ∉ (threads j).held) (j l : ι) (k : K)
    (hj : k ∈ (Function.update threads i t j).held) (hl : k ∈ (Function.update threads i t l).held) : j = l := by
  by_cases hji : j = i
  · by_cases hli : l = i
    · rw [hji, hli]
    · subst hji
      rw [Function.update_self] at hj
      rw [Function.update_of_ne hli] at hl
      cases ht k hj with
      | inl hold => exact h j l k hold hl
      | inr hfree => exact absurd hl (hfree l)
  · rw [Function.update_of_ne hji] at hj
    by_cases hli : l = i
    · subst hli
      rw [Function.update_self] at hl
      cases ht k hl with
      | inl hold => exact h j l k hj hold
      | inr hfree => exact absurd hj (hfree j)
    · rw [Function.update_of_ne hli] at hl
      exact h j l k hj hl

theorem lockInv_init (s₀ : K → V) : LockInv T (initial T s₀) where
  exclusive _ _ _ h := absurd h List.not_mem_nil
  orderly _ := rfl

theorem lockInv_step [DecidableEq ι] [DecidableEq K] (h : LockInv T s) (hstep : Step T faults s s') : LockInv T s' := by
  cases hstep with
  | @acquire i held k wanted hi hfree =>
    have hord := h.orderly i
    rw [hi] at hord
    refine ⟨exclusive_update h.exclusive ?_, orderly_update h.orderly ?_⟩
    · refine List.forall_mem_cons.mpr ⟨.inr hfree, fun c hc => .inl ?_⟩
      rwa [hi]
    · have happend : (k :: held).reverse ++ wanted = held.reverse ++ k :: wanted := by simp
      exact happend.trans hord
  | @start i held hi =>
    have hord := h.orderly i
    rw [hi] at hord
    refine ⟨exclusive_update h.exclusive fun c hc => .inl (by rwa [hi]), orderly_update h.orderly ?_⟩
    exact (List.append_nil held.reverse).symm.trans hord
  | @access i held k change next fs hi =>
    have hord := h.orderly i
    rw [hi] at hord
    exact ⟨exclusive_update h.exclusive fun c hc => .inl (by rwa [hi]), orderly_update h.orderly hord⟩
  | @finish i held a fs hi =>
    exact ⟨exclusive_update h.exclusive fun c hc => .inl (by rwa [hi]), orderly_update h.orderly trivial⟩
  | @release i k held a hi =>
    refine ⟨exclusive_update h.exclusive fun c hc => .inl ?_, orderly_update h.orderly trivial⟩
    rw [hi]
    exact List.mem_cons_of_mem k hc

/-- A call wants only locks that come after those it holds. -/
theorem held_lt_wanted (h : LockInv T s) {i : ι} {k c : K} (hk : s.Wants i k) (hc : c ∈ (s.threads i).held) :
    lt c k := by
  obtain ⟨held, wanted, hi⟩ := hk
  have hord := h.orderly i
  rw [hi] at hord hc
  have hpairs : (held.reverse ++ k :: wanted).Pairwise lt := hord.symm ▸ (T i).ascending
  exact (List.pairwise_append.mp hpairs).2.2 c (List.mem_reverse.mpr hc) k List.mem_cons_self

/-- Along a chain of waiting calls the wanted locks ascend. -/
theorem waits_ascend (htrans : ∀ a b c, lt a b → lt b c → lt a c) (h : LockInv T s) {i j : ι}
    (hwaits : Relation.TransGen s.Waits i j) :
    ∃ k c, s.Wants i k ∧ c ∈ (s.threads j).held ∧ (k = c ∨ lt k c) := by
  induction hwaits with
  | single hw =>
    obtain ⟨k, hk, hc⟩ := hw
    exact ⟨k, k, hk, hc, .inl rfl⟩
  | tail _ hw ih =>
    obtain ⟨k, c, hk, hc, hle⟩ := ih
    obtain ⟨d, hd, hheld⟩ := hw
    have hlt : lt c d := held_lt_wanted h hd hc
    refine ⟨k, d, hk, hheld, .inr ?_⟩
    cases hle with
    | inl heq => exact heq ▸ hlt
    | inr hkc => exact htrans k c d hkc hlt

/-- No call waits for itself. -/
theorem waits_acyclic (htrans : ∀ a b c, lt a b → lt b c → lt a c) (hirrefl : ∀ a, ¬lt a a) (h : LockInv T s) (i : ι) :
    ¬Relation.TransGen s.Waits i i := by
  intro hcycle
  obtain ⟨k, c, hk, hc, hle⟩ := waits_ascend htrans h hcycle
  have hlt : lt c k := held_lt_wanted h hk hc
  cases hle with
  | inl heq => exact hirrefl c (heq ▸ hlt)
  | inr hkc => exact hirrefl k (htrans k c k hkc hlt)

/-- Every call has ended and given its locks back. -/
def System.Over (s : System ι K V F α) : Prop := ∀ i, ∃ a, s.threads i = ⟨[], .ended a⟩

section
variable [DecidableEq ι] [DecidableEq K] [Fintype ι]

/-- A call that cannot go on is over, or waits. -/
theorem waits_of_stuck {i : ι} (h : advance T faults s i = none) :
    (∃ a, s.threads i = ⟨[], .ended a⟩) ∨ ∃ j, s.Waits i j := by
  rw [advance] at h
  split at h
  case h_1 held k wanted hi =>
    split_ifs at h with hfree
    simp only [System.Free, not_forall, not_not] at hfree
    obtain ⟨j, hj⟩ := hfree
    exact .inr ⟨j, k, ⟨held, wanted, hi⟩, hj⟩
  case h_6 a hi => exact .inl ⟨a, hi⟩
  all_goals exact nomatch h

/-- As long as a call has not ended, some call can go on. -/
theorem progress (htrans : ∀ a b c, lt a b → lt b c → lt a c) (hirrefl : ∀ a, ¬lt a a) (h : LockInv T s) :
    s.Over ∨ ∃ i s', advance T faults s i = some s' := by
  by_cases hstuck : ∀ i, advance T faults s i = none
  · left
    let later : ι → ι → Prop := fun i j => Relation.TransGen s.Waits j i
    have : IsTrans ι later := ⟨fun _ _ _ hij hjk => hjk.trans hij⟩
    have : Std.Irrefl later := ⟨waits_acyclic htrans hirrefl h⟩
    have hwf : WellFounded later := Finite.wellFounded_of_trans_of_irrefl later
    intro i
    -- the induction goes along the waiting calls: a holder of a lock has not given it back
    induction i using hwf.induction with
    | h i ih =>
      cases waits_of_stuck (hstuck i) with
      | inl hover => exact hover
      | inr hwaits =>
        obtain ⟨j, hj⟩ := hwaits
        obtain ⟨a, ha⟩ := ih j (.single hj)
        obtain ⟨k, -, hk⟩ := hj
        rw [ha] at hk
        exact absurd hk List.not_mem_nil
  · right
    simp only [not_forall, ← ne_eq, Option.ne_none_iff_exists'] at hstuck
    exact hstuck

end

end

/-! ## The order of the calls -/

/-- What a call whose body has ended came to. -/
def Thread.outcome : Thread K V F α → Option α
  | ⟨_, .ended a⟩ => some a
  | _ => none

/-- What a call that runs its body has still to do. -/
def Thread.residual : Thread K V F α → Option (Prog K V F α × (ℕ → F))
  | ⟨_, .running rest fs⟩ => some (rest, fs)
  | _ => none

def System.Running (s : System ι K V F α) (i : ι) : Prop := ((s.threads i).residual).isSome = true

section
variable {T : ι → Transaction K V F α lt} {s : System ι K V F α}

theorem held_of_running (hlock : LockInv T s) {i : ι} {held : List K} {rest : Prog K V F α} {fs : ℕ → F}
    (hi : s.threads i = ⟨held, .running rest fs⟩) : (s.threads i).held.reverse = (T i).locks := by
  have hord := hlock.orderly i
  rw [hi] at hord ⊢
  exact hord

/-- Two calls that run, or are about to, have no lock in common. -/
theorem locks_disjoint (h : LockInv T s) {i j : ι} (hij : i ≠ j) (hi : (s.threads i).held.reverse = (T i).locks)
    (hj : s.Running j) {k : K} (hk : k ∈ (T i).locks) : k ∉ (T j).locks := by
  intro hkj
  have hord := h.orderly j
  cases ht : s.threads j with
  | mk held phase => cases phase with
    | acquiring wanted => simp [System.Running, Thread.residual, ht] at hj
    | ended a => simp [System.Running, Thread.residual, ht] at hj
    | running rest fs =>
      rw [ht] at hord
      have hheld : k ∈ (s.threads j).held := by
        rw [ht]
        exact List.mem_reverse.mp (hord ▸ hkj)
      exact hij (h.exclusive i j k (List.mem_reverse.mp (hi ▸ hk)) hheld)

theorem update_same [DecidableEq ι] {β : Type} (f : Thread K V F α → β) {threads : ι → Thread K V F α} {i : ι} {t : Thread K V F α}
    (ht : f t = f (threads i)) (j : ι) : f (Function.update threads i t j) = f (threads j) := by
  by_cases hj : j = i
  · rw [hj, Function.update_self, ht]
  · rw [Function.update_of_ne hj]

end

section
variable [DecidableEq K]

/-- All calls of a list, one after the other, with what each of them came to. -/
def sequential (T : ι → Transaction K V F α lt) (faults : ι → ℕ → F) : List ι → (K → V) → Ran K V (List (ι × α))
  | [], s => ⟨s, []⟩
  | i :: is, s =>
    let ran := (T i).body.run (faults i) s
    let rest := sequential T faults is ran.store
    ⟨rest.store, (i, ran.result) :: rest.result⟩

variable {T : ι → Transaction K V F α lt} {faults : ι → ℕ → F}

theorem sequential_snoc (is : List ι) (i : ι) (s : K → V) : sequential T faults (is ++ [i]) s =
    ⟨((T i).body.run (faults i) (sequential T faults is s).store).store, (sequential T faults is s).result ++
      [(i, ((T i).body.run (faults i) (sequential T faults is s).store).result)]⟩ := by
  induction is generalizing s with
  | nil => rfl
  | cons j is ih => simp only [List.cons_append, sequential, ih]

theorem sequential_calls (T : ι → Transaction K V F α lt) (faults : ι → ℕ → F) (is : List ι) (s : K → V) :
    (sequential T faults is s).result.map Prod.fst = is := by
  induction is generalizing s with
  | nil => rfl
  | cons i is ih => simp only [sequential, List.map_cons, ih]

/-- The rest of a body runs to what the whole body comes to from `base`. -/
structure Along (t : Transaction K V F α lt) (f : ℕ → F) (base : K → V) (rest : Prog K V F α) (fs : ℕ → F)
    (store : K → V) : Prop where
  within : rest.Within {k | k ∈ t.locks} fun _ => True
  result : (rest.run fs store).result = (t.body.run f base).result
  store : ∀ k ∈ t.locks, (rest.run fs store).store k = (t.body.run f base).store k

section
variable {t : Transaction K V F α lt} {f fs : ℕ → F} {base base' store store' : K → V} {rest : Prog K V F α}

theorem along_start (h : ∀ k ∈ t.locks, store k = base k) : Along t f base t.body f store where
  within := t.within
  result := (run_congr t.within f h).1
  store := (run_congr t.within f h).2

theorem Along.of_store (h : Along t f base rest fs store) (hstore : ∀ k ∈ t.locks, store' k = store k) :
    Along t f base rest fs store' where
  within := h.within
  result := (run_congr h.within fs hstore).1.trans h.result
  store k hk := ((run_congr h.within fs hstore).2 k hk).trans (h.store k hk)

theorem Along.of_base (h : Along t f base rest fs store) (hbase : ∀ k ∈ t.locks, base k = base' k) :
    Along t f base' rest fs store where
  within := h.within
  result := h.result.trans (run_congr t.within f hbase).1
  store k hk := (h.store k hk).trans ((run_congr t.within f hbase).2 k hk)

theorem Along.access {k : K} {change : F → V → V} {next : F → V → Prog K V F α}
    (h : Along t f base (.access k change next) fs store) :
    Along t f base (next (fs 0) (store k)) (fun n => fs (n + 1))
      (Function.update store k (change (fs 0) (store k))) where
  within := h.within.2 _ _
  result := h.result
  store := h.store

end

/-- The bodies that ended had the effect of their sequential order. The others are on their way
to what they come to after these. -/
structure SerialInv (T : ι → Transaction K V F α lt) (faults : ι → ℕ → F) (s₀ : K → V) (s : System ι K V F α)
    (order : List ι) : Prop where
  nodup : order.Nodup
  outcomes : ∀ i a, (s.threads i).outcome = some a ↔ (i, a) ∈ (sequential T faults order s₀).result
  running : ∀ i rest fs, (s.threads i).residual = some (rest, fs) →
    Along (T i) (faults i) (sequential T faults order s₀).store rest fs s.store
  idle : ∀ k, (∀ i, s.Running i → k ∉ (T i).locks) → s.store k = (sequential T faults order s₀).store k

section
variable {s₀ : K → V} {s s' : System ι K V F α} {order : List ι}

theorem serialInv_init : SerialInv T faults s₀ (initial T s₀) [] where
  nodup := List.nodup_nil
  outcomes i a := by simp [initial, Thread.outcome, sequential]
  running i rest fs h := nomatch h
  idle k _ := rfl

/-- Taking and giving back locks. -/
theorem SerialInv.of_same (h : SerialInv T faults s₀ s order) (hstore : s'.store = s.store)
    (hout : ∀ i, (s'.threads i).outcome = (s.threads i).outcome)
    (hres : ∀ i, (s'.threads i).residual = (s.threads i).residual) : SerialInv T faults s₀ s' order where
  nodup := h.nodup
  outcomes i a := hout i ▸ h.outcomes i a
  running i rest fs hi := hstore ▸ h.running i rest fs (hres i ▸ hi)
  idle k hk := by
    rw [hstore]
    refine h.idle k fun i hi => hk i ?_
    rwa [System.Running, hres i]

variable [DecidableEq ι]

theorem serialInv_start (hlock : LockInv T s) (h : SerialInv T faults s₀ s order) {i : ι} {held : List K}
    (hi : s.threads i = ⟨held, .acquiring []⟩) :
    SerialInv T faults s₀ (s.set i ⟨held, .running (T i).body (faults i)⟩) order where
  nodup := h.nodup
  outcomes j a := by
    rw [← h.outcomes j a]
    exact iff_of_eq (congrArg (· = some a) (update_same Thread.outcome (by rw [hi]; rfl) j))
  running j rest fs hj := by
    by_cases hji : j = i
    · subst hji
      simp only [System.set, Function.update_self, Thread.residual, Option.some.injEq, Prod.mk.injEq] at hj
      obtain ⟨rfl, rfl⟩ := hj
      refine along_start fun k hk => h.idle k fun l hl hkl => ?_
      have hne : j ≠ l := by
        intro hjl
        subst hjl
        simp [System.Running, hi, Thread.residual] at hl
      have hall : (s.threads j).held.reverse = (T j).locks := by
        have hord := hlock.orderly j
        rw [hi] at hord ⊢
        exact (List.append_nil _).symm.trans hord
      exact locks_disjoint hlock hne hall hl hk hkl
    · simp only [System.set, Function.update_of_ne hji] at hj
      exact h.running j rest fs hj
  idle k hk := by
    refine h.idle k fun j hj => hk j ?_
    by_cases hji : j = i
    · subst hji
      simp [System.Running, hi, Thread.residual] at hj
    · simpa only [System.Running, System.set, Function.update_of_ne hji] using hj

theorem serialInv_access (hlock : LockInv T s) (h : SerialInv T faults s₀ s order) {i : ι} {held : List K} {k : K}
    {change : F → V → V} {next : F → V → Prog K V F α} {fs : ℕ → F}
    (hi : s.threads i = ⟨held, .running (.access k change next) fs⟩) :
    SerialInv T faults s₀
      { store := Function.update s.store k (change (fs 0) (s.store k))
        threads := Function.update s.threads i ⟨held, .running (next (fs 0) (s.store k)) fun n => fs (n + 1)⟩ }
      order := by
  have halong := h.running i (.access k change next) fs (by rw [hi]; rfl)
  have hk : k ∈ (T i).locks := halong.within.1
  refine ⟨h.nodup, fun j a => ?_, fun j rest gs hj => ?_, fun c hc => ?_⟩
  · rw [← h.outcomes j a]
    exact iff_of_eq (congrArg (· = some a) (update_same Thread.outcome (by rw [hi]; rfl) j))
  · by_cases hji : j = i
    · subst hji
      simp only [Function.update_self, Thread.residual, Option.some.injEq, Prod.mk.injEq] at hj
      obtain ⟨rfl, rfl⟩ := hj
      exact halong.access
    · simp only [Function.update_of_ne hji] at hj
      have hrun : s.Running j := by simp [System.Running, hj]
      refine (h.running j rest gs hj).of_store fun c hc => Function.update_of_ne ?_ _ _
      intro hck
      exact locks_disjoint hlock (Ne.symm hji) (held_of_running hlock hi) hrun hk (hck ▸ hc)
  · have hnot : c ∉ (T i).locks := hc i (by simp [System.Running, Thread.residual])
    have hne : c ≠ k := fun hck => hnot (hck ▸ hk)
    refine (Function.update_of_ne hne _ _).trans (h.idle c fun j hj => hc j ?_)
    by_cases hji : j = i
    · subst hji
      simp [System.Running, Thread.residual]
    · simpa only [System.Running, Function.update_of_ne hji] using hj

/-- The place of a call in the order is where its body ends. -/
theorem serialInv_finish (hlock : LockInv T s) (h : SerialInv T faults s₀ s order) {i : ι} {held : List K} {a : α}
    {fs : ℕ → F} (hi : s.threads i = ⟨held, .running (.done a) fs⟩) :
    SerialInv T faults s₀ (s.set i ⟨held, .ended a⟩) (order ++ [i]) := by
  have halong := h.running i (.done a) fs (by rw [hi]; rfl)
  have hout : (s.threads i).outcome = none := by
    rw [hi]
    rfl
  have hfresh : i ∉ order := by
    intro hmem
    rw [← sequential_calls T faults order s₀] at hmem
    obtain ⟨p, hp, rfl⟩ := List.mem_map.mp hmem
    exact nomatch hout.symm.trans ((h.outcomes p.1 p.2).mpr hp)
  refine ⟨?_, fun j b => ?_, fun j rest gs hj => ?_, fun k hk => ?_⟩
  · exact List.concat_eq_append ▸ h.nodup.concat hfresh
  · rw [sequential_snoc]
    simp only [List.mem_append, List.mem_singleton, Prod.mk.injEq]
    by_cases hji : j = i
    · subst hji
      have hnone : (j, b) ∉ (sequential T faults order s₀).result := fun hmem =>
        nomatch hout.symm.trans ((h.outcomes j b).mpr hmem)
      simp only [System.set, Function.update_self, Thread.outcome, Option.some.injEq, hnone, false_or, true_and,
        ← halong.result]
      exact eq_comm
    · simp only [System.set, Function.update_of_ne hji, hji, false_and, or_false]
      exact h.outcomes j b
  · by_cases hji : j = i
    · subst hji
      simp [System.set, Thread.residual] at hj
    · simp only [System.set, Function.update_of_ne hji] at hj
      have hrun : s.Running j := by simp [System.Running, hj]
      rw [sequential_snoc]
      refine (h.running j rest gs hj).of_base fun k hk => (run_frame (T i).within (faults i) _ ?_).symm
      intro hki
      exact locks_disjoint hlock (Ne.symm hji) (held_of_running hlock hi) hrun hki hk
  · rw [sequential_snoc]
    by_cases hki : k ∈ (T i).locks
    · exact halong.store k hki
    · refine Eq.trans (h.idle k fun j hj => ?_) (run_frame (T i).within (faults i) _ hki).symm
      by_cases hji : j = i
      · exact hji ▸ hki
      · exact hk j (by simpa only [System.Running, System.set, Function.update_of_ne hji] using hj)

theorem serialInv_step (hlock : LockInv T s) (h : SerialInv T faults s₀ s order) (hstep : Step T faults s s') :
    ∃ order', SerialInv T faults s₀ s' order' := by
  cases hstep with
  | @acquire i held k wanted hi hfree =>
    exact ⟨order, h.of_same rfl (update_same Thread.outcome (by rw [hi]; rfl))
      (update_same Thread.residual (by rw [hi]; rfl))⟩
  | @start i held hi => exact ⟨order, serialInv_start hlock h hi⟩
  | @access i held k change next fs hi => exact ⟨order, serialInv_access hlock h hi⟩
  | @finish i held a fs hi => exact ⟨order ++ [i], serialInv_finish hlock h hi⟩
  | @release i k held a hi =>
    exact ⟨order, h.of_same rfl (update_same Thread.outcome (by rw [hi]; rfl))
      (update_same Thread.residual (by rw [hi]; rfl))⟩

variable [Fintype ι]

theorem reachable_inv (h : Reachable T faults s₀ s) : LockInv T s ∧ ∃ order, SerialInv T faults s₀ s order := by
  induction h with
  | init => exact ⟨lockInv_init s₀, [], serialInv_init⟩
  | step _ hadvance ih =>
    obtain ⟨hlock, order, hserial⟩ := ih
    have hstep := step_of_advance hadvance
    exact ⟨lockInv_step hlock hstep, serialInv_step hlock hserial hstep⟩

/-- Calls that are over had the effect and the outcomes of some order of all calls. -/
theorem serializable (h : Reachable T faults s₀ s) (hover : s.Over) : ∃ order : List ι, order.Nodup ∧
    (∀ i, i ∈ order) ∧ s.store = (sequential T faults order s₀).store ∧
    ∀ i a, s.threads i = ⟨[], .ended a⟩ ↔ (i, a) ∈ (sequential T faults order s₀).result := by
  obtain ⟨-, order, hserial⟩ := reachable_inv h
  have hended : ∀ i a, s.threads i = ⟨[], .ended a⟩ ↔ (s.threads i).outcome = some a := by
    intro i a
    obtain ⟨b, hb⟩ := hover i
    simp [hb, Thread.outcome]
  refine ⟨order, hserial.nodup, fun i => ?_, ?_, fun i a => (hended i a).trans (hserial.outcomes i a)⟩
  · obtain ⟨a, ha⟩ := hover i
    have hmem := (hserial.outcomes i a).mp ((hended i a).mp ha)
    rw [← sequential_calls T faults order s₀]
    exact List.mem_map_of_mem hmem
  · ext k
    refine hserial.idle k fun i hi => ?_
    obtain ⟨a, ha⟩ := hover i
    simp [System.Running, ha, Thread.residual] at hi

end

end

end WebOauthMcp.LockedTransactions
