import WebOauthMcp.CapturedOutput
import Mathlib.Algebra.Group.Action.Defs
import Mathlib.Algebra.Order.BigOperators.Group.List
import Mathlib.Algebra.Order.Ring.Nat

/-!
# Sharing a budget of tokens

The streams of a reply share its tokens in rounds. A round serves the streams that need no more
than an equal share of what is left, and the last one deals out the shares themselves. What comes
of it is max-min fair up to one token.
-/

namespace WebOauthMcp.WaterFilling
open CapturedOutput

variable {K : Type}

/-- The needs of some streams, each with a key of its own. -/
structure Needs (K : Type) where
  streams : List K
  distinct : streams.Nodup
  need : K → ℕ

/-- `_allocate_stream_token_budgets`, for streams of any kind. -/
def allocate [DecidableEq K] (nameLe : K → K → Bool) (needs : Needs K) (maxTokens : ℕ) : K → ℕ :=
  allocateBudgets nameLe needs.need (needs.streams.filter fun k => decide (0 < needs.need k)) maxTokens fun _ => 0

theorem distinct_streams : [Stream.stdout, .stderr].Nodup := by decide

theorem allocateStreamTokenBudgets_eq (needs : Stream → ℕ) (maxTokens : ℕ) : allocateStreamTokenBudgets needs maxTokens =
    allocate (fun s t => decide (s = .stderr ∨ t = .stdout)) ⟨[.stdout, .stderr], distinct_streams, needs⟩ maxTokens := rfl

/-! ## A round -/

theorem sum_filter_pos {f need : K → ℕ} (streams : List K) (h : ∀ k, need k = 0 → f k = 0) :
    ((streams.filter fun k => decide (0 < need k)).map f).sum = (streams.map f).sum := by
  induction streams with
  | nil => rfl
  | cons k streams ih =>
    by_cases hk : need k = 0
    · simp [hk, h k hk, ih]
    · simp [Nat.pos_of_ne_zero hk, ih]

theorem eq_of_sum_eq {f g : K → ℕ} {ks : List K} (hle : ∀ k ∈ ks, f k ≤ g k) (hsum : (ks.map f).sum = (ks.map g).sum) :
    ∀ k ∈ ks, f k = g k := by
  induction ks with
  | nil => simp
  | cons k ks ih =>
    rw [List.forall_mem_cons] at hle ⊢
    rw [List.map_cons, List.map_cons, List.sum_cons, List.sum_cons] at hsum
    have hrest : (ks.map f).sum ≤ (ks.map g).sum := List.sum_le_sum hle.2
    have hfirst := hle.1
    exact ⟨by omega, ih hle.2 (by omega)⟩

theorem lt_of_unserved {need : K → ℕ} {share : ℕ} {pending : List K}
    (h : (unserved need share pending).length = pending.length) : ∀ k ∈ pending, share < need k := by
  have hall := List.length_filter_eq_length_iff.mp h
  exact fun k hk => of_decide_eq_true (hall k hk)

/-- The streams of a round with those it serves. -/
theorem perm_served (need : K → ℕ) (share : ℕ) (pending : List K) :
    (pending.filter (fun k => decide (need k ≤ share)) ++ unserved need share pending).Perm pending := by
  have hrest : unserved need share pending = pending.filter fun k => !decide (need k ≤ share) := by
    refine List.filter_congr fun k _ => ?_
    rw [← decide_not]
    exact decide_eq_decide.mpr Nat.not_le.symm
  rw [hrest]
  exact List.filter_append_perm _ pending

/-- What is left is shared among the streams that wait. -/
structure Filled (need : K → ℕ) (pending : List K) (remaining : ℕ) (result : K → ℕ) : Prop where
  le_need : ∀ k ∈ pending, result k ≤ need k
  sum : (pending.map result).sum = min remaining (pending.map need).sum
  share_le : ∀ k ∈ pending, result k < need k → remaining / pending.length ≤ result k
  fair : ∀ k ∈ pending, result k < need k → ∀ j ∈ pending, result j ≤ result k + 1

/-- A round that serves streams leaves enough for the others. -/
theorem filled_served {need : K → ℕ} {pending : List K} {remaining : ℕ} {result : K → ℕ}
    (hserved : ∀ k ∈ pending, need k ≤ remaining / pending.length → result k = need k)
    (h : Filled need (unserved need (remaining / pending.length) pending)
      (remaining - ((pending.filter fun k => decide (need k ≤ remaining / pending.length)).map need).sum) result) :
    Filled need pending remaining result := by
  generalize hshare : remaining / pending.length = share at hserved h
  generalize hpart : (pending.filter fun k => decide (need k ≤ share)) = served at h
  generalize hrest : unserved need share pending = rest at h
  have hperm : (served ++ rest).Perm pending := by
    rw [← hpart, ← hrest]
    exact perm_served need share pending
  have hin : ∀ k ∈ served, k ∈ pending ∧ need k ≤ share := by
    intro k hk
    rw [← hpart, List.mem_filter] at hk
    exact ⟨hk.1, of_decide_eq_true hk.2⟩
  have hequal : ∀ k ∈ served, result k = need k := fun k hk => hserved k (hin k hk).1 (hin k hk).2
  have hcases : ∀ k ∈ pending, k ∈ served ∨ k ∈ rest := fun k hk => List.mem_append.mp (hperm.mem_iff.mpr hk)
  have hlength : served.length + rest.length = pending.length := by rw [← hperm.length_eq, List.length_append]
  have htotal : pending.length * share ≤ remaining := hshare ▸ Nat.mul_div_le remaining pending.length
  have hsum : (served.map need).sum ≤ served.length * share := by
    have hle := List.sum_le_card_nsmul (served.map need) share fun n hn => by
      obtain ⟨k, hk, rfl⟩ := List.mem_map.mp hn
      exact (hin k hk).2
    rwa [List.length_map, smul_eq_mul] at hle
  rw [← hlength, Nat.add_mul] at htotal
  -- the share does not shrink
  have hlater : ∀ k ∈ rest, share ≤ (remaining - (served.map need).sum) / rest.length := by
    intro k hk
    rw [Nat.le_div_iff_mul_le (List.length_pos_of_mem hk), Nat.mul_comm]
    omega
  have hwaiting : ∀ k ∈ pending, result k < need k → k ∈ rest := by
    intro k hk hlt
    refine (hcases k hk).resolve_left fun hk' => ?_
    exact absurd (hequal k hk') hlt.ne
  have hmore : ∀ k ∈ pending, result k < need k → share ≤ result k := fun k hk hlt =>
    (hlater k (hwaiting k hk hlt)).trans (h.share_le k (hwaiting k hk hlt) hlt)
  constructor
  · intro k hk
    cases hcases k hk with
    | inl hk' => exact (hequal k hk').le
    | inr hk' => exact h.le_need k hk'
  · have hneed := (hperm.map need).sum_eq
    have hresult := (hperm.map result).sum_eq
    rw [List.map_append, List.sum_append] at hneed hresult
    rw [List.map_congr_left hequal, h.sum] at hresult
    omega
  · intro k hk hlt
    rw [hshare]
    exact hmore k hk hlt
  · intro k hk hlt j hj
    cases hcases j hj with
    | inl hj' =>
      have hle := (hin j hj').2.trans (hmore k hk hlt)
      rw [hequal j hj']
      omega
    | inr hj' => exact h.fair k (hwaiting k hk hlt) hlt j hj'

/-! ## The last round -/

variable [DecidableEq K]

theorem sum_dealt (share n r : ℕ) (h : r ≤ n) : ((List.range n).map fun i => share + if i < r then 1 else 0).sum = n * share + r := by
  have hdealt : ∀ n, ((List.range n).map fun i => share + if i < r then 1 else 0).sum = n * share + min r n := by
    intro n
    induction n with
    | zero => simp
    | succ n ih =>
      rw [List.range_succ, List.map_append, List.sum_append, ih, List.map_singleton, List.sum_singleton, Nat.succ_mul]
      split_ifs <;> omega
  rw [hdealt, Nat.min_eq_left h]

theorem map_idxOf? {ordered : List K} (hordered : ordered.Nodup) {result : K → ℕ} {dealt : ℕ → ℕ}
    (h : ∀ k i, ordered.idxOf? k = some i → result k = dealt i) : ordered.map result = (List.range ordered.length).map dealt := by
  refine List.ext_getElem (by simp) fun i hi _ => ?_
  rw [List.length_map] at hi
  rw [List.getElem_map, List.getElem_map, List.getElem_range]
  refine h _ i (List.idxOf?_eq_some_iff.mpr ⟨hi, rfl, fun j hj heq => ?_⟩)
  exact absurd (hordered.getElem_inj_iff.mp heq) hj.ne

theorem exists_idxOf? {ordered : List K} {k : K} (hk : k ∈ ordered) : ∃ i < ordered.length, ordered.idxOf? k = some i := by
  cases h : ordered.idxOf? k with
  | none => exact absurd hk (List.idxOf?_eq_none_iff.mp h)
  | some i =>
    obtain ⟨hi, -⟩ := List.idxOf?_eq_some_iff.mp h
    exact ⟨i, hi, rfl⟩

/-! ## All rounds -/

section
variable {need : K → ℕ} {pending : List K} {remaining : ℕ}

/-- The last round deals out a share to every stream, and the remainder one by one. -/
theorem filled_dealt (nameLe : K → K → Bool) (hpending : pending.Nodup) (hne : pending ≠ []) (hall : ∀ k ∈ pending, remaining / pending.length < need k)
    {result : K → ℕ}
    (hresult : ∀ k i, (pending.mergeSort nameLe).idxOf? k = some i →
      result k = remaining / pending.length + if i < remaining % pending.length then 1 else 0) :
    Filled need pending remaining result := by
  have hperm := List.mergeSort_perm pending nameLe
  have hpos : 0 < pending.length := List.length_pos_iff.mpr hne
  have hbetween : ∀ k ∈ pending, remaining / pending.length ≤ result k ∧ result k ≤ remaining / pending.length + 1 := by
    intro k hk
    obtain ⟨i, -, hi⟩ := exists_idxOf? (hperm.mem_iff.mpr hk)
    rw [hresult k i hi]
    split_ifs <;> omega
  have hsum : (pending.map result).sum = remaining := by
    calc (pending.map result).sum
      _ = ((pending.mergeSort nameLe).map result).sum := ((hperm.map result).sum_eq).symm
      _ = pending.length * (remaining / pending.length) + remaining % pending.length := by
        rw [map_idxOf? (hperm.nodup_iff.mpr hpending) hresult, hperm.length_eq, sum_dealt _ _ _ (Nat.mod_lt _ hpos).le]
      _ = remaining := Nat.div_add_mod remaining pending.length
  have hneeds : remaining ≤ (pending.map need).sum := by
    have hle := List.card_nsmul_le_sum (pending.map need) (remaining / pending.length + 1) fun n hn => by
      obtain ⟨k, hk, rfl⟩ := List.mem_map.mp hn
      exact hall k hk
    rw [List.length_map, smul_eq_mul, Nat.mul_add, Nat.mul_one] at hle
    have hmod := Nat.mod_lt remaining hpos
    have hdiv := Nat.div_add_mod remaining pending.length
    omega
  refine ⟨fun k hk => (hbetween k hk).2.trans (hall k hk), by omega, fun k hk _ => (hbetween k hk).1, fun k hk _ j hj => ?_⟩
  exact (hbetween j hj).2.trans (Nat.succ_le_succ (hbetween k hk).1)

theorem allocateBudgets_filled (nameLe : K → K → Bool) (need : K → ℕ) (pending : List K) (remaining : ℕ) (allocations : K → ℕ)
    (hpending : pending.Nodup) : Filled need pending remaining (allocateBudgets nameLe need pending remaining allocations) ∧
      ∀ k ∉ pending, allocateBudgets nameLe need pending remaining allocations k = allocations k := by
  induction hlength : pending.length using Nat.strong_induction_on generalizing pending remaining allocations with
  | _ size ih =>
    rw [allocateBudgets]
    by_cases hnil : pending = []
    · rw [if_pos hnil, hnil]
      exact ⟨⟨by simp, by simp, by simp, by simp⟩, fun _ _ => rfl⟩
    rw [if_neg hnil]
    dsimp only
    by_cases hnone : (unserved need (remaining / pending.length) pending).length = pending.length
    · rw [if_pos hnone]
      constructor
      · refine filled_dealt nameLe hpending hnil (lt_of_unserved hnone) fun k i hi => ?_
        rw [hi, List.length_mergeSort]
      · intro k hk
        have hnot : (pending.mergeSort nameLe).idxOf? k = none :=
          List.idxOf?_eq_none_iff.mpr fun h => hk ((List.mergeSort_perm pending nameLe).mem_iff.mp h)
        rw [hnot]
    · rw [if_neg hnone]
      have hshorter : (unserved need (remaining / pending.length) pending).length < size := by
        rw [← hlength]
        exact Nat.lt_of_le_of_ne (List.length_filter_le _ pending) hnone
      obtain ⟨hfilled, hkept⟩ := ih _ hshorter (unserved need (remaining / pending.length) pending)
        (remaining - ((pending.filter fun k => decide (need k ≤ remaining / pending.length)).map need).sum)
        (fun k => if k ∈ pending ∧ need k ≤ remaining / pending.length then need k else allocations k) (hpending.filter _) rfl
      constructor
      · refine filled_served (fun k hk hle => ?_) hfilled
        have hout : k ∉ unserved need (remaining / pending.length) pending := fun h =>
          absurd (of_decide_eq_true (List.mem_filter.mp h).2) (Nat.not_lt.mpr hle)
        rw [hkept k hout, if_pos ⟨hk, hle⟩]
      · intro k hk
        have hout : k ∉ unserved need (remaining / pending.length) pending := fun h => hk (List.mem_filter.mp h).1
        rw [hkept k hout, if_neg fun h => hk h.1]

end

/-! ## The allocation -/

/-- An allocation that wastes nothing and favours no stream by more than one token. -/
structure FairShares (needs : Needs K) (maxTokens : ℕ) (allocation : K → ℕ) : Prop where
  le_need : ∀ k ∈ needs.streams, allocation k ≤ needs.need k
  le_total : (needs.streams.map allocation).sum ≤ maxTokens
  met : (needs.streams.map needs.need).sum ≤ maxTokens → ∀ k ∈ needs.streams, allocation k = needs.need k
  spent : maxTokens < (needs.streams.map needs.need).sum → (needs.streams.map allocation).sum = maxTokens
  fair : ∀ k ∈ needs.streams, allocation k < needs.need k → ∀ j ∈ needs.streams, allocation j ≤ allocation k + 1

/-- Every stream gets its need, or a share within one token of all others. -/
theorem allocate_fair (nameLe : K → K → Bool) (needs : Needs K) (maxTokens : ℕ) :
    FairShares needs maxTokens (allocate nameLe needs maxTokens) := by
  obtain ⟨hfilled, hkept⟩ : Filled needs.need (needs.streams.filter fun k => decide (0 < needs.need k)) maxTokens
      (allocate nameLe needs maxTokens) ∧
        ∀ k ∉ needs.streams.filter fun k => decide (0 < needs.need k), allocate nameLe needs maxTokens k = 0 :=
    allocateBudgets_filled nameLe needs.need _ maxTokens (fun _ => 0) (needs.distinct.filter _)
  have hpending : ∀ k ∈ needs.streams, needs.need k = 0 ∨ k ∈ needs.streams.filter fun k => decide (0 < needs.need k) := by
    intro k hk
    cases Nat.eq_zero_or_pos (needs.need k) with
    | inl h => exact .inl h
    | inr h => exact .inr (List.mem_filter.mpr ⟨hk, decide_eq_true h⟩)
  have hzero : ∀ k, needs.need k = 0 → allocate nameLe needs maxTokens k = 0 := by
    intro k hk
    refine hkept k fun h => ?_
    exact absurd (of_decide_eq_true (List.mem_filter.mp h).2) (by rw [hk]; exact Nat.lt_irrefl 0)
  have hle : ∀ k ∈ needs.streams, allocate nameLe needs maxTokens k ≤ needs.need k := by
    intro k hk
    cases hpending k hk with
    | inl h => exact (hzero k h).le.trans (Nat.zero_le _)
    | inr h => exact hfilled.le_need k h
  have hsum := hfilled.sum
  rw [sum_filter_pos needs.streams hzero, sum_filter_pos needs.streams fun k hk => hk] at hsum
  refine ⟨hle, hsum ▸ Nat.min_le_left _ _, fun hmet => ?_, fun hspent => ?_, fun k hk hlt j hj => ?_⟩
  · rw [Nat.min_eq_right hmet] at hsum
    exact eq_of_sum_eq hle hsum
  · rw [hsum, Nat.min_eq_left hspent.le]
  · have hk' := (hpending k hk).resolve_left fun h => absurd hlt (by rw [h]; exact Nat.not_lt_zero _)
    cases hpending j hj with
    | inl h => exact (hzero j h).le.trans (Nat.zero_le _)
    | inr h => exact hfilled.fair k hk' hlt j h

end WebOauthMcp.WaterFilling
