import Mathlib.Data.List.Basic
import Mathlib.Data.List.Nodup

/-!
# Numbered lists

The entries of a list carry ascending numbers. What is within a range of numbers is a piece of the
list, and the same piece of any part of the list that has all of its entries.
-/

namespace WebOauthMcp.NumberedLists

variable {α β : Type}

/-- Entries with their numbers, from a first one on. -/
def numbered (n : ℕ) : List α → List (ℕ × α)
  | [] => []
  | a :: as => (n, a) :: numbered (n + 1) as

def Ascending (rs : List (ℕ × α)) : Prop := rs.Pairwise fun a b => a.1 < b.1

def within (first last : ℕ) (r : ℕ × α) : Bool := decide (first ≤ r.1 ∧ r.1 < last)

variable {rs ss : List (ℕ × α)} {n k : ℕ}

theorem within_iff {first last : ℕ} {r : ℕ × α} : within first last r = true ↔ first ≤ r.1 ∧ r.1 < last := decide_eq_true_iff

theorem length_numbered (n : ℕ) (entries : List α) : (numbered n entries).length = entries.length := by
  induction entries generalizing n with
  | nil => rfl
  | cons entry entries ih => exact congrArg Nat.succ (ih (n + 1))

theorem map_numbered (n : ℕ) (entries : List α) : (numbered n entries).map Prod.snd = entries := by
  induction entries generalizing n with
  | nil => rfl
  | cons entry entries ih => exact congrArg _ (ih (n + 1))

theorem mem_numbered {entries : List α} {r : ℕ × α} (h : r ∈ numbered n entries) : n ≤ r.1 ∧ r.1 < n + entries.length := by
  induction entries generalizing n with
  | nil => exact absurd h List.not_mem_nil
  | cons entry entries ih =>
    rw [List.length_cons]
    cases List.mem_cons.mp h with
    | inl heq =>
      rw [heq]
      omega
    | inr hrest =>
      have hbounds := ih hrest
      omega

theorem ascending_numbered (n : ℕ) (entries : List α) : Ascending (numbered n entries) := by
  induction entries generalizing n with
  | nil => exact List.Pairwise.nil
  | cons entry entries ih => exact List.pairwise_cons.mpr ⟨fun r hr => (mem_numbered hr).1, ih (n + 1)⟩

theorem exists_numbered {entries : List α} (hn : n ≤ k) (hk : k < n + entries.length) : ∃ entry, (k, entry) ∈ numbered n entries := by
  induction entries generalizing n with
  | nil => exact absurd hk (Nat.not_lt.mpr hn)
  | cons entry entries ih =>
    by_cases hfirst : n = k
    · exact ⟨entry, hfirst ▸ List.mem_cons_self ..⟩
    · rw [List.length_cons] at hk
      obtain ⟨found, hfound⟩ := ih (Nat.lt_of_le_of_ne hn hfirst) (by omega)
      exact ⟨found, List.mem_cons_of_mem _ hfound⟩

theorem drop_numbered (i n : ℕ) (entries : List α) : (numbered n entries).drop i = numbered (n + i) (entries.drop i) := by
  induction i generalizing n entries with
  | zero => rfl
  | succ i ih =>
    cases entries with
    | nil => rfl
    | cons entry entries =>
      refine (ih (n + 1) entries).trans ?_
      rw [Nat.add_assoc, Nat.add_comm 1 i]
      rfl

theorem take_numbered (i n : ℕ) (entries : List α) : (numbered n entries).take i = numbered n (entries.take i) := by
  induction i generalizing n entries with
  | zero => rfl
  | succ i ih =>
    cases entries with
    | nil => rfl
    | cons entry entries => exact congrArg _ (ih (n + 1) entries)

theorem Ascending.sublist (h : Ascending rs) (hs : ss.Sublist rs) : Ascending ss := List.Pairwise.sublist hs h

theorem Ascending.nodup (h : Ascending rs) : rs.Nodup := h.imp fun hlt heq => absurd hlt (by rw [heq]; exact Nat.lt_irrefl _)

theorem Ascending.eq_of_fst (h : Ascending rs) {a b : ℕ × α} (ha : a ∈ rs) (hb : b ∈ rs) (hab : a.1 = b.1) : a = b := by
  have hnumbers : (rs.map Prod.fst).Nodup := List.pairwise_map.mpr (h.imp Nat.ne_of_lt)
  exact List.inj_on_of_nodup_map hnumbers ha hb hab

/-- Where the predicate holds of all that is in front of what it holds of. -/
theorem dropWhile_eq_filter {P : α → Bool} {xs : List α} (h : xs.Pairwise fun x y => P y = true → P x = true) :
    xs.dropWhile P = xs.filter fun x => !P x := by
  induction xs with
  | nil => rfl
  | cons x xs ih =>
    obtain ⟨hfirst, hrest⟩ := List.pairwise_cons.mp h
    by_cases hx : P x = true
    · rw [List.dropWhile_cons_of_pos hx, List.filter_cons_of_neg (by simp [hx]), ih hrest]
    · have hall : ∀ y ∈ x :: xs, (!P y) = true := by
        intro y hy
        rw [Bool.not_eq_true', ← Bool.not_eq_true]
        cases List.mem_cons.mp hy with
        | inl heq => exact heq ▸ hx
        | inr hlater => exact fun hp => hx (hfirst y hlater hp)
      rw [List.dropWhile_cons_of_neg hx, List.filter_eq_self.mpr hall]

theorem filter_split {P : α → Bool} {xs : List α} (h : xs.Pairwise fun x y => P y = true → P x = true) :
    xs.filter P ++ (xs.filter fun x => !P x) = xs := by
  induction xs with
  | nil => rfl
  | cons x xs ih =>
    obtain ⟨hfirst, hrest⟩ := List.pairwise_cons.mp h
    by_cases hx : P x = true
    · rw [List.filter_cons_of_pos hx, List.filter_cons_of_neg (by simp [hx]), List.cons_append, ih hrest]
    · have hnone : xs.filter P = [] := List.filter_eq_nil_iff.mpr fun y hy hp => hx (hfirst y hy hp)
      have hall : (xs.filter fun y => !P y) = xs := by
        rw [← dropWhile_eq_filter hrest]
        cases xs with
        | nil => rfl
        | cons y ys => exact List.dropWhile_cons_of_neg fun hp => hx (hfirst y (List.mem_cons_self ..) hp)
      rw [List.filter_cons_of_neg hx, List.filter_cons_of_pos (by simp [hx]), hnone, hall, List.nil_append]

theorem Ascending.below (h : Ascending rs) (k : ℕ) : rs.Pairwise fun a b => decide (b.1 < k) = true → decide (a.1 < k) = true :=
  h.imp fun hlt hb => decide_eq_true (Nat.lt_trans hlt (of_decide_eq_true hb))

theorem map_find (h : Ascending rs) (n : ℕ) :
    ((rs.find? fun r => decide (r.1 = n)).map Prod.snd).toList = (rs.filter fun r => decide (r.1 = n)).map Prod.snd := by
  induction rs with
  | nil => rfl
  | cons r rs ih =>
    obtain ⟨hfirst, hrest⟩ := List.pairwise_cons.mp h
    by_cases hr : r.1 = n
    · have hfind : (r :: rs).find? (fun r => decide (r.1 = n)) = some r := List.find?_cons_of_pos (decide_eq_true hr)
      have hkeep : (r :: rs).filter (fun r => decide (r.1 = n)) = r :: rs.filter fun r => decide (r.1 = n) :=
        List.filter_cons_of_pos (decide_eq_true hr)
      have hnone : rs.filter (fun r => decide (r.1 = n)) = [] := by
        refine List.filter_eq_nil_iff.mpr fun s hs heq => ?_
        have hlater := hfirst s hs
        rw [hr, of_decide_eq_true heq] at hlater
        exact Nat.lt_irrefl n hlater
      rw [hfind, hkeep, hnone]
      rfl
    · have hnot : ¬decide (r.1 = n) = true := by simpa using hr
      have hfind : (r :: rs).find? (fun r => decide (r.1 = n)) = rs.find? fun r => decide (r.1 = n) := List.find?_cons_of_neg hnot
      have hdrop : (r :: rs).filter (fun r => decide (r.1 = n)) = rs.filter fun r => decide (r.1 = n) := List.filter_cons_of_neg hnot
      rw [hfind, hdrop]
      exact ih hrest

/-- The entries of a range, looked up one by one. -/
theorem filterMap_find (h : Ascending rs) (first count : ℕ) :
    ((List.range' first count).filterMap fun n => (rs.find? fun r => decide (r.1 = n)).map Prod.snd) =
      (rs.filter (within first (first + count))).map Prod.snd := by
  induction count generalizing first with
  | zero =>
    have hnone : rs.filter (within first (first + 0)) = [] := by
      refine List.filter_eq_nil_iff.mpr fun r _ hr => ?_
      have hbounds := within_iff.mp hr
      omega
    rw [hnone]
    rfl
  | succ count ih =>
    have hfirst : (rs.filter (within first (first + (count + 1)))).filter (fun r => decide (r.1 < first + 1)) =
        rs.filter fun r => decide (r.1 = first) := by
      rw [List.filter_filter]
      refine List.filter_congr fun r _ => ?_
      rw [within, ← Bool.decide_and, decide_eq_decide]
      omega
    have hmore : (rs.filter (within first (first + (count + 1)))).filter (fun r => !decide (r.1 < first + 1)) =
        rs.filter (within (first + 1) (first + 1 + count)) := by
      rw [List.filter_filter]
      refine List.filter_congr fun r _ => ?_
      rw [within, within, ← decide_not, ← Bool.decide_and, decide_eq_decide]
      omega
    rw [← filter_split ((h.sublist List.filter_sublist).below (first + 1)), hfirst, hmore, List.map_append, ← map_find h, ← ih,
      List.range'_succ]
    cases hentry : (rs.find? fun r => decide (r.1 = first)).map Prod.snd with
    | none => exact List.filterMap_cons_none hentry
    | some entry => exact List.filterMap_cons_some hentry

theorem filter_within {entries : List α} {first last : ℕ} (h : n ≤ first) :
    ((numbered n entries).filter (within first last)).map Prod.snd = (entries.drop (first - n)).take (last - first) := by
  have hparts : numbered n entries = (numbered n entries).take (first - n) ++
      (((numbered n entries).drop (first - n)).take (last - first) ++ ((numbered n entries).drop (first - n)).drop (last - first)) := by
    rw [List.take_append_drop, List.take_append_drop]
  have hfront : ((numbered n entries).take (first - n)).filter (within first last) = [] := by
    refine List.filter_eq_nil_iff.mpr fun r hr hin => ?_
    rw [take_numbered] at hr
    have hbounds := mem_numbered hr
    have hshort := List.length_take_le (first - n) entries
    have hrange := within_iff.mp hin
    omega
  have hkept : (((numbered n entries).drop (first - n)).take (last - first)).filter (within first last) =
      ((numbered n entries).drop (first - n)).take (last - first) := by
    refine List.filter_eq_self.mpr fun r hr => within_iff.mpr ?_
    rw [drop_numbered, take_numbered] at hr
    have hbounds := mem_numbered hr
    have hshort := List.length_take_le (last - first) (entries.drop (first - n))
    omega
  have hback : (((numbered n entries).drop (first - n)).drop (last - first)).filter (within first last) = [] := by
    refine List.filter_eq_nil_iff.mpr fun r hr hin => ?_
    rw [drop_numbered, drop_numbered] at hr
    have hbounds := mem_numbered hr
    have hrange := within_iff.mp hin
    omega
  rw [hparts, List.filter_append, List.filter_append, hfront, hkept, hback, List.append_nil, List.nil_append, drop_numbered, take_numbered,
    map_numbered]

theorem forall_splits_cons {x : α} {xs : List α} {P : List α → α → List α → Prop} :
    (∀ mid y more, x :: xs = mid ++ y :: more → P mid y more) ↔
      P [] x xs ∧ ∀ mid y more, xs = mid ++ y :: more → P (x :: mid) y more := by
  constructor
  · exact fun h => ⟨h [] x xs rfl, fun mid y more hsplit => h (x :: mid) y more (congrArg _ hsplit)⟩
  · rintro ⟨hfirst, hrest⟩ mid y more hsplit
    cases mid with
    | nil =>
      obtain ⟨rfl, rfl⟩ := List.cons.inj hsplit
      exact hfirst
    | cons z mid =>
      obtain ⟨rfl, hmore⟩ := List.cons.inj hsplit
      exact hrest mid y more hmore

/-- Of a part of a list nothing is missing when all the entries are in it. -/
theorem map_eq_iff_of_sublist {f : α → β} {xs ys : List α} (hsub : xs.Sublist ys) (hys : ys.Nodup) :
    xs.map f = ys.map f ↔ ∀ y ∈ ys, y ∈ xs := by
  constructor
  · intro h y hy
    have hlength := congrArg List.length h
    rw [List.length_map, List.length_map] at hlength
    rw [hsub.eq_of_length hlength]
    exact hy
  · intro h
    rw [hsub.eq_of_length_le (List.Nodup.length_le_of_subset hys h)]

end WebOauthMcp.NumberedLists
