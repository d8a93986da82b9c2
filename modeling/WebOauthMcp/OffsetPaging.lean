import Mathlib.Data.List.Basic
import Mathlib.Data.List.Infix
import Mathlib.Data.List.TakeDrop

/-!
# Following offsets

A pager answers a request at an offset with a page, or not at all. A caller who follows the
offsets that the pages name walks to the end when every page holds the next items.
-/

namespace WebOauthMcp.OffsetPaging

variable {ρ α β : Type}

/-- What a reply shows, and where it says to go on. -/
structure Page (α : Type) where
  items : List α
  next : Option ℕ

/-- Every call may be made with a request of its own. -/
inductive Walk (pager : ρ → ℕ → Option (Page α)) : (ℕ → ρ) → ℕ → List α → Prop
  | last {reqs : ℕ → ρ} {i : ℕ} {p : Page α} : pager (reqs 0) i = some p → p.next = none → Walk pager reqs i p.items
  | more {reqs : ℕ → ρ} {i j : ℕ} {p : Page α} {rest : List α} : pager (reqs 0) i = some p → p.next = some j →
      Walk pager (fun n => reqs (n + 1)) j rest → Walk pager reqs i (p.items ++ rest)

/-- Every reply leads on, if anywhere, to a later offset. -/
def Advances (pager : ρ → ℕ → Option (Page α)) : Prop := ∀ r i, ∃ p, pager r i = some p ∧ ∀ j, p.next = some j → i < j

/-- All walks from the start show the items once and in order, and end. -/
def Enumerates (pager : ρ → ℕ → Option (Page α)) (xs : List α) : Prop := ∀ reqs, Walk pager reqs 0 xs

/-- The page holds the next items, one at least if there is one, and names the offset behind
them if there are more. -/
structure Serves (xs : List α) (i : ℕ) (p : Page α) : Prop where
  items : p.items <+: xs.drop i
  next : p.next = if i + p.items.length < xs.length then some (i + p.items.length) else none
  progress : i < xs.length → p.items ≠ []

variable {pager : ρ → ℕ → Option (Page α)} {xs : List α}

theorem Serves.advances {i : ℕ} {p : Page α} (h : Serves xs i p) {j : ℕ} (hj : p.next = some j) : i < j := by
  have hnext := h.next.symm.trans hj
  split at hnext
  · next hmore =>
    have hpos := List.length_pos_iff.mpr (h.progress (by omega))
    have heq := Option.some.inj hnext
    omega
  · exact absurd hnext.symm (Option.some_ne_none j)

theorem Serves.split {i j : ℕ} {p : Page α} (h : Serves xs i p) (hj : p.next = some j) :
    j ≤ xs.length ∧ xs.drop i = p.items ++ xs.drop j := by
  have hnext := h.next.symm.trans hj
  split at hnext
  · next hmore =>
    cases Option.some.inj hnext
    refine ⟨Nat.le_of_lt hmore, ?_⟩
    rw [← List.drop_drop]
    exact (List.prefix_iff_eq_append.mp h.items).symm
  · exact absurd hnext.symm (Option.some_ne_none j)

theorem Serves.rest {i : ℕ} {p : Page α} (h : Serves xs i p) (hnone : p.next = none) : p.items = xs.drop i := by
  have hnext := h.next.symm.trans hnone
  split at hnext
  · exact absurd hnext (Option.some_ne_none _)
  · refine h.items.eq_of_length_le ?_
    rw [List.length_drop]
    omega

/-- A page of the next `k` items, one at least if there is one. -/
theorem serves_take {i k : ℕ} (hk : k ≤ xs.length - i) (hpos : i < xs.length → 0 < k) :
    Serves xs i ⟨(xs.drop i).take k, if i + k < xs.length then some (i + k) else none⟩ := by
  have hlength : ((xs.drop i).take k).length = k := by
    rw [List.length_take, List.length_drop]
    exact Nat.min_eq_left hk
  refine ⟨List.take_prefix _ _, by rw [hlength], fun hi hnil => ?_⟩
  have hnone : (xs.drop i).take k = [] := hnil
  rw [hnone] at hlength
  exact absurd hlength (Nat.ne_of_lt (hpos hi))

/-- Pages that hold the next items lead to the end. -/
theorem walk_of_serves (h : ∀ r i, i ≤ xs.length → ∃ p, pager r i = some p ∧ Serves xs i p) (reqs : ℕ → ρ) {i : ℕ}
    (hi : i ≤ xs.length) : Walk pager reqs i (xs.drop i) := by
  induction hn : xs.length - i using Nat.strongRecOn generalizing reqs i with
  | ind n ih =>
    obtain ⟨p, hp, hserves⟩ := h (reqs 0) i hi
    cases hnext : p.next with
    | none =>
      rw [← hserves.rest hnext]
      exact .last hp hnext
    | some j =>
      obtain ⟨hj, hsplit⟩ := hserves.split hnext
      have hlt := hserves.advances hnext
      rw [hsplit]
      exact .more hp hnext (ih (xs.length - j) (by omega) (fun n => reqs (n + 1)) hj rfl)

theorem enumerates_of_serves (h : ∀ r i, i ≤ xs.length → ∃ p, pager r i = some p ∧ Serves xs i p) : Enumerates pager xs :=
  fun reqs => walk_of_serves h reqs (Nat.zero_le _)

/-- A walk depends on nothing but its requests. -/
theorem Walk.unique {reqs : ℕ → ρ} {i : ℕ} {ys zs : List α} (h : Walk pager reqs i ys) (h' : Walk pager reqs i zs) : ys = zs := by
  induction h generalizing zs with
  | last hp hnext =>
    cases h' with
    | last hp' hnext' =>
      cases hp.symm.trans hp'
      rfl
    | more hp' hnext' _ =>
      cases hp.symm.trans hp'
      exact absurd (hnext.symm.trans hnext') (Option.some_ne_none _).symm
  | more hp hnext _ ih =>
    cases h' with
    | last hp' hnext' =>
      cases hp.symm.trans hp'
      exact absurd (hnext.symm.trans hnext') (Option.some_ne_none _)
    | more hp' hnext' hrest =>
      cases hp.symm.trans hp'
      cases hnext.symm.trans hnext'
      rw [ih hrest]

theorem Walk.reply {reqs : ℕ → ρ} {i : ℕ} {ys : List α} (h : Walk pager reqs i ys) : ∃ p, pager (reqs 0) i = some p := by
  cases h with
  | last hp _ => exact ⟨_, hp⟩
  | more hp _ _ => exact ⟨_, hp⟩

/-- Where every page leads back to its own offset, no walk ends. -/
theorem not_walk_of_stuck {i : ℕ} (h : ∀ r p, pager r i = some p → p.next = some i) {reqs : ℕ → ρ} {ys : List α} :
    ¬Walk pager reqs i ys := by
  intro hwalk
  induction hwalk with
  | last hp hnext => exact absurd ((h _ _ hp).symm.trans hnext) (Option.some_ne_none _)
  | more hp hnext _ ih =>
    cases (h _ _ hp).symm.trans hnext
    exact ih h

theorem not_walk_of_same {r : ρ} {i : ℕ} {p : Page α} (hp : pager r i = some p) (hnext : p.next = some i) {ys : List α} :
    ¬Walk pager (fun _ => r) i ys := by
  intro hwalk
  generalize hreqs : (fun _ => r) = reqs at hwalk
  induction hwalk with
  | last hq hlast =>
    subst hreqs
    cases hp.symm.trans hq
    exact absurd (hnext.symm.trans hlast) (Option.some_ne_none _)
  | more hq hmore _ ih =>
    subst hreqs
    cases hp.symm.trans hq
    cases hnext.symm.trans hmore
    exact ih hp hnext rfl

/-! ## Item by item -/

/-- The page shows one item at most, and names the offset behind it unless it shows all. -/
structure Single (xs : List α) (i : ℕ) (p : Page α) : Prop where
  one : p.items.length ≤ 1
  next : ∀ j, p.next = some j → j = i + p.items.length
  last : p.next = none → p.items = xs.drop i

/-- This request before the others. -/
def first (r : ρ) (reqs : ℕ → ρ) : ℕ → ρ
  | 0 => r
  | n + 1 => reqs n

/-- With pages of one item, walks come to every item, and go on from there with any requests. -/
theorem walk_from {r : ρ} (hsingle : ∀ i p, i < xs.length → pager r i = some p → Single xs i p) (h : Enumerates pager xs) {i : ℕ}
    (hi : i < xs.length) (reqs : ℕ → ρ) : ∃ ys, Walk pager reqs i ys := by
  induction i generalizing reqs with
  | zero => exact ⟨xs, h reqs⟩
  | succ i ih =>
    have hlt := Nat.lt_of_succ_lt hi
    obtain ⟨zs, hsame⟩ := ih hlt fun _ => r
    obtain ⟨ys, hwalk⟩ := ih hlt (first r reqs)
    cases hwalk with
    | last hp hnext =>
      have hpage := hsingle i _ hlt hp
      have hall := congrArg List.length (hpage.last hnext)
      have hone := hpage.one
      rw [List.length_drop] at hall
      omega
    | @more _ _ j p rest hp hnext hrest =>
      have hpage := hsingle i p hlt hp
      have hone := hpage.one
      have hj := hpage.next j hnext
      by_cases hnone : p.items.length = 0
      · rw [hnone, Nat.add_zero] at hj
        exact absurd hsame (not_walk_of_same hp (hj ▸ hnext))
      · have hstep : j = i + 1 := by omega
        exact ⟨rest, hstep ▸ hrest⟩

/-! ## Where a walk comes -/

/-- The offsets that walks come to, with requests of some kind. -/
inductive Reached (pager : ρ → ℕ → Option (Page α)) (kind : Set ρ) : ℕ → Prop
  | start : Reached pager kind 0
  | next {i j : ℕ} {r : ρ} {p : Page α} : Reached pager kind i → r ∈ kind → pager r i = some p → p.next = some j → Reached pager kind j

variable {kind : Set ρ}

/-- A walk that cannot end from an offset cannot end from the start, if it comes there. -/
theorem Reached.strand {i : ℕ} (h : Reached pager kind i) {reqs : ℕ → ρ} (hreqs : ∀ n, reqs n ∈ kind) (hnone : ∀ ys, ¬Walk pager reqs i ys) :
    ∃ reqs' : ℕ → ρ, (∀ n, reqs' n ∈ kind) ∧ ∀ ys, ¬Walk pager reqs' 0 ys := by
  induction h generalizing reqs with
  | start => exact ⟨reqs, hreqs, hnone⟩
  | @next i j r p _ hr hp hnext ih =>
    have hkind : ∀ n, first r reqs n ∈ kind := fun n => by
      cases n with
      | zero => exact hr
      | succ n => exact hreqs n
    refine ih hkind fun ys hwalk => ?_
    cases hwalk with
    | last hq hlast =>
      cases hp.symm.trans hq
      exact absurd (hnext.symm.trans hlast) (Option.some_ne_none j)
    | more hq hmore hrest =>
      cases hp.symm.trans hq
      cases hnext.symm.trans hmore
      exact hnone _ hrest

/-! ## Filling a page -/

/-- Item by item, the first `k` are taken: with each of them the page still fits, and with one
more it does not. -/
structure Filled (fits : List α → Prop) (done xs : List α) (k : ℕ) : Prop where
  le : k ≤ xs.length
  fitted : ∀ m < k, fits (done ++ xs.take (m + 1))
  stopped : k < xs.length → ¬fits (done ++ xs.take (k + 1))

variable {fits : List α → Prop} {done : List α} {x : α} {k : ℕ}

theorem filled_nil : Filled fits done [] 0 := ⟨Nat.le_refl _, fun m hm => absurd hm (Nat.not_lt_zero m), fun h => absurd h (Nat.not_lt_zero 0)⟩

theorem filled_stop (h : ¬fits (done ++ [x])) : Filled fits done (x :: xs) 0 :=
  ⟨Nat.zero_le _, fun m hm => absurd hm (Nat.not_lt_zero m), fun _ => h⟩

theorem Filled.cons (hx : fits (done ++ [x])) (h : Filled fits (done ++ [x]) xs k) : Filled fits done (x :: xs) (k + 1) := by
  have hshift : ∀ m, done ++ (x :: xs).take (m + 1) = done ++ [x] ++ xs.take m := fun m => by
    rw [List.take_succ_cons, List.append_cons]
  refine ⟨Nat.succ_le_succ h.le, fun m hm => ?_, fun hk => ?_⟩
  · rw [hshift]
    cases m with
    | zero => rwa [List.take_zero, List.append_nil]
    | succ m => exact h.fitted m (Nat.lt_of_succ_lt_succ hm)
  · rw [hshift]
    exact h.stopped (Nat.lt_of_succ_lt_succ hk)

/-- There is one way to fill a page. -/
theorem Filled.unique {j : ℕ} (hk : Filled fits done xs k) (hj : Filled fits done xs j) : k = j := by
  have hle : ∀ {k j : ℕ}, Filled fits done xs k → Filled fits done xs j → k ≤ j := by
    intro k j hk hj
    by_contra hlt
    have hless := Nat.lt_of_not_le hlt
    exact hj.stopped (Nat.lt_of_lt_of_le hless hk.le) (hk.fitted j hless)
  exact Nat.le_antisymm (hle hk hj) (hle hj hk)

/-- If the first item fits, it is taken. -/
theorem Filled.pos (h : Filled fits done (x :: xs) k) (hx : fits (done ++ [x])) : 0 < k := by
  by_contra hzero
  cases Nat.le_zero.mp (Nat.not_lt.mp hzero)
  exact h.stopped (Nat.succ_pos _) hx

/-! ## Shedding items -/

/-- Of `n` items, or as many fewer as it takes to fit, `k` are kept. -/
structure Shed (whole : Prop) (fits : ℕ → Prop) (n k : ℕ) : Prop where
  le : k ≤ n
  all : whole → k = n
  less : ¬whole → 0 < n → k < n
  ends : 0 < k → k < n → fits k
  most : k < n → ∀ j, k < j → j < n → ¬fits j

variable {whole : Prop} {holds : ℕ → Prop} {n : ℕ}

theorem shed_zero : Shed whole holds 0 0 :=
  ⟨Nat.le_refl _, fun _ => rfl, fun _ h => h, fun h _ => absurd h (Nat.not_lt_zero 0), fun h => absurd h (Nat.not_lt_zero 0)⟩

theorem shed_all (h : whole) : Shed whole holds n n :=
  ⟨Nat.le_refl _, fun _ => rfl, fun hnot => absurd h hnot, fun _ hlt => absurd hlt (Nat.lt_irrefl n), fun hlt => absurd hlt (Nat.lt_irrefl n)⟩

theorem Shed.step (hnot : ¬whole) (h : Shed (holds n) holds n k) : Shed whole holds (n + 1) k := by
  refine ⟨Nat.le_succ_of_le h.le, fun hall => absurd hall hnot, fun _ _ => Nat.lt_succ_of_le h.le, fun hpos _ => ?_, fun _ j hkj hj => ?_⟩
  · by_cases hk : k < n
    · exact h.ends hpos hk
    · have hle := h.le
      have heq : k = n := by omega
      by_contra hfits
      exact absurd (h.less (heq ▸ hfits) (by omega)) hk
  · by_cases hlast : j = n
    · exact fun hfits => by
        have heq := h.all (hlast ▸ hfits)
        omega
    · exact h.most (by omega) j hkj (by omega)

/-- Something is kept when the whole fits or some shorter page does. -/
theorem Shed.pos_iff (h : Shed whole holds n k) (hn : 0 < n) : 0 < k ↔ whole ∨ ∃ j, 0 < j ∧ j < n ∧ holds j := by
  constructor
  · intro hpos
    by_cases hk : k < n
    · exact .inr ⟨k, hpos, hk, h.ends hpos hk⟩
    · refine .inl (by_contra fun hnot => hk (h.less hnot hn))
  · intro hsome
    by_contra hzero
    have hnone : k = 0 := Nat.le_zero.mp (Nat.not_lt.mp hzero)
    cases hsome with
    | inl hwhole => exact absurd (h.all hwhole) (by omega)
    | inr hpart =>
      obtain ⟨j, hj, hlt, hfits⟩ := hpart
      exact h.most (by omega) j (by omega) hlt hfits

end WebOauthMcp.OffsetPaging
