import Mathlib.Data.Finmap

/-!
# Tables

Finite tables with a pass that keeps the rows a test accepts, and a test of all rows.
-/

namespace WebOauthMcp.Tables

abbrev Table (K V : Type) := Finmap fun _ : K => V

variable {K V : Type}

theorem nodupKeys_filter (p : (_ : K) × V → Prop) [DecidablePred p] {s : Multiset ((_ : K) × V)}
    (h : s.NodupKeys) : (s.filter p).NodupKeys := by
  rw [← Multiset.nodup_keys] at h ⊢
  exact Multiset.nodup_of_le (Multiset.map_le_map (Multiset.filter_le p s)) h

/-- The rows that pass the test. -/
def select (p : K → V → Bool) (t : Table K V) : Table K V where
  entries := t.entries.filter fun e => p e.1 e.2
  nodupKeys := nodupKeys_filter _ t.nodupKeys

/-- Every row passes the test. -/
def allRows (p : K → V → Bool) (t : Table K V) : Bool := decide (∀ e ∈ t.entries, p e.1 e.2 = true)

variable [DecidableEq K]

theorem lookup_select_iff (p : K → V → Bool) (t : Table K V) (k : K) (v : V) :
    (select p t).lookup k = some v ↔ t.lookup k = some v ∧ p k v = true := by
  have hmem : ∀ s : Table K V, s.lookup k = some v ↔ Sigma.mk k v ∈ s.entries := fun s =>
    Finmap.lookup_eq_some_iff
  rw [hmem, hmem]
  simp [select]

theorem allRows_iff (p : K → V → Bool) (t : Table K V) :
    allRows p t = true ↔ ∀ k v, t.lookup k = some v → p k v = true := by
  have hmem : ∀ k v, t.lookup k = some v ↔ Sigma.mk k v ∈ t.entries := fun k v =>
    Finmap.lookup_eq_some_iff
  simp only [allRows, decide_eq_true_eq, hmem]
  constructor
  · exact fun h k v he => h _ he
  · exact fun h e he => h e.1 e.2 he

theorem lookup_insert_iff (t : Table K V) (k l : K) (v w : V) :
    (t.insert k v).lookup l = some w ↔ (l = k ∧ v = w) ∨ (l ≠ k ∧ t.lookup l = some w) := by
  by_cases h : l = k
  · subst h
    simp
  · simp [Finmap.lookup_insert_of_ne t h, h]

theorem lookup_erase_iff (t : Table K V) (k l : K) (w : V) :
    (t.erase k).lookup l = some w ↔ l ≠ k ∧ t.lookup l = some w := by
  by_cases h : l = k
  · subst h
    simp
  · simp [Finmap.lookup_erase_ne h, h]

end WebOauthMcp.Tables
