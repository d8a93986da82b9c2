import Mathlib.Data.List.Perm.Basic
import Mathlib.Data.List.Nodup

/-!
# Registries of bounded size

A registry is a list of entries with distinct ids. A step of it forgets some of the entries,
and then it may put one entry under its id, if it has the id already or has room for one more. Whatever is
asked of the entry that is put, in view of those that were there before the step, the registry keeps
what follows from it.
-/

namespace WebOauthMcp.Registries

variable {K E V : Type} [DecidableEq K] {id : E → K}

/-- `entries[id] = e`. -/
def put (id : E → K) (e : E) (t : List E) : List E :=
  if t.any fun a => id a = id e then t.map fun a => if id a = id e then e else a else t ++ [e]

theorem put_of_mem {e : E} {t : List E} (h : id e ∈ t.map id) : put id e t = t.map fun a => if id a = id e then e else a := by
  obtain ⟨a, ha, hid⟩ := List.mem_map.mp h
  exact if_pos (List.any_eq_true.mpr ⟨a, ha, decide_eq_true hid⟩)

theorem put_of_notMem {e : E} {t : List E} (h : id e ∉ t.map id) : put id e t = t ++ [e] := by
  refine if_neg fun hany => h ?_
  obtain ⟨a, ha, hid⟩ := List.any_eq_true.mp hany
  exact List.mem_map.mpr ⟨a, ha, of_decide_eq_true hid⟩

theorem mem_put {e a : E} {t : List E} (h : a ∈ put id e t) : a = e ∨ a ∈ t ∧ id a ≠ id e := by
  by_cases hid : id e ∈ t.map id
  · rw [put_of_mem hid] at h
    obtain ⟨x, hx, rfl⟩ := List.mem_map.mp h
    split
    · exact .inl rfl
    · next hne => exact .inr ⟨hx, hne⟩
  · rw [put_of_notMem hid] at h
    cases List.mem_append.mp h with
    | inl hold => exact .inr ⟨hold, fun heq => hid (heq ▸ List.mem_map_of_mem hold)⟩
    | inr hnew => exact .inl (List.mem_singleton.mp hnew)

theorem map_put_of_mem {e : E} {t : List E} (h : id e ∈ t.map id) : (put id e t).map id = t.map id := by
  rw [put_of_mem h, List.map_map]
  apply List.map_congr_left
  intro a _
  simp only [Function.comp_apply]
  split
  · next heq => exact heq.symm
  · rfl

theorem map_put_of_notMem {e : E} {t : List E} (h : id e ∉ t.map id) : (put id e t).map id = t.map id ++ [id e] := by
  rw [put_of_notMem h, List.map_append, List.map_singleton]

theorem nodup_put {e : E} {t : List E} (h : (t.map id).Nodup) : ((put id e t).map id).Nodup := by
  by_cases hid : id e ∈ t.map id
  · exact map_put_of_mem hid ▸ h
  · rw [map_put_of_notMem hid]
    exact List.nodup_append.mpr ⟨h, List.nodup_singleton _, fun a ha x hx heq => hid (List.mem_singleton.mp hx ▸ heq ▸ ha)⟩

/-- An entry in its own place. -/
theorem put_self {e : E} {t : List E} (h : (t.map id).Nodup) (he : e ∈ t) : put id e t = t := by
  rw [put_of_mem (List.mem_map_of_mem he)]
  conv_rhs => rw [← List.map_id t]
  apply List.map_congr_left
  intro a ha
  split
  · next hid => exact List.inj_on_of_nodup_map h he ha hid.symm
  · rfl

theorem length_put_le {cap n : ℕ} {e : E} {t : List E} (hcap : cap ≤ n) (h : t.length ≤ n) (hroom : id e ∈ t.map id ∨ t.length < cap) :
    (put id e t).length ≤ n := by
  by_cases hid : id e ∈ t.map id
  · rw [put_of_mem hid, List.length_map]
    exact h
  · rw [put_of_notMem hid, List.length_append, List.length_singleton]
    exact Nat.le_trans (hroom.resolve_left hid) hcap

/-- The entries of the ids in `ds` are forgotten, each of them once. -/
theorem length_forget {t : List E} {ds : List K} (ht : (t.map id).Nodup) (hds : ds.Nodup) (hsub : ∀ d ∈ ds, d ∈ t.map id) :
    (t.filter fun e => id e ∉ ds).length + ds.length = t.length := by
  have hkept : (t.filter fun e => id e ∉ ds).length = ((t.map id).filter fun k => k ∉ ds).length := by
    rw [List.filter_map, List.length_map]
    rfl
  have hgone : ((t.map id).filter fun k => k ∈ ds).length = ds.length := by
    apply List.Perm.length_eq
    apply (List.perm_ext_iff_of_nodup (ht.filter _) hds).mpr
    intro k
    rw [List.mem_filter, decide_eq_true_eq]
    exact ⟨fun h => h.2, fun h => ⟨hsub k h, h⟩⟩
  have hsplit := (t.map id).length_eq_length_filter_add fun k => k ∈ ds
  rw [List.length_map] at hsplit
  simp only [decide_not] at hkept ⊢
  omega

/-! ## Steps -/

/-- What a step does: it forgets entries, and puts one that `fits` the registry it found. -/
inductive Step (id : E → K) (cap : ℕ) (fits : List E → E → Prop) (t : List E) : List E → Prop
  | forget {t' : List E} (left : t'.Sublist t) : Step id cap fits t t'
  | put {t' : List E} {e : E} (left : t'.Sublist t) (room : id e ∈ t'.map id ∨ t'.length < cap) (fit : fits t e) :
    Step id cap fits t (put id e t')

/-- No two ids have the same value. -/
def Unique (id : E → K) (value : E → Option V) (t : List E) : Prop :=
  ∀ a ∈ t, ∀ b ∈ t, ∀ v, value a = some v → value b = some v → id a = id b

variable {cap : ℕ} {fits : List E → E → Prop} {t t' : List E}

namespace Step
variable (h : Step id cap fits t t')
include h

theorem bounded {n : ℕ} (hcap : cap ≤ n) (ht : t.length ≤ n) : t'.length ≤ n := by
  cases h with
  | forget left => exact Nat.le_trans left.length_le ht
  | put left room fit => exact length_put_le hcap (Nat.le_trans left.length_le ht) room

theorem nodup (ht : (t.map id).Nodup) : (t'.map id).Nodup := by
  cases h with
  | forget left => exact ht.sublist (left.map id)
  | put left room fit => exact nodup_put (ht.sublist (left.map id))

theorem unique {value : E → Option V} (hfits : ∀ e, fits t e → ∀ a ∈ t, ∀ v, value a = some v → value e = some v → id a = id e)
    (ht : Unique id value t) : Unique id value t' := by
  cases h with
  | forget left => exact fun a ha b hb => ht a (left.subset ha) b (left.subset hb)
  | @put t' e left room fit =>
    intro a ha b hb v hav hbv
    cases mem_put ha with
    | inl hae =>
      subst hae
      cases mem_put hb with
      | inl hbe => rw [hbe]
      | inr hold => exact (hfits a fit b (left.subset hold.1) v hbv hav).symm
    | inr haold =>
      cases mem_put hb with
      | inl hbe =>
        subst hbe
        exact hfits b fit a (left.subset haold.1) v hav hbv
      | inr hold => exact ht a (left.subset haold.1) b (left.subset hold.1) v hav hbv

/-- An id that stays keeps what is settled about it. -/
theorem settled {settled : E → V} (hfits : ∀ e, fits t e → ∀ a ∈ t, id a = id e → settled a = settled e)
    (ht : (t.map id).Nodup) {a b : E} (ha : a ∈ t) (hb : b ∈ t') (hid : id a = id b) : settled a = settled b := by
  have hold : ∀ {x : E}, x ∈ t → id a = id x → settled a = settled x := fun hx hax =>
    congrArg settled (List.inj_on_of_nodup_map ht ha hx hax)
  cases h with
  | forget left => exact hold (left.subset hb) hid
  | @put t' e left room fit =>
    cases mem_put hb with
    | inl hbe =>
      subst hbe
      exact hfits b fit a ha hid
    | inr hbold => exact hold (left.subset hbold.1) hid

end Step

end WebOauthMcp.Registries
