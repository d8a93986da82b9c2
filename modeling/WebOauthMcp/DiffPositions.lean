import Mathlib.Data.List.Perm.Subperm
import Mathlib.Data.Set.Function
import WebOauthMcp.EnvDiff

/-!
# The positions at which snapshots differ

A position is a sequence of keys. The comparison visits every position at which the two sides
differ, once, and reports it under a dotted path. It reports all of them exactly when no two share
a path and nothing that differs is equal for Python.
-/

namespace WebOauthMcp.DiffPositions
open CodePoints Words EnvDiff

/-! ## Positions -/

/-- The sides differ at a position, and are not both dictionaries there. -/
def DiffersAt (loose : Bool) : List Text → Option Value → Option Value → Prop
  | [], l, r => bothDicts l r = none ∧ equalOption loose l r = false
  | k :: ks, l, r => ∃ fs gs, bothDicts l r = some (fs, gs) ∧ DiffersAt loose ks (getItem k fs) (getItem k gs)

/-- The value at a position. -/
def valueAt : List Text → Option Value → Option Value
  | [], v => v
  | k :: ks, some (.dict fs) => valueAt ks (getItem k fs)
  | _ :: _, _ => none

/-- The positions in the order in which they are visited. -/
def differences (loose : Bool) (left right : Option Value) : List (List Text) :=
  match _h : bothDicts left right with
  | some (fs, gs) => (sortedKeys fs gs).flatMap fun k => (differences loose (getItem k fs) (getItem k gs)).map (k :: ·)
  | none => if equalOption loose left right then [] else [[]]
termination_by sizeOf left
decreasing_by
  rw [(bothDicts_eq_some _h).1, Option.some.sizeOf_spec]
  exact (sizeOf_getItem_lt k fs).trans (Nat.lt_add_of_pos_left Nat.one_pos)

variable {loose : Bool} {l r : Option Value} {fs gs : Fields}

theorem differences_dict (loose : Bool) (fs gs : Fields) : differences loose (some (.dict fs)) (some (.dict gs)) =
    (sortedKeys fs gs).flatMap fun k => (differences loose (getItem k fs) (getItem k gs)).map (k :: ·) := by
  rw [differences]
  rfl

theorem differences_leaf (h : bothDicts l r = none) : differences loose l r = if equalOption loose l r then [] else [[]] := by
  rw [differences]
  split
  next fs gs heq =>
    rw [heq] at h
    cases h
  next => rfl

/-- Cases and induction along the dictionaries that both sides hold. -/
theorem sides_induction {motive : Option Value → Option Value → Prop}
    (dict : ∀ fs gs, (∀ k, motive (getItem k fs) (getItem k gs)) → motive (some (.dict fs)) (some (.dict gs)))
    (leaf : ∀ l r, bothDicts l r = none → motive l r) (l r : Option Value) : motive l r := by
  induction h : sizeOf l using Nat.strong_induction_on generalizing l r with
  | _ n ih =>
    cases hboth : bothDicts l r with
    | none => exact leaf l r hboth
    | some sides =>
      obtain ⟨fs, gs⟩ := sides
      obtain ⟨rfl, rfl⟩ := bothDicts_eq_some hboth
      refine dict fs gs fun k => ih _ ?_ _ _ rfl
      rw [← h, Option.some.sizeOf_spec]
      exact (sizeOf_getItem_lt k fs).trans (Nat.lt_add_of_pos_left Nat.one_pos)

theorem getItem_eq_none {k : Text} {fs : Fields} (h : k ∉ fs.map Prod.fst) : getItem k fs = none := by
  rw [getItem, List.find?_eq_none.mpr fun f hf => ?_]
  · rfl
  · rw [decide_eq_true_eq]
    rintro rfl
    exact h (List.mem_map_of_mem hf)

theorem mem_sortedKeys {k : Text} : k ∈ sortedKeys fs gs ↔ k ∈ fs.map Prod.fst ∨ k ∈ gs.map Prod.fst := by
  rw [sortedKeys, List.mem_mergeSort, List.mem_dedup, List.map_append, List.mem_append]

theorem nodup_sortedKeys (fs gs : Fields) : (sortedKeys fs gs).Nodup :=
  (List.mergeSort_perm _ _).nodup_iff.mpr (List.nodup_dedup _)

/-- Away from the keys both values are missing. -/
theorem missing_of_notMem {k : Text} (h : k ∉ sortedKeys fs gs) : getItem k fs = none ∧ getItem k gs = none := by
  rw [mem_sortedKeys, not_or] at h
  exact ⟨getItem_eq_none h.1, getItem_eq_none h.2⟩

theorem not_differsAt_missing (loose : Bool) (ks : List Text) : ¬DiffersAt loose ks none none := by
  cases ks with
  | nil =>
    intro h
    have hequal := h.2
    rw [equalOption] at hequal
    cases hequal
  | cons k ks =>
    rintro ⟨fs, gs, h, -⟩
    cases h

theorem differsAt_dict {k : Text} {ks : List Text} :
    DiffersAt loose (k :: ks) (some (.dict fs)) (some (.dict gs)) ↔ DiffersAt loose ks (getItem k fs) (getItem k gs) := by
  constructor
  · rintro ⟨fs', gs', h, hdiffers⟩
    cases h
    exact hdiffers
  · exact fun h => ⟨fs, gs, rfl, h⟩

theorem mem_differences {ks : List Text} : ks ∈ differences loose l r ↔ DiffersAt loose ks l r := by
  induction l, r using sides_induction generalizing ks with
  | dict fs gs ih =>
    rw [differences_dict, List.mem_flatMap]
    cases ks with
    | nil =>
      refine iff_of_false ?_ fun h => by cases h.1
      rintro ⟨k, -, h⟩
      obtain ⟨ks, -, h⟩ := List.mem_map.mp h
      cases h
    | cons k ks =>
      rw [differsAt_dict, ← ih k]
      constructor
      · rintro ⟨k', -, h⟩
        obtain ⟨ks', hks', heq⟩ := List.mem_map.mp h
        obtain ⟨rfl, rfl⟩ := List.cons.inj heq
        exact hks'
      · intro h
        refine ⟨k, ?_, List.mem_map_of_mem h⟩
        by_contra hmissing
        obtain ⟨hf, hg⟩ := missing_of_notMem hmissing
        rw [ih k, hf, hg] at h
        exact not_differsAt_missing loose ks h
  | leaf l r hleaf =>
    rw [differences_leaf hleaf]
    cases ks with
    | nil =>
      rw [DiffersAt, and_iff_right hleaf]
      cases equalOption loose l r <;> simp
    | cons k ks =>
      refine iff_of_false ?_ ?_
      · split <;> simp
      · rintro ⟨fs, gs, h, -⟩
        rw [hleaf] at h
        cases h

theorem nodup_differences (loose : Bool) (l r : Option Value) : (differences loose l r).Nodup := by
  induction l, r using sides_induction with
  | dict fs gs ih =>
    rw [differences_dict, List.nodup_flatMap]
    refine ⟨fun k _ => (ih k).map (List.cons_injective), ?_⟩
    refine (nodup_sortedKeys fs gs).imp fun {k k'} hne ks hks hks' => ?_
    obtain ⟨rest, -, rfl⟩ := List.mem_map.mp hks
    obtain ⟨rest', -, heq⟩ := List.mem_map.mp hks'
    exact hne (List.cons.inj heq).1.symm
  | leaf l r hleaf =>
    rw [differences_leaf hleaf]
    split
    · exact List.nodup_nil
    · exact List.nodup_singleton _

/-! ## Equality and differences -/

theorem equal_dict : equal loose (.dict fs) (.dict gs) = true ↔ ∀ k, equalOption loose (getItem k fs) (getItem k gs) = true := by
  rw [equal, List.all_eq_true]
  refine ⟨fun h k => ?_, fun h k _ => h k⟩
  by_cases hk : k ∈ sortedKeys fs gs
  · exact h k hk
  · obtain ⟨hf, hg⟩ := missing_of_notMem hk
    rw [hf, hg, equalOption]

/-- Equal values differ nowhere. -/
theorem equalOption_iff : equalOption loose l r = true ↔ ∀ ks, ¬DiffersAt loose ks l r := by
  induction l, r using sides_induction with
  | dict fs gs ih =>
    rw [equalOption, equal_dict]
    constructor
    · intro h ks hks
      cases ks with
      | nil => cases hks.1
      | cons k ks => exact (ih k).mp (h k) ks (differsAt_dict.mp hks)
    · exact fun h k => (ih k).mpr fun ks hks => h (k :: ks) (differsAt_dict.mpr hks)
  | leaf l r hleaf =>
    constructor
    · rintro h ks hks
      cases ks with
      | nil => exact Bool.false_ne_true (hks.2.symm.trans h)
      | cons k ks =>
        obtain ⟨fs, gs, hboth, -⟩ := hks
        rw [hleaf] at hboth
        cases hboth
    · intro h
      by_contra hne
      exact h [] ⟨hleaf, Bool.not_eq_true _ ▸ hne⟩

theorem equalItems_loose {n : ℕ} (ih : ∀ v w, sizeOf v < n → equal false v w = true → equal true v w = true) {xs ys : List Value}
    (hsize : sizeOf xs ≤ n) (h : equalItems false xs ys = true) : equalItems true xs ys = true := by
  induction xs generalizing ys with
  | nil =>
    rw [equalItems.eq_def] at h ⊢
    cases ys with
    | nil => rfl
    | cons y ys => cases h
  | cons x xs ihxs =>
    rw [equalItems.eq_def] at h ⊢
    cases ys with
    | nil => cases h
    | cons y ys =>
      rw [List.cons.sizeOf_spec] at hsize
      obtain ⟨hfirst, hrest⟩ := (Bool.and_eq_true _ _).mp h
      exact (Bool.and_eq_true _ _).mpr ⟨ih x y (by omega) hfirst, ihxs (by omega) hrest⟩

theorem equalScalar_loose {v w : Value} (h : equalScalar false v w = true) : equalScalar true v w = true := by
  unfold equalScalar at h ⊢
  split at h
  all_goals first | exact h | cases h

theorem equalOption_imp (h : ∀ v w, l = some v → r = some w → equal false v w = true → equal true v w = true)
    (hequal : equalOption false l r = true) : equalOption true l r = true := by
  rw [equalOption.eq_def] at hequal ⊢
  cases l with
  | none => cases r <;> exact hequal
  | some v =>
    cases r with
    | none => exact hequal
    | some w => exact h v w rfl rfl hequal

/-- What is equal is equal for Python. -/
theorem equal_loose {v w : Value} (h : equal false v w = true) : equal true v w = true := by
  induction hsize : sizeOf v using Nat.strong_induction_on generalizing v w with
  | _ n ih =>
    rw [equal.eq_def] at h ⊢
    split at h
    next xs ys =>
      rw [Value.list.sizeOf_spec] at hsize
      exact equalItems_loose (fun v w hlt hvw => ih (sizeOf v) hlt hvw rfl) (by omega) h
    next fs gs =>
      refine List.all_eq_true.mpr fun k hk => ?_
      refine equalOption_imp (fun v w hv _ hvw => ?_) (List.all_eq_true.mp h k hk)
      have hlt := sizeOf_getItem_lt k fs
      rw [hsize, hv, Option.some.sizeOf_spec] at hlt
      exact ih (sizeOf v) (by omega) hvw rfl
    next => exact equalScalar_loose h

theorem equalOption_loose (h : equalOption false l r = true) : equalOption true l r = true :=
  equalOption_imp (fun _ _ _ _ => equal_loose) h

/-- What Python finds different is different. -/
theorem DiffersAt.strict {ks : List Text} (h : DiffersAt true ks l r) : DiffersAt false ks l r := by
  induction ks generalizing l r with
  | nil =>
    refine ⟨h.1, ?_⟩
    cases hequal : equalOption false l r with
    | false => rfl
    | true => exact (h.2.symm.trans (equalOption_loose hequal)).symm
  | cons k ks ih =>
    obtain ⟨fs, gs, hboth, hrest⟩ := h
    exact ⟨fs, gs, hboth, ih hrest⟩

/-! ## The report -/

def childPaths (path : Text) (ks : List Text) : Text := ks.foldl childPath path

/-- The key under which a position is reported. -/
def reportKey (ks : List Text) : Text := pathName (childPaths [] ks)

/-- What is reported of a position. -/
def bothValues (l r : Option Value) (ks : List Text) : List Value := [publicValue (valueAt ks l), publicValue (valueAt ks r)]

theorem diffValues_dict (fs gs : Fields) (path : Text) (changes : Changes) :
    diffValues (some (.dict fs)) (some (.dict gs)) path changes = (sortedKeys fs gs).foldl
      (fun changes k => diffValues (getItem k fs) (getItem k gs) (childPath path k) changes) changes := by
  rw [diffValues]
  rfl

theorem diffValues_leaf (h : bothDicts l r = none) (path : Text) (changes : Changes) : diffValues l r path changes =
    if equalOption true l r then changes else setItem (pathName path) [publicValue l, publicValue r] changes := by
  rw [diffValues]
  split
  next fs gs heq =>
    rw [heq] at h
    cases h
  next => rfl

/-- Every position at which Python finds a difference is set, one after the other. -/
theorem diffValues_eq (l r : Option Value) (path : Text) (changes : Changes) : diffValues l r path changes =
    (differences true l r).foldl (fun changes ks => setItem (pathName (childPaths path ks)) (bothValues l r ks) changes) changes := by
  induction l, r using sides_induction generalizing path changes with
  | dict fs gs ih =>
    rw [diffValues_dict, differences_dict, List.foldl_flatMap]
    congr 1
    funext changes k
    rw [ih k, List.foldl_map]
    rfl
  | leaf l r hleaf =>
    rw [diffValues_leaf hleaf, differences_leaf hleaf]
    split <;> rfl

section
variable {α δ : Type}

theorem getItem_setItem_self (k : Text) (v : α) (d : List (Text × α)) : getItem k (setItem k v d) = some v := by
  rw [setItem]
  split_ifs with h
  · induction d with
    | nil => simp at h
    | cons f d ih =>
      by_cases hf : f.1 = k
      · simp [getItem, hf]
      · simp only [List.any_cons, hf, decide_false, Bool.false_or] at h
        simpa [getItem, hf] using ih h
  · have hnone : d.find? (fun f => decide (f.1 = k)) = none :=
      List.find?_eq_none.mpr fun f hf hk => h (List.any_eq_true.mpr ⟨f, hf, hk⟩)
    simp [getItem, List.find?_append, hnone]

theorem getItem_setItem_of_ne {k k' : Text} (hk : k' ≠ k) (v : α) (d : List (Text × α)) : getItem k' (setItem k v d) = getItem k' d := by
  rw [setItem]
  split_ifs with h
  · clear h
    induction d with
    | nil => rfl
    | cons f d ih =>
      by_cases hf : f.1 = k
      · simpa [getItem, hf, hk.symm] using ih
      · by_cases hf' : f.1 = k'
        · simp [getItem, hf', hk]
        · simpa [getItem, hf, hf'] using ih
  · simp [getItem, List.find?_append, hk.symm]

variable (name : δ → Text) (value : δ → α)

def setAll (ds : List δ) (d : List (Text × α)) : List (Text × α) := ds.foldl (fun d x => setItem (name x) (value x) d) d

theorem getItem_setAll_of_notMem {ds : List δ} {k : Text} (hk : k ∉ ds.map name) (d : List (Text × α)) :
    getItem k (setAll name value ds d) = getItem k d := by
  induction ds generalizing d with
  | nil => rfl
  | cons x ds ih =>
    rw [List.map_cons, List.mem_cons, not_or] at hk
    rw [setAll, List.foldl_cons, ← setAll, ih hk.2, getItem_setItem_of_ne hk.1]

/-- Under names of their own all values are found. -/
theorem getItem_setAll {ds : List δ} (hds : (ds.map name).Nodup) (d : List (Text × α)) :
    ∀ x ∈ ds, getItem (name x) (setAll name value ds d) = some (value x) := by
  induction ds generalizing d with
  | nil => simp
  | cons x ds ih =>
    rw [List.map_cons, List.nodup_cons] at hds
    rw [List.forall_mem_cons]
    refine ⟨?_, ih hds.2 _⟩
    rw [setAll, List.foldl_cons, ← setAll, getItem_setAll_of_notMem name value hds.1, getItem_setItem_self]

theorem setAll_ne_nil {ds : List δ} (h : ds ≠ []) : setAll name value ds [] ≠ [] := by
  obtain ⟨ds, x, rfl⟩ := List.eq_nil_or_concat ds |>.resolve_left h
  rw [setAll, List.concat_eq_append, List.foldl_append, List.foldl_cons, List.foldl_nil]
  intro hnil
  have hself := getItem_setItem_self (name x) (value x) (setAll name value ds [])
  rw [setAll, hnil] at hself
  cases hself

end

/-! ## Complete reports -/

/-- The report tells equal values from others, and each position at which they differ has an entry
of its own that holds the two values. -/
structure CompleteReport (left right : Value) (report : Report) : Prop where
  changed : report.changed = false ↔ equal false left right = true
  entries : ∃ key : List Text → Text, Set.InjOn key {ks | DiffersAt false ks (some left) (some right)} ∧
    ∀ ks, DiffersAt false ks (some left) (some right) →
      getItem (key ks) report.changes = some (bothValues (some left) (some right) ks)

def DiffComplete (left right : Value) : Prop := ∃ report, envDiff left right = .ok report ∧ CompleteReport left right report

theorem envDiff_dict (fs gs : Fields) : envDiff (.dict fs) (.dict gs) = .ok
    ⟨true, !(setAll reportKey (bothValues (some (.dict fs)) (some (.dict gs))) (differences true (some (.dict fs)) (some (.dict gs))) []).isEmpty,
      setAll reportKey (bothValues (some (.dict fs)) (some (.dict gs))) (differences true (some (.dict fs)) (some (.dict gs))) []⟩ := by
  rw [envDiff, diffValues_eq]
  rfl

theorem differences_eq_nil : differences loose l r = [] ↔ equalOption loose l r = true := by
  rw [equalOption_iff, List.eq_nil_iff_forall_not_mem]
  exact forall_congr' fun ks => not_congr mem_differences

theorem equalOption_dict : equalOption loose (some (.dict fs)) (some (.dict gs)) = equal loose (.dict fs) (.dict gs) := by rw [equalOption]

/-- Positions with keys of their own, all of them found by Python. -/
theorem complete_of_distinct (hkeys : Set.InjOn reportKey {ks | DiffersAt false ks (some (.dict fs)) (some (.dict gs))})
    (hfound : ∀ ks, DiffersAt false ks (some (.dict fs)) (some (.dict gs)) → DiffersAt true ks (some (.dict fs)) (some (.dict gs))) :
    DiffComplete (.dict fs) (.dict gs) := by
  refine ⟨_, envDiff_dict fs gs, ?_, reportKey, hkeys, fun ks hks => ?_⟩
  · have hsame : equalOption true (some (.dict fs)) (some (.dict gs)) = true ↔ equalOption false (some (.dict fs)) (some (.dict gs)) = true := by
      rw [equalOption_iff, equalOption_iff]
      exact forall_congr' fun ks => not_congr ⟨DiffersAt.strict, hfound ks⟩
    rw [← equalOption_dict, ← hsame, ← differences_eq_nil, Bool.not_eq_false', List.isEmpty_iff]
    constructor
    · exact fun hnil => by_contra fun hne => setAll_ne_nil _ _ hne hnil
    · rintro hnil
      rw [hnil]
      rfl
  · refine getItem_setAll _ _ ?_ [] ks (mem_differences.mpr (hfound ks hks))
    refine (nodup_differences true _ _).map_on fun x hx y hy heq => ?_
    exact hkeys (mem_differences.mp hx).strict (mem_differences.mp hy).strict heq

/-- There are no more entries than differences that Python finds, so each has a key of its own. -/
theorem distinct_of_complete (h : DiffComplete (.dict fs) (.dict gs)) :
    Set.InjOn reportKey {ks | DiffersAt false ks (some (.dict fs)) (some (.dict gs))} ∧
      ∀ ks, DiffersAt false ks (some (.dict fs)) (some (.dict gs)) → DiffersAt true ks (some (.dict fs)) (some (.dict gs)) := by
  obtain ⟨report, hreport, hcomplete⟩ := h
  obtain rfl := Except.ok.inj ((envDiff_dict fs gs).symm.trans hreport)
  obtain ⟨key, hinj, hentries⟩ := hcomplete.entries
  generalize hL : some (Value.dict fs) = L at *
  generalize hR : some (Value.dict gs) = R at *
  have hfound : (differences false L R).map key ⊆ (differences true L R).map reportKey := by
    intro k hk
    obtain ⟨ks, hks, rfl⟩ := List.mem_map.mp hk
    by_contra hnone
    have hentry := hentries ks (mem_differences.mp hks)
    rw [getItem_setAll_of_notMem _ _ hnone] at hentry
    cases hentry
  have hnodup : ((differences false L R).map key).Nodup := by
    refine (nodup_differences false L R).map_on fun x hx y hy heq => ?_
    exact hinj (mem_differences.mp hx) (mem_differences.mp hy) heq
  have hsub : (differences true L R).Subperm (differences false L R) :=
    List.subperm_of_subset (nodup_differences true L R) fun ks hks => mem_differences.mpr (mem_differences.mp hks).strict
  have hkeys : ((differences false L R).map key).Subperm ((differences true L R).map reportKey) := List.subperm_of_subset hnodup hfound
  have hle := hkeys.length_le
  rw [List.length_map, List.length_map] at hle
  have hperm := hsub.perm_of_length_le hle
  have hperm' := hkeys.perm_of_length_le (by rw [List.length_map, List.length_map]; exact hsub.length_le)
  have hdistinct : ((differences true L R).map reportKey).Nodup := hperm'.nodup_iff.mp hnodup
  constructor
  · intro x hx y hy heq
    exact List.inj_on_of_nodup_map hdistinct (hperm.mem_iff.mpr (mem_differences.mpr hx)) (hperm.mem_iff.mpr (mem_differences.mpr hy)) heq
  · exact fun ks hks => mem_differences.mp (hperm.mem_iff.mpr (mem_differences.mpr hks))

/-- A report is complete exactly when no two differences share a dotted path and Python finds all of them. -/
theorem env_diff_complete_iff (fs gs : Fields) : DiffComplete (.dict fs) (.dict gs) ↔
    Set.InjOn reportKey {ks | DiffersAt false ks (some (.dict fs)) (some (.dict gs))} ∧
      ∀ ks, DiffersAt false ks (some (.dict fs)) (some (.dict gs)) → DiffersAt true ks (some (.dict fs)) (some (.dict gs)) :=
  ⟨distinct_of_complete, fun h => complete_of_distinct h.1 h.2⟩

def dottedLeft : Fields := [(txt "a.b", .number 1), (txt "a", .dict [(txt "b", .number 1)])]

def dottedRight : Fields := [(txt "a.b", .number 2), (txt "a", .dict [(txt "b", .number 3)])]

theorem differsAt_numbers {p q : ℚ} (h : p ≠ q) : DiffersAt false [] (some (.number p)) (some (.number q)) := by
  refine ⟨rfl, ?_⟩
  rw [equalOption.eq_def]
  dsimp only
  rw [equal.eq_def]
  exact decide_eq_false h

/-- A key with a dot in it takes the place of a nested one. -/
theorem dotted_key_overwrites : ¬DiffComplete (.dict dottedLeft) (.dict dottedRight) := by
  intro h
  have hinj := (distinct_of_complete h).1
  have hnested : DiffersAt false [txt "a", txt "b"] (some (.dict dottedLeft)) (some (.dict dottedRight)) :=
    ⟨_, _, rfl, _, _, rfl, differsAt_numbers (by decide)⟩
  have hdotted : DiffersAt false [txt "a.b"] (some (.dict dottedLeft)) (some (.dict dottedRight)) :=
    ⟨_, _, rfl, differsAt_numbers (by decide)⟩
  have hkey : reportKey [txt "a", txt "b"] = reportKey [txt "a.b"] := by decide
  have hsame : [txt "a", txt "b"] = [txt "a.b"] := hinj hnested hdotted hkey
  exact absurd hsame (by decide)

end WebOauthMcp.DiffPositions
