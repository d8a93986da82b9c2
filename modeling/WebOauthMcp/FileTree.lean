import Mathlib.Data.List.Basic
import Mathlib.Logic.Function.Basic

/-!
# Directory trees

A tree maps paths to files and directories; a path lists its names innermost first, so
its tail is its parent. The parent of everything present is a directory, and the file
calls below refuse what would break that. A refused call is `none`.
-/

namespace WebOauthMcp.FileTree

inductive Node (C : Type) where
  | file (content : C)
  | dir
  deriving DecidableEq

/-- A well-formed directory tree. -/
@[ext] structure Tree (N C : Type) where
  node : List N → Option (Node C)
  root : node [] = some .dir
  parent : ∀ n p x, node (n :: p) = some x → node p = some .dir

variable {N C : Type}

instance (x : Option (Node C)) : Decidable (x = some .dir) :=
  match x with
  | some .dir => isTrue rfl
  | some (.file _) => isFalse (by simp)
  | none => isFalse (by simp)

/-- The file contents of a tree, directories left out. -/
def Tree.files (t : Tree N C) (p : List N) : Option C :=
  match t.node p with
  | some (.file c) => some c
  | _ => none

theorem Tree.files_eq_some_iff (t : Tree N C) (p : List N) (c : C) :
    t.files p = some c ↔ t.node p = some (.file c) := by
  unfold Tree.files
  split <;> simp_all

theorem Tree.no_child_of_file (t : Tree N C) {p : List N} {c : C} (h : t.node p = some (.file c))
    (n : N) : t.node (n :: p) = none := by
  cases hn : t.node (n :: p) with
  | none => rfl
  | some x => simpa [h] using t.parent n p x hn

/-! ## The shape of a tree -/

variable {D : Type}

def Node.map (f : C → D) : Node C → Node D
  | .file c => .file (f c)
  | .dir => .dir

/-- The same tree with every content replaced. -/
def Tree.map (f : C → D) (t : Tree N C) : Tree N D where
  node p := (t.node p).map (Node.map f)
  root := by simp [t.root, Node.map]
  parent n p x hx := by
    obtain ⟨y, hy, -⟩ := Option.map_eq_some_iff.mp hx
    simp [t.parent n p y hy, Node.map]

@[simp] theorem Tree.map_node (f : C → D) (t : Tree N C) (p : List N) :
    (t.map f).node p = (t.node p).map (Node.map f) := rfl

@[simp] theorem Node.map_eq_dir (f : C → D) (x : Option (Node C)) :
    x.map (Node.map f) = some .dir ↔ x = some .dir := by
  rcases x with - | - | - <;> simp [Node.map]

/-- Directories and files lie at the same paths, whatever the files hold. -/
def SameShape (s t : Tree N C) : Prop := s.map (fun _ => ()) = t.map fun _ => ()

theorem SameShape.refl (t : Tree N C) : SameShape t t := rfl

private theorem SameShape.of_map {s' : Tree N C} {r : Option (Tree N C)}
    (hs : some (s'.map fun _ => ()) = r.map (Tree.map fun _ => ())) :
    ∃ t', r = some t' ∧ SameShape s' t' := by
  obtain ⟨t', ht, hmap⟩ := Option.map_eq_some_iff.mp hs.symm
  exact ⟨t', ht, hmap.symm⟩

theorem SameShape.none_iff {s t : Tree N C} (h : SameShape s t) (p : List N) :
    s.node p = none ↔ t.node p = none := by
  have hp := congrArg (fun u => Tree.node u p) h
  simp only [Tree.map_node] at hp
  rw [← Option.map_eq_none_iff (f := Node.map fun _ => ()), hp, Option.map_eq_none_iff]

theorem SameShape.dir_iff {s t : Tree N C} (h : SameShape s t) (p : List N) :
    s.node p = some .dir ↔ t.node p = some .dir := by
  have hp := congrArg (fun u => Tree.node u p) h
  simp only [Tree.map_node] at hp
  rw [← Node.map_eq_dir fun _ => (), hp, Node.map_eq_dir]

theorem Tree.files_eq_none_iff (t : Tree N C) (p : List N) :
    t.files p = none ↔ t.node p = none ∨ t.node p = some .dir := by
  unfold Tree.files
  rcases t.node p with - | - | - <;> simp

theorem SameShape.files_none_iff {s t : Tree N C} (h : SameShape s t) (p : List N) :
    s.files p = none ↔ t.files p = none := by
  rw [Tree.files_eq_none_iff, Tree.files_eq_none_iff, h.none_iff, h.dir_iff]

/-- Trees of one shape that hold the same contents are equal. -/
theorem SameShape.eq_of_files {s t : Tree N C} (h : SameShape s t) (hf : s.files = t.files) : s = t := by
  refine Tree.ext (funext fun p => ?_)
  cases hs : s.files p with
  | some c => rw [(s.files_eq_some_iff p c).mp hs, (t.files_eq_some_iff p c).mp (hf ▸ hs)]
  | none =>
    rcases (s.files_eq_none_iff p).mp hs with hn | hd
    · rw [hn, (h.none_iff p).mp hn]
    · rw [hd, (h.dir_iff p).mp hd]

/-! ## Calls -/

variable [DecidableEq N]

/-- Putting a node below a directory, in place of a file or of nothing. -/
def Tree.put (t : Tree N C) (n : N) (p : List N) (x : Node C) (hp : t.node p = some .dir)
    (hx : t.node (n :: p) ≠ some .dir) : Tree N C where
  node := Function.update t.node (n :: p) (some x)
  root := by simpa using t.root
  parent := by
    intro m q y hy
    by_cases hq : q = n :: p
    · subst hq
      rw [Function.update_of_ne (by simp)] at hy
      exact absurd (t.parent m _ y hy) hx
    · rw [Function.update_of_ne hq]
      by_cases hm : m :: q = n :: p
      · obtain ⟨-, rfl⟩ := List.cons.inj hm
        exact hp
      · rw [Function.update_of_ne hm] at hy
        exact t.parent m q y hy

@[simp] theorem Tree.put_node (t : Tree N C) (n : N) (p : List N) (x : Node C) (hp) (hx) :
    (t.put n p x hp hx).node = Function.update t.node (n :: p) (some x) := rfl

/-- `path.write_bytes(c)`: fails on a directory and below anything but a directory. -/
def Tree.write (t : Tree N C) : List N → C → Option (Tree N C)
  | [], _ => none
  | n :: p, c =>
    if h : t.node p = some .dir ∧ t.node (n :: p) ≠ some .dir then
      some (t.put n p (.file c) h.1 h.2)
    else none

/-- `path.mkdir()`: fails when anything is there or the parent is no directory. -/
def Tree.mkdir (t : Tree N C) : List N → Option (Tree N C)
  | [] => none
  | n :: p =>
    if h : t.node p = some .dir ∧ t.node (n :: p) = none then
      some (t.put n p .dir h.1 (by simp [h.2]))
    else none

/-- `path.mkdir(parents=True, exist_ok=True)`. -/
def Tree.mkdirs (t : Tree N C) : List N → Option (Tree N C)
  | [] => some t
  | n :: p =>
    match t.node (n :: p) with
    | some .dir => some t
    | some (.file _) => none
    | none => (t.mkdirs p).bind fun t' => t'.mkdir (n :: p)

/-- `path.unlink()`: fails when nothing is there and on a directory. -/
def Tree.unlink (t : Tree N C) (p : List N) : Option (Tree N C) :=
  match h : t.node p with
  | some (.file c) => some {
      node := Function.update t.node p none
      root := by
        rw [Function.update_of_ne]
        · exact t.root
        · rintro rfl
          simp [t.root] at h
      parent := by
        intro m q y hy
        by_cases hq : q = p
        · subst hq
          rw [Function.update_of_ne (by simp), t.no_child_of_file h m] at hy
          simp at hy
        · rw [Function.update_of_ne hq]
          by_cases hm : m :: q = p
          · simp [hm] at hy
          · rw [Function.update_of_ne hm] at hy
            exact t.parent m q y hy }
  | _ => none

/-- The tree with nothing but its root. -/
def Tree.bare : Tree N C where
  node p := if p = [] then some .dir else none
  root := by simp
  parent := by simp

/-- The bare tree with some files written into it, where they can be. -/
def Tree.ofFiles (fs : List (List N × C)) : Tree N C :=
  fs.foldl (fun t f => (((t.mkdirs f.1.tail).bind fun u => u.write f.1 f.2)).getD t) .bare

/-! ## What the calls do -/

theorem Tree.write_eq_some {t t' : Tree N C} {p : List N} {c : C} (h : t.write p c = some t') :
    t.node p ≠ some .dir ∧ t.node p.tail = some .dir ∧
      t'.node = Function.update t.node p (some (.file c)) := by
  cases p with
  | nil => simp [Tree.write] at h
  | cons n p =>
    simp only [Tree.write] at h
    split_ifs at h with hd
    obtain rfl := Option.some.inj h
    exact ⟨hd.2, hd.1, rfl⟩

theorem Tree.write_isSome_iff (t : Tree N C) (p : List N) (c : C) :
    (t.write p c).isSome ↔ p ≠ [] ∧ t.node p ≠ some .dir ∧ t.node p.tail = some .dir := by
  cases p with
  | nil => simp [Tree.write]
  | cons n p =>
    simp only [Tree.write]
    split_ifs with hd
    · simpa using ⟨hd.2, hd.1⟩
    · simp only [Option.isSome_none, Bool.false_eq_true, false_iff]
      exact fun h => hd ⟨h.2.2, h.2.1⟩

/-- Writing a file just written has the effect of the second write alone. -/
theorem Tree.write_bind_write (t : Tree N C) (p : List N) (c d : C) :
    ((t.write p c).bind fun u => u.write p d) = t.write p d := by
  cases p with
  | nil => rfl
  | cons n p =>
    by_cases h : t.node p = some .dir ∧ t.node (n :: p) ≠ some .dir
    · have hne : p ≠ n :: p := fun hp => by simpa using congrArg List.length hp
      simp only [Tree.write, dif_pos h, Option.bind_some, Tree.put_node, Function.update_self,
        Function.update_of_ne hne]
      rw [dif_pos ⟨h.1, by simp⟩]
      refine congrArg some (Tree.ext ?_)
      simp
    · simp [Tree.write, dif_neg h]

theorem Tree.unlink_eq_some {t t' : Tree N C} {p : List N} (h : t.unlink p = some t') :
    (∃ c, t.node p = some (.file c)) ∧ t'.node = Function.update t.node p none := by
  unfold Tree.unlink at h
  split at h
  · rename_i c hc
    obtain rfl := Option.some.inj h
    exact ⟨⟨c, hc⟩, rfl⟩
  · simp at h

theorem Tree.unlink_isSome_iff (t : Tree N C) (p : List N) :
    (t.unlink p).isSome ↔ ∃ c, t.node p = some (.file c) := by
  unfold Tree.unlink
  split
  · rename_i c hc
    simp [hc]
  · rename_i hne
    simp only [Option.isSome_none, Bool.false_eq_true, false_iff]
    rintro ⟨c, hc⟩
    exact hne c hc

/-- Making directories leaves every present node alone and adds directories only. -/
theorem Tree.mkdirs_node {t t' : Tree N C} {p : List N} (h : t.mkdirs p = some t') (q : List N) :
    t'.node q = t.node q ∨ t.node q = none ∧ t'.node q = some .dir := by
  induction p generalizing t' with
  | nil =>
    obtain rfl := Option.some.inj h
    exact Or.inl rfl
  | cons n p ih =>
    cases hnode : t.node (n :: p) with
    | some x =>
      cases x with
      | dir =>
        obtain rfl := Option.some.inj (by simpa only [Tree.mkdirs, hnode] using h)
        exact Or.inl rfl
      | file c => simp [Tree.mkdirs, hnode] at h
    | none =>
      simp only [Tree.mkdirs, hnode] at h
      obtain ⟨u, hu, hm⟩ := Option.bind_eq_some_iff.mp h
      simp only [Tree.mkdir] at hm
      split_ifs at hm with hd
      obtain rfl := Option.some.inj hm
      simp only [Tree.put_node, Function.update_apply]
      split_ifs with hq
      · exact Or.inr ⟨hq ▸ hnode, rfl⟩
      · exact ih hu

theorem Tree.mkdirs_of_dir {t : Tree N C} {p : List N} (h : t.node p = some .dir) : t.mkdirs p = some t := by
  cases p with
  | nil => rfl
  | cons n p => simp [Tree.mkdirs, h]

/-- Making a directory and its parents makes it, and nothing below it. -/
theorem Tree.mkdirs_dir {t t' : Tree N C} {p : List N} (h : t.mkdirs p = some t') :
    t'.node p = some .dir ∧ ∀ q, p.length < q.length → t'.node q = t.node q := by
  induction p generalizing t' with
  | nil =>
    obtain rfl := Option.some.inj h
    exact ⟨t.root, fun _ _ => rfl⟩
  | cons n p ih =>
    rcases hnode : t.node (n :: p) with _ | _ | _
    · simp only [Tree.mkdirs, hnode] at h
      obtain ⟨u, hu, hm⟩ := Option.bind_eq_some_iff.mp h
      simp only [Tree.mkdir] at hm
      split_ifs at hm with hd
      obtain rfl := Option.some.inj hm
      refine ⟨by simp, fun q hq => ?_⟩
      rw [Tree.put_node, Function.update_of_ne fun he => by simp [he] at hq]
      exact (ih hu).2 q (by simp only [List.length_cons] at hq; omega)
    · simp [Tree.mkdirs, hnode] at h
    · obtain rfl := Option.some.inj (by simpa only [Tree.mkdirs, hnode] using h)
      exact ⟨hnode, fun _ _ => rfl⟩

theorem Tree.mkdirs_files {t t' : Tree N C} {p : List N} (h : t.mkdirs p = some t') :
    t'.files = t.files := by
  funext q
  rcases Tree.mkdirs_node h q with hq | ⟨hq, hq'⟩ <;> simp [Tree.files, *]

theorem Tree.write_files {t t' : Tree N C} {p : List N} {c : C} (h : t.write p c = some t') :
    t'.files = Function.update t.files p (some c) := by
  funext q
  obtain ⟨-, -, ht⟩ := Tree.write_eq_some h
  by_cases hq : q = p <;> simp [Tree.files, ht, hq]

theorem Tree.unlink_files {t t' : Tree N C} {p : List N} (h : t.unlink p = some t') :
    t'.files = Function.update t.files p none := by
  funext q
  obtain ⟨-, ht⟩ := Tree.unlink_eq_some h
  by_cases hq : q = p <;> simp [Tree.files, ht, hq]

/-! ## Calls on trees of one shape -/

theorem Tree.map_write (f : C → D) (t : Tree N C) (p : List N) (c : C) :
    (t.map f).write p (f c) = (t.write p c).map (Tree.map f) := by
  cases p with
  | nil => rfl
  | cons n p =>
    simp only [Tree.write, Tree.map_node, ne_eq, Node.map_eq_dir]
    split_ifs with h
    · refine congrArg some (Tree.ext (funext fun q => ?_))
      by_cases hq : q = n :: p <;> simp [hq, Node.map]
    · rfl

theorem Tree.map_mkdirs (f : C → D) (t : Tree N C) (p : List N) :
    (t.map f).mkdirs p = (t.mkdirs p).map (Tree.map f) := by
  induction p with
  | nil => rfl
  | cons n p ih =>
    simp only [Tree.mkdirs, Tree.map_node]
    cases hnode : t.node (n :: p) with
    | some x => cases x <;> rfl
    | none =>
      simp only [Option.map_none, ih]
      cases t.mkdirs p with
      | none => rfl
      | some u =>
        simp only [Option.map_some, Option.bind_some, Tree.mkdir, Tree.map_node, Node.map_eq_dir,
          Option.map_eq_none_iff]
        split_ifs with h
        · refine congrArg some (Tree.ext (funext fun q => ?_))
          by_cases hq : q = n :: p <;> simp [hq, Node.map]
        · rfl

theorem Tree.map_unlink (f : C → D) (t : Tree N C) (p : List N) :
    (t.map f).unlink p = (t.unlink p).map (Tree.map f) := by
  cases ht : t.unlink p with
  | none =>
    refine Option.not_isSome_iff_eq_none.mp fun hs => ?_
    obtain ⟨d, hd⟩ := (Tree.unlink_isSome_iff _ _).mp hs
    obtain ⟨x, hx, hxd⟩ := Option.map_eq_some_iff.mp hd
    cases x with
    | dir => simp [Node.map] at hxd
    | file c => simpa [ht] using (Tree.unlink_isSome_iff t p).mpr ⟨c, hx⟩
  | some u =>
    obtain ⟨⟨c, hc⟩, hu⟩ := Tree.unlink_eq_some ht
    obtain ⟨v, hv⟩ := Option.isSome_iff_exists.mp
      ((Tree.unlink_isSome_iff (t.map f) p).mpr ⟨f c, by simp [hc, Node.map]⟩)
    rw [hv]
    refine congrArg some (Tree.ext (funext fun q => ?_))
    rw [(Tree.unlink_eq_some hv).2, Tree.map_node, hu]
    by_cases hq : q = p <;> simp [hq]

theorem SameShape.write {s s' t : Tree N C} {p : List N} {c : C} (h : SameShape s t)
    (hs : s.write p c = some s') (d : C) : ∃ t', t.write p d = some t' ∧ SameShape s' t' := by
  refine SameShape.of_map ?_
  rw [← Tree.map_write, ← h, Tree.map_write _ s p c, hs, Option.map_some]

theorem SameShape.mkdirs {s s' t : Tree N C} {p : List N} (h : SameShape s t)
    (hs : s.mkdirs p = some s') : ∃ t', t.mkdirs p = some t' ∧ SameShape s' t' := by
  refine SameShape.of_map ?_
  rw [← Tree.map_mkdirs, ← h, Tree.map_mkdirs, hs, Option.map_some]

theorem SameShape.unlink {s s' t : Tree N C} {p : List N} (h : SameShape s t)
    (hs : s.unlink p = some s') : ∃ t', t.unlink p = some t' ∧ SameShape s' t' := by
  refine SameShape.of_map ?_
  rw [← Tree.map_unlink, ← h, Tree.map_unlink, hs, Option.map_some]

/-! ## Logs of effects on files -/

/-- What a call left at a path: the content of a file, or nothing. -/
abbrev Effect (N C : Type) := List N × Option C

def applyEffects (files : List N → Option C) (es : List (Effect N C)) : List N → Option C :=
  es.foldl (fun f e => Function.update f e.1 e.2) files

/-- What the last effect on `p` left there, if there was one. -/
def lastEffect (p : List N) : List (Effect N C) → Option (Option C)
  | [] => none
  | e :: es => (lastEffect p es).or (if e.1 = p then some e.2 else none)

theorem applyEffects_append (files : List N → Option C) (es fs : List (Effect N C)) :
    applyEffects files (es ++ fs) = applyEffects (applyEffects files es) fs := by
  simp [applyEffects]

/-- A path holds what the last effect on it left, or what it held before. -/
theorem applyEffects_apply (files : List N → Option C) (es : List (Effect N C)) (p : List N) :
    applyEffects files es p = (lastEffect p es).getD (files p) := by
  induction es generalizing files with
  | nil => rfl
  | cons e es ih =>
    have hcons : applyEffects files (e :: es) = applyEffects (Function.update files e.1 e.2) es := rfl
    rw [hcons, ih, lastEffect]
    cases lastEffect p es with
    | some v => rfl
    | none =>
      by_cases he : e.1 = p
      · subst he
        simp
      · simp [he, Function.update_of_ne (Ne.symm he)]

/-- A log of effects restores the files exactly when every last effect does. -/
theorem applyEffects_eq_self_iff (files : List N → Option C) (es : List (Effect N C)) :
    applyEffects files es = files ↔ ∀ p v, lastEffect p es = some v → files p = v := by
  constructor
  · intro h p v hv
    have hp := congrFun h p
    rw [applyEffects_apply, hv] at hp
    exact hp.symm
  · intro h
    funext p
    rw [applyEffects_apply]
    cases hv : lastEffect p es with
    | none => rfl
    | some v => exact (h p v hv).symm

end WebOauthMcp.FileTree
