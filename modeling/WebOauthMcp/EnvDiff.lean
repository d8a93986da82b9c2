import Mathlib.Data.List.Dedup
import Mathlib.Data.Rat.Init
import WebOauthMcp.Words

/-!
# Differences of environment snapshots

Two snapshots are compared key by key. What differs is reported under the dotted path of its keys.
-/

namespace WebOauthMcp.EnvDiff
open CodePoints Words

/-- A decoded JSON value; numbers are taken by their value. -/
inductive Value
  | null
  | bool (b : Bool)
  | number (q : ℚ)
  | str (t : Text)
  | list (items : List Value)
  | dict (fields : List (Text × Value))

abbrev Fields := List (Text × Value)

/-! ## Dictionaries -/

variable {α : Type}

/-- `d.get(k)`. -/
def getItem (k : Text) (d : List (Text × α)) : Option α := (d.find? fun f => decide (f.1 = k)).map Prod.snd

/-- `d[k] = v`. -/
def setItem (k : Text) (v : α) (d : List (Text × α)) : List (Text × α) :=
  if d.any fun f => decide (f.1 = k) then d.map fun f => if f.1 = k then (k, v) else f else d ++ [(k, v)]

/-- `sorted(set(left) | set(right), key=str)`. -/
def sortedKeys (fs gs : Fields) : List Text := (((fs ++ gs).map Prod.fst).dedup).mergeSort textLe

theorem sizeOf_getItem_lt (k : Text) (fs : Fields) : sizeOf (getItem k fs) < sizeOf (Value.dict fs) := by
  rw [Value.dict.sizeOf_spec]
  induction fs with
  | nil => simp [getItem]
  | cons f fs ih =>
    obtain ⟨k', v⟩ := f
    by_cases h : k' = k
    · have hget : getItem k ((k', v) :: fs) = some v := by simp [getItem, h]
      rw [hget, Option.some.sizeOf_spec, List.cons.sizeOf_spec, Prod.mk.sizeOf_spec]
      omega
    · have hget : getItem k ((k', v) :: fs) = getItem k fs := by simp [getItem, h]
      rw [hget, List.cons.sizeOf_spec]
      omega

/-! ## Equality -/

/-- What a boolean counts as among the numbers. -/
def numberOf (b : Bool) : ℚ := if b then 1 else 0

/-- Equality of values that hold no others. -/
def equalScalar (loose : Bool) : Value → Value → Bool
  | .null, .null => true
  | .bool a, .bool b => decide (a = b)
  | .bool a, .number q => loose && decide (numberOf a = q)
  | .number q, .bool b => loose && decide (q = numberOf b)
  | .number p, .number q => decide (p = q)
  | .str s, .str t => decide (s = t)
  | _, _ => false

mutual
/-- Equality of values: `==` when it is loose, where booleans equal numbers. -/
def equal (loose : Bool) (v w : Value) : Bool :=
  match v, w with
  | .list xs, .list ys => equalItems loose xs ys
  | .dict fs, .dict gs => (sortedKeys fs gs).all fun k => equalOption loose (getItem k fs) (getItem k gs)
  | v, w => equalScalar loose v w
termination_by sizeOf v
decreasing_by
  · simp
  · exact sizeOf_getItem_lt k fs

def equalItems (loose : Bool) (xs ys : List Value) : Bool :=
  match xs, ys with
  | [], [] => true
  | x :: xs, y :: ys => equal loose x y && equalItems loose xs ys
  | _, _ => false
termination_by sizeOf xs

/-- Equality where a value may be missing. -/
def equalOption (loose : Bool) (v w : Option Value) : Bool :=
  match v, w with
  | none, none => true
  | some v, some w => equal loose v w
  | _, _ => false
termination_by sizeOf v
end

/-! ## Comparing -/

/-- The fields of both sides, where both are dictionaries. -/
def bothDicts : Option Value → Option Value → Option (Fields × Fields)
  | some (.dict fs), some (.dict gs) => some (fs, gs)
  | _, _ => none

theorem bothDicts_eq_some {l r : Option Value} {fs gs : Fields} (h : bothDicts l r = some (fs, gs)) :
    l = some (.dict fs) ∧ r = some (.dict gs) := by
  unfold bothDicts at h
  split at h
  · cases h
    exact ⟨rfl, rfl⟩
  · cases h

/-- `_public_value`. -/
def publicValue : Option Value → Value
  | none => .null
  | some v => v

abbrev Changes := List (Text × List Value)

def childPath (path key : Text) : Text := if path = [] then key else path ++ txt "." ++ key

/-- `path or "$"` -/
def pathName (path : Text) : Text := if path = [] then txt "$" else path

/-- `_diff_values`; a missing value is `none`. -/
def diffValues (left right : Option Value) (path : Text) (changes : Changes) : Changes :=
  match h : bothDicts left right with
  | some (fs, gs) =>
    (sortedKeys fs gs).foldl (fun changes k => diffValues (getItem k fs) (getItem k gs) (childPath path k) changes) changes
  | none =>
    if equalOption true left right then changes else setItem (pathName path) [publicValue left, publicValue right] changes
termination_by sizeOf left
decreasing_by
  rw [(bothDicts_eq_some h).1, Option.some.sizeOf_spec]
  exact (sizeOf_getItem_lt k fs).trans (Nat.lt_add_of_pos_left Nat.one_pos)

structure EnvError where
  code : Text
  message : Text

structure Report where
  success : Bool
  changed : Bool
  changes : Changes

def invalidArguments : EnvError := ⟨txt "invalid_arguments", txt "left and right must both be JSON-like objects."⟩

/-- `env_diff`. -/
def envDiff (left right : Value) : Except EnvError Report :=
  match left, right with
  | .dict fs, .dict gs =>
    let changes := diffValues (some (.dict fs)) (some (.dict gs)) [] []
    .ok { success := true, changed := !changes.isEmpty, changes := changes }
  | _, _ => .error invalidArguments

end WebOauthMcp.EnvDiff
