import WebOauthMcp.ExceptSteps
import WebOauthMcp.PatchPlanning

/-!
# Hunks and their inverses

A hunk replaces one block of lines by another where the old block occurs once. The block put
in its place can be taken out again when it occurs once too.
-/

namespace WebOauthMcp.HunkInversion
open CodePoints LineSplitting PatchGrammar PatchPlanning ExceptSteps

/-! ## Replacing a block that occurs once -/

section
variable {α : Type} {block old new lines result : List α} {i : ℕ}

def OccursAt (block lines : List α) (i : ℕ) : Prop := ∃ front back, lines = front ++ block ++ back ∧ front.length = i

/-- The only occurrence of `old` in `lines` is replaced by `new`. -/
def Replaces (old new lines result : List α) : Prop :=
  ∃ front back, lines = front ++ old ++ back ∧ result = front ++ new ++ back ∧
    ∀ i, OccursAt old lines i → i = front.length

theorem occursAt_append (front block back : List α) : OccursAt block (front ++ block ++ back) front.length :=
  ⟨front, back, rfl, rfl⟩

theorem occursAt_iff (hblock : block ≠ []) : OccursAt block lines i ↔ (lines.drop i).take block.length = block := by
  constructor
  · rintro ⟨front, back, rfl, rfl⟩
    rw [List.append_assoc, List.drop_left, List.take_left]
  · intro h
    have hpos := List.length_pos_iff.mpr hblock
    have hlength := congrArg List.length h
    rw [List.length_take, List.length_drop] at hlength
    refine ⟨lines.take i, (lines.drop i).drop block.length, ?_, ?_⟩
    · calc lines = lines.take i ++ lines.drop i := (List.take_append_drop i lines).symm
        _ = lines.take i ++ ((lines.drop i).take block.length ++ (lines.drop i).drop block.length) := by
          rw [List.take_append_drop block.length]
        _ = lines.take i ++ block ++ (lines.drop i).drop block.length := by rw [h, List.append_assoc]
    · rw [List.length_take]
      omega

theorem occursAt_nil_nil : OccursAt ([] : List α) [] i ↔ i = 0 := by
  constructor
  · rintro ⟨front, back, h, rfl⟩
    have hfront := (List.append_eq_nil_iff.mp (List.append_eq_nil_iff.mp h.symm).1).1
    rw [hfront, List.length_nil]
  · rintro rfl
    exact ⟨[], [], rfl, rfl⟩

theorem exists_replaces_iff : (∃ result, Replaces old new lines result) ↔ ∃! i, OccursAt old lines i := by
  constructor
  · rintro ⟨result, front, back, rfl, -, honly⟩
    exact ⟨front.length, occursAt_append front old back, honly⟩
  · rintro ⟨i, ⟨front, back, rfl, rfl⟩, honly⟩
    exact ⟨front ++ new ++ back, front, back, rfl, rfl, honly⟩

/-- What a replacement put in can be taken out again where it is found once. -/
theorem Replaces.inverse_iff (h : Replaces old new lines result) (restored : List α) :
    Replaces new old result restored ↔ restored = lines ∧ ∃! i, OccursAt new result i := by
  obtain ⟨front, back, rfl, rfl, -⟩ := h
  have hhere := occursAt_append front new back
  constructor
  · rintro ⟨front', back', hsplit, rfl, honly⟩
    have hlength : front.length = front'.length := honly _ hhere
    rw [List.append_assoc, List.append_assoc] at hsplit
    obtain ⟨rfl, hbehind⟩ := List.append_inj hsplit hlength
    obtain rfl := List.append_cancel_left hbehind
    exact ⟨rfl, front.length, hhere, honly⟩
  · rintro ⟨rfl, i, -, honly⟩
    have hi := honly _ hhere
    exact ⟨front, back, rfl, rfl, fun j hj => (honly j hj).trans hi.symm⟩

theorem eq_singleton_iff (h : lines.Nodup) {a : α} : lines = [a] ↔ a ∈ lines ∧ ∀ b ∈ lines, b = a := by
  constructor
  · rintro rfl
    exact ⟨List.mem_singleton_self a, fun b hb => List.mem_singleton.mp hb⟩
  · rintro ⟨ha, honly⟩
    cases lines with
    | nil => exact absurd ha List.not_mem_nil
    | cons x xs =>
      obtain rfl := honly x List.mem_cons_self
      have hxs : xs = [] := List.eq_nil_iff_forall_not_mem.mpr fun y hy => by
        obtain rfl := honly y (List.mem_cons_of_mem _ hy)
        exact (List.nodup_cons.mp h).1 hy
      rw [hxs]

end

/-! ## One hunk -/

variable {lines result : List Text} {hunk : UpdateHunk} {hunks : List UpdateHunk} {path : Path} {index cursor next : ℕ}

theorem mem_findSequenceMatches_iff {needle : List Text} (h : needle ≠ []) {i : ℕ} :
    i ∈ findSequenceMatches lines needle ↔ OccursAt needle lines i := by
  rw [occursAt_iff h, mem_findSequenceMatches, and_iff_right h]

theorem findSequenceMatches_nil : findSequenceMatches lines [] = [] := rfl

theorem nodup_findSequenceMatches (lines needle : List Text) : (findSequenceMatches lines needle).Nodup := by
  rw [findSequenceMatches]
  split_ifs
  · exact List.nodup_nil
  · exact List.nodup_nil
  · exact List.nodup_range.filter _

/-- A hunk that has an old block at all replaces its only occurrence. -/
theorem applyHunk_eq_ok : applyHunk lines hunk cursor path index = .ok (result, next) ↔
    oldLines hunk ≠ [] ∧ ∃ front back, lines = front ++ oldLines hunk ++ back ∧
      result = front ++ newLines hunk ++ back ∧ (∀ i, OccursAt (oldLines hunk) lines i → i = front.length) ∧
      next = front.length + (newLines hunk).length := by
  have hok : applyHunk lines hunk cursor path index = .ok (result, next) ↔
      ∃ i, findSequenceMatches lines (oldLines hunk) = [i] ∧
        lines.take i ++ newLines hunk ++ lines.drop (i + (oldLines hunk).length) = result ∧
        i + (newLines hunk).length = next := by
    simp only [applyHunk]
    cases findSequenceMatches lines (oldLines hunk) with
    | nil => simp
    | cons i found =>
      cases found with
      | nil => simp
      | cons j found => simp
  rw [hok]
  by_cases hold : oldLines hunk = []
  · rw [hold, findSequenceMatches_nil]
    simp
  · simp only [eq_singleton_iff (nodup_findSequenceMatches lines _), mem_findSequenceMatches_iff hold]
    constructor
    · rintro ⟨i, ⟨⟨front, back, rfl, rfl⟩, honly⟩, rfl, rfl⟩
      refine ⟨hold, front, back, rfl, ?_, honly, rfl⟩
      rw [List.append_assoc front, List.take_left, ← List.drop_drop, List.drop_left, List.drop_left]
    · rintro ⟨-, front, back, rfl, rfl, honly, rfl⟩
      refine ⟨front.length, ⟨occursAt_append front _ back, honly⟩, ?_, rfl⟩
      rw [List.append_assoc front, List.take_left, ← List.drop_drop, List.drop_left, List.drop_left]

/-- What a hunk does to lines, whatever is remembered for the error texts. -/
def Applies (hunk : UpdateHunk) (lines result : List Text) : Prop :=
  oldLines hunk ≠ [] ∧ Replaces (oldLines hunk) (newLines hunk) lines result

theorem applies_iff (cursor : ℕ) (path : Path) (index : ℕ) :
    Applies hunk lines result ↔ ∃ next, applyHunk lines hunk cursor path index = .ok (result, next) := by
  simp only [applyHunk_eq_ok, Applies, Replaces]
  constructor
  · rintro ⟨hold, front, back, hlines, hresult, honly⟩
    exact ⟨_, hold, front, back, hlines, hresult, honly, rfl⟩
  · rintro ⟨next, hold, front, back, hlines, hresult, honly, -⟩
    exact ⟨hold, front, back, hlines, hresult, honly⟩

/-! ## All hunks -/

inductive AppliesAll : List UpdateHunk → List Text → List Text → Prop
  | nil (lines : List Text) : AppliesAll [] lines lines
  | cons {hunk : UpdateHunk} {hunks : List UpdateHunk} {lines middle result : List Text} : Applies hunk lines middle →
      AppliesAll hunks middle result → AppliesAll (hunk :: hunks) lines result

theorem applyHunks_eq_ok (path : Path) (index cursor : ℕ) :
    applyHunks path hunks index lines cursor = .ok result ↔ AppliesAll hunks lines result := by
  induction hunks generalizing index lines cursor with
  | nil =>
    rw [applyHunks]
    constructor
    · intro h
      cases h
      exact .nil _
    · intro h
      cases h
      rfl
  | cons hunk hunks ih =>
    rw [applyHunks, bind_eq_ok]
    constructor
    · rintro ⟨⟨middle, next⟩, hstep, hrest⟩
      exact .cons ((applies_iff cursor path index).mpr ⟨next, hstep⟩) ((ih _ _).mp hrest)
    · intro h
      cases h with
      | cons hstep hrest =>
        obtain ⟨next, hnext⟩ := (applies_iff cursor path index).mp hstep
        exact ⟨_, hnext, (ih _ _).mpr hrest⟩

theorem appliesAll_append {xs ys : List UpdateHunk} :
    AppliesAll (xs ++ ys) lines result ↔ ∃ middle, AppliesAll xs lines middle ∧ AppliesAll ys middle result := by
  induction xs generalizing lines with
  | nil =>
    constructor
    · exact fun h => ⟨lines, .nil lines, h⟩
    · rintro ⟨middle, hnil, h⟩
      cases hnil
      exact h
  | cons hunk xs ih =>
    constructor
    · intro h
      cases h with
      | cons hstep hrest =>
        obtain ⟨middle, hxs, hys⟩ := ih.mp hrest
        exact ⟨middle, .cons hstep hxs, hys⟩
    · rintro ⟨middle, hxs, hys⟩
      cases hxs with
      | cons hstep hrest => exact .cons hstep (ih.mpr ⟨middle, hrest, hys⟩)

/-! ## Inverses -/

def inverseKind : LineKind → LineKind
  | .context => .context
  | .addition => .removal
  | .removal => .addition

def inverseHunk (hunk : UpdateHunk) : UpdateHunk :=
  ⟨hunk.lines.map fun l => ⟨inverseKind l.kind, l.text⟩, hunk.patchLine⟩

theorem oldLines_inverse (hunk : UpdateHunk) : oldLines (inverseHunk hunk) = newLines hunk := by
  have hkind : ∀ kind, decide (inverseKind kind ≠ .addition) = decide (kind ≠ .removal) := by
    intro kind
    cases kind <;> rfl
  simp only [oldLines, newLines, inverseHunk, List.filter_map, List.map_map, Function.comp_def, hkind]

theorem newLines_inverse (hunk : UpdateHunk) : newLines (inverseHunk hunk) = oldLines hunk := by
  have hkind : ∀ kind, decide (inverseKind kind ≠ .removal) = decide (kind ≠ .addition) := by
    intro kind
    cases kind <;> rfl
  simp only [oldLines, newLines, inverseHunk, List.filter_map, List.map_map, Function.comp_def, hkind]

/-- The hunks that undo `hunks`, in the order they have to be applied. -/
def inverseHunks (hunks : List UpdateHunk) : List UpdateHunk := (hunks.map inverseHunk).reverse

/-- Each block put in occurs once in the lines its hunk left. -/
def AgainUnique : List UpdateHunk → List Text → Prop
  | [], _ => True
  | hunk :: hunks, lines => ∀ middle, Applies hunk lines middle →
      newLines hunk ≠ [] ∧ (∃! i, OccursAt (newLines hunk) middle i) ∧ AgainUnique hunks middle

theorem Applies.unique {result' : List Text} (h : Applies hunk lines result) (h' : Applies hunk lines result') :
    result = result' := by
  obtain ⟨next, hnext⟩ := (applies_iff 0 [] 0).mp h
  obtain ⟨next', hnext'⟩ := (applies_iff 0 [] 0).mp h'
  exact (Prod.mk.inj (Except.ok.inj (hnext.symm.trans hnext'))).1

theorem Applies.inverse_iff (h : Applies hunk lines result) (restored : List Text) :
    Applies (inverseHunk hunk) result restored ↔
      restored = lines ∧ newLines hunk ≠ [] ∧ ∃! i, OccursAt (newLines hunk) result i := by
  rw [Applies, oldLines_inverse, newLines_inverse, h.2.inverse_iff, and_left_comm]

theorem AppliesAll.inverse_iff (h : AppliesAll hunks lines result) (restored : List Text) :
    AppliesAll (inverseHunks hunks) result restored ↔ restored = lines ∧ AgainUnique hunks lines := by
  induction h generalizing restored with
  | nil lines =>
    constructor
    · intro h
      cases h
      exact ⟨rfl, trivial⟩
    · rintro ⟨rfl, -⟩
      exact .nil restored
  | @cons hunk hunks lines middle result hstep hrest ih =>
    rw [inverseHunks, List.map_cons, List.reverse_cons, appliesAll_append]
    constructor
    · rintro ⟨back, hback, hlast⟩
      obtain ⟨rfl, hothers⟩ := (ih back).mp hback
      cases hlast with
      | cons hlast hnil =>
        cases hnil
        obtain ⟨hrestored, hne, honce⟩ := (hstep.inverse_iff _).mp hlast
        refine ⟨hrestored, fun middle' hmiddle => ?_⟩
        obtain rfl := hstep.unique hmiddle
        exact ⟨hne, honce, hothers⟩
    · rintro ⟨rfl, hunique⟩
      obtain ⟨hne, honce, hothers⟩ := hunique middle hstep
      exact ⟨middle, (ih middle).mpr ⟨rfl, hothers⟩, .cons ((hstep.inverse_iff _).mpr ⟨rfl, hne, honce⟩) (.nil _)⟩

/-- A hunk with an old block succeeds exactly where the block occurs once, and replaces it there.
After hunks that succeeded, the inverse hunks restore the lines exactly when each block put in
was again unique. -/
theorem hunks_exact_and_invertible :
    (∀ lines hunk cursor path index, (∃ r, applyHunk lines hunk cursor path index = .ok r) ↔
      oldLines hunk ≠ [] ∧ ∃! i, OccursAt (oldLines hunk) lines i) ∧
    (∀ lines hunk cursor path index result next, applyHunk lines hunk cursor path index = .ok (result, next) →
      ∃ front back, lines = front ++ oldLines hunk ++ back ∧ result = front ++ newLines hunk ++ back) ∧
    ∀ path hunks lines result, applyHunks path hunks 0 lines 0 = .ok result → ∀ restored,
      applyHunks path (inverseHunks hunks) 0 result 0 = .ok restored ↔ restored = lines ∧ AgainUnique hunks lines := by
  refine ⟨?_, ?_, ?_⟩
  · intro lines hunk cursor path index
    rw [← exists_replaces_iff, ← exists_and_left, Prod.exists]
    exact exists_congr fun result => (applies_iff cursor path index).symm
  · intro lines hunk cursor path index result next h
    obtain ⟨-, front, back, hlines, hresult, -⟩ := applyHunk_eq_ok.mp h
    exact ⟨front, back, hlines, hresult⟩
  · intro path hunks lines result h restored
    rw [applyHunks_eq_ok]
    exact ((applyHunks_eq_ok path 0 0).mp h).inverse_iff restored

def removal : UpdateHunk := ⟨[⟨.removal, txt "a"⟩], 1⟩

def replacement : UpdateHunk := ⟨[⟨.removal, txt "a"⟩, ⟨.addition, txt "b"⟩], 1⟩

theorem hunks_exact_and_invertible_replacement :
    (∃ front back, [txt "a", txt "c"] = front ++ oldLines replacement ++ back ∧
      [txt "b", txt "c"] = front ++ newLines replacement ++ back) ∧
    (applyHunks [] (inverseHunks [replacement]) 0 [txt "b", txt "c"] 0 = .ok [txt "a", txt "c"] ↔
      [txt "a", txt "c"] = [txt "a", txt "c"] ∧ AgainUnique [replacement] [txt "a", txt "c"]) :=
  ⟨hunks_exact_and_invertible.2.1 _ replacement 0 [] 0 _ 1 (by decide +kernel),
    hunks_exact_and_invertible.2.2 [] [replacement] _ _ (by decide +kernel) _⟩

/-- The hunk that empties a file leaves the empty block at exactly one index, and its inverse is
refused there. -/
theorem emptied_file_not_restored : applyHunks [] [removal] 0 [txt "a"] 0 = .ok [] ∧
    (∃! i, OccursAt (oldLines (inverseHunk removal)) [] i) ∧ ¬∃ r, applyHunk [] (inverseHunk removal) 0 [] 0 = .ok r := by
  refine ⟨by decide +kernel, ⟨0, occursAt_nil_nil.mpr rfl, fun i hi => occursAt_nil_nil.mp hi⟩, ?_⟩
  rintro ⟨⟨result, next⟩, h⟩
  exact absurd rfl (applyHunk_eq_ok.mp h).1

end WebOauthMcp.HunkInversion
