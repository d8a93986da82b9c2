import WebOauthMcp.CodePoints
import Mathlib.Data.List.Dedup

/-!
# Words of a text

`str.split()` cuts at runs of white space and yields no empty piece. Joining words with
single spaces is undone by it.
-/

namespace WebOauthMcp.Words
open CodePoints

/-- The code points `str.isspace` accepts. -/
def isSpace (c : CodePoint) : Bool :=
  (0x09 ≤ c.val && c.val ≤ 0x0D) || (0x1C ≤ c.val && c.val ≤ 0x20) || c.val = 0x85 || c.val = 0xA0 ||
    c.val = 0x1680 || (0x2000 ≤ c.val && c.val ≤ 0x200A) || c.val = 0x2028 || c.val = 0x2029 ||
    c.val = 0x202F || c.val = 0x205F || c.val = 0x3000

def space : CodePoint := 0x20

/-- `text.split()`. -/
def words (t : Text) : List Text := (t.splitOnP isSpace).filter fun w => !w.isEmpty

/-- `" ".join(ws)`. -/
def joinWords (ws : List Text) : Text := List.intercalate [space] ws

/-- A piece that `split` can yield. -/
def IsWord (w : Text) : Prop := w ≠ [] ∧ ∀ c ∈ w, isSpace c = false

/-- The order of texts, by code points. -/
def textLe : Text → Text → Bool
  | [], _ => true
  | _ :: _, [] => false
  | a :: s, b :: t => if a.val < b.val then true else if b.val < a.val then false else textLe s t

theorem textLe_total (s t : Text) : (textLe s t || textLe t s) = true := by
  induction s, t using textLe.induct with
  | case1 t => simp [textLe]
  | case2 a s => simp [textLe]
  | case3 a s b t h => simp [textLe, h]
  | case4 a s b t h h' => simp [textLe, h']
  | case5 a s b t h h' ih => simpa [textLe, h, h'] using ih

theorem textLe_trans (r s t : Text) (hrs : textLe r s = true) (hst : textLe s t = true) : textLe r t = true := by
  induction r, s using textLe.induct generalizing t with
  | case1 s => simp [textLe]
  | case2 a r => simp [textLe] at hrs
  | case3 a r b s h => cases t with
    | nil => simp [textLe] at hst
    | cons c t =>
      simp only [textLe] at hst ⊢
      grind
  | case4 a r b s h h' => simp [textLe, h, h'] at hrs
  | case5 a r b s h h' ih => cases t with
    | nil => simp [textLe] at hst
    | cons c t =>
      simp only [textLe, h, h'] at hrs hst ⊢
      grind

theorem textLe_antisymm (s t : Text) (hst : textLe s t = true) (hts : textLe t s = true) : s = t := by
  induction s, t using textLe.induct with
  | case1 t => cases t with
    | nil => rfl
    | cons b t => simp [textLe] at hts
  | case2 a s => simp [textLe] at hst
  | case3 a s b t h => simp [textLe, h, Nat.lt_asymm h] at hts
  | case4 a s b t h h' => simp [textLe, h, h'] at hst
  | case5 a s b t h h' ih =>
    have hab : a = b := Fin.ext (by omega)
    simp only [textLe, h, h', if_false] at hst hts
    rw [hab, ih hst hts]

/-- `sorted(set(ws))`. -/
def sortedSet (ws : List Text) : List Text := ws.dedup.mergeSort textLe

@[simp] theorem mem_sortedSet {ws : List Text} {w : Text} : w ∈ sortedSet ws ↔ w ∈ ws := by
  simp [sortedSet]

theorem splitOnP_noSep (p : CodePoint → Bool) (t : Text) :
    ∀ w ∈ t.splitOnP p, ∀ c ∈ w, p c = false := by
  induction t with
  | nil => simp [List.splitOnP_nil]
  | cons a t ih =>
    rw [List.splitOnP_cons_eq_if_modifyHead]
    by_cases ha : p a = true
    · simpa [ha] using ih
    · cases hs : t.splitOnP p with
      | nil => exact absurd hs (List.splitOnP_ne_nil p t)
      | cons w ws =>
        rw [hs] at ih
        simp only [ha, Bool.false_eq_true, if_false, List.modifyHead_cons]
        intro v hv c hc
        rcases List.mem_cons.mp hv with rfl | hv
        · rcases List.mem_cons.mp hc with rfl | hc
          · simpa using ha
          · exact ih w (by simp) c hc
        · exact ih v (by simp [hv]) c hc

theorem isWord_of_mem_words {t w : Text} (h : w ∈ words t) : IsWord w := by
  simp only [words, List.mem_filter, Bool.not_eq_true', List.isEmpty_eq_false_iff] at h
  exact ⟨h.2, splitOnP_noSep isSpace t w h.1⟩

private theorem splitOnP_mem (p : CodePoint → Bool) (t : Text) : ∀ w ∈ t.splitOnP p, ∀ c ∈ w, c ∈ t := by
  induction t with
  | nil => simp [List.splitOnP_nil]
  | cons a t ih =>
    rw [List.splitOnP_cons_eq_if_modifyHead]
    cases hs : t.splitOnP p with
    | nil => exact absurd hs (List.splitOnP_ne_nil p t)
    | cons w ws =>
      rw [hs] at ih
      intro v hv c hc
      split_ifs at hv with ha
      · cases List.mem_cons.mp hv with
        | inl hv => simp [hv] at hc
        | inr hv => exact List.mem_cons_of_mem a (ih v hv c hc)
      · rw [List.modifyHead_cons] at hv
        cases List.mem_cons.mp hv with
        | inl hv =>
          rw [hv] at hc
          cases List.mem_cons.mp hc with
          | inl hc => simp [hc]
          | inr hc => exact List.mem_cons_of_mem a (ih w (by simp) c hc)
        | inr hv => exact List.mem_cons_of_mem a (ih v (by simp [hv]) c hc)

theorem isEncodable_of_mem_words {t w : Text} (ht : isEncodable t = true) (h : w ∈ words t) :
    isEncodable w = true := by
  simp only [isEncodable, List.all_eq_true] at ht ⊢
  exact fun c hc => ht c (splitOnP_mem isSpace t w (List.mem_of_mem_filter h) c hc)

theorem joinWords_singleton (w : Text) : joinWords [w] = w := by simp [joinWords]

theorem joinWords_cons_cons (w v : Text) (ws : List Text) :
    joinWords (w :: v :: ws) = w ++ space :: joinWords (v :: ws) := by
  simp [joinWords, List.intercalate, List.intersperse]

theorem isEncodable_joinWords {ws : List Text} (h : ∀ w ∈ ws, isEncodable w = true) :
    isEncodable (joinWords ws) = true := by
  induction ws with
  | nil => rfl
  | cons w ws ih =>
    have hw := h w (by simp)
    have ih := ih fun v hv => h v (List.mem_cons_of_mem w hv)
    cases ws with
    | nil =>
      rw [joinWords_singleton]
      exact hw
    | cons v ws =>
      have hspace : (!isSurrogate space) = true := by decide
      simp only [isEncodable] at hw ih ⊢
      rw [joinWords_cons_cons, List.all_append, List.all_cons, hw, ih, hspace]
      rfl

@[simp] theorem words_nil : words [] = [] := by simp [words, List.splitOnP_nil]

/-- Splitting undoes joining words. -/
theorem words_joinWords {ws : List Text} (h : ∀ w ∈ ws, IsWord w) : words (joinWords ws) = ws := by
  have hspace : isSpace space = true := by decide
  induction ws with
  | nil => exact words_nil
  | cons w ws ih =>
    have hw := h w (by simp)
    have hne : (!w.isEmpty) = true := by simpa using hw.1
    have ih := ih fun v hv => h v (List.mem_cons_of_mem w hv)
    cases ws with
    | nil =>
      rw [joinWords_singleton, words, List.splitOnP_eq_singleton hw.2]
      simp [hw.1]
    | cons v ws =>
      rw [joinWords_cons_cons, words, List.splitOnP_append_cons_of_forall_mem hw.2 space hspace, List.filter_cons,
        if_pos hne]
      exact congrArg _ ih

theorem joinWords_eq_nil {ws : List Text} (h : ∀ w ∈ ws, IsWord w) (hj : joinWords ws = []) : ws = [] := by
  rw [← words_joinWords h, hj, words_nil]

end WebOauthMcp.Words
