import WebOauthMcp.CodePoints
import Mathlib.Tactic.SplitIfs

/-!
# Splitting text into lines

`str.splitlines` breaks at a dozen code points and takes CR LF as one break. The split
is defined over any items that carry a code point, so that the same lines can be read
off a text and off the decoded units of a file; it loses nothing but the grouping.
-/

namespace WebOauthMcp.LineSplitting
open CodePoints

def lineFeed : CodePoint := 0x0A
def carriageReturn : CodePoint := 0x0D

/-- The code points `str.splitlines` breaks at. -/
def lineBreaks : List CodePoint := [0x0A, 0x0B, 0x0C, 0x0D, 0x1C, 0x1D, 0x1E, 0x85, 0x2028, 0x2029]

def isLineBreak (c : CodePoint) : Bool := lineBreaks.contains c

theorem isSurrogate_of_isLineBreak {c : CodePoint} (h : isLineBreak c = true) : isSurrogate c = false := by
  have hall : lineBreaks.all (fun d => !isSurrogate d) = true := by decide
  simpa using List.all_eq_true.mp hall c (by simpa [isLineBreak] using h)

/-- One line with the break that ends it; `ending = []` only for an unended last line. -/
structure Line (α : Type) where
  content : List α
  ending : List α
  deriving DecidableEq

variable {α β : Type}

def Line.items (l : Line α) : List α := l.content ++ l.ending

def Line.map (f : α → β) (l : Line α) : Line β := ⟨l.content.map f, l.ending.map f⟩

/-- The lines of a sequence whose items stand for the code points `key`. -/
def linesOf (key : α → CodePoint) : List α → List (Line α)
  | [] => []
  | a :: rest =>
    if isLineBreak (key a) then
      match rest with
      | [] => [⟨[], [a]⟩]
      | b :: bs =>
        if key a = carriageReturn ∧ key b = lineFeed then ⟨[], [a, b]⟩ :: linesOf key bs
        else ⟨[], [a]⟩ :: linesOf key (b :: bs)
    else match linesOf key rest with
      | [] => [⟨[a], []⟩]
      | l :: ls => ⟨a :: l.content, l.ending⟩ :: ls

/-- `text.splitlines()`. -/
def splitlines (t : Text) : List Text := (linesOf id t).map Line.content

/-- `text.splitlines(keepends=True)`. -/
def splitlinesKeepends (t : Text) : List Text := (linesOf id t).map Line.items

/-- `"\n".join(lines)`. -/
def joinLines (lines : List Text) : Text := List.intercalate [lineFeed] lines

/-- `text.endswith("\n")`. -/
def endsWithNewline (t : Text) : Bool := t.getLast? = some lineFeed

@[simp] theorem linesOf_nil (key : α → CodePoint) : linesOf key [] = [] := by simp [linesOf]

/-- The front of the split, by the kind of the first item. -/
theorem linesOf_content (key : α → CodePoint) (a : α) (rest : List α) (h : isLineBreak (key a) = false) :
    linesOf key (a :: rest) = match linesOf key rest with
      | [] => [⟨[a], []⟩]
      | l :: ls => ⟨a :: l.content, l.ending⟩ :: ls := by
  rw [linesOf.eq_def]
  simp [h]

theorem linesOf_break (key : α → CodePoint) (a : α) (rest : List α) (h : isLineBreak (key a) = true)
    (hcr : ∀ b bs, rest = b :: bs → ¬(key a = carriageReturn ∧ key b = lineFeed)) :
    linesOf key (a :: rest) = ⟨[], [a]⟩ :: linesOf key rest := by
  rw [linesOf.eq_def]
  cases rest with
  | nil => simp [h]
  | cons b bs => simp only [h, if_true, if_neg (hcr b bs rfl)]

theorem linesOf_crlf (key : α → CodePoint) (a b : α) (rest : List α) (ha : key a = carriageReturn)
    (hb : key b = lineFeed) : linesOf key (a :: b :: rest) = ⟨[], [a, b]⟩ :: linesOf key rest := by
  have h : isLineBreak (key a) = true := by rw [ha]; decide
  rw [linesOf.eq_def]
  simp only [h, if_true, if_pos (And.intro ha hb)]

/-- Case analysis and induction along the split. -/
theorem linesOf_induction (key : α → CodePoint) {motive : List α → Prop} (nil : motive [])
    (content : ∀ a rest, isLineBreak (key a) = false → motive rest → motive (a :: rest))
    (crlf : ∀ a b rest, key a = carriageReturn → key b = lineFeed → motive rest →
      motive (a :: b :: rest))
    (ending : ∀ a rest, isLineBreak (key a) = true →
      (∀ b bs, rest = b :: bs → ¬(key a = carriageReturn ∧ key b = lineFeed)) →
      motive rest → motive (a :: rest)) : ∀ xs, motive xs := by
  intro xs
  induction h : xs.length using Nat.strong_induction_on generalizing xs with
  | _ n ih =>
    cases xs with
    | nil => exact nil
    | cons a rest =>
      have hrest := ih rest.length (by simp at h; omega) rest rfl
      by_cases hb : isLineBreak (key a) = true
      · by_cases hcr : ∃ b bs, rest = b :: bs ∧ key a = carriageReturn ∧ key b = lineFeed
        · obtain ⟨b, bs, rfl, ha, hb'⟩ := hcr
          exact crlf a b bs ha hb' (ih bs.length (by simp at h; omega) bs rfl)
        · exact ending a rest hb (fun b bs he hk => hcr ⟨b, bs, he, hk⟩) hrest
      · exact content a rest (by simpa using hb) hrest

/-- The lines with their endings are the text again. -/
theorem flatMap_linesOf (key : α → CodePoint) (xs : List α) :
    (linesOf key xs).flatMap Line.items = xs := by
  induction xs using linesOf_induction key with
  | nil => simp
  | content a rest ha ih =>
    rw [linesOf_content key a rest ha]
    cases hl : linesOf key rest with
    | nil => simp [hl] at ih; simp [Line.items, ih]
    | cons l ls => simp [hl, Line.items] at ih; simp [Line.items, ih]
  | crlf a b rest ha hb ih =>
    rw [linesOf_crlf key a b rest ha hb]
    simp [Line.items, ih]
  | ending a rest ha hcr ih =>
    rw [linesOf_break key a rest ha hcr]
    simp [Line.items, ih]

/-- The split depends on the code points only. -/
theorem linesOf_map (f : α → β) (key : β → CodePoint) (xs : List α) :
    linesOf key (xs.map f) = (linesOf (key ∘ f) xs).map (Line.map f) := by
  induction xs using linesOf_induction (key ∘ f) with
  | nil => simp
  | content a rest ha ih =>
    rw [linesOf_content (key ∘ f) a rest ha, List.map_cons, linesOf_content key (f a) _ ha, ih]
    cases linesOf (key ∘ f) rest <;> simp [Line.map]
  | crlf a b rest ha hb ih =>
    rw [linesOf_crlf (key ∘ f) a b rest ha hb, List.map_cons, List.map_cons,
      linesOf_crlf key (f a) (f b) _ ha hb, ih]
    simp [Line.map]
  | ending a rest ha hcr ih =>
    rw [linesOf_break (key ∘ f) a rest ha hcr, List.map_cons, linesOf_break key (f a) _ ha, ih]
    · simp [Line.map]
    · intro b bs he
      cases rest with
      | nil => simp at he
      | cons c cs =>
        obtain ⟨rfl, -⟩ := List.cons.inj he
        exact hcr c cs rfl

/-- The content of a line holds no line break. -/
theorem linesOf_content_noBreak (key : α → CodePoint) (xs : List α) :
    ∀ l ∈ linesOf key xs, ∀ a ∈ l.content, isLineBreak (key a) = false := by
  induction xs using linesOf_induction key with
  | nil => simp
  | content a rest ha ih =>
    rw [linesOf_content key a rest ha]
    cases hl : linesOf key rest with
    | nil => simpa using ha
    | cons l ls =>
      rw [hl] at ih
      intro m hm b hb
      rcases List.mem_cons.mp hm with rfl | hm
      · rcases List.mem_cons.mp hb with rfl | hb
        · exact ha
        · exact ih l (by simp) b hb
      · exact ih m (by simp [hm]) b hb
  | crlf a b rest ha hb ih =>
    rw [linesOf_crlf key a b rest ha hb]
    simpa using ih
  | ending a rest ha hcr ih =>
    rw [linesOf_break key a rest ha hcr]
    simpa using ih

/-- A line break is one breaking code point, or CR LF. -/
def IsEnding (key : α → CodePoint) (e : List α) : Prop :=
  (∃ a, e = [a] ∧ isLineBreak (key a) = true) ∨
    ∃ a b, e = [a, b] ∧ key a = carriageReturn ∧ key b = lineFeed

/-- Every line but the last is ended by a break; the last one may be unended. -/
def Ended (key : α → CodePoint) : List (Line α) → Prop
  | [] => True
  | [l] => l.ending = [] ∧ l.content ≠ [] ∨ IsEnding key l.ending
  | l :: ls => IsEnding key l.ending ∧ Ended key ls

theorem Ended.cons {key : α → CodePoint} {l : Line α} {ls : List (Line α)} (h : IsEnding key l.ending)
    (hs : Ended key ls) : Ended key (l :: ls) := by
  cases ls with
  | nil => exact Or.inr h
  | cons m ms => exact ⟨h, hs⟩

theorem Ended.drop {key : α → CodePoint} {ls : List (Line α)} (h : Ended key ls) (n : ℕ) : Ended key (ls.drop n) := by
  induction n generalizing ls with
  | zero => exact h
  | succ n ih =>
    match ls, h with
    | [], _ => exact trivial
    | [_], _ =>
      rw [List.drop_succ_cons, List.drop_nil]
      exact trivial
    | _ :: _ :: _, h => exact ih h.2

theorem Ended.take {key : α → CodePoint} {ls : List (Line α)} (h : Ended key ls) (n : ℕ) : Ended key (ls.take n) := by
  induction n generalizing ls with
  | zero => exact trivial
  | succ n ih =>
    match ls, h with
    | [], _ => exact trivial
    | [l], h =>
      rw [List.take_succ_cons, List.take_nil]
      exact h
    | _ :: _ :: _, h => exact .cons h.1 (ih h.2)

theorem isLineBreak_of_isEnding {key : α → CodePoint} {e : List α} (h : IsEnding key e) : ∀ a ∈ e, isLineBreak (key a) = true := by
  obtain ⟨a, rfl, ha⟩ | ⟨a, b, rfl, ha, hb⟩ := h
  · exact List.forall_mem_singleton.mpr ha
  · refine List.forall_mem_cons.mpr ⟨?_, List.forall_mem_singleton.mpr ?_⟩
    · rw [ha]
      decide
    · rw [hb]
      decide

theorem isLineBreak_of_ended {key : α → CodePoint} {ls : List (Line α)} (h : Ended key ls) :
    ∀ l ∈ ls, ∀ a ∈ l.ending, isLineBreak (key a) = true := by
  induction ls with
  | nil => exact List.forall_mem_nil _
  | cons l ls ih =>
    cases ls with
    | nil =>
      refine List.forall_mem_singleton.mpr ?_
      cases h with
      | inl hnone =>
        rw [hnone.1]
        exact List.forall_mem_nil _
      | inr hending => exact isLineBreak_of_isEnding hending
    | cons m ms => exact List.forall_mem_cons.mpr ⟨isLineBreak_of_isEnding h.1, ih h.2⟩

theorem linesOf_ended (key : α → CodePoint) (xs : List α) : Ended key (linesOf key xs) := by
  induction xs using linesOf_induction key with
  | nil => simp [Ended]
  | content a rest ha ih =>
    rw [linesOf_content key a rest ha]
    cases hl : linesOf key rest with
    | nil => exact Or.inl ⟨rfl, by simp⟩
    | cons l ls =>
      rw [hl] at ih
      cases ls with
      | nil =>
        rcases ih with ⟨h, -⟩ | h
        · exact Or.inl ⟨h, by simp⟩
        · exact Or.inr h
      | cons m ms => exact ⟨ih.1, ih.2⟩
  | crlf a b rest ha hb ih =>
    rw [linesOf_crlf key a b rest ha hb]
    exact .cons (Or.inr ⟨a, b, rfl, ha, hb⟩) ih
  | ending a rest ha hcr ih =>
    rw [linesOf_break key a rest ha hcr]
    exact .cons (Or.inl ⟨a, rfl, ha⟩) ih

end WebOauthMcp.LineSplitting
