import Mathlib.Data.List.Basic

/-!
# Finding and replacing in a list

A scan divides a list into what was matched and what stands between the matches. Nothing
is lost by it, and a replacement only changes the matched parts.
-/

namespace WebOauthMcp.TextScans

variable {α : Type}

/-- One match, and what stands between it and the next one. -/
structure Found (α : Type) where
  matched : List α
  groups : List (Option (List α)) := []
  kept : List α

structure Scan (α : Type) where
  head : List α
  found : List (Found α)

/-- What was scanned. -/
def Scan.text (s : Scan α) : List α := s.head ++ s.found.flatMap fun m => m.matched ++ m.kept

/-- Every match replaced by its expansion. -/
def Scan.rewrite (s : Scan α) (expand : Found α → List α) : List α :=
  s.head ++ s.found.flatMap fun m => expand m ++ m.kept

/-- The first matches only. -/
def limitFound : ℕ → List α → List (Found α) → Scan α
  | 0, head, found => ⟨(Scan.mk head found).text, []⟩
  | _ + 1, head, [] => ⟨head, []⟩
  | k + 1, head, m :: ms =>
    ⟨head, { m with kept := (limitFound k m.kept ms).head } :: (limitFound k m.kept ms).found⟩

def Scan.limit (k : ℕ) (s : Scan α) : Scan α := limitFound k s.head s.found

theorem limitFound_text (k : ℕ) (head : List α) (found : List (Found α)) :
    (limitFound k head found).text = (Scan.mk head found).text := by
  induction k generalizing head found with
  | zero => simp [limitFound, Scan.text]
  | succ k ih =>
    cases found with
    | nil => rfl
    | cons m ms =>
      have hrest := ih m.kept ms
      simp only [Scan.text] at hrest
      simp [limitFound, Scan.text, hrest]

@[simp] theorem Scan.limit_text (k : ℕ) (s : Scan α) : (s.limit k).text = s.text := limitFound_text k s.head s.found

theorem limitFound_length (k : ℕ) (head : List α) (found : List (Found α)) :
    (limitFound k head found).found.length = min k found.length := by
  induction k generalizing head found with
  | zero => simp [limitFound]
  | succ k ih =>
    cases found with
    | nil => rfl
    | cons m ms => simp [limitFound, ih, Nat.add_min_add_right]

@[simp] theorem Scan.limit_length (k : ℕ) (s : Scan α) : (s.limit k).found.length = min k s.found.length :=
  limitFound_length k s.head s.found

theorem limitFound_of_length_le {k : ℕ} (head : List α) {found : List (Found α)} (h : found.length ≤ k) :
    limitFound k head found = ⟨head, found⟩ := by
  induction k generalizing head found with
  | zero =>
    obtain rfl := List.length_eq_zero_iff.mp (Nat.le_zero.mp h)
    simp [limitFound, Scan.text]
  | succ k ih =>
    cases found with
    | nil => rfl
    | cons m ms => rw [limitFound, ih m.kept (by simpa using h)]

/-- A limit that is not reached changes nothing. -/
theorem Scan.limit_of_length_le {k : ℕ} {s : Scan α} (h : s.found.length ≤ k) : s.limit k = s :=
  limitFound_of_length_le s.head h

theorem Scan.limit_min_length (k : ℕ) (s : Scan α) : s.limit (min s.found.length k) = s.limit k := by
  cases Nat.le_total s.found.length k with
  | inl hle => rw [Nat.min_eq_left hle, Scan.limit_of_length_le (Nat.le_refl _), Scan.limit_of_length_le hle]
  | inr hle => rw [Nat.min_eq_right hle]

/-- The scan without the groups of its matches. -/
def Scan.plain (s : Scan α) : Scan α := ⟨s.head, s.found.map fun m => ⟨m.matched, [], m.kept⟩⟩

theorem Scan.plain_length (s : Scan α) : s.plain.found.length = s.found.length := List.length_map _

/-- Where every match is replaced by the same text, the groups do not matter. -/
theorem Scan.rewrite_plain (s : Scan α) (r : List α) : (s.plain.rewrite fun _ => r) = s.rewrite fun _ => r := by
  simp [Scan.rewrite, Scan.plain, List.flatMap_map]

theorem limitFound_plain (k : ℕ) (head : List α) (found : List (Found α)) :
    (limitFound k head found).plain = limitFound k head (Scan.mk head found).plain.found := by
  induction k generalizing head found with
  | zero => simp [limitFound, Scan.plain, Scan.text, List.flatMap_map]
  | succ k ih =>
    cases found with
    | nil => rfl
    | cons m ms =>
      have hrest := ih m.kept ms
      simp only [Scan.plain] at hrest
      simp [limitFound, Scan.plain, ← hrest]

theorem Scan.limit_plain (k : ℕ) (s : Scan α) : (s.limit k).plain = s.plain.limit k := limitFound_plain k s.head s.found

theorem Scan.rewrite_of_found_nil {s : Scan α} (h : s.found = []) (expand : Found α → List α) :
    s.rewrite expand = s.text := by simp [Scan.rewrite, Scan.text, h]

/-- The parts of a rewritten text, in order. -/
def Scan.pieces (s : Scan α) (expand : Found α → List α) : List (List α) :=
  s.head :: s.found.flatMap fun m => [expand m, m.kept]

theorem Scan.flatten_pieces (s : Scan α) (expand : Found α → List α) : (s.pieces expand).flatten = s.rewrite expand := by
  have hall : ∀ found : List (Found α), (found.flatMap fun m => [expand m, m.kept]).flatten =
      found.flatMap fun m => expand m ++ m.kept := by
    intro found
    induction found with
    | nil => rfl
    | cons m ms ih => simp [ih]
  simp [Scan.pieces, Scan.rewrite, hall]

theorem Scan.mem_rewrite_iff (s : Scan α) (expand : Found α → List α) (x : α) :
    x ∈ s.rewrite expand ↔ x ∈ s.head ∨ ∃ m ∈ s.found, x ∈ expand m ∨ x ∈ m.kept := by
  simp [Scan.rewrite]

theorem Scan.kept_subset {s : Scan α} {m : Found α} (hm : m ∈ s.found) {x : α} (hx : x ∈ m.kept) : x ∈ s.text :=
  List.mem_append_right _ (List.mem_flatMap.mpr ⟨m, hm, List.mem_append_right _ hx⟩)

/-! ## Literal patterns -/

def consHead (x : α) : List (List α) → List (List α)
  | [] => [[x]]
  | q :: qs => (x :: q) :: qs

def scanParts (p : List α) : List (List α) → Scan α
  | [] => ⟨[], []⟩
  | q :: qs => ⟨q, qs.map fun k => { matched := p, kept := k }⟩

theorem scanParts_cons (p : List α) {x : α} {qs : List (List α)} (h : qs ≠ []) :
    scanParts p (consHead x qs) = ⟨x :: (scanParts p qs).head, (scanParts p qs).found⟩ := by
  cases qs with
  | nil => exact absurd rfl h
  | cons q qs => rfl

theorem scanParts_match (p : List α) {qs : List (List α)} (h : qs ≠ []) :
    scanParts p ([] :: qs) = ⟨[], ⟨p, [], (scanParts p qs).head⟩ :: (scanParts p qs).found⟩ := by
  cases qs with
  | nil => exact absurd rfl h
  | cons q qs => rfl

section
variable [DecidableEq α]

/-- What stands around the occurrences of a pattern, read from left to right. After an
occurrence the rest of the pattern is skipped. -/
def splitAround (p : List α) : ℕ → List α → List (List α)
  | _, [] => [[]]
  | skip + 1, _ :: t => splitAround p skip t
  | 0, x :: t =>
    if p.isPrefixOf (x :: t) then [] :: splitAround p (p.length - 1) t else consHead x (splitAround p 0 t)

/-- The occurrences of a literal pattern. -/
def scanLiteral (p t : List α) : Scan α := scanParts p (splitAround p 0 t)

/-- `text.count(p)`. -/
def strCount (p t : List α) : ℕ := (scanLiteral p t).found.length

/-- `text.replace(p, r)`. -/
def strReplace (p r t : List α) : List α := (scanLiteral p t).rewrite fun _ => r

theorem splitAround_ne_nil (p : List α) (skip : ℕ) (t : List α) : splitAround p skip t ≠ [] := by
  induction t generalizing skip with
  | nil => simp [splitAround]
  | cons x t ih =>
    cases skip with
    | succ skip => exact ih skip
    | zero =>
      rw [splitAround]
      split_ifs
      · simp
      · cases splitAround p 0 t <;> simp [consHead]

theorem splitAround_drop (p : List α) (skip : ℕ) (t : List α) : splitAround p skip t = splitAround p 0 (t.drop skip) := by
  induction t generalizing skip with
  | nil => simp [splitAround]
  | cons x t ih =>
    cases skip with
    | zero => rfl
    | succ skip => exact ih skip

theorem splitAround_match {p : List α} {x : α} {t : List α} (hp : p ≠ []) (h : p <+: x :: t) :
    splitAround p 0 (x :: t) = [] :: splitAround p 0 ((x :: t).drop p.length) := by
  rw [splitAround, if_pos (List.isPrefixOf_iff_prefix.mpr h), splitAround_drop]
  obtain ⟨n, hn⟩ := Nat.exists_eq_succ_of_ne_zero (List.length_eq_zero_iff.not.mpr hp)
  rw [hn]
  rfl

theorem splitAround_other {p : List α} {x : α} {t : List α} (h : ¬p <+: x :: t) :
    splitAround p 0 (x :: t) = consHead x (splitAround p 0 t) := by
  rw [splitAround, if_neg (List.isPrefixOf_iff_prefix.not.mpr h)]

section
variable {p : List α} {x : α} {t : List α}

theorem scanLiteral_other (h : ¬p <+: x :: t) :
    scanLiteral p (x :: t) = ⟨x :: (scanLiteral p t).head, (scanLiteral p t).found⟩ := by
  rw [scanLiteral, splitAround_other h, scanParts_cons p (splitAround_ne_nil p 0 t)]
  rfl

theorem scanLiteral_match (hp : p ≠ []) (h : p <+: x :: t) :
    scanLiteral p (x :: t) = ⟨[], ⟨p, [], (scanLiteral p ((x :: t).drop p.length)).head⟩ ::
      (scanLiteral p ((x :: t).drop p.length)).found⟩ := by
  rw [scanLiteral, splitAround_match hp h, scanParts_match p (splitAround_ne_nil p 0 _)]
  rfl

theorem strCount_other (h : ¬p <+: x :: t) : strCount p (x :: t) = strCount p t := by
  rw [strCount, scanLiteral_other h]
  rfl

theorem strCount_match (hp : p ≠ []) (h : p <+: x :: t) :
    strCount p (x :: t) = strCount p ((x :: t).drop p.length) + 1 := by
  rw [strCount, scanLiteral_match hp h]
  rfl

theorem strReplace_other (r : List α) (h : ¬p <+: x :: t) : strReplace p r (x :: t) = x :: strReplace p r t := by
  rw [strReplace, scanLiteral_other h]
  rfl

theorem strReplace_match (r : List α) (hp : p ≠ []) (h : p <+: x :: t) :
    strReplace p r (x :: t) = r ++ strReplace p r ((x :: t).drop p.length) := by
  rw [strReplace, scanLiteral_match hp h]
  simp [Scan.rewrite, strReplace]

end

@[simp] theorem strReplace_nil (p r : List α) : strReplace p r [] = [] := rfl

@[simp] theorem strCount_nil (p : List α) : strCount p [] = 0 := rfl

/-- A literal scan loses nothing. -/
theorem scanLiteral_text {p : List α} (hp : p ≠ []) (t : List α) : (scanLiteral p t).text = t := by
  induction h : t.length using Nat.strongRecOn generalizing t with
  | ind n ih =>
    cases t with
    | nil => rfl
    | cons x t =>
      simp only [List.length_cons] at h
      by_cases hpre : p <+: x :: t
      · have hpos : 0 < p.length := List.length_pos_iff.mpr hp
        have hrest := ih ((x :: t).drop p.length).length (by simp; omega) _ rfl
        obtain ⟨u, hu⟩ := hpre
        rw [scanLiteral_match hp ⟨u, hu⟩]
        simp only [Scan.text] at hrest
        simp only [Scan.text, List.flatMap_cons, List.nil_append, List.append_assoc, hrest]
        rw [← hu, List.drop_left]
      · have hrest := ih t.length (by omega) t rfl
        rw [scanLiteral_other hpre]
        simp only [Scan.text] at hrest
        simp only [Scan.text, List.cons_append, hrest]

/-- The matches, from the front, are the leftmost occurrences of `p` that do not overlap:
before a match and before the end no occurrence starts. -/
inductive Leftmost (p : List α) : List α → List (Found α) → Prop
  | done {head : List α} : (∀ i, ¬p <+: head.drop i) → Leftmost p head []
  | found {head : List α} {m : Found α} {ms : List (Found α)} : m.matched = p →
      (∀ i < head.length, ¬p <+: (head ++ (p ++ (Scan.mk m.kept ms).text)).drop i) →
      Leftmost p m.kept ms → Leftmost p head (m :: ms)

theorem scanLiteral_absent {p t : List α} (h : ∀ i, ¬p <+: t.drop i) : scanLiteral p t = ⟨t, []⟩ := by
  induction t with
  | nil => rfl
  | cons x t ih => rw [scanLiteral_other (h 0), ih fun i => h (i + 1)]

theorem scanLiteral_first {p : List α} (hp : p ≠ []) {head rest : List α}
    (h : ∀ i < head.length, ¬p <+: (head ++ (p ++ rest)).drop i) :
    scanLiteral p (head ++ (p ++ rest)) = ⟨head, ⟨p, [], (scanLiteral p rest).head⟩ :: (scanLiteral p rest).found⟩ := by
  induction head with
  | nil =>
    obtain ⟨x, q, rfl⟩ := List.exists_cons_of_ne_nil hp
    have hpre : x :: q <+: x :: (q ++ rest) := List.prefix_append (x :: q) rest
    rw [List.nil_append, List.cons_append, scanLiteral_match hp hpre]
    simp
  | cons x head ih =>
    have hrest := ih fun i hi => h (i + 1) (by simpa using hi)
    have hpre : ¬p <+: x :: (head ++ (p ++ rest)) := h 0 (by simp)
    rw [List.cons_append, scanLiteral_other hpre, hrest]

/-- Leftmost occurrences are found in one way only. -/
theorem scanLiteral_of_leftmost {p : List α} (hp : p ≠ []) {s : Scan α} (h : Leftmost p s.head s.found) :
    scanLiteral p s.text = s.plain := by
  obtain ⟨head, found⟩ := s
  dsimp only at h
  induction h with
  | done habsent => simpa [Scan.text, Scan.plain] using scanLiteral_absent habsent
  | @found head m ms hm hbefore _ ih =>
    have htext : (Scan.mk head (m :: ms)).text = head ++ (p ++ (Scan.mk m.kept ms).text) := by
      simp [Scan.text, hm]
    rw [htext, scanLiteral_first hp hbefore, ih]
    simp [Scan.plain, hm]

theorem leftmost_scanLiteral {p : List α} (hp : p ≠ []) (t : List α) :
    Leftmost p (scanLiteral p t).head (scanLiteral p t).found := by
  induction h : t.length using Nat.strongRecOn generalizing t with
  | ind n ih =>
    cases t with
    | nil =>
      refine .done fun i hi => hp ?_
      simpa [scanLiteral, splitAround, scanParts] using hi
    | cons x t =>
      simp only [List.length_cons] at h
      by_cases hpre : p <+: x :: t
      · have hpos : 0 < p.length := List.length_pos_iff.mpr hp
        rw [scanLiteral_match hp hpre]
        exact .found rfl (fun i hi => absurd hi (Nat.not_lt_zero i)) (ih _ (by simp; omega) _ rfl)
      · have hrest := ih t.length (by omega) t rfl
        have htext := scanLiteral_text hp t
        rw [scanLiteral_other hpre]
        revert hrest htext
        generalize scanLiteral p t = s
        obtain ⟨head, found⟩ := s
        dsimp only
        intro hrest htext
        cases hrest with
        | done habsent =>
          rw [Scan.text, List.flatMap_nil, List.append_nil] at htext
          subst htext
          refine .done fun i => ?_
          cases i with
          | zero => exact hpre
          | succ i => exact habsent i
        | @found _ m ms hm hbefore hms =>
          have htext' : head ++ (p ++ (Scan.mk m.kept ms).text) = t := by
            rw [← htext]
            simp [Scan.text, hm]
          refine .found hm (fun i hi => ?_) hms
          rw [List.cons_append, htext']
          cases i with
          | zero => exact hpre
          | succ i =>
            rw [List.drop_succ_cons, ← htext']
            exact hbefore i (by simpa using hi)

/-- Replacing a single item. -/
theorem strReplace_singleton (c : α) (r t : List α) :
    strReplace [c] r t = t.flatMap fun x => if x = c then r else [x] := by
  induction t with
  | nil => rfl
  | cons x t ih =>
    by_cases hx : x = c
    · subst hx
      rw [strReplace_match r (by simp) (by simp), List.flatMap_cons, if_pos rfl]
      simpa using ih
    · rw [strReplace_other r (by simpa [eq_comm] using hx), List.flatMap_cons, if_neg hx, ih]
      rfl

/-! ## Splitting what was joined -/

/-- `text.split(p)`. -/
def strSplit (p t : List α) : List (List α) := splitAround p 0 t

/-- No end of the pattern is a front of it, so that its occurrences do not overlap. -/
def Unbordered (p : List α) : Prop := ∀ q, q <+: p → q <:+ p → q = [] ∨ q = p

omit [DecidableEq α] in
theorem unbordered_singleton (x : α) : Unbordered [x] := by
  intro q hq _
  obtain ⟨r, hr⟩ := hq
  cases q with
  | nil => exact .inl rfl
  | cons y q =>
    obtain ⟨rfl, htail⟩ := List.cons.inj hr
    exact .inr (by rw [(List.append_eq_nil_iff.mp htail).1])

theorem strSplit_absent {p s : List α} (hs : ¬p <:+: s) : strSplit p s = [s] := by
  induction s with
  | nil => rfl
  | cons x s ih =>
    have hfront : ¬p <+: x :: s := fun h => hs h.isInfix
    have hrest : ¬p <:+: s := fun h => hs (h.trans (List.suffix_cons x s).isInfix)
    rw [strSplit, splitAround_other hfront, ← strSplit, ih hrest]
    rfl

omit [DecidableEq α] in
/-- In front of an occurrence nothing straddles its start. -/
theorem not_prefix_front {p s rest : List α} (hunbordered : Unbordered p) (hne : s ≠ []) (hs : ¬p <:+: s) :
    ¬p <+: s ++ (p ++ rest) := by
  intro h
  cases Nat.le_total p.length s.length with
  | inl hle => exact hs (List.prefix_of_prefix_length_le h (List.prefix_append s _) hle).isInfix
  | inr hle =>
    obtain ⟨q, rfl⟩ := List.prefix_of_prefix_length_le (List.prefix_append s _) h hle
    obtain ⟨tail, htail⟩ := h
    rw [List.append_assoc, List.append_cancel_left_eq] at htail
    have hlength : q.length ≤ (s ++ q).length := (List.suffix_append s q).length_le
    have hq : q <+: s ++ q := List.prefix_of_prefix_length_le ⟨tail, htail⟩ (List.prefix_append (s ++ q) rest) hlength
    cases hunbordered q hq (List.suffix_append s q) with
    | inl hnil =>
      subst hnil
      exact hs (by simp)
    | inr heq => exact hne (List.append_left_eq_self.mp heq.symm)

theorem strSplit_front {p s : List α} (hp : p ≠ []) (hunbordered : Unbordered p) (hs : ¬p <:+: s) (rest : List α) :
    strSplit p (s ++ (p ++ rest)) = s :: strSplit p rest := by
  induction s with
  | nil =>
    obtain ⟨x, t, hx⟩ := List.exists_cons_of_ne_nil hp
    have hmatch : p <+: x :: (t ++ rest) := by
      rw [hx]
      exact List.prefix_append (x :: t) rest
    have heq : [] ++ (p ++ rest) = x :: (t ++ rest) := by rw [hx]; rfl
    rw [heq, strSplit, splitAround_match hp hmatch, ← heq, List.nil_append, List.drop_left, strSplit]
  | cons x s ih =>
    have hrest : ¬p <:+: s := fun h => hs (h.trans (List.suffix_cons x s).isInfix)
    have hother : ¬p <+: (x :: s) ++ (p ++ rest) := not_prefix_front hunbordered (List.cons_ne_nil x s) hs
    rw [List.cons_append] at hother ⊢
    rw [strSplit, splitAround_other hother, ← strSplit, ih hrest]
    rfl

/-- What was joined is split again. -/
theorem strSplit_intercalate {p : List α} (hp : p ≠ []) (hunbordered : Unbordered p) {pieces : List (List α)} (hne : pieces ≠ [])
    (h : ∀ s ∈ pieces, ¬p <:+: s) : strSplit p (List.intercalate p pieces) = pieces := by
  induction pieces with
  | nil => exact absurd rfl hne
  | cons s pieces ih =>
    rw [List.forall_mem_cons] at h
    cases pieces with
    | nil => rw [List.intercalate_singleton, strSplit_absent h.1]
    | cons t pieces =>
      rw [List.intercalate_cons_cons, List.append_assoc, strSplit_front hp hunbordered h.1, ih (List.cons_ne_nil t pieces) h.2]

end

end WebOauthMcp.TextScans
