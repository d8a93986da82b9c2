import Mathlib.Data.List.Chain
import Mathlib.Order.Fin.Basic
import WebOauthMcp.ContentIo

/-!
# Texts that keep one newline convention

A text fits a style when it has line breaks of that style only, or none. For CRLF this
says that carriage returns and line feeds come in pairs, which two neighbouring
characters decide.
-/

namespace WebOauthMcp.NewlineConvention
open CodePoints LineSplitting TextScans ContentIo

/-- The text has no line break of another style. -/
def Fits (s : NewlineStyle) (t : Text) : Prop := newlineStyle t = s ∨ newlineStyle t = .none

/-- Two neighbours are a pair, or neither is half of one. -/
def Joined (a b : CodePoint) : Prop := a = carriageReturn ↔ b = lineFeed

/-- Carriage returns and line feeds only come in pairs. The text is read between two
characters that are no line breaks. -/
def Paired (t : Text) : Prop := List.IsChain Joined (0 :: (t ++ [0]))

theorem pairs_induction {motive : Text → Prop} (nil : motive [])
    (pair : ∀ t, motive t → motive (carriageReturn :: lineFeed :: t))
    (other : ∀ c t, ¬crlfPair <+: c :: t → motive t → motive (c :: t)) (t : Text) : motive t := by
  induction h : t.length using Nat.strong_induction_on generalizing t with
  | _ n ih =>
    cases t with
    | nil => exact nil
    | cons c t =>
      simp only [List.length_cons] at h
      by_cases hpair : crlfPair <+: c :: t
      · obtain ⟨u, hu⟩ := hpair
        rw [← hu]
        refine pair u (ih u.length ?_ u rfl)
        have hlen := congrArg List.length hu
        simp only [crlfPair, List.length_append, List.length_cons, List.length_nil] at hlen
        omega
      · exact other c t hpair (ih t.length (by omega) t rfl)

/-- What is left of a text without its pairs. -/
def unpaired (t : Text) : Text := strReplace crlfPair [] t

theorem unpaired_pair (t : Text) : unpaired (carriageReturn :: lineFeed :: t) = unpaired t := by
  rw [unpaired, strReplace_match [] (by decide) ⟨t, rfl⟩]
  rfl

theorem unpaired_other {c : CodePoint} {t : Text} (h : ¬crlfPair <+: c :: t) : unpaired (c :: t) = c :: unpaired t :=
  strReplace_other [] h

theorem strCount_pair (t : Text) : strCount crlfPair (carriageReturn :: lineFeed :: t) = strCount crlfPair t + 1 := by
  rw [strCount_match (by decide) ⟨t, rfl⟩]
  rfl

/-- A half of a pair is in a pair or left over. -/
theorem mem_iff_unpaired {c : CodePoint} (hc : c ∈ crlfPair) (t : Text) :
    c ∈ t ↔ strCount crlfPair t ≠ 0 ∨ c ∈ unpaired t := by
  induction t using pairs_induction with
  | nil => simp [unpaired]
  | pair t ih =>
    rw [strCount_pair]
    refine iff_of_true ?_ (Or.inl (by omega))
    exact List.mem_append_left t hc
  | other d t hd ih =>
    rw [strCount_other hd, unpaired_other hd, List.mem_cons, List.mem_cons, ih]
    exact or_left_comm

theorem paired_iff_unpaired (t : Text) : Paired t ↔ carriageReturn ∉ unpaired t ∧ lineFeed ∉ unpaired t := by
  have hne : carriageReturn ≠ lineFeed := by decide
  suffices h : ∀ x, x ≠ carriageReturn → (List.IsChain Joined (x :: (t ++ [0])) ↔
      carriageReturn ∉ unpaired t ∧ lineFeed ∉ unpaired t) from h 0 (by decide)
  induction t using pairs_induction with
  | nil =>
    intro x hx
    refine iff_of_true ?_ ⟨by simp [unpaired], by simp [unpaired]⟩
    have hjoined : Joined x 0 := iff_of_false hx (by decide)
    simpa using hjoined
  | pair t ih =>
    intro x hx
    have hfirst : Joined x carriageReturn := iff_of_false hx hne
    have hsecond : Joined carriageReturn lineFeed := iff_of_true rfl rfl
    rw [unpaired_pair, ← ih lineFeed hne.symm]
    simp [hfirst, hsecond]
  | other c t hc ih =>
    intro x hx
    rw [unpaired_other hc]
    by_cases hcr : c = carriageReturn
    · subst hcr
      refine iff_of_false ?_ (by simp)
      intro hchain
      -- a carriage return must be followed by a line feed, and then it is a pair
      cases t with
      | nil =>
        have hjoined : Joined carriageReturn 0 := by simpa using (List.isChain_cons_cons.mp hchain).2
        exact absurd (hjoined.mp rfl) (by decide)
      | cons d t =>
        have hjoined : Joined carriageReturn d := (List.isChain_cons_cons.mp (List.isChain_cons_cons.mp hchain).2).1
        obtain rfl := hjoined.mp rfl
        exact hc ⟨t, rfl⟩
    · by_cases hlf : c = lineFeed
      · subst hlf
        refine iff_of_false ?_ (by simp)
        intro hchain
        have hjoined : Joined x lineFeed := (List.isChain_cons_cons.mp hchain).1
        exact hx (hjoined.mpr rfl)
      · have hjoined : Joined x c := iff_of_false hx hlf
        have hrest := ih c hcr
        rw [List.mem_cons, List.mem_cons, not_or, not_or, and_iff_right (Ne.symm hcr), and_iff_right (Ne.symm hlf),
          ← hrest, List.cons_append, List.isChain_cons_cons, and_iff_right hjoined]

/-! ## The styles, by the breaks that occur -/

theorem newlineStyle_eq (t : Text) : newlineStyle t =
    if strCount crlfPair t = 0 then
      if lineFeed ∈ unpaired t then if carriageReturn ∈ unpaired t then .mixed else .lf
      else if carriageReturn ∈ unpaired t then .cr else .none
    else if lineFeed ∈ unpaired t ∨ carriageReturn ∈ unpaired t then .mixed else .crlf := by
  have hcount : ∀ c, (unpaired t).count c ≠ 0 ↔ c ∈ unpaired t := fun c =>
    Nat.pos_iff_ne_zero.symm.trans List.count_pos_iff
  simp only [newlineStyle]
  rw [show strReplace crlfPair [] t = unpaired t from rfl]
  simp only [hcount]
  by_cases hpair : strCount crlfPair t = 0 <;> by_cases hlf : lineFeed ∈ unpaired t <;>
    by_cases hcr : carriageReturn ∈ unpaired t <;> simp [hpair, hlf, hcr]

theorem fits_lf_iff (t : Text) : Fits .lf t ↔ carriageReturn ∉ t := by
  rw [mem_iff_unpaired (by decide), Fits, newlineStyle_eq]
  split_ifs <;> simp_all

theorem fits_cr_iff (t : Text) : Fits .cr t ↔ lineFeed ∉ t := by
  rw [mem_iff_unpaired (by decide), Fits, newlineStyle_eq]
  split_ifs <;> simp_all

theorem fits_crlf_iff (t : Text) : Fits .crlf t ↔ Paired t := by
  rw [paired_iff_unpaired, and_comm, ← not_or, Fits, newlineStyle_eq]
  split_ifs <;> simp_all

/-! ## Normalized texts -/

theorem strReplace_singleton_notMem {c : CodePoint} {r : Text} (hr : c ∉ r) (t : Text) : c ∉ strReplace [c] r t := by
  rw [strReplace_singleton]
  intro h
  obtain ⟨x, -, hx⟩ := List.mem_flatMap.mp h
  split_ifs at hx with hxc
  · exact hr hx
  · exact hxc (List.mem_singleton.mp hx).symm

theorem paired_strReplace {t : Text} (ht : carriageReturn ∉ t) : Paired (strReplace [lineFeed] crlfPair t) := by
  rw [strReplace_singleton, Paired]
  suffices h : ∀ x, x ≠ carriageReturn → List.IsChain Joined
      (x :: ((t.flatMap fun c => if c = lineFeed then crlfPair else [c]) ++ [0])) from h 0 (by decide)
  induction t with
  | nil =>
    intro x hx
    have hjoined : Joined x 0 := iff_of_false hx (by decide)
    simpa using hjoined
  | cons c t ih =>
    rw [List.mem_cons, not_or] at ht
    intro x hx
    rw [List.flatMap_cons, List.append_assoc]
    split_ifs with hc
    · have hfirst : Joined x carriageReturn := iff_of_false hx (by decide)
      have hsecond : Joined carriageReturn lineFeed := iff_of_true rfl rfl
      have hrest := ih ht.2 lineFeed (by decide)
      simp only [crlfPair, List.cons_append, List.nil_append, List.isChain_cons_cons]
      exact ⟨hfirst, hsecond, hrest⟩
    · have hfirst : Joined x c := iff_of_false hx hc
      simp only [List.cons_append, List.nil_append, List.isChain_cons_cons]
      exact ⟨hfirst, ih ht.2 c (Ne.symm ht.1)⟩

/-- Normalizing to CRLF or CR fits that style. -/
theorem normalizeNewlines_fits {s : NewlineStyle} (hs : s = .crlf ∨ s = .cr) (t : Text) :
    Fits s (normalizeNewlines t s) := by
  have hfree : carriageReturn ∉ strReplace [carriageReturn] [lineFeed] (strReplace crlfPair [lineFeed] t) :=
    strReplace_singleton_notMem (by decide) _
  cases hs with
  | inl h =>
    subst h
    exact (fits_crlf_iff _).mpr (paired_strReplace hfree)
  | inr h =>
    subst h
    exact (fits_cr_iff _).mpr (strReplace_singleton_notMem (by decide) _)

/-! ## Rewriting a text that fits -/

/-- Two parts meet without splitting a pair or joining what is no pair. -/
def Meet (p q : Text) : Prop := ∀ a ∈ p.getLast?, ∀ b ∈ q.head?, Joined a b

/-- The parts of a text, with the ends of the text as parts of their own. -/
def framed (parts : List Text) : List Text := [0] :: (parts.filter fun p => !p.isEmpty) ++ [[0]]

theorem paired_flatten_iff (parts : List Text) :
    Paired parts.flatten ↔ (∀ p ∈ parts, List.IsChain Joined p) ∧ List.IsChain Meet (framed parts) := by
  have hne : [] ∉ framed parts := by simp [framed]
  have hflatten : (framed parts).flatten = 0 :: (parts.flatten ++ [0]) := by
    have hparts : (parts.filter fun p => !p.isEmpty).flatten = parts.flatten := List.flatten_filter_not_isEmpty
    simp [framed, hparts]
  rw [Paired, ← hflatten, List.isChain_flatten hne]
  refine and_congr_left fun _ => ?_
  constructor
  · intro h p hp
    by_cases hnil : p = []
    · subst hnil
      exact .nil
    · exact h p (by simp [framed, hp, hnil])
  · intro h p hp
    simp only [framed, List.mem_append, List.mem_cons, List.mem_filter, List.not_mem_nil, or_false] at hp
    rcases hp with (rfl | hp) | rfl
    · exact .singleton 0
    · exact h p hp.1
    · exact .singleton 0

/-- The expansions of a rewriting suit the style of the text they are put into: they hold
no other line break, and for CRLF nothing that is kept or put in meets a half of a pair
without the other half. -/
def StepFits (s : NewlineStyle) (scan : Scan CodePoint) (expand : Found CodePoint → Text) : Prop :=
  match s with
  | .lf => ∀ m ∈ scan.found, carriageReturn ∉ expand m
  | .cr => ∀ m ∈ scan.found, lineFeed ∉ expand m
  | .crlf => (∀ m ∈ scan.found, List.IsChain Joined (expand m)) ∧ List.IsChain Meet (framed (scan.pieces expand))
  | _ => True

/-- A text that fits is rewritten into one that fits exactly when the step suits it. -/
theorem rewrite_fits_iff {s : NewlineStyle} (hs : s = .lf ∨ s = .crlf ∨ s = .cr) {scan : Scan CodePoint}
    (h : Fits s scan.text) (expand : Found CodePoint → Text) :
    Fits s (scan.rewrite expand) ↔ StepFits s scan expand := by
  have hsingle : ∀ c, c ∉ scan.text → (c ∉ scan.rewrite expand ↔ ∀ m ∈ scan.found, c ∉ expand m) := by
    intro c hc
    have hhead : c ∉ scan.head := fun hin => hc (List.mem_append_left _ hin)
    rw [Scan.mem_rewrite_iff, not_or, and_iff_right hhead]
    constructor
    · intro hno m hm hin
      exact hno ⟨m, hm, Or.inl hin⟩
    · intro hno hin
      obtain ⟨m, hm, hin | hin⟩ := hin
      · exact hno m hm hin
      · exact hc (Scan.kept_subset hm hin)
  rcases hs with rfl | rfl | rfl
  · rw [fits_lf_iff] at h ⊢
    exact hsingle _ h
  · rw [fits_crlf_iff] at h ⊢
    have hpieces : ∀ f : Found CodePoint → Text, (∀ p ∈ scan.pieces f, List.IsChain Joined p) ↔
        List.IsChain Joined scan.head ∧ ∀ m ∈ scan.found, List.IsChain Joined (f m) ∧ List.IsChain Joined m.kept := by
      intro f
      simp only [Scan.pieces, List.forall_mem_cons, List.forall_mem_flatMap, List.not_mem_nil,
        false_implies, implies_true, and_true]
    have htext : (scan.pieces Found.matched).flatten = scan.text := Scan.flatten_pieces scan Found.matched
    rw [← htext, paired_flatten_iff, hpieces] at h
    rw [← Scan.flatten_pieces, paired_flatten_iff, hpieces, StepFits]
    refine and_congr_left fun _ => ?_
    constructor
    · intro hfit m hm
      exact (hfit.2 m hm).1
    · intro hfit
      exact ⟨h.1.1, fun m hm => ⟨hfit m hm, (h.1.2 m hm).2⟩⟩
  · rw [fits_cr_iff] at h ⊢
    exact hsingle _ h

end WebOauthMcp.NewlineConvention
