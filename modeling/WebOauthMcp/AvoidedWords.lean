import Mathlib.Data.List.Infix
import Mathlib.Data.Set.Basic

/-!
# Texts that avoid a set of words

A text avoids a set of words when none of them occurs in it as a contiguous piece. What
the words cannot contain separates: an occurrence never crosses such an item. What no
word starts with can be dropped from the front. A second recording of a text, in which
foreign stretches are transcribed by other foreign stretches, has the same occurrences.
-/

namespace WebOauthMcp.AvoidedWords

variable {α β γ : Type}

/-- No word of `W` occurs in `t`. -/
def Avoids (W : Set (List α)) (t : List α) : Prop := ∀ w ∈ W, ¬w <:+: t

variable {W : Set (List α)}

theorem Avoids.piece {s t : List α} (h : Avoids W t) (hs : s <:+: t) : Avoids W s :=
  fun w hw hi => h w hw (hi.trans hs)

theorem Avoids.left {s t : List α} (h : Avoids W (s ++ t)) : Avoids W s :=
  h.piece (List.infix_append' [] s t)

theorem Avoids.right {s t : List α} (h : Avoids W (s ++ t)) : Avoids W t :=
  h.piece (List.suffix_append s t).isInfix

theorem avoids_nil (hW : [] ∉ W) : Avoids W [] := by
  intro w hw hi
  rw [List.eq_nil_of_infix_nil hi] at hw
  exact hW hw

/-- An occurrence lies on one side of an item that the word does not contain. -/
theorem infix_append_cons_iff {w a b : List α} {c : α} (hc : c ∉ w) :
    w <:+: a ++ c :: b ↔ w <:+: a ∨ w <:+: b := by
  constructor
  · intro h
    obtain ⟨s, t, hst⟩ := h
    rw [List.append_assoc, List.append_eq_append_iff] at hst
    cases hst with
    | inl hst =>
      obtain ⟨u, rfl, hu⟩ := hst
      rw [List.append_eq_append_iff] at hu
      cases hu with
      | inl hu =>
        obtain ⟨v, rfl, -⟩ := hu
        exact Or.inl ⟨s, v, by rw [List.append_assoc]⟩
      | inr hu =>
        obtain ⟨v, rfl, hv⟩ := hu
        cases v with
        | nil => exact Or.inl ⟨s, [], by simp⟩
        | cons d v =>
          obtain ⟨rfl, -⟩ := List.cons.inj hv
          exact absurd (by simp) hc
    | inr hst =>
      obtain ⟨u, rfl, hu⟩ := hst
      cases u with
      | nil =>
        cases w with
        | nil => exact Or.inl List.nil_infix
        | cons d w =>
          obtain ⟨rfl, -⟩ := List.cons.inj hu
          exact absurd (by simp) hc
      | cons d u =>
        refine Or.inr ⟨u, t, ?_⟩
        rw [List.append_assoc]
        exact (List.cons.inj hu).2.symm
  · intro h
    cases h with
    | inl h => exact h.trans (List.infix_append' [] a (c :: b))
    | inr h => exact h.trans ((List.suffix_cons c b).trans (List.suffix_append a (c :: b))).isInfix

/-- An item no word contains. -/
def Separates (W : Set (List α)) (c : α) : Prop := ∀ w ∈ W, c ∉ w

theorem avoids_append_cons_iff {a b : List α} {c : α} (hc : Separates W c) :
    Avoids W (a ++ c :: b) ↔ Avoids W a ∧ Avoids W b := by
  constructor
  · intro h
    refine ⟨h.left, h.piece ?_⟩
    exact ((List.suffix_cons c b).trans (List.suffix_append a (c :: b))).isInfix
  · intro h w hw hi
    cases (infix_append_cons_iff (hc w hw)).mp hi with
    | inl hi => exact h.1 w hw hi
    | inr hi => exact h.2 w hw hi

/-- An occurrence starts at the front or lies behind it. -/
theorem avoids_cons_iff_isPrefix {c : α} {t : List α} :
    Avoids W (c :: t) ↔ (∀ w ∈ W, ¬w <+: c :: t) ∧ Avoids W t := by
  simp only [Avoids, List.infix_cons_iff, not_or, forall_and]

/-- An item no word starts with. -/
def NeverOpens (W : Set (List α)) (c : α) : Prop := ∀ w ∈ W, w.head? ≠ some c

theorem avoids_cons_iff {c : α} {t : List α} (hW : [] ∉ W) (hc : NeverOpens W c) :
    Avoids W (c :: t) ↔ Avoids W t := by
  constructor
  · intro h
    exact h.piece (List.suffix_cons c t).isInfix
  · intro h w hw hi
    cases List.infix_cons_iff.mp hi with
    | inl hp =>
      cases w with
      | nil => exact hW hw
      | cons d w =>
        rw [List.cons_prefix_cons] at hp
        exact hc _ hw (by rw [hp.1, List.head?_cons])
    | inr hi => exact h w hw hi

theorem avoids_append_iff_of_neverOpens {s t : List α} (hW : [] ∉ W) (hs : ∀ c ∈ s, NeverOpens W c) :
    Avoids W (s ++ t) ↔ Avoids W t := by
  induction s with
  | nil => simp
  | cons c s ih =>
    rw [List.cons_append, avoids_cons_iff hW (hs c (by simp))]
    exact ih fun d hd => hs d (List.mem_cons_of_mem c hd)

theorem NeverOpens.avoids {s : List α} (hW : [] ∉ W) (hs : ∀ c ∈ s, NeverOpens W c) : Avoids W s := by
  have h := (avoids_append_iff_of_neverOpens (t := []) hW hs).mpr (avoids_nil hW)
  rwa [List.append_nil] at h

/-- Nothing that follows `s` completes an occurrence begun in it. -/
def Detached (W : Set (List α)) (s : List α) : Prop :=
  ∀ rest, Avoids W (s ++ rest) ↔ Avoids W s ∧ Avoids W rest

theorem NeverOpens.detached {s : List α} (hW : [] ∉ W) (hs : ∀ c ∈ s, NeverOpens W c) : Detached W s := by
  intro rest
  rw [avoids_append_iff_of_neverOpens hW hs]
  exact (and_iff_right (NeverOpens.avoids hW hs)).symm

theorem Detached.append {s t : List α} (hs : Detached W s) (ht : Detached W t) : Detached W (s ++ t) := by
  intro rest
  rw [List.append_assoc, hs (t ++ rest), ht rest, hs t, and_assoc]

theorem detached_append_separator {s : List α} {c : α} (hW : [] ∉ W) (hc : Separates W c) :
    Detached W (s ++ [c]) := by
  intro rest
  rw [List.append_assoc, List.singleton_append, avoids_append_cons_iff hc, avoids_append_cons_iff hc]
  exact and_congr_left fun _ => (and_iff_left (avoids_nil hW)).symm

/-- A gap: a separating item and, behind it, items that open no word. -/
def IsGap (W : Set (List α)) (m : List α) : Prop :=
  ∃ c rest, m = c :: rest ∧ Separates W c ∧ ∀ d ∈ rest, NeverOpens W d

/-- Occurrences do not cross a gap. -/
theorem avoids_gap_iff {a m b : List α} (hW : [] ∉ W) (hm : IsGap W m) :
    Avoids W (a ++ m ++ b) ↔ Avoids W a ∧ Avoids W b := by
  obtain ⟨c, rest, rfl, hc, hrest⟩ := hm
  rw [List.append_assoc, List.cons_append, avoids_append_cons_iff hc,
    avoids_append_iff_of_neverOpens hW hrest]

/-- Detached parts, joined by something detached. -/
theorem avoids_intercalate_iff {sep : List α} {parts : List (List α)} (hW : [] ∉ W)
    (hsep : ∀ c ∈ sep, NeverOpens W c) (hparts : ∀ p ∈ parts, Detached W p) :
    Detached W (List.intercalate sep parts) ∧
      (Avoids W (List.intercalate sep parts) ↔ ∀ p ∈ parts, Avoids W p) := by
  induction parts with
  | nil =>
    refine ⟨NeverOpens.detached hW (by simp), ?_⟩
    simpa using avoids_nil hW
  | cons p parts ih =>
    have hp := hparts p (by simp)
    have ih := ih fun q hq => hparts q (List.mem_cons_of_mem p hq)
    cases parts with
    | nil => simpa using hp
    | cons q parts =>
      have hcons : List.intercalate sep (p :: q :: parts) = p ++ (sep ++ List.intercalate sep (q :: parts)) := by
        simp [List.intercalate, List.intersperse]
      have hrest := (NeverOpens.detached hW hsep).append ih.1
      rw [hcons]
      refine ⟨hp.append hrest, ?_⟩
      rw [hp, avoids_append_iff_of_neverOpens hW hsep, ih.2, ← List.forall_mem_cons]

/-- Parts joined by a separating item. -/
theorem avoids_join_iff {c : α} {parts : List (List α)} (hW : [] ∉ W) (hc : Separates W c) :
    Avoids W (List.intercalate [c] parts) ↔ ∀ p ∈ parts, Avoids W p := by
  induction parts with
  | nil => simpa using avoids_nil hW
  | cons p parts ih =>
    cases parts with
    | nil => simp
    | cons q parts =>
      have hcons : List.intercalate [c] (p :: q :: parts) = p ++ c :: List.intercalate [c] (q :: parts) := by
        simp [List.intercalate, List.intersperse]
      rw [hcons, avoids_append_cons_iff hc, ih, ← List.forall_mem_cons]

/-! ## Transcriptions -/

/-- Equal up to stretches of items that neither side knows; a stretch stays a stretch. -/
inductive Transcribes (f : α → Option γ) (g : β → Option γ) : List α → List β → Prop
  | nil : Transcribes f g [] []
  | keep {a : α} {b : β} {c : γ} {as : List α} {bs : List β} : f a = some c → g b = some c →
      Transcribes f g as bs → Transcribes f g (a :: as) (b :: bs)
  | skip {us as : List α} {vs bs : List β} : us ≠ [] → vs ≠ [] → (∀ u ∈ us, f u = none) →
      (∀ v ∈ vs, g v = none) → Transcribes f g as bs → Transcribes f g (us ++ as) (vs ++ bs)

variable {f : α → Option γ} {g : β → Option γ}

theorem Transcribes.symm {as : List α} {bs : List β} (h : Transcribes f g as bs) :
    Transcribes g f bs as := by
  induction h with
  | nil => exact .nil
  | keep ha hb _ ih => exact .keep hb ha ih
  | skip hus hvs hu hv _ ih => exact .skip hvs hus hv hu ih

theorem Transcribes.append {as as' : List α} {bs bs' : List β} (h : Transcribes f g as bs)
    (h' : Transcribes f g as' bs') : Transcribes f g (as ++ as') (bs ++ bs') := by
  induction h with
  | nil => exact h'
  | keep ha hb _ ih => exact .keep ha hb ih
  | skip hus hvs hu hv _ ih =>
    rw [List.append_assoc, List.append_assoc]
    exact .skip hus hvs hu hv ih

/-- A word of known items that starts the one recording starts the other. -/
theorem Transcribes.isPrefix {as : List α} {bs : List β} (h : Transcribes f g as bs) {w : List γ}
    (hw : w.map some <+: as.map f) : w.map some <+: bs.map g := by
  induction h generalizing w with
  | nil => exact hw
  | keep ha hb _ ih =>
    cases w with
    | nil => exact List.nil_prefix
    | cons c w =>
      simp only [List.map_cons, List.cons_prefix_cons, ha] at hw
      simp only [List.map_cons, List.cons_prefix_cons, hb]
      exact ⟨hw.1, ih hw.2⟩
  | skip hus _ hu _ _ _ =>
    cases w with
    | nil => exact List.nil_prefix
    | cons c w =>
      obtain ⟨u, us, rfl⟩ := List.exists_cons_of_ne_nil hus
      simp [hu u (by simp)] at hw

private theorem infix_of_unknown {us as : List α} (hu : ∀ u ∈ us, f u = none) {w : List γ} (hne : w ≠ [])
    (hw : w.map some <:+: (us ++ as).map f) : w.map some <:+: as.map f := by
  induction us with
  | nil => exact hw
  | cons u us ih =>
    rw [List.cons_append, List.map_cons, List.infix_cons_iff] at hw
    cases hw with
    | inl hw =>
      obtain ⟨c, w, rfl⟩ := List.exists_cons_of_ne_nil hne
      simp [hu u (by simp)] at hw
    | inr hw => exact ih (fun v hv => hu v (List.mem_cons_of_mem u hv)) hw

/-- A nonempty word of known items that occurs in the one recording occurs in the other. -/
theorem Transcribes.isInfix {as : List α} {bs : List β} (h : Transcribes f g as bs) {w : List γ}
    (hne : w ≠ []) (hw : w.map some <:+: as.map f) : w.map some <:+: bs.map g := by
  induction h with
  | nil => exact hw
  | keep ha hb hrest ih =>
    rw [List.map_cons, List.infix_cons_iff] at hw ⊢
    cases hw with
    | inl hw =>
      refine Or.inl ?_
      have h := (Transcribes.keep ha hb hrest).isPrefix (w := w) (by rwa [List.map_cons])
      rwa [List.map_cons] at h
    | inr hw => exact Or.inr (ih hw)
  | @skip us as vs bs hus hvs hu hv hrest ih =>
    have h := ih (infix_of_unknown hu hne hw)
    rw [List.map_append]
    exact h.trans (List.suffix_append _ _).isInfix

theorem Transcribes.isInfix_iff {as : List α} {bs : List β} (h : Transcribes f g as bs) {w : List γ}
    (hne : w ≠ []) : w.map some <:+: as.map f ↔ w.map some <:+: bs.map g :=
  ⟨h.isInfix hne, h.symm.isInfix hne⟩

/-- Occurrences are seen through a map that keeps the word's items apart from all others. -/
theorem map_infix_map_iff {f : α → β} {w t : List α} (hf : ∀ x ∈ w, ∀ y, f x = f y → x = y) :
    w.map f <:+: t.map f ↔ w <:+: t := by
  constructor
  · intro h
    obtain ⟨s, u, hsu⟩ := h
    obtain ⟨ab, c, rfl, hab, hc⟩ := List.append_eq_map_iff.mp hsu
    obtain ⟨a, b, rfl, ha, hb⟩ := List.append_eq_map_iff.mp hab.symm
    have hbw : b = w := by
      clear hsu hab ha
      induction w generalizing b with
      | nil => simpa using hb
      | cons x w ih =>
        cases b with
        | nil => simp at hb
        | cons y b =>
          simp only [List.map_cons, List.cons.injEq] at hb
          rw [hf x (by simp) y hb.1.symm, ih (fun z hz => hf z (List.mem_cons_of_mem x hz)) b hb.2]
    exact ⟨a, c, by rw [hbw]⟩
  · intro h
    exact h.map f

end WebOauthMcp.AvoidedWords
