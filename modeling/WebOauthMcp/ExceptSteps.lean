import Mathlib.Data.List.Forall2

/-!
# Computations that may fail, step by step

What the success of a sequence of fallible steps says about the steps.
-/

namespace WebOauthMcp.ExceptSteps

variable {ε ε' α β : Type}

theorem bind_eq_ok {x : Except ε α} {f : α → Except ε β} {b : β} :
    (x >>= f) = .ok b ↔ ∃ a, x = .ok a ∧ f a = .ok b := by
  cases x with
  | error e => simp [bind, Except.bind]
  | ok a => simp [bind, Except.bind]

theorem bind_eq_error {x : Except ε α} {f : α → Except ε β} {e : ε} :
    (x >>= f) = .error e ↔ x = .error e ∨ ∃ a, x = .ok a ∧ f a = .error e := by
  cases x with
  | error e' => simp [bind, Except.bind]
  | ok a => simp [bind, Except.bind]

theorem map_ok_iff {x : Except ε α} {f : α → β} {b : β} : x.map f = .ok b ↔ ∃ a, x = .ok a ∧ f a = b := by
  cases x <;> simp [Except.map]

theorem map_error_iff {x : Except ε α} {f : α → β} {e : ε} : x.map f = .error e ↔ x = .error e := by
  cases x <;> simp [Except.map]

theorem mapError_error_iff {x : Except ε α} {f : ε → ε'} {e' : ε'} : x.mapError f = .error e' ↔ ∃ e, x = .error e ∧ f e = e' := by
  cases x <;> simp [Except.mapError]

theorem mapError_ok_iff {x : Except ε α} {a : α} (f : ε → ε') : x.mapError f = .ok a ↔ x = .ok a := by
  cases x <;> simp [Except.mapError]

/-- A list of steps succeeds exactly when each step does. -/
theorem mapM_eq_ok {f : α → Except ε β} {xs : List α} {ys : List β} :
    xs.mapM f = .ok ys ↔ List.Forall₂ (fun x y => f x = .ok y) xs ys := by
  induction xs generalizing ys with
  | nil => simp [pure, Except.pure, eq_comm]
  | cons x xs ih =>
    simp only [List.mapM_cons, bind_eq_ok, List.forall₂_cons_left_iff]
    constructor
    · rintro ⟨y, hy, zs, hzs, h⟩
      exact ⟨y, zs, hy, ih.mp hzs, (Except.ok.inj h).symm⟩
    · rintro ⟨y, zs, hy, hzs, rfl⟩
      exact ⟨y, hy, zs, ih.mpr hzs, rfl⟩

/-- A list of steps fails with the error of its first step that does. -/
theorem mapM_eq_error {f : α → Except ε β} {xs : List α} {e : ε} : xs.mapM f = .error e ↔
    ∃ before x after, xs = before ++ x :: after ∧ (∀ y ∈ before, ∃ b, f y = .ok b) ∧ f x = .error e := by
  induction xs with
  | nil => simp [pure, Except.pure]
  | cons x xs ih =>
    simp only [List.mapM_cons, bind_eq_error]
    constructor
    · rintro (hx | ⟨b, hb, hxs | ⟨bs, -, hpure⟩⟩)
      · exact ⟨[], x, xs, rfl, by simp, hx⟩
      · obtain ⟨before, y, after, rfl, hbefore, hy⟩ := ih.mp hxs
        exact ⟨x :: before, y, after, rfl, List.forall_mem_cons.mpr ⟨⟨b, hb⟩, hbefore⟩, hy⟩
      · cases hpure
    · rintro ⟨before, y, after, heq, hbefore, hy⟩
      cases before with
      | nil =>
        obtain ⟨rfl, rfl⟩ := List.cons.inj heq
        exact .inl hy
      | cons z before =>
        obtain ⟨rfl, rfl⟩ := List.cons.inj heq
        obtain ⟨⟨b, hb⟩, hbefore⟩ := List.forall_mem_cons.mp hbefore
        exact .inr ⟨b, hb, .inl (ih.mpr ⟨before, y, after, rfl, hbefore, hy⟩)⟩

theorem mapM_mem {f : α → Except ε β} {xs : List α} {ys : List β} (h : xs.mapM f = .ok ys) {x : α} (hx : x ∈ xs) :
    ∃ y ∈ ys, f x = .ok y := by
  have hall := mapM_eq_ok.mp h
  induction hall with
  | nil => exact absurd hx List.not_mem_nil
  | @cons x' y xs ys hxy hrest ih =>
    cases List.mem_cons.mp hx with
    | inl heq =>
      subst heq
      exact ⟨y, by simp, hxy⟩
    | inr hmem =>
      obtain ⟨z, hz, hxz⟩ := ih (mapM_eq_ok.mpr hrest) hmem
      exact ⟨z, List.mem_cons_of_mem _ hz, hxz⟩

theorem forall₂_exists_left {P : α → β → Prop} {xs : List α} {ys : List β} (h : List.Forall₂ P xs ys) :
    ∀ y ∈ ys, ∃ x ∈ xs, P x y := by
  induction h with
  | nil => exact fun y hy => absurd hy List.not_mem_nil
  | @cons x y xs ys hxy _ ih =>
    refine List.forall_mem_cons.mpr ⟨⟨x, List.mem_cons_self, hxy⟩, fun z hz => ?_⟩
    obtain ⟨w, hw, hwz⟩ := ih z hz
    exact ⟨w, List.mem_cons_of_mem x hw, hwz⟩

/-! ## Errors that can be raised -/

/-- Whatever error the computation raises satisfies `P`. -/
def Raises (x : Except ε α) (P : ε → Prop) : Prop := ∀ e, x = .error e → P e

theorem Raises.bind {x : Except ε α} {f : α → Except ε β} {P : ε → Prop} (hx : Raises x P) (hf : ∀ a, Raises (f a) P) :
    Raises (x >>= f) P := by
  intro e h
  cases bind_eq_error.mp h with
  | inl h => exact hx e h
  | inr h =>
    obtain ⟨a, -, h⟩ := h
    exact hf a e h

theorem raises_pure {a : α} {P : ε → Prop} : Raises (pure a : Except ε α) P := fun e h => by cases h

theorem raises_mapM {f : α → Except ε β} {P : ε → Prop} (hf : ∀ a, Raises (f a) P) (xs : List α) : Raises (xs.mapM f) P := by
  intro e h
  obtain ⟨before, x, after, -, -, hx⟩ := mapM_eq_error.mp h
  exact hf x e hx

/-! ## Computations that do return -/

/-- The computation returns, and what it returns satisfies `P`. -/
def Returns (x : Except ε α) (P : α → Prop) : Prop := ∃ a, x = .ok a ∧ P a

theorem Returns.bind {x : Except ε α} {P : α → Prop} {f : α → Except ε β} {Q : β → Prop} (hx : Returns x P)
    (hf : ∀ a, P a → Returns (f a) Q) : Returns (x >>= f) Q := by
  obtain ⟨a, rfl, ha⟩ := hx
  exact hf a ha

theorem Returns.mono {x : Except ε α} {P Q : α → Prop} (hx : Returns x P) (h : ∀ a, P a → Q a) :
    Returns x Q := by
  obtain ⟨a, rfl, ha⟩ := hx
  exact ⟨a, rfl, h a ha⟩

theorem returns_pure {a : α} {P : α → Prop} (ha : P a) : Returns (pure a : Except ε α) P := ⟨a, rfl, ha⟩

theorem forall₂_right {P : α → β → Prop} {Q : β → Prop} {xs : List α} {ys : List β} (h : List.Forall₂ P xs ys)
    (hq : ∀ x y, P x y → Q y) : ∀ y ∈ ys, Q y := by
  induction h with
  | nil => simp
  | cons hxy _ ih => exact List.forall_mem_cons.mpr ⟨hq _ _ hxy, ih⟩

theorem forall₂_imp_mem {P Q : α → β → Prop} {xs : List α} {ys : List β} (h : List.Forall₂ P xs ys)
    (hpq : ∀ x ∈ xs, ∀ y ∈ ys, P x y → Q x y) : List.Forall₂ Q xs ys := by
  induction h with
  | nil => exact .nil
  | cons hxy _ ih =>
    refine .cons (hpq _ List.mem_cons_self _ List.mem_cons_self hxy) (ih fun x hx y hy => ?_)
    exact hpq x (List.mem_cons_of_mem _ hx) y (List.mem_cons_of_mem _ hy)

theorem forall₂_comp {γ : Type} {P : α → β → Prop} {Q : β → γ → Prop} {R : α → γ → Prop} {xs : List α} {ys : List β}
    {zs : List γ} (hpq : ∀ x y z, P x y → Q y z → R x z) (hp : List.Forall₂ P xs ys) (hq : List.Forall₂ Q ys zs) :
    List.Forall₂ R xs zs := by
  induction hp generalizing zs with
  | nil =>
    cases hq
    exact .nil
  | cons hxy _ ih =>
    cases hq with
    | cons hyz hrest => exact .cons (hpq _ _ _ hxy hyz) (ih hrest)

/-- If every step of a list returns, so does the list, item by item. -/
theorem mapM_returns {f : α → Except ε β} {P : α → β → Prop} {xs : List α} (h : ∀ x ∈ xs, Returns (f x) (P x)) :
    Returns (xs.mapM f) (List.Forall₂ P xs) := by
  induction xs with
  | nil => exact ⟨[], rfl, .nil⟩
  | cons x xs ih =>
    rw [List.forall_mem_cons] at h
    obtain ⟨y, hy, hP⟩ := h.1
    obtain ⟨ys, hys, hall⟩ := ih h.2
    exact ⟨y :: ys, mapM_eq_ok.mpr (.cons hy (mapM_eq_ok.mp hys)), .cons hP hall⟩

theorem Returns.isOk {x : Except ε α} {P : α → Prop} (hx : Returns x P) : ∃ a, x = .ok a := by
  obtain ⟨a, rfl, -⟩ := hx
  exact ⟨a, rfl⟩

/-! ## Computations that return under a condition -/

/-- What the computation returns satisfies `P`, and under `total` it returns. -/
structure Meets (total : Prop) (x : Except ε α) (P : α → Prop) : Prop where
  sound : ∀ a, x = .ok a → P a
  returns : total → ∃ a, x = .ok a

theorem meets_pure {total : Prop} {a : α} {P : α → Prop} (ha : P a) : Meets total (pure a : Except ε α) P := by
  refine ⟨fun b hb => ?_, fun _ => ⟨a, rfl⟩⟩
  obtain rfl := Except.ok.inj hb
  exact ha

theorem Meets.bind {total : Prop} {x : Except ε α} {P : α → Prop} {f : α → Except ε β} {Q : β → Prop}
    (hx : Meets total x P) (hf : ∀ a, P a → Meets total (f a) Q) : Meets total (x >>= f) Q := by
  constructor
  · intro b hb
    obtain ⟨a, ha, hb⟩ := bind_eq_ok.mp hb
    exact (hf a (hx.sound a ha)).sound b hb
  · intro htotal
    obtain ⟨a, ha⟩ := hx.returns htotal
    obtain ⟨b, hb⟩ := (hf a (hx.sound a ha)).returns htotal
    exact ⟨b, bind_eq_ok.mpr ⟨a, ha, hb⟩⟩

theorem Meets.mono {total : Prop} {x : Except ε α} {P Q : α → Prop} (hx : Meets total x P) (h : ∀ a, P a → Q a) :
    Meets total x Q := ⟨fun a ha => h a (hx.sound a ha), hx.returns⟩

end WebOauthMcp.ExceptSteps
