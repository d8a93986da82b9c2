import Mathlib.Logic.Function.Basic
import Mathlib.Data.Set.Basic

/-!
# Programs over cells that may fail

A program accesses one cell at a time. An access sees the cell's value and a fault that
the environment chooses; both decide what becomes of the cell and how the program goes on.
`Ensures` is the weakest precondition over all faults, and `Within` says which cells a
program touches.
-/

namespace WebOauthMcp.FaultyPrograms

/-- A program over cells `K` with values `V`, under faults `F`. -/
inductive Prog (K V F : Type) (α : Type)
  | done (a : α)
  | access (k : K) (change : F → V → V) (next : F → V → Prog K V F α)

variable {K V F α β ε : Type}

def Prog.bind : Prog K V F α → (α → Prog K V F β) → Prog K V F β
  | .done a, f => f a
  | .access k change next, f => .access k change fun fault v => (next fault v).bind f

instance : Monad (Prog K V F) where
  pure := .done
  bind := Prog.bind

/-- A final store and a result. -/
structure Ran (K V α : Type) where
  store : K → V
  result : α

section
variable [DecidableEq K]

/-- The program under a sequence of faults. -/
def Prog.run : Prog K V F α → (ℕ → F) → (K → V) → Ran K V α
  | .done a, _, s => ⟨s, a⟩
  | .access k change next, faults, s =>
    (next (faults 0) (s k)).run (fun n => faults (n + 1)) (Function.update s k (change (faults 0) (s k)))

/-- Whatever the faults are, the program ends in a result and a store that satisfy `Q`. -/
def Prog.Ensures : Prog K V F α → (K → V) → (α → (K → V) → Prop) → Prop
  | .done a, s, Q => Q a s
  | .access k change next, s, Q =>
    ∀ fault, (next fault (s k)).Ensures (Function.update s k (change fault (s k))) Q

theorem Prog.Ensures.run {x : Prog K V F α} {s : K → V} {Q : α → (K → V) → Prop} (h : x.Ensures s Q)
    (faults : ℕ → F) : Q (x.run faults s).result (x.run faults s).store := by
  induction x generalizing s faults with
  | done a => exact h
  | access k change next ih => exact ih (faults 0) (s k) (h (faults 0)) _

theorem Prog.Ensures.mono {x : Prog K V F α} {s : K → V} {Q R : α → (K → V) → Prop} (h : x.Ensures s Q)
    (hqr : ∀ a s', Q a s' → R a s') : x.Ensures s R := by
  induction x generalizing s with
  | done a => exact hqr a s h
  | access k change next ih => exact fun fault => ih fault (s k) (h fault)

theorem ensures_bind {x : Prog K V F α} {f : α → Prog K V F β} {s : K → V} {Q : β → (K → V) → Prop} :
    (x >>= f).Ensures s Q ↔ x.Ensures s fun a s' => (f a).Ensures s' Q := by
  induction x generalizing s with
  | done a => exact Iff.rfl
  | access k change next ih => exact forall_congr' fun fault => ih fault (s k)

end

/-! ## Programs with exceptions -/

/-- A program that may stop with an exception. -/
abbrev Action (K V F ε : Type) (α : Type) := ExceptT ε (Prog K V F) α

def fromExcept (r : Except ε α) : Action K V F ε α := ExceptT.mk (.done r)

/-- The action with its exception caught. -/
def attempt (x : Action K V F ε α) : Action K V F ε (Except ε α) := ExceptT.mk (x.run >>= fun r => .done (.ok r))

section
variable [DecidableEq K]

/-- Whatever the faults are, the action ends in a value or an exception, and a store. -/
def Action.Ensures (x : Action K V F ε α) (s : K → V) (Q : Except ε α → (K → V) → Prop) : Prop :=
  Prog.Ensures x.run s Q

theorem Action.Ensures.mono {x : Action K V F ε α} {s : K → V} {Q R : Except ε α → (K → V) → Prop}
    (h : Action.Ensures x s Q) (hqr : ∀ r s', Q r s' → R r s') : Action.Ensures x s R := Prog.Ensures.mono h hqr

/-- The rest of an action runs only after a value. -/
theorem action_ensures_bind {x : Action K V F ε α} {f : α → Action K V F ε β} {s : K → V}
    {Q : Except ε β → (K → V) → Prop} (hx : Action.Ensures x s fun r s' =>
      (∀ a, r = .ok a → Action.Ensures (f a) s' Q) ∧ ∀ e, r = .error e → Q (.error e) s') :
    Action.Ensures (x >>= f) s Q := by
  refine ensures_bind.mpr (Prog.Ensures.mono hx fun r s' h => ?_)
  cases r with
  | ok a => exact h.1 a rfl
  | error e => exact h.2 e rfl

/-- An action that leaves the store as it is, in front of another one. -/
theorem action_ensures_bind_of_unchanged {x : Action K V F ε α} {f : α → Action K V F ε β} {s : K → V}
    {P : α → Prop} {Q : Except ε β → (K → V) → Prop}
    (hx : Action.Ensures x s fun r s' => s' = s ∧ ∀ a, r = .ok a → P a) (hf : ∀ a, P a → Action.Ensures (f a) s Q)
    (he : ∀ e, Q (.error e) s) : Action.Ensures (x >>= f) s Q := by
  refine action_ensures_bind (hx.mono fun r s' h => ?_)
  obtain ⟨rfl, hP⟩ := h
  exact ⟨fun a ha => hf a (hP a ha), fun e _ => he e⟩

theorem action_ensures_pure {a : α} {s : K → V} {Q : Except ε α → (K → V) → Prop} (h : Q (.ok a) s) :
    Action.Ensures (pure a : Action K V F ε α) s Q := h

theorem action_ensures_attempt {x : Action K V F ε α} {s : K → V} {Q : Except ε (Except ε α) → (K → V) → Prop}
    (h : Action.Ensures x s fun r s' => Q (.ok r) s') : Action.Ensures (attempt x) s Q := ensures_bind.mpr h

theorem action_ensures_throw {e : ε} {s : K → V} {Q : Except ε α → (K → V) → Prop} (h : Q (.error e) s) :
    Action.Ensures (throw e : Action K V F ε α) s Q := h

end

/-! ## What a program may do -/

/-- Every access satisfies `A`, and every result satisfies `P`. -/
def Prog.All (A : K → (F → V → V) → Prop) (P : α → Prop) : Prog K V F α → Prop
  | .done a => P a
  | .access k change next => A k change ∧ ∀ fault v, (next fault v).All A P

section
variable {A B : K → (F → V → V) → Prop} {P : α → Prop} {Q : β → Prop}

theorem all_bind {x : Prog K V F α} {f : α → Prog K V F β} (hx : x.All A P) (hf : ∀ a, P a → (f a).All A Q) :
    (x >>= f).All A Q := by
  induction x with
  | done a => exact hf a hx
  | access k change next ih => exact ⟨hx.1, fun fault v => ih fault v (hx.2 fault v)⟩

theorem Prog.All.mono {x : Prog K V F α} {P' : α → Prop} (hx : x.All A P)
    (ha : ∀ k change, A k change → B k change) (hp : ∀ a, P a → P' a) : x.All B P' := by
  induction x with
  | done a => exact hp a hx
  | access k change next ih => exact ⟨ha k change hx.1, fun fault v => ih fault v (hx.2 fault v)⟩

end

/-- Only cells in `S` are touched. -/
abbrev Prog.Within (S : Set K) (P : α → Prop) (x : Prog K V F α) : Prop := x.All (fun k _ => k ∈ S) P

section
variable {S : Set K} {P : α → Prop} {Q : β → Prop}

theorem within_bind {x : Prog K V F α} {f : α → Prog K V F β} (hx : x.Within S P)
    (hf : ∀ a, P a → (f a).Within S Q) : (x >>= f).Within S Q := all_bind hx hf

/-- Other cells keep their values. -/
theorem run_frame [DecidableEq K] {x : Prog K V F α} (hx : x.Within S P) (faults : ℕ → F) (s : K → V) {k : K}
    (hk : k ∉ S) : (x.run faults s).store k = s k := by
  induction x generalizing faults s with
  | done a => rfl
  | access c change next ih =>
    have hne : k ≠ c := fun h => hk (h ▸ hx.1)
    refine (ih (faults 0) (s c) (hx.2 _ _) _ _).trans ?_
    exact Function.update_of_ne hne _ s

/-- Nothing but the values in `S` matters. -/
theorem run_congr [DecidableEq K] {x : Prog K V F α} (hx : x.Within S P) (faults : ℕ → F) {s t : K → V}
    (hst : ∀ k ∈ S, s k = t k) : (x.run faults s).result = (x.run faults t).result ∧
      ∀ k ∈ S, (x.run faults s).store k = (x.run faults t).store k := by
  induction x generalizing faults s t with
  | done a => exact ⟨rfl, hst⟩
  | access c change next ih =>
    simp only [Prog.run]
    rw [hst c hx.1]
    apply ih _ _ (hx.2 _ _)
    intro k hk
    by_cases hkc : k = c
    · rw [hkc, Function.update_self, Function.update_self]
    · rw [Function.update_of_ne hkc, Function.update_of_ne hkc, hst k hk]

/-- Touching only cells in `S`, in a program with exceptions. -/
def Action.Within (S : Set K) (P : α → Prop) (x : Action K V F ε α) : Prop :=
  Prog.Within S (fun r => ∀ a, r = .ok a → P a) x.run

theorem action_within_bind {x : Action K V F ε α} {f : α → Action K V F ε β} (hx : Action.Within S P x)
    (hf : ∀ a, P a → Action.Within S Q (f a)) : Action.Within S Q (x >>= f) := by
  refine within_bind hx fun r hr => ?_
  cases r with
  | ok a => exact hf a (hr a rfl)
  | error e => exact fun _ h => nomatch h

theorem action_within_pure {a : α} (ha : P a) : Action.Within S P (pure a : Action K V F ε α) :=
  fun _ h => Except.ok.inj h ▸ ha

theorem error_ne_ok {e : ε} {a : α} : (.error e : Except ε α) ≠ .ok a := nofun

theorem action_within_throw {e : ε} : Action.Within S P (throw e : Action K V F ε α) := fun _ h => nomatch h

end

end WebOauthMcp.FaultyPrograms
