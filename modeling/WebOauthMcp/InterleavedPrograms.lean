import Mathlib.Logic.Relation
import WebOauthMcp.FaultyPrograms

/-!
# Interleaved programs

A pool of programs shares its cells. Each step is one access of one of the programs, under an
answer of the environment that the cells allow. An invariant of the cells comes with an
assertion for every program, which its own accesses carry on and the others' respect.
-/

namespace WebOauthMcp.InterleavedPrograms
open FaultyPrograms

variable {ι K V F α : Type} [DecidableEq ι] [DecidableEq K]

/-- The cells, and what every program has still to do. -/
structure Pool (ι K V F α : Type) where
  store : K → V
  rest : ι → Prog K V F α

inductive PoolStep (allowed : (K → V) → F → Prop) (p : Pool ι K V F α) : Pool ι K V F α → Prop
  | access {i : ι} {k : K} {change : F → V → V} {next : F → V → Prog K V F α} {f : F}
      (at_access : p.rest i = .access k change next) (answer : allowed p.store f) :
      PoolStep allowed p
        ⟨Function.update p.store k (change f (p.store k)), Function.update p.rest i (next f (p.store k))⟩

/-- All interleavings. -/
def Interleaves (allowed : (K → V) → F → Prop) : Pool ι K V F α → Pool ι K V F α → Prop :=
  Relation.ReflTransGen (PoolStep allowed)

/-- One access of `i`, if it has one left. -/
def Pool.advance (p : Pool ι K V F α) (i : ι) (f : F) : Pool ι K V F α :=
  match p.rest i with
  | .done _ => p
  | .access k change next =>
    ⟨Function.update p.store k (change f (p.store k)), Function.update p.rest i (next f (p.store k))⟩

theorem interleaves_advance {allowed : (K → V) → F → Prop} {p p' : Pool ι K V F α} (h : Interleaves allowed p p')
    (i : ι) {f : F} (hf : allowed p'.store f) : Interleaves allowed p (p'.advance i f) := by
  rw [Pool.advance]
  split
  · exact h
  · next hi => exact h.tail (.access hi hf)

/-- What the programs of a pool rely on: every access carries the invariant and the assertion of
its program on, and no access breaks the assertion of another program. -/
structure Respects (allowed : (K → V) → F → Prop) (Inv : (K → V) → Prop)
    (Assertion : ι → Prog K V F α → (K → V) → Prop) : Prop where
  own : ∀ {i k change next s f}, allowed s f → Inv s → Assertion i (.access k change next) s →
    Inv (Function.update s k (change f (s k))) ∧
      Assertion i (next f (s k)) (Function.update s k (change f (s k)))
  others : ∀ {i j x k change next s f}, j ≠ i → allowed s f → Inv s → Assertion i (.access k change next) s →
    Assertion j x s → Assertion j x (Function.update s k (change f (s k)))

theorem pool_invariant {allowed : (K → V) → F → Prop} {Inv : (K → V) → Prop}
    {Assertion : ι → Prog K V F α → (K → V) → Prop} (h : Respects allowed Inv Assertion) {p p' : Pool ι K V F α}
    (hrun : Interleaves allowed p p') (hinv : Inv p.store) (hall : ∀ i, Assertion i (p.rest i) p.store) :
    Inv p'.store ∧ ∀ i, Assertion i (p'.rest i) p'.store := by
  induction hrun with
  | refl => exact ⟨hinv, hall⟩
  | tail _ hstep ih =>
    cases hstep with
    | @access i k change next f hi hf =>
      have hai := ih.2 i
      rw [hi] at hai
      refine ⟨(h.own hf ih.1 hai).1, fun j => ?_⟩
      by_cases hj : j = i
      · subst hj
        simp only [Function.update_self]
        exact (h.own hf ih.1 hai).2
      · simp only [Function.update_of_ne hj]
        exact h.others hj hf ih.1 hai (ih.2 j)

end WebOauthMcp.InterleavedPrograms
