import Mathlib.Logic.Relation
import WebOauthMcp.FaultyPrograms

/-!
# Rely and guarantee

Labelled programs act on one shared state in any order. The label of an act says of what kind
it is, so that a condition on the steps of a run can speak about it. A program upholds an
invariant when its own acts keep it, and respect what the others rely on, as long as the
others do so too.
-/

namespace WebOauthMcp.RelyGuarantee
open FaultyPrograms

variable {ι L S F α β ε : Type}

/-- The shared state, and what every program has still to do. -/
structure System (ι L S F α : Type) where
  state : S
  rest : ι → Prog L S F α

/-- What `i` came to, if it has no act left. -/
def System.result (p : System ι L S F α) (i : ι) : Option α :=
  match p.rest i with
  | .done a => some a
  | .access _ _ _ => none

/-- One act of `i`, if it has one left. -/
def System.act [DecidableEq ι] (p : System ι L S F α) (i : ι) (f : F) : System ι L S F α :=
  match p.rest i with
  | .done _ => p
  | .access _ change next => ⟨change f p.state, Function.update p.rest i (next f p.state)⟩

section
variable [DecidableEq ι]

inductive Move (cond : L → S → F → Prop) (p : System ι L S F α) : System ι L S F α → Prop
  | act {i : ι} {l : L} {change : F → S → S} {next : F → S → Prog L S F α} {f : F}
      (at_act : p.rest i = .access l change next) (met : cond l p.state f) : Move cond p (p.act i f)

/-- Acts in any order, each of which meets the condition. -/
def Runs (cond : L → S → F → Prop) : System ι L S F α → System ι L S F α → Prop := Relation.ReflTransGen (Move cond)

variable {cond : L → S → F → Prop} {p q : System ι L S F α}

theorem Runs.refl (p : System ι L S F α) : Runs cond p p := Relation.ReflTransGen.refl

/-- The next act of `i` meets the condition. -/
def System.Meets (cond : L → S → F → Prop) (p : System ι L S F α) (i : ι) (f : F) : Prop :=
  match p.rest i with
  | .done _ => True
  | .access l _ _ => cond l p.state f

theorem Move.mono {cond' : L → S → F → Prop} (h : Move cond p q) (hcond : ∀ l s f, cond l s f → cond' l s f) : Move cond' p q := by
  cases h with
  | act hrest hmet => exact .act hrest (hcond _ _ _ hmet)

theorem Runs.mono {cond' : L → S → F → Prop} (h : Runs cond p q) (hcond : ∀ l s f, cond l s f → cond' l s f) : Runs cond' p q := by
  induction h with
  | refl => exact Runs.refl p
  | tail _ hmove ih => exact ih.tail (hmove.mono hcond)

theorem Runs.act (h : Runs cond p q) (i : ι) {f : F} (hmet : q.Meets cond i f) : Runs cond p (q.act i f) := by
  rw [System.Meets] at hmet
  cases hrest : q.rest i with
  | done a =>
    have hsame : q.act i f = q := by simp only [System.act, hrest]
    rw [hsame]
    exact h
  | access l change next =>
    rw [hrest] at hmet
    exact h.tail (.act hrest hmet)

/-- Acts of the given programs, with their answers. -/
def System.acts (p : System ι L S F α) : List (ι × F) → System ι L S F α
  | [] => p
  | (i, f) :: rest => (p.act i f).acts rest

/-- Each of the acts meets the condition. -/
def System.AllMeet (cond : L → S → F → Prop) (p : System ι L S F α) : List (ι × F) → Prop
  | [] => True
  | (i, f) :: rest => p.Meets cond i f ∧ (p.act i f).AllMeet cond rest

instance [∀ l s f, Decidable (cond l s f)] (i : ι) (f : F) : Decidable (p.Meets cond i f) :=
  match h : p.rest i with
  | .done _ => .isTrue (by rw [System.Meets, h]; trivial)
  | .access l _ _ => decidable_of_iff (cond l p.state f) (by rw [System.Meets, h])

instance decidableAllMeet [∀ l s f, Decidable (cond l s f)] (p : System ι L S F α) :
    ∀ steps, Decidable (p.AllMeet cond steps)
  | [] => .isTrue trivial
  | (i, f) :: rest =>
    have := decidableAllMeet (p.act i f) rest
    inferInstanceAs (Decidable (_ ∧ _))

theorem System.AllMeet.mono {cond' : L → S → F → Prop} {steps : List (ι × F)} (h : p.AllMeet cond steps)
    (hcond : ∀ step ∈ steps, ∀ l s, cond l s step.2 → cond' l s step.2) : p.AllMeet cond' steps := by
  induction steps generalizing p with
  | nil => trivial
  | cons step steps ih =>
    refine ⟨?_, ih h.2 fun x hx => hcond x (List.mem_cons_of_mem step hx)⟩
    have hfirst := h.1
    rw [System.Meets] at hfirst ⊢
    split at hfirst
    · trivial
    · exact hcond step List.mem_cons_self _ _ hfirst

theorem runs_acts_of_allMeet {steps : List (ι × F)} (hmet : q.AllMeet cond steps) (h : Runs cond p q) :
    Runs cond p (q.acts steps) := by
  induction steps generalizing q with
  | nil => exact h
  | cons step steps ih => exact ih hmet.2 (h.act step.1 hmet.1)

theorem runs_acts {steps : List (ι × F)} (hmet : ∀ step ∈ steps, ∀ l s, cond l s step.2) (h : Runs cond p q) :
    Runs cond p (q.acts steps) := by
  induction steps generalizing q with
  | nil => exact h
  | cons step steps ih =>
    apply ih fun x hx => hmet x (List.mem_cons_of_mem step hx)
    apply h.act step.1
    rw [System.Meets]
    split
    · trivial
    · exact hmet step List.mem_cons_self _ _

end

/-! ## Programs that uphold an invariant -/

/-- From `s` on, whenever the others took the state to one that `rely` allows, the next act keeps
the invariant and gives the others what they rely on. A result satisfies `Q`. -/
def Upholds (cond : L → S → F → Prop) (inv : S → Prop) (rely guar : S → S → Prop) :
    Prog L S F α → S → (α → S → Prop) → Prop
  | .done a, s, Q => Q a s
  | .access l change next, s, Q => ∀ s' f, rely s s' → inv s' → cond l s' f →
      inv (change f s') ∧ guar s' (change f s') ∧ Upholds cond inv rely guar (next f s') (change f s') Q

section
variable {cond : L → S → F → Prop} {inv : S → Prop} {rely guar : S → S → Prop}

theorem Upholds.mono {x : Prog L S F α} {s : S} {Q R : α → S → Prop}
    (h : Upholds cond inv rely guar x s Q) (hqr : ∀ a s', Q a s' → R a s') :
    Upholds cond inv rely guar x s R := by
  induction x generalizing s with
  | done a => exact hqr a s h
  | access l change next ih =>
    intro s' f hrely hinv hmet
    have hnext := h s' f hrely hinv hmet
    exact ⟨hnext.1, hnext.2.1, ih f s' hnext.2.2⟩

theorem upholds_bind {x : Prog L S F α} {f : α → Prog L S F β} {s : S} {Q : β → S → Prop}
    (h : Upholds cond inv rely guar x s fun a s' => Upholds cond inv rely guar (f a) s' Q) :
    Upholds cond inv rely guar (x >>= f) s Q := by
  induction x generalizing s with
  | done a => exact h
  | access l change next ih =>
    intro s' g hrely hinv hmet
    have hnext := h s' g hrely hinv hmet
    exact ⟨hnext.1, hnext.2.1, ih g s' hnext.2.2⟩

/-- What is promised from `s` on is promised from every state that the others may reach. -/
theorem Upholds.after {x : Prog L S F α} {s t : S} {Q : α → S → Prop}
    (htrans : ∀ {a b c}, rely a b → rely b c → rely a c) (hstable : ∀ a b c, rely b c → Q a b → Q a c)
    (h : Upholds cond inv rely guar x s Q) (hst : rely s t) : Upholds cond inv rely guar x t Q := by
  cases x with
  | done a => exact hstable a s t hst h
  | access l change next => exact fun s' f hrely => h s' f (htrans hst hrely)

theorem Upholds.weaken {guar' : S → S → Prop} {x : Prog L S F α} {s : S} {Q : α → S → Prop}
    (h : Upholds cond inv rely guar x s Q) (hguar : ∀ a b, guar a b → guar' a b) :
    Upholds cond inv rely guar' x s Q := by
  induction x generalizing s with
  | done a => exact h
  | access l change next ih =>
    intro s' f hrely hinv hmet
    have hnext := h s' f hrely hinv hmet
    exact ⟨hnext.1, hguar _ _ hnext.2.1, ih f s' hnext.2.2⟩

/-- What all acts respect holds between the first state and the last one. -/
theorem Upholds.along {kept : S → S → Prop} (hrefl : ∀ s, kept s s)
    (htrans : ∀ {a b c}, kept a b → kept b c → kept a c) (hrely : ∀ a b, rely a b → kept a b)
    (hguar : ∀ a b, guar a b → kept a b) {x : Prog L S F α} {s : S} {Q : α → S → Prop}
    (h : Upholds cond inv rely guar x s Q) : Upholds cond inv rely guar x s fun a s' => kept s s' ∧ Q a s' := by
  induction x generalizing s with
  | done a => exact ⟨hrefl s, h⟩
  | access l change next ih =>
    intro s' f hrelied hinv hmet
    have hnext := h s' f hrelied hinv hmet
    have hkept : kept s (change f s') := htrans (hrely _ _ hrelied) (hguar _ _ hnext.2.1)
    exact ⟨hnext.1, hnext.2.1, (ih f s' hnext.2.2).mono fun a t ht => ⟨htrans hkept ht.1, ht.2⟩⟩

end

/-- What each program relies on when the others act. -/
structure Relies (rely : ι → S → S → Prop) : Prop where
  refl : ∀ i s, rely i s s
  trans : ∀ i {a b c}, rely i a b → rely i b c → rely i a c

/-- The others' reliances. -/
def Guarantee (rely : ι → S → S → Prop) (i : ι) (s s' : S) : Prop := ∀ j, j ≠ i → rely j s s'

section
variable {cond : L → S → F → Prop} {inv : S → Prop} {rely : ι → S → S → Prop}

theorem Guarantee.refl (h : Relies rely) (i : ι) (s : S) : Guarantee rely i s s := fun j _ => h.refl j s

theorem Guarantee.trans (h : Relies rely) {i : ι} {a b c : S} (hab : Guarantee rely i a b)
    (hbc : Guarantee rely i b c) : Guarantee rely i a c := fun j hj => h.trans j (hab j hj) (hbc j hj)

/-- If every program upholds the invariant alone, and guarantees at least what the others rely on, then
all together do in every run, and each result is as promised. -/
theorem runs_guaranteed [DecidableEq ι] (h : Relies rely) {guar : ι → S → S → Prop}
    (hguar : ∀ i a b, guar i a b → Guarantee rely i a b) {Q : ι → α → S → Prop}
    (hstable : ∀ i a b c, rely i b c → Q i a b → Q i a c) {p q : System ι L S F α} (hrun : Runs cond p q)
    (hinv : inv p.state) (hall : ∀ i, Upholds cond inv (rely i) (guar i) (p.rest i) p.state (Q i)) :
    inv q.state ∧ ∀ i, Upholds cond inv (rely i) (guar i) (q.rest i) q.state (Q i) := by
  induction hrun with
  | refl => exact ⟨hinv, hall⟩
  | @tail q r _ hmove ih =>
    cases hmove with
    | @act i l change next f hrest hmet =>
      have hi := ih.2 i
      rw [hrest] at hi
      have hact := hi _ f (h.refl i _) ih.1 hmet
      simp only [System.act, hrest]
      refine ⟨hact.1, fun j => ?_⟩
      by_cases hj : j = i
      · subst hj
        rw [Function.update_self]
        exact hact.2.2
      · rw [Function.update_of_ne hj]
        exact (ih.2 j).after (h.trans j) (hstable j) (hguar i _ _ hact.2.1 j hj)

/-- Each act of a run is as its program guarantees. -/
theorem moves_guaranteed [DecidableEq ι] (h : Relies rely) {guar : ι → S → S → Prop} {Q : ι → α → S → Prop}
    {p q : System ι L S F α} (hmove : Move cond p q) (hinv : inv p.state)
    (hall : ∀ i, Upholds cond inv (rely i) (guar i) (p.rest i) p.state (Q i)) : ∃ i, guar i p.state q.state := by
  cases hmove with
  | @act i l change next f hrest hmet =>
    have hi := hall i
    rw [hrest] at hi
    refine ⟨i, ?_⟩
    simp only [System.act, hrest]
    exact (hi _ f (h.refl i _) hinv hmet).2.1

theorem runs_results [DecidableEq ι] (h : Relies rely) {Q : ι → α → S → Prop}
    (hstable : ∀ i a b c, rely i b c → Q i a b → Q i a c) {p q : System ι L S F α} (hrun : Runs cond p q)
    (hinv : inv p.state) (hall : ∀ i, Upholds cond inv (rely i) (Guarantee rely i) (p.rest i) p.state (Q i)) :
    inv q.state ∧ ∀ i, Upholds cond inv (rely i) (Guarantee rely i) (q.rest i) q.state (Q i) :=
  runs_guaranteed h (fun _ _ _ hguar => hguar) hstable hrun hinv hall

theorem runs_invariant [DecidableEq ι] (h : Relies rely) {p q : System ι L S F α} (hrun : Runs cond p q)
    (hinv : inv p.state) (hall : ∀ i, Upholds cond inv (rely i) (Guarantee rely i) (p.rest i) p.state
      fun _ _ => True) :
    inv q.state ∧ ∀ i, Upholds cond inv (rely i) (Guarantee rely i) (q.rest i) q.state fun _ _ => True :=
  runs_results h (fun _ _ _ _ _ _ => trivial) hrun hinv hall

end

/-! ## Exceptions -/

section
variable {cond : L → S → F → Prop} {inv : S → Prop} {rely guar : S → S → Prop}

/-- One act, and what it learns. -/
def perform (l : L) (change : F → S → S) (answer : F → S → α) : Action L S F ε α :=
  ExceptT.mk (.access l change fun f s => .done (.ok (answer f s)))

/-- The same for an action, which ends in a value or an exception. -/
def UpholdsAction (cond : L → S → F → Prop) (inv : S → Prop) (rely guar : S → S → Prop) (x : Action L S F ε α)
    (s : S) (Q : Except ε α → S → Prop) : Prop :=
  Upholds cond inv rely guar x.run s Q

theorem UpholdsAction.mono {x : Action L S F ε α} {s : S} {Q R : Except ε α → S → Prop}
    (h : UpholdsAction cond inv rely guar x s Q) (hqr : ∀ r s', Q r s' → R r s') :
    UpholdsAction cond inv rely guar x s R := Upholds.mono h hqr

/-- The rest of an action runs only after a value. -/
theorem upholdsAction_bind {x : Action L S F ε α} {f : α → Action L S F ε β} {s : S}
    {Q : Except ε β → S → Prop} (h : UpholdsAction cond inv rely guar x s fun r s' =>
      (∀ a, r = .ok a → UpholdsAction cond inv rely guar (f a) s' Q) ∧ ∀ e, r = .error e → Q (.error e) s') :
    UpholdsAction cond inv rely guar (x >>= f) s Q := by
  refine upholds_bind (Upholds.mono h fun r s' hr => ?_)
  cases r with
  | ok a => exact hr.1 a rfl
  | error e => exact hr.2 e rfl

theorem upholdsAction_pure {a : α} {s : S} {Q : Except ε α → S → Prop} (h : Q (.ok a) s) :
    UpholdsAction cond inv rely guar (pure a : Action L S F ε α) s Q := h

theorem upholdsAction_throw {e : ε} {s : S} {Q : Except ε α → S → Prop} (h : Q (.error e) s) :
    UpholdsAction cond inv rely guar (throw e : Action L S F ε α) s Q := h

theorem upholdsAction_fromExcept {r : Except ε α} {s : S} {Q : Except ε α → S → Prop} (h : Q r s) :
    UpholdsAction cond inv rely guar (fromExcept r : Action L S F ε α) s Q := h

theorem upholdsAction_perform {l : L} {change : F → S → S} {answer : F → S → α} {s : S} {Q : Except ε α → S → Prop}
    (h : ∀ s' f, rely s s' → inv s' → cond l s' f →
      inv (change f s') ∧ guar s' (change f s') ∧ Q (.ok (answer f s')) (change f s')) :
    UpholdsAction cond inv rely guar (perform l change answer : Action L S F ε α) s Q := h

theorem upholdsAction_attempt {x : Action L S F ε α} {s : S} {Q : Except ε (Except ε α) → S → Prop}
    (h : UpholdsAction cond inv rely guar x s fun r s' => Q (.ok r) s') :
    UpholdsAction cond inv rely guar (attempt x) s Q := upholds_bind h

end

/-! ## History -/

/-- The program with a history that its acts write. -/
def observe {H : Type} (note : L → F → S → H → H) : Prog L S F α → Prog L (S × H) F α
  | .done a => .done a
  | .access l change next =>
    .access l (fun f p => (change f p.1, note l f p.1 p.2)) fun f p => observe note (next f p.1)

/-- All programs with one history. -/
def System.observe {H : Type} (note : L → F → S → H → H) (p : System ι L S F α) (h : H) : System ι L (S × H) F α where
  state := (p.state, h)
  rest i := RelyGuarantee.observe note (p.rest i)

section
variable {H : Type} {note : L → F → S → H → H}

theorem observe_bind (x : Prog L S F α) (f : α → Prog L S F β) :
    observe note (x >>= f) = observe note x >>= fun a => observe note (f a) := by
  induction x with
  | done a => rfl
  | access l change next ih =>
    have hnext : (fun (g : F) (p : S × H) => observe note (next g p.1 >>= f)) =
        fun g p => observe note (next g p.1) >>= fun a => observe note (f a) := by
      funext g p
      exact ih g p.1
    exact congrArg (Prog.access l fun g p => (change g p.1, note l g p.1 p.2)) hnext

/-- A history hinders no run. -/
theorem runs_observe [DecidableEq ι] {cond : L → S → F → Prop} {p q : System ι L S F α} (hrun : Runs cond p q) (h : H) :
    ∃ h', Runs (fun l s f => cond l s.1 f) (p.observe note h) (q.observe note h') := by
  induction hrun with
  | refl => exact ⟨h, Runs.refl _⟩
  | @tail q r _ hmove ih =>
    obtain ⟨h', hruns⟩ := ih
    cases hmove with
    | @act i l change next f hrest hmet =>
      have hobserved : (q.observe note h').rest i = observe note (.access l change next) := congrArg (observe note) hrest
      have hact : (q.observe note h').act i f = (q.act i f).observe note (note l f q.state h') := by
        simp only [System.act, hobserved, hrest, observe, System.observe]
        congr 1
        funext j
        by_cases hj : j = i
        · subst hj
          rw [Function.update_self, Function.update_self]
        · rw [Function.update_of_ne hj, Function.update_of_ne hj]
      refine ⟨note l f q.state h', hact ▸ hruns.act i ?_⟩
      rw [System.Meets, hobserved]
      exact hmet

variable {cond : L → S × H → F → Prop} {inv : S × H → Prop} {rely guar : S × H → S × H → Prop}

/-- What an action upholds together with its history. -/
def Observes (note : L → F → S → H → H) (cond : L → S × H → F → Prop) (inv : S × H → Prop)
    (rely guar : S × H → S × H → Prop) (x : Action L S F ε α) (s : S × H) (Q : Except ε α → S × H → Prop) : Prop :=
  Upholds cond inv rely guar (observe note x.run) s Q

theorem Observes.mono {x : Action L S F ε α} {s : S × H} {Q R : Except ε α → S × H → Prop}
    (h : Observes note cond inv rely guar x s Q) (hqr : ∀ r s', Q r s' → R r s') :
    Observes note cond inv rely guar x s R := Upholds.mono h hqr

theorem Observes.along (kept : S × H → S × H → Prop) (hrefl : ∀ s, kept s s)
    (htrans : ∀ {a b c}, kept a b → kept b c → kept a c) (hrely : ∀ a b, rely a b → kept a b)
    (hguar : ∀ a b, guar a b → kept a b) {x : Action L S F ε α} {s : S × H} {Q : Except ε α → S × H → Prop}
    (h : Observes note cond inv rely guar x s Q) :
    Observes note cond inv rely guar x s fun r s' => kept s s' ∧ Q r s' := Upholds.along hrefl htrans hrely hguar h

theorem observes_bind {x : Action L S F ε α} {f : α → Action L S F ε β} {s : S × H} {Q : Except ε β → S × H → Prop}
    (h : Observes note cond inv rely guar x s fun r s' =>
      (∀ a, r = .ok a → Observes note cond inv rely guar (f a) s' Q) ∧ ∀ e, r = .error e → Q (.error e) s') :
    Observes note cond inv rely guar (x >>= f) s Q := by
  rw [Observes]
  show Upholds cond inv rely guar (observe note (x.run >>= ExceptT.bindCont f)) s Q
  rw [observe_bind]
  refine upholds_bind (Upholds.mono h fun r s' hr => ?_)
  cases r with
  | ok a => exact hr.1 a rfl
  | error e => exact hr.2 e rfl

theorem observes_pure {a : α} {s : S × H} {Q : Except ε α → S × H → Prop} (h : Q (.ok a) s) :
    Observes note cond inv rely guar (pure a : Action L S F ε α) s Q := h

theorem observes_throw {e : ε} {s : S × H} {Q : Except ε α → S × H → Prop} (h : Q (.error e) s) :
    Observes note cond inv rely guar (throw e : Action L S F ε α) s Q := h

theorem observes_fromExcept {r : Except ε α} {s : S × H} {Q : Except ε α → S × H → Prop} (h : Q r s) :
    Observes note cond inv rely guar (fromExcept r : Action L S F ε α) s Q := h

theorem observes_perform {l : L} {change : F → S → S} {answer : F → S → α} {s : S × H} {Q : Except ε α → S × H → Prop}
    (h : ∀ s' f, rely s s' → inv s' → cond l s' f →
      inv (change f s'.1, note l f s'.1 s'.2) ∧ guar s' (change f s'.1, note l f s'.1 s'.2) ∧
        Q (.ok (answer f s'.1)) (change f s'.1, note l f s'.1 s'.2)) :
    Observes note cond inv rely guar (perform l change answer : Action L S F ε α) s Q := h

/-- One act in front of others. -/
theorem observes_act {l : L} {change : F → S → S} {answer : F → S → α} {rest : α → Action L S F ε β} {s : S × H}
    {Q : Except ε β → S × H → Prop}
    (h : ∀ s' f, rely s s' → inv s' → cond l s' f →
      inv (change f s'.1, note l f s'.1 s'.2) ∧ guar s' (change f s'.1, note l f s'.1 s'.2) ∧
        Observes note cond inv rely guar (rest (answer f s'.1)) (change f s'.1, note l f s'.1 s'.2) Q) :
    Observes note cond inv rely guar (perform l change answer >>= rest) s Q :=
  observes_bind (observes_perform fun s' f hrely hinv hmet =>
    have hact := h s' f hrely hinv hmet
    ⟨hact.1, hact.2.1, fun _ hb => Except.ok.inj hb ▸ hact.2.2, fun _ he => absurd he.symm error_ne_ok⟩)

theorem observes_attempt {x : Action L S F ε α} {s : S × H} {Q : Except ε (Except ε α) → S × H → Prop}
    (h : Observes note cond inv rely guar x s fun r s' => Q (.ok r) s') :
    Observes note cond inv rely guar (attempt x) s Q := by
  rw [Observes]
  show Upholds cond inv rely guar (observe note (x.run >>= fun r => .done (.ok r))) s Q
  rw [observe_bind]
  exact upholds_bind h

end

end WebOauthMcp.RelyGuarantee
