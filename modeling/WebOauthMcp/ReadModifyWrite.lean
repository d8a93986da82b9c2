import Mathlib.Logic.Function.Basic
import Mathlib.Data.List.Nodup
import Mathlib.Data.Fintype.Defs

/-!
# Unlocked read-modify-write

Processes share a file and one staging name. Each reads the file, computes, and if its
operation writes, stages the new content and renames it over the file. When no rename
changes the file under a process that will write from what it read, and no two processes
stage at once, every schedule has the effect and the replies of a sequential one.
-/

namespace WebOauthMcp.ReadModifyWrite

variable {P State Reply : Type}

/-- What each process writes, if anything, and replies, from the state it read. -/
abbrev Operations (P State Reply : Type) := P → State → Option State × Reply

/-! ## Sequential runs -/

def serialState (ops : Operations P State Reply) (order : List P) (s : State) : State :=
  order.foldl (fun s p => (ops p s).1.getD s) s

def serialReplies (ops : Operations P State Reply) : List P → State → List (P × Reply)
  | [], _ => []
  | p :: order, s => (p, (ops p s).2) :: serialReplies ops order ((ops p s).1.getD s)

theorem serialState_snoc (ops : Operations P State Reply) (order : List P) (p : P) (s : State) :
    serialState ops (order ++ [p]) s =
      (ops p (serialState ops order s)).1.getD (serialState ops order s) := by
  simp [serialState]

theorem serialReplies_snoc (ops : Operations P State Reply) (order : List P) (p : P) (s : State) :
    serialReplies ops (order ++ [p]) s =
      serialReplies ops order s ++ [(p, (ops p (serialState ops order s)).2)] := by
  induction order generalizing s with
  | nil => rfl
  | cons q order ih => exact congrArg _ (ih _)

theorem mem_of_mem_serialReplies {ops : Operations P State Reply} {order : List P} {s : State} {p : P}
    {reply : Reply} (h : (p, reply) ∈ serialReplies ops order s) : p ∈ order := by
  induction order generalizing s with
  | nil => exact absurd h List.not_mem_nil
  | cons q order ih =>
    cases List.mem_cons.mp h with
    | inl h => simp [(Prod.mk.inj h).1]
    | inr h => exact List.mem_cons_of_mem q (ih h)

/-! ## Interleaved runs -/

inductive Phase (State Reply : Type) where
  | idle
  | holding (seen : State)
  | staged (seen : State)
  | finished (reply : Reply)
  | failed
  deriving DecidableEq

structure System (P State Reply : Type) where
  file : State
  staging : Option State
  phase : P → Phase State Reply

def System.start (s : State) : System P State Reply := ⟨s, none, fun _ => .idle⟩

/-- A process in this phase has read the file and will write from what it read. -/
def Phase.IsPending (ops : Operations P State Reply) (p : P) : Phase State Reply → Prop
  | .holding seen => (ops p seen).1.isSome = true
  | .staged _ => True
  | _ => False

instance (ops : Operations P State Reply) (p : P) : DecidablePred (Phase.IsPending ops p)
  | .idle => inferInstanceAs (Decidable False)
  | .holding seen => inferInstanceAs (Decidable ((ops p seen).1.isSome = true))
  | .staged _ => inferInstanceAs (Decidable True)
  | .finished _ => inferInstanceAs (Decidable False)
  | .failed => inferInstanceAs (Decidable False)

def Phase.isStaged : Phase State Reply → Bool
  | .staged _ => true
  | _ => false

/-- Where the operation of the process takes effect in its next step: at its rename, or at
its read if it writes nothing. -/
def effectPoint (ops : Operations P State Reply) (sys : System P State Reply) (p : P) : List P :=
  match sys.phase p with
  | .idle => if (ops p sys.file).1.isSome then [] else [p]
  | .staged _ => [p]
  | _ => []

/-- The phase of a process agrees with a sequential run of the processes in the order. -/
def Agrees (ops : Operations P State Reply) (s : State) (order : List P) (file : State) (staging : Option State)
    (p : P) : Phase State Reply → Prop
  | .idle => p ∉ order
  | .holding seen =>
    if (ops p seen).1.isSome then seen = file ∧ p ∉ order else (p, (ops p seen).2) ∈ serialReplies ops order s
  | .staged seen => seen = file ∧ staging = (ops p seen).1 ∧ staging.isSome = true ∧ p ∉ order
  | .finished reply => (p, reply) ∈ serialReplies ops order s
  | .failed => False

/-- The system is where a sequential run of the processes in the order would be. -/
structure Serial (ops : Operations P State Reply) (s : State) (order : List P) (sys : System P State Reply) :
    Prop where
  nodup : order.Nodup
  file : sys.file = serialState ops order s
  agrees : ∀ p, Agrees ops s order sys.file sys.staging p (sys.phase p)

variable {ops : Operations P State Reply} {s file file' : State} {staging staging' : Option State}
variable {order schedule : List P} {sys : System P State Reply} {p q : P} {phase : Phase State Reply}

theorem serial_start (ops : Operations P State Reply) (s : State) : Serial ops s [] (.start s) :=
  ⟨List.nodup_nil, rfl, fun _ => List.not_mem_nil⟩

theorem Agrees.snoc (h : Agrees ops s order file staging q phase) (hne : q ≠ p) :
    Agrees ops s (order ++ [p]) file staging q phase := by
  have hout : q ∉ order → q ∉ order ++ [p] := by
    intro hq
    simp [hq, hne]
  have hin : ∀ reply, (q, reply) ∈ serialReplies ops order s → (q, reply) ∈ serialReplies ops (order ++ [p]) s := by
    intro reply hr
    rw [serialReplies_snoc]
    exact List.mem_append_left _ hr
  cases phase with
  | idle => exact hout h
  | holding seen =>
    simp only [Agrees] at h ⊢
    split_ifs at h ⊢
    · exact ⟨h.1, hout h.2⟩
    · exact hin _ h
  | staged seen => exact ⟨h.1, h.2.1, h.2.2.1, hout h.2.2.2⟩
  | finished reply => exact hin reply h
  | failed => exact h

/-- A process that is not pending does not depend on the file. -/
theorem Agrees.of_not_pending (h : Agrees ops s order file staging q phase) (hq : ¬phase.IsPending ops q) :
    Agrees ops s order file' staging' q phase := by
  cases phase with
  | idle => exact h
  | holding seen =>
    simp only [Agrees] at h ⊢
    simp only [Phase.IsPending] at hq
    rw [if_neg hq] at h ⊢
    exact h
  | staged seen => exact absurd trivial hq
  | finished reply => exact h
  | failed => exact h

/-- A process that has not staged does not depend on the staging name. -/
theorem Agrees.of_not_staged (h : Agrees ops s order file staging q phase) (hq : phase.isStaged = false) :
    Agrees ops s order file staging' q phase := by
  cases phase with
  | staged seen => exact absurd hq (by simp [Phase.isStaged])
  | _ => exact h

variable [DecidableEq P]

def System.setPhase (sys : System P State Reply) (p : P) (phase : Phase State Reply) : System P State Reply :=
  { sys with phase := Function.update sys.phase p phase }

/-- The next step of a process: read, stage or answer, rename. A rename finds no staged
content when another process has renamed it away. -/
def advance (ops : Operations P State Reply) (sys : System P State Reply) (p : P) : System P State Reply :=
  match sys.phase p with
  | .idle => sys.setPhase p (.holding sys.file)
  | .holding seen => match (ops p seen).1 with
    | none => sys.setPhase p (.finished (ops p seen).2)
    | some written => System.setPhase { sys with staging := some written } p (.staged seen)
  | .staged seen => match sys.staging with
    | some content => System.setPhase { sys with file := content, staging := none } p (.finished (ops p seen).2)
    | none => sys.setPhase p .failed
  | .finished _ => sys
  | .failed => sys

def run (ops : Operations P State Reply) (schedule : List P) (sys : System P State Reply) : System P State Reply :=
  schedule.foldl (advance ops) sys

/-- If the process is about to stage, no other one has staged; if it is about to rename, none
has either, and none is pending unless the rename leaves the content of the file. -/
def Clear (ops : Operations P State Reply) (sys : System P State Reply) (p : P) : Prop :=
  (sys.phase p).IsPending ops p → ∀ q, q ≠ p → (sys.phase q).isStaged = false ∧
    ((sys.phase p).isStaged = false ∨ sys.staging = some sys.file ∨ ¬(sys.phase q).IsPending ops q)

def AllClear (ops : Operations P State Reply) : List P → System P State Reply → Prop
  | [], _ => True
  | p :: schedule, sys => Clear ops sys p ∧ AllClear ops schedule (advance ops sys p)

instance [Fintype P] [DecidableEq State] (ops : Operations P State Reply) (sys : System P State Reply) (p : P) :
    Decidable (Clear ops sys p) :=
  inferInstanceAs (Decidable ((sys.phase p).IsPending ops p → ∀ q, q ≠ p → (sys.phase q).isStaged = false ∧
    ((sys.phase p).isStaged = false ∨ sys.staging = some sys.file ∨ ¬(sys.phase q).IsPending ops q)))

instance decidableAllClear [Fintype P] [DecidableEq State] (ops : Operations P State Reply) :
    ∀ schedule (sys : System P State Reply), Decidable (AllClear ops schedule sys)
  | [], _ => inferInstanceAs (Decidable True)
  | p :: schedule, sys =>
    have := decidableAllClear ops schedule (advance ops sys p)
    inferInstanceAs (Decidable (Clear ops sys p ∧ AllClear ops schedule (advance ops sys p)))

/-- The processes in the order in which they take effect. -/
def effectOrder (ops : Operations P State Reply) : List P → System P State Reply → List P
  | [], _ => []
  | p :: schedule, sys => effectPoint ops sys p ++ effectOrder ops schedule (advance ops sys p)

/-- After a step it is enough to look at the process that moved and at how the others see it. -/
theorem serial_setPhase (hnodup : order.Nodup) (hfile : file = serialState ops order s)
    (hself : Agrees ops s order file staging p phase)
    (hother : ∀ q, q ≠ p → Agrees ops s order file staging q (sys.phase q)) :
    Serial ops s order (System.setPhase { sys with file := file, staging := staging } p phase) := by
  refine ⟨hnodup, hfile, ?_⟩
  intro q
  by_cases hq : q = p
  · subst hq
    simpa [System.setPhase] using hself
  · simpa [System.setPhase, hq] using hother q hq

theorem serial_read (h : Serial ops s order sys) (hp : sys.phase p = .idle) :
    Serial ops s (order ++ effectPoint ops sys p) (sys.setPhase p (.holding sys.file)) := by
  have hnot : p ∉ order := by
    have hagrees := h.agrees p
    rw [hp] at hagrees
    exact hagrees
  simp only [effectPoint, hp]
  cases hwrites : (ops p sys.file).1 with
  | some written =>
    simp only [Option.isSome_some, if_true, List.append_nil]
    apply serial_setPhase h.nodup h.file
    · simp [Agrees, hwrites, hnot]
    · exact fun q _ => h.agrees q
  | none =>
    simp only [Option.isSome_none, Bool.false_eq_true, if_false]
    have hsame : (ops p (serialState ops order s)).1 = none := by rw [← h.file, hwrites]
    apply serial_setPhase
    · rw [← List.concat_eq_append]
      exact List.Nodup.concat hnot h.nodup
    · rw [serialState_snoc, hsame]
      exact h.file
    · simp only [Agrees, hwrites, Option.isSome_none, Bool.false_eq_true, if_false]
      rw [serialReplies_snoc, ← h.file]
      simp
    · exact fun q hq => (h.agrees q).snoc hq

theorem serial_answer (h : Serial ops s order sys) {seen : State} (hp : sys.phase p = .holding seen)
    (hnone : (ops p seen).1 = none) : Serial ops s order (sys.setPhase p (.finished (ops p seen).2)) := by
  have hagrees := h.agrees p
  rw [hp] at hagrees
  simp only [Agrees, hnone, Option.isSome_none, Bool.false_eq_true, if_false] at hagrees
  apply serial_setPhase h.nodup h.file
  · exact hagrees
  · exact fun q _ => h.agrees q

theorem serial_stage (h : Serial ops s order sys) {seen written : State} (hp : sys.phase p = .holding seen)
    (hsome : (ops p seen).1 = some written) (hclear : Clear ops sys p) :
    Serial ops s order (System.setPhase { sys with staging := some written } p (.staged seen)) := by
  have hagrees := h.agrees p
  rw [hp] at hagrees
  simp only [Agrees, hsome, Option.isSome_some, if_true] at hagrees
  have hpending : (sys.phase p).IsPending ops p := by simp [hp, Phase.IsPending, hsome]
  apply serial_setPhase h.nodup h.file
  · exact ⟨hagrees.1, hsome.symm, rfl, hagrees.2⟩
  · exact fun q hq => (h.agrees q).of_not_staged (hclear hpending q hq).1

theorem serial_rename (h : Serial ops s order sys) {seen content : State} (hp : sys.phase p = .staged seen)
    (hstaging : sys.staging = some content) (hclear : Clear ops sys p) :
    Serial ops s (order ++ [p])
      (System.setPhase { sys with file := content, staging := none } p (.finished (ops p seen).2)) := by
  have hagrees := h.agrees p
  rw [hp] at hagrees
  obtain ⟨hseen, hcontent, -, hnot⟩ := hagrees
  have hserial : seen = serialState ops order s := hseen.trans h.file
  have hpending : (sys.phase p).IsPending ops p := by simp [hp, Phase.IsPending]
  apply serial_setPhase
  · rw [← List.concat_eq_append]
    exact List.Nodup.concat hnot h.nodup
  · rw [serialState_snoc, ← hserial, ← hcontent, hstaging]
    rfl
  · simp only [Agrees]
    rw [serialReplies_snoc, ← hserial]
    simp
  · intro q hq
    apply Agrees.snoc _ hq
    obtain ⟨hnotStaged, hquiet⟩ := hclear hpending q hq
    rcases hquiet with hstaged | hsame | hidle
    · exact absurd hstaged (by simp [hp, Phase.isStaged])
    · rw [hstaging] at hsame
      rw [Option.some.inj hsame]
      exact (h.agrees q).of_not_staged hnotStaged
    · exact (h.agrees q).of_not_pending hidle

/-- A clear step keeps the system where a sequential run would be. -/
theorem serial_advance (h : Serial ops s order sys) (hclear : Clear ops sys p) :
    Serial ops s (order ++ effectPoint ops sys p) (advance ops sys p) := by
  cases hp : sys.phase p with
  | idle =>
    simp only [advance, hp]
    exact serial_read h hp
  | holding seen =>
    simp only [advance, effectPoint, hp, List.append_nil]
    cases hwrites : (ops p seen).1 with
    | none => exact serial_answer h hp hwrites
    | some written => exact serial_stage h hp hwrites hclear
  | staged seen =>
    simp only [advance, effectPoint, hp]
    cases hstaging : sys.staging with
    | some content => exact serial_rename h hp hstaging hclear
    | none =>
      have hagrees := h.agrees p
      rw [hp, hstaging] at hagrees
      exact absurd hagrees.2.2.1 (by simp)
  | finished reply =>
    simp only [advance, effectPoint, hp, List.append_nil]
    exact h
  | failed =>
    have hagrees := h.agrees p
    rw [hp] at hagrees
    exact hagrees.elim

/-- A clear schedule ends where the sequential run in its order of effects ends. -/
theorem serial_run (h : Serial ops s order sys) (hclear : AllClear ops schedule sys) :
    Serial ops s (order ++ effectOrder ops schedule sys) (run ops schedule sys) := by
  induction schedule generalizing order sys with
  | nil => simpa [effectOrder, run] using h
  | cons p schedule ih =>
    have hrest := ih (serial_advance h hclear.1) hclear.2
    rw [List.append_assoc] at hrest
    exact hrest

end WebOauthMcp.ReadModifyWrite
