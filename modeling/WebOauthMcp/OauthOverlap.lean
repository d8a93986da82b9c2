import WebOauthMcp.OauthUnreadable
import WebOauthMcp.ReadModifyWrite

/-!
# Two servers on one store

During a rolling reload the old and the new server share the state directory, and neither
locks the store. Where no server changes the store or stages a new one while the other one
is still to write from an earlier read, their operations have a sequential effect.
-/

namespace WebOauthMcp.OauthOverlap
open CodePoints Tables Words OauthStore OauthOperations OauthSteps OauthRuns OauthCodes OauthUnreadable ReadModifyWrite

inductive Server where
  | old
  | new
  deriving DecidableEq

instance : Fintype Server := ⟨{.old, .new}, fun p => by cases p <;> simp⟩

/-- The operation each server performs on the store it read. -/
def operations (cfg : OauthConfig) (rt : OauthRuntime) (calls : Server → Call) :
    Operations Server Store (Except OauthError Reply) := fun p s =>
  ((runCall cfg rt (calls p) s).written, (runCall cfg rt (calls p) s).result)

abbrev Shared := System Server Store (Except OauthError Reply)

/-- The server has read the store and is still to write from what it read. -/
def WillWrite (cfg : OauthConfig) (rt : OauthRuntime) (calls : Server → Call) (sys : Shared) (p : Server) : Prop :=
  match sys.phase p with
  | .holding seen => Writes cfg rt (calls p).env seen (calls p).request
  | .staged _ => True
  | _ => False

/-- A server stages only while the other one has not, and renames only while the other one
is not still to write or when the rename leaves the content of the store. -/
def WritersApart (cfg : OauthConfig) (rt : OauthRuntime) (calls : Server → Call) : List Server → Shared → Prop
  | [], _ => True
  | p :: schedule, sys =>
    (WillWrite cfg rt calls sys p → ∀ q, q ≠ p → (sys.phase q).isStaged = false ∧
      ((sys.phase p).isStaged = false ∨ sys.staging = some sys.file ∨ ¬WillWrite cfg rt calls sys q)) ∧
      WritersApart cfg rt calls schedule (advance (operations cfg rt calls) sys p)

variable {cfg : OauthConfig} {rt : OauthRuntime} {calls : Server → Call} {schedule : List Server} {sys : Shared}

theorem isPending_iff (p : Server) :
    (sys.phase p).IsPending (operations cfg rt calls) p ↔ WillWrite cfg rt calls sys p := by
  simp only [WillWrite]
  cases sys.phase p with
  | holding seen => exact perform_writes cfg rt (calls p).env (calls p).request seen
  | _ => exact Iff.rfl

theorem allClear_iff : AllClear (operations cfg rt calls) schedule sys ↔ WritersApart cfg rt calls schedule sys := by
  induction schedule generalizing sys with
  | nil => exact Iff.rfl
  | cons p schedule ih => simp only [AllClear, WritersApart, Clear, isPending_iff, ih]

/-- An order of both servers without repetition is one of the two. -/
theorem order_cases {order : List Server} (hnodup : order.Nodup) (hold : .old ∈ order) (hnew : .new ∈ order) :
    ∃ first second, first ≠ second ∧ order = [first, second] := by
  match order, hnodup, hold, hnew with
  | [], _, hold, _ => exact absurd hold List.not_mem_nil
  | [a], _, hold, hnew =>
    have ha := List.mem_singleton.mp hold
    rw [← ha] at hnew
    exact absurd (List.mem_singleton.mp hnew) (by decide)
  | [a, b], hnodup, _, _ => exact ⟨a, b, by simpa using hnodup, rfl⟩
  | a :: b :: c :: rest, hnodup, _, _ =>
    cases a <;> cases b <;> cases c <;> simp at hnodup

/-- What the two calls do one after the other. -/
structure Sequential (cfg : OauthConfig) (rt : OauthRuntime) (calls : Server → Call) (s : Store) (final : Shared)
    (first second : Server) : Prop where
  different : first ≠ second
  file : final.file = storeAfter cfg rt [calls first, calls second] s
  firstReply : final.phase first = .finished (runCall cfg rt (calls first) s).result
  secondReply : final.phase second =
    .finished (runCall cfg rt (calls second) ((runCall cfg rt (calls first) s).after s)).result

/-- Two operations whose writers keep apart have the store and the replies of one of their
two orders; then no registered client is lost and no code is exchanged by both. -/
theorem apart_sequential (cfg : OauthConfig) (rt : OauthRuntime) (calls : Server → Call) (s : Store)
    (schedule : List Server) (hapart : WritersApart cfg rt calls schedule (.start s))
    (hdone : ∀ p, ∃ reply, (run (operations cfg rt calls) schedule (.start s)).phase p = .finished reply) :
    ∃ first second,
      Sequential cfg rt calls s (run (operations cfg rt calls) schedule (.start s)) first second ∧
      (∀ id, (s.clients.lookup id).isSome = true →
        ((run (operations cfg rt calls) schedule (.start s)).file.clients.lookup id).isSome = true) ∧
      ∀ code, yieldsTokens cfg rt code ⟨calls first, s⟩ = true →
        yieldsTokens cfg rt code ⟨calls second, (runCall cfg rt (calls first) s).after s⟩ = false := by
  have hserial := serial_run (serial_start (operations cfg rt calls) s) (allClear_iff.mpr hapart)
  generalize run (operations cfg rt calls) schedule (.start s) = final at hserial hdone ⊢
  rw [List.nil_append] at hserial
  generalize effectOrder (operations cfg rt calls) schedule (.start s) = order at hserial
  have hreply : ∀ p reply, final.phase p = .finished reply →
      (p, reply) ∈ serialReplies (operations cfg rt calls) order s := by
    intro p reply hp
    have hagrees := hserial.agrees p
    rw [hp] at hagrees
    exact hagrees
  have hmem : ∀ p, p ∈ order := by
    intro p
    obtain ⟨reply, hp⟩ := hdone p
    exact mem_of_mem_serialReplies (hreply p reply hp)
  obtain ⟨first, second, hne, rfl⟩ := order_cases hserial.nodup (hmem .old) (hmem .new)
  have hfile : final.file = storeAfter cfg rt [calls first, calls second] s := hserial.file
  refine ⟨first, second, ⟨hne, hfile, ?_, ?_⟩, ?_, ?_⟩
  · obtain ⟨reply, hp⟩ := hdone first
    have hr := hreply first reply hp
    simp only [serialReplies, List.mem_cons, Prod.mk.injEq, true_and, hne, false_and, List.not_mem_nil, or_false] at hr
    rw [hp, hr]
    rfl
  · obtain ⟨reply, hp⟩ := hdone second
    have hr := hreply second reply hp
    simp only [serialReplies, List.mem_cons, Prod.mk.injEq, true_and, hne.symm, false_and, List.not_mem_nil, or_false,
      false_or] at hr
    rw [hp, hr]
    rfl
  · intro id hid
    rw [hfile]
    exact client_kept (perform_step cfg rt (calls second).env (calls second).request _)
      (client_kept (perform_step cfg rt (calls first).env (calls first).request s) hid)
  · intro code hyields
    rw [← Bool.not_eq_true]
    intro hagain
    obtain ⟨_, _, _, -, -, -, -, hgone⟩ := yieldsTokens_spec hyields
    obtain ⟨_, _, _, -, -, hfound, -⟩ := yieldsTokens_spec hagain
    exact absurd (hgone.symm.trans hfound) (by simp)

/-! ## Two registrations -/

def sampleRegistration (draw : Text) : Call :=
  callAt 0 draw (.register ⟨some [some sampleUri], none⟩)

def sampleRegistrations : Server → Call
  | .old => sampleRegistration (txt "c1")
  | .new => sampleRegistration (txt "c2")

theorem apart_sequential_sample : ∃ first second,
    Sequential sampleConfig sampleRuntime sampleRegistrations .empty
      (run (operations sampleConfig sampleRuntime sampleRegistrations) [.old, .old, .old, .new, .new, .new]
        (.start .empty)) first second := by
  have hapart : WritersApart sampleConfig sampleRuntime sampleRegistrations [.old, .old, .old, .new, .new, .new]
      (.start .empty) := allClear_iff.mp (by decide +kernel)
  obtain ⟨first, second, h, -⟩ := apart_sequential sampleConfig sampleRuntime sampleRegistrations .empty
    [.old, .old, .old, .new, .new, .new] hapart (by
      intro p
      cases p with
      | old => exact ⟨_, rfl⟩
      | new => exact ⟨_, rfl⟩)
  exact ⟨first, second, h⟩

/-- Both servers report a registered client, and one of the two is not in the store. -/
theorem overlapped_registration_lost :
    (run (operations sampleConfig sampleRuntime sampleRegistrations) [.old, .new, .old, .old, .new, .new]
      (.start .empty)).phase .old = .finished (.ok (.client ⟨txt "mcp_client_c1", txt "ChatGPT", [sampleUri], 0⟩)) ∧
    (run (operations sampleConfig sampleRuntime sampleRegistrations) [.old, .new, .old, .old, .new, .new]
      (.start .empty)).phase .new = .finished (.ok (.client ⟨txt "mcp_client_c2", txt "ChatGPT", [sampleUri], 0⟩)) ∧
    (run (operations sampleConfig sampleRuntime sampleRegistrations) [.old, .new, .old, .old, .new, .new]
      (.start .empty)).file.clients.lookup (txt "mcp_client_c1") = none := by
  refine ⟨?_, ?_, ?_⟩
  · decide +kernel
  · decide +kernel
  · decide +kernel

end WebOauthMcp.OauthOverlap
