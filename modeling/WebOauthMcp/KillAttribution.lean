import Mathlib.Data.List.TakeWhile
import WebOauthMcp.KillJob

/-!
# Who killed a job

Killers, readers and the supervisor share the record of a job that was published as running.
Until the supervisor finalizes, its own process answers for it, so nobody interrupts the job,
and the record has a kill signal exactly when a killer sent one. Afterwards the record is
terminal, and a killer's locked step only finds it so.
-/

namespace WebOauthMcp.KillAttribution
open CodePoints JobRecord FaultyPrograms InterleavedPrograms KillJob

variable {ι α β : Type}

/-! ## Programs that only look and interrupt -/

/-- An access that leaves the log, and at most interrupts a stale record. -/
def Quiet (change : Answer → Cell ι → Cell ι) : Prop :=
  ∀ a c, (change a c).log = c.log ∧
    ((change a c).record = c.record ∨ (change a c).record = interruptIfStillStale a.view c.record)

/-- All accesses are quiet. -/
abbrev Silent (P : α → Prop) (x : JobProg ι α) : Prop := x.All (fun _ change => Quiet change) P

theorem look_silent (f : Answer → Record → α) : Silent (fun _ => True) (look f : JobProg ι α) :=
  ⟨fun _ _ => ⟨rfl, .inl rfl⟩, fun _ _ => trivial⟩

theorem interruptStaleRecord_silent : Silent (fun _ => True) (interruptStaleRecord : JobProg ι Record) :=
  ⟨fun _ _ => ⟨rfl, .inr rfl⟩, fun _ _ => trivial⟩

theorem reconcileMetadata_silent (metadata : Record) :
    Silent (fun _ => True) (reconcileMetadata metadata : JobProg ι Record) := by
  rw [reconcileMetadata]
  split_ifs
  · trivial
  · apply all_bind (look_silent _)
    intro commandState _
    apply all_bind (look_silent _)
    intro supervisorState _
    apply all_bind (look_silent _)
    intro now _
    rw [reconcileWith]
    split_ifs
    · trivial
    · exact interruptStaleRecord_silent
    · trivial

theorem waitForTerminalRecord_silent (n : ℕ) (latest : Record) :
    Silent (fun _ => True) (waitForTerminalRecord n latest : JobProg ι Record) := by
  induction n generalizing latest with
  | zero => exact reconcileMetadata_silent latest
  | succ n ih =>
    apply all_bind (look_silent _)
    intro snapshot _
    cases snapshot with
    | none => exact ih latest
    | some snapshot =>
      apply all_bind (reconcileMetadata_silent snapshot)
      intro latest' _
      split_ifs
      · trivial
      · exact ih latest'

theorem waitForGroup_silent (n : ℕ) (pgid : ℤ) : Silent (fun _ => True) (waitForGroup n pgid : JobProg ι Unit) := by
  induction n with
  | zero => trivial
  | succ n ih =>
    apply all_bind (look_silent _)
    intro alive _
    cases alive with
    | true => exact ih
    | false => trivial

/-! ## The course of a killer -/

/-- After a locked step that sent a signal there may be a second one. -/
def Escalates (me : ι) (sent : Bool) (change : Answer → Cell ι → Cell ι) : Prop :=
  Quiet change ∨ sent = true ∧ ∀ a c, (change a c).record = c.record ∧
    ((change a c).log = c.log ∨ (change a c).log = c.log ++ [.escalated me])

/-- The rest of a call after its locked step. -/
abbrev AfterLock (me : ι) (sent : Bool) (x : JobProg ι Reply) : Prop :=
  x.All (fun _ change => Escalates me sent change) fun r => r.signalSent = true → sent = true

/-- Whether a locked step sent its signal. -/
def sentIn : Except MarkStop Marked → Bool
  | .ok m => m.signalSent
  | .error _ => false

/-- Up to its locked step a call is quiet, and without one it reports no signal. -/
def BeforeLock (me : ι) (sig : KillSignal) : JobProg ι Reply → Prop
  | .done r => r.signalSent = false
  | .access _ change next => (Quiet change ∧ ∀ a c, BeforeLock me sig (next a c)) ∨
      ∃ pid pgid, change = markCell me sig pid pgid ∧ ∀ a c, AfterLock me (sentIn (signalAndMark a.view pid pgid sig c.record)) (next a c)

section
variable {me : ι} {sig : KillSignal} {n : Rounds} {sent : Bool}

theorem beforeLock_bind {x : JobProg ι α} {f : α → JobProg ι Reply} {P : α → Prop} (hx : Silent P x)
    (hf : ∀ a, P a → BeforeLock me sig (f a)) : BeforeLock me sig (x >>= f) := by
  induction x with
  | done a => exact hf a hx
  | access k change next ih => exact .inl ⟨hx.1, fun a c => ih a c (hx.2 a c)⟩

theorem afterLock_bind {x : JobProg ι α} {f : α → JobProg ι Reply} {P : α → Prop} (hx : Silent P x)
    (hf : ∀ a, P a → AfterLock me sent (f a)) : AfterLock me sent (x >>= f) :=
  all_bind (Prog.All.mono hx (fun _ _ h => .inl h) fun _ h => h) hf

theorem report_after (metadata : Record) : AfterLock me sent (report sig n sent metadata) := by
  apply afterLock_bind (waitForTerminalRecord_silent n.final metadata)
  exact fun latest _ hsent => hsent

theorem processGone_after (metadata : Record) : AfterLock me sent (processGone sig n sent metadata) := by
  apply afterLock_bind (waitForTerminalRecord_silent n.unverified metadata)
  intro latest _
  split_ifs
  · exact report_after latest
  · exact fun h => nomatch h

theorem sendKill_escalates (hsent : sent = true) (pgid : ℤ) :
    (sendKill me pgid).All (fun _ change => Escalates me sent change) fun _ => True := by
  refine ⟨.inr ⟨hsent, fun a c => ?_⟩, fun _ _ => trivial⟩
  dsimp only
  cases a.view.killpg pgid .kill with
  | ok _ => exact ⟨rfl, .inr rfl⟩
  | error e => exact ⟨rfl, .inl rfl⟩

theorem escalate_after {m : Marked} (hm : m.signalSent = true) (pgid : ℤ) :
    AfterLock me m.signalSent (escalate me sig n pgid m) := by
  apply afterLock_bind (waitForGroup_silent n.grace pgid)
  intro _ _
  apply afterLock_bind (look_silent _)
  intro alive _
  split_ifs
  · apply afterLock_bind (look_silent _)
    intro verified _
    split_ifs
    · apply all_bind (sendKill_escalates hm pgid)
      intro killed _
      cases killed with
      | ok _ => exact report_after m.record
      | error e => cases e with
        | processLookup => exact processGone_after m.record
        | osError reason => exact fun _ => hm
    · exact fun _ => hm
  · exact report_after m.record

theorem afterSignal_after {w : ProcessView} {r : Record} {pid pgid : ℤ} {marked : Except MarkStop Marked}
    (hmarked : signalAndMark w pid pgid sig r = marked) (metadata : Record) :
    AfterLock me (sentIn marked) (afterSignal me sig n metadata pgid marked) := by
  cases marked with
  | error e => cases e with
    | refused message => exact processGone_after metadata
    | kill e => cases e with
      | processLookup => exact processGone_after metadata
      | osError reason => exact fun h => nomatch h
  | ok m =>
    simp only [afterSignal]
    split_ifs with hterminal hterm
    · exact fun h => nomatch h
    · cases signalAndMark_cases hmarked with
      | inl hfound =>
        rw [hfound.2] at hterminal
        exact absurd hfound.1 hterminal
      | inr hsent => exact escalate_after hsent.2.2 pgid
    · exact report_after m.record

theorem signalJob_before (metadata : Record) (pid pgid : ℤ) :
    BeforeLock me sig (signalJob me sig n metadata pid pgid) :=
  .inr ⟨pid, pgid, rfl, fun _ _ => afterSignal_after rfl metadata⟩

theorem killJob_before : BeforeLock me sig (killJob me sig n) := by
  apply beforeLock_bind (look_silent _)
  intro loaded _
  cases loaded with
  | none => rfl
  | some snapshot =>
    apply beforeLock_bind (reconcileMetadata_silent snapshot)
    intro metadata _
    split_ifs
    · rfl
    · apply beforeLock_bind (look_silent _)
      intro identityMatch _
      have hrefuse : BeforeLock me sig (refuseUnverified sig n identityMatch metadata) := by
        apply beforeLock_bind (waitForTerminalRecord_silent n.unverified metadata)
        intro latest _
        split_ifs
        · rfl
        · rfl
        · rfl
      split
      · apply beforeLock_bind (look_silent _)
        intro current _
        cases current with
        | error reason => rfl
        | ok currentPgid =>
          simp only
          split_ifs
          · rfl
          · apply beforeLock_bind (look_silent _)
            intro again _
            split_ifs
            · exact signalJob_before metadata _ currentPgid
            · rfl
      · exact hrefuse

theorem jobStatus_after : AfterLock me false (jobStatus : JobProg ι Reply) := by
  apply afterLock_bind (look_silent _)
  intro loaded _
  cases loaded with
  | none => exact fun h => nomatch h
  | some snapshot =>
    apply afterLock_bind (reconcileMetadata_silent snapshot)
    exact fun metadata _ h => nomatch h

end

/-! ## The log -/

def Event.isFinal : Event ι → Bool
  | .finalized _ => true
  | _ => false

/-- What happened before the supervisor took the lock to finalize. -/
def beforeFinal (log : List (Event ι)) : List (Event ι) := log.takeWhile fun e => !Event.isFinal e

/-- What happened from then on. -/
def fromFinal (log : List (Event ι)) : List (Event ι) := log.dropWhile fun e => !Event.isFinal e

/-- The record has not been finalized. -/
def Open (log : List (Event ι)) : Prop := ∀ e ∈ log, (!Event.isFinal e) = true

section
variable {log : List (Event ι)} {e : Event ι}

theorem open_append (he : Event.isFinal e = false) : Open (log ++ [e]) ↔ Open log := by
  simp [Open, or_imp, forall_and, he]

theorem beforeFinal_of_open (h : Open log) : beforeFinal log = log := List.takeWhile_eq_self_iff.mpr h

theorem fromFinal_of_open (h : Open log) : fromFinal log = [] := List.dropWhile_eq_nil_iff.mpr h

theorem beforeFinal_append_of_not_open (h : ¬Open log) (es : List (Event ι)) :
    beforeFinal (log ++ es) = beforeFinal log := by
  have hne : ¬((log.takeWhile fun e => !Event.isFinal e).length = log.length) := by
    intro hlength
    have hprefix := (List.takeWhile_prefix fun e => !Event.isFinal e).eq_of_length hlength
    exact h (List.takeWhile_eq_self_iff.mp hprefix)
  rw [beforeFinal, List.takeWhile_append, if_neg hne, beforeFinal]

theorem fromFinal_append_of_not_open (h : ¬Open log) (es : List (Event ι)) :
    fromFinal (log ++ es) = fromFinal log ++ es := by
  have hne : ¬((log.dropWhile fun e => !Event.isFinal e).isEmpty = true) := by
    rw [List.isEmpty_iff, List.dropWhile_eq_nil_iff]
    exact h
  rw [fromFinal, List.dropWhile_append, if_neg hne, fromFinal]

theorem mem_of_mem_fromFinal (h : e ∈ fromFinal log) : e ∈ log := (List.dropWhile_suffix _).subset h

end

/-! ## The invariant -/

/-- Some killer sent its signal before the record was finalized. -/
def SignalledBefore (log : List (Event ι)) : Prop := ∃ i, Event.locked i true ∈ beforeFinal log

/-- The record that the log accounts for. -/
structure Inv (c : Cell ι) : Prop where
  running : Open c.log → c.record.status = .running ∧ c.record.exitCode = none
  final : ¬Open c.log → ∃ exitCode, c.record.status = finalStatus exitCode c.record.killSignal ∧
    c.record.exitCode = some exitCode
  signalled : c.record.killSignal.isSome = true ↔ SignalledBefore c.log
  silent : ∀ i, Event.locked i true ∉ fromFinal c.log

theorem finalStatus_terminal (exitCode : ℤ) (killSignal : Option KillSignal) :
    (finalStatus exitCode killSignal).isTerminal = true := by
  rw [finalStatus]
  split_ifs
  · rfl
  · rfl
  · rfl

theorem Inv.terminal_iff {c : Cell ι} (h : Inv c) : c.record.Terminal ↔ ¬Open c.log := by
  refine ⟨fun hterminal hopen => ?_, fun hclosed => ?_⟩
  · rw [Record.Terminal, (h.running hopen).1] at hterminal
    exact nomatch hterminal
  · obtain ⟨exitCode, hstatus, -⟩ := h.final hclosed
    rw [Record.Terminal, hstatus]
    exact finalStatus_terminal exitCode _

/-- Events that neither finalize nor send a first signal do not matter. -/
theorem Inv.of_event {c : Cell ι} (h : Inv c) {e : Event ι} (hfinal : Event.isFinal e = false)
    (hlocked : ∀ i, e ≠ .locked i true) : Inv ⟨c.record, c.log ++ [e]⟩ := by
  have hopen : Open (c.log ++ [_]) ↔ Open c.log := open_append hfinal
  refine ⟨fun ho => h.running (hopen.mp ho), fun ho => h.final fun ho' => ho (hopen.mpr ho'), ?_, fun i hi => ?_⟩
  · rw [h.signalled]
    by_cases ho : Open c.log
    · simp only [SignalledBefore, beforeFinal_of_open ho, beforeFinal_of_open (hopen.mpr ho), List.mem_append,
        List.mem_singleton]
      simp only [fun i => (hlocked i).symm, or_false]
    · simp only [SignalledBefore, beforeFinal_append_of_not_open ho]
  · by_cases ho : Open c.log
    · rw [fromFinal_of_open (hopen.mpr ho)] at hi
      exact nomatch hi
    · rw [fromFinal_append_of_not_open ho] at hi
      cases List.mem_append.mp hi with
      | inl hold => exact h.silent i hold
      | inr hnew => exact hlocked i (List.mem_singleton.mp hnew).symm

/-- The supervisor's process answers for it until it has finalized. -/
def SupervisorAlive (s : Unit → Cell ι) (a : Answer) : Prop :=
  Open (s ()).log → a.view.supervisorState (s ()).record ≠ some false

/-- A quiet access changes nothing, since nobody is gone before the end. -/
theorem quiet_same {change : Answer → Cell ι → Cell ι} (hquiet : Quiet change) {s : Unit → Cell ι} {a : Answer}
    (hinv : Inv (s ())) (ha : SupervisorAlive s a) : change a (s ()) = s () := by
  obtain ⟨hlog, hrecord⟩ := hquiet a (s ())
  have hsame : interruptIfStillStale a.view (s ()).record = (s ()).record := by
    cases interruptIfStillStale_cases a.view (s ()).record with
    | inl hsame => exact hsame
    | inr hinterrupted =>
      have hopen : Open (s ()).log := by
        by_contra hclosed
        exact hinterrupted.1 (hinv.terminal_iff.mpr hclosed)
      exact absurd hinterrupted.2.1.2 (ha hopen)
  have hsame' : (change a (s ())).record = (s ()).record := by
    cases hrecord with
    | inl h => exact h
    | inr h => exact h.trans hsame
  exact Cell.ext hsame' hlog

/-- The locked step of a killer. -/
theorem inv_mark {c : Cell ι} (h : Inv c) (me : ι) (sig : KillSignal) (pid pgid : ℤ) (a : Answer) :
    Inv (markCell me sig pid pgid a c) := by
  rw [markCell]
  cases hmark : signalAndMark a.view pid pgid sig c.record with
  | error e => exact h.of_event rfl fun i hi => nomatch hi
  | ok m =>
    cases signalAndMark_cases hmark with
    | inl hfound =>
      obtain ⟨-, rfl⟩ := hfound
      exact h.of_event rfl fun i hi => nomatch hi
    | inr hsent =>
      obtain ⟨hnot, hrecord, hsignal⟩ := hsent
      have ho : Open c.log := by
        by_contra hclosed
        exact hnot (h.terminal_iff.mpr hclosed)
      have ho' : Open (c.log ++ [Event.locked me m.signalSent]) := (open_append rfl).mpr ho
      refine ⟨fun _ => ?_, fun hclosed => absurd ho' hclosed, ?_, fun i hi => ?_⟩
      · simp only [hrecord]
        exact h.running ho
      · simp only [hrecord, markKill, Option.isSome_some, true_iff]
        refine ⟨me, ?_⟩
        rw [beforeFinal_of_open ho', hsignal]
        exact List.mem_append_right _ (List.mem_singleton.mpr rfl)
      · simp only [fromFinal_of_open ho'] at hi
        exact nomatch hi

theorem inv_finalize {c : Cell ι} (h : Inv c) (hopen : Open c.log) (exitCode : ℤ) (now : ℚ) :
    Inv ⟨finalize exitCode now c.record, c.log ++ [.finalized exitCode]⟩ := by
  have hclosed : ¬Open (c.log ++ [Event.finalized exitCode]) := by
    intro ho
    exact nomatch ho (.finalized exitCode) (List.mem_append_right _ (List.mem_singleton.mpr rfl))
  have hbefore : beforeFinal (c.log ++ [Event.finalized exitCode]) = c.log := by
    rw [beforeFinal, List.takeWhile_append_of_pos hopen]
    exact List.append_nil c.log
  have hfrom : fromFinal (c.log ++ [Event.finalized exitCode]) = [Event.finalized exitCode] := by
    rw [fromFinal, List.dropWhile_append_of_pos hopen]
    rfl
  refine ⟨fun ho => absurd ho hclosed, fun _ => ⟨exitCode, rfl, rfl⟩, ?_, fun i hi => ?_⟩
  · have hsame := h.signalled
    rw [SignalledBefore, beforeFinal_of_open hopen] at hsame
    rw [SignalledBefore, hbefore]
    exact hsame
  · rw [hfrom] at hi
    exact nomatch List.mem_singleton.mp hi

/-! ## The pool -/

/-- Who an event is of; the supervisor has no index. -/
def Event.actor : Event ι → Option ι
  | .locked i _ => some i
  | .escalated i => some i
  | .finalized _ => none

/-- Where a call is, by what the log has of it. -/
inductive Course (i : ι) (x : JobProg ι Reply) (log : List (Event ι)) : Prop
  | before {sig : KillSignal} (rest : BeforeLock i sig x) (none : ∀ e ∈ log, Event.actor e ≠ some i)
  | after {sent : Bool} (rest : AfterLock i sent x) (locked : ∀ b, .locked i b ∈ log → b = sent)
      (escalated : .escalated i ∈ log → sent = true)

/-- The supervisor finalizes once. -/
def Assertion : Option ι → JobProg ι Reply → (Unit → Cell ι) → Prop
  | some i, x, s => Course i x (s ()).log
  | none, x, s => x = finalizeJob ∧ Open (s ()).log ∨ x = .done .finalized

/-- Events of others do not change the course of a call. -/
theorem Course.of_others {i : ι} {x : JobProg ι Reply} {log es : List (Event ι)} (h : Course i x log)
    (hes : ∀ e ∈ es, Event.actor e ≠ some i) : Course i x (log ++ es) := by
  cases h with
  | before rest hnone =>
    refine .before rest fun e he => ?_
    cases List.mem_append.mp he with
    | inl hold => exact hnone e hold
    | inr hnew => exact hes e hnew
  | after rest hlocked hescalated =>
    refine .after rest (fun b hb => ?_) fun he => ?_
    · cases List.mem_append.mp hb with
      | inl hold => exact hlocked b hold
      | inr hnew => exact absurd rfl (hes _ hnew)
    · cases List.mem_append.mp he with
      | inl hold => exact hescalated hold
      | inr hnew => exact absurd rfl (hes _ hnew)

/-- One access, for the invariant, for the rest of its program, and for the log. -/
structure Carries (i : Option ι) (c c' : Cell ι) (next : JobProg ι Reply) : Prop where
  inv : Inv c'
  rest : Assertion i next fun _ => c'
  log : ∃ es, c'.log = c.log ++ es ∧ ∀ e ∈ es, Event.actor e = i

theorem carries_quiet {i : ι} {s : Unit → Cell ι} {a : Answer} {change : Answer → Cell ι → Cell ι}
    {next : JobProg ι Reply} (ha : SupervisorAlive s a) (hinv : Inv (s ())) (hquiet : Quiet change)
    (hnext : Course i next (s ()).log) : Carries (some i) (s ()) (change a (s ())) next := by
  rw [quiet_same hquiet hinv ha]
  exact ⟨hinv, hnext, [], (List.append_nil _).symm, fun _ h => absurd h List.not_mem_nil⟩

theorem markCell_log (me : ι) (sig : KillSignal) (pid pgid : ℤ) (a : Answer) (c : Cell ι) :
    (markCell me sig pid pgid a c).log =
      c.log ++ [.locked me (sentIn (signalAndMark a.view pid pgid sig c.record))] := by
  rw [markCell]
  cases signalAndMark a.view pid pgid sig c.record with
  | ok m => rfl
  | error e => rfl

theorem carries_mark {me : ι} {sig : KillSignal} {pid pgid : ℤ} {a : Answer} {c : Cell ι} {next : JobProg ι Reply}
    (hinv : Inv c) (hnone : ∀ e ∈ c.log, Event.actor e ≠ some me)
    (hnext : AfterLock me (sentIn (signalAndMark a.view pid pgid sig c.record)) next) :
    Carries (some me) c (markCell me sig pid pgid a c) next := by
  have hlog := markCell_log me sig pid pgid a c
  refine ⟨inv_mark hinv me sig pid pgid a, .after hnext (fun b hb => ?_) fun he => ?_, _, hlog, fun e he => ?_⟩
  · rw [hlog] at hb
    cases List.mem_append.mp hb with
    | inl hold => exact absurd rfl (hnone _ hold)
    | inr hnew => exact (Event.locked.inj (List.mem_singleton.mp hnew)).2
  · rw [hlog] at he
    cases List.mem_append.mp he with
    | inl hold => exact absurd rfl (hnone _ hold)
    | inr hnew => exact nomatch List.mem_singleton.mp hnew
  · rw [List.mem_singleton.mp he]
    rfl

theorem carries_escalated {me : ι} {c c' : Cell ι} {next : JobProg ι Reply} (hinv : Inv c)
    (hrecord : c'.record = c.record) (hlog : c'.log = c.log ∨ c'.log = c.log ++ [.escalated me])
    (hnext : AfterLock me true next) (hlocked : ∀ b, .locked me b ∈ c.log → b = true) :
    Carries (some me) c c' next := by
  cases hlog with
  | inl hlog =>
    have hsame : c' = c := Cell.ext hrecord hlog
    rw [hsame]
    exact ⟨hinv, .after hnext hlocked fun _ => rfl, [], (List.append_nil _).symm, fun _ h => absurd h List.not_mem_nil⟩
  | inr hlog =>
    have hsame : c' = ⟨c.record, c.log ++ [.escalated me]⟩ := Cell.ext hrecord hlog
    rw [hsame]
    refine ⟨hinv.of_event rfl fun i hi => (nomatch hi), .after hnext (fun b hb => ?_) fun _ => rfl, _, rfl, fun e he => ?_⟩
    · cases List.mem_append.mp hb with
      | inl hold => exact hlocked b hold
      | inr hnew => exact nomatch List.mem_singleton.mp hnew
    · rw [List.mem_singleton.mp he]
      rfl

/-- Every access of a call or of the supervisor. -/
theorem access_carries {i : Option ι} {change : Answer → Cell ι → Cell ι} {next : Answer → Cell ι → JobProg ι Reply}
    {s : Unit → Cell ι} {a : Answer} (ha : SupervisorAlive s a) (hinv : Inv (s ()))
    (h : Assertion i (.access () change next) s) : Carries i (s ()) (change a (s ())) (next a (s ())) := by
  cases i with
  | none =>
    cases h with
    | inl hfinalize =>
      obtain ⟨hprogram, hopen⟩ := hfinalize
      obtain ⟨-, rfl, rfl⟩ := Prog.access.inj hprogram
      refine ⟨inv_finalize hinv hopen a.exitCode a.view.now, .inr rfl, _, rfl, fun e he => ?_⟩
      rw [List.mem_singleton.mp he]
      rfl
    | inr hdone => exact nomatch hdone
  | some i =>
    cases h with
    | before rest hnone =>
      cases rest with
      | inl hquiet => exact carries_quiet ha hinv hquiet.1 (.before (hquiet.2 a (s ())) hnone)
      | inr hmark =>
        obtain ⟨pid, pgid, rfl, hnext⟩ := hmark
        exact carries_mark hinv hnone (hnext a (s ()))
    | @after sent rest hlocked hescalated =>
      cases rest.1 with
      | inl hquiet => exact carries_quiet ha hinv hquiet (.after (rest.2 a (s ())) hlocked hescalated)
      | inr hsecond =>
        obtain ⟨rfl, hchange⟩ := hsecond
        exact carries_escalated hinv (hchange a (s ())).1 (hchange a (s ())).2 (rest.2 a (s ())) hlocked

theorem pool_respects : Respects SupervisorAlive (fun s => Inv (s ())) (Assertion (ι := ι)) where
  own {i k change next s a} ha hinv h := by
    have hcarries := access_carries ha hinv h
    refine ⟨?_, ?_⟩
    · rw [Function.update_self]
      exact hcarries.inv
    · have hupdate : Function.update s k (change a (s k)) = fun _ => change a (s ()) :=
        funext fun _ => Function.update_self k _ s
      rw [hupdate]
      exact hcarries.rest
  others {i j x k change next s a} hij ha hinv h hj := by
    have hupdate : Function.update s k (change a (s k)) = fun _ => change a (s ()) :=
      funext fun _ => Function.update_self k _ s
    rw [hupdate]
    obtain ⟨es, hlog, hes⟩ := (access_carries ha hinv h).log
    cases j with
    | some j =>
      simp only [Assertion, hlog]
      refine Course.of_others hj fun e he hej => hij ?_
      rw [← hej, hes e he]
    | none =>
      refine hj.imp_left fun hfinalize => ⟨hfinalize.1, ?_⟩
      simp only [hlog]
      intro e he
      cases List.mem_append.mp he with
      | inl hold => exact hfinalize.2 e hold
      | inr hnew => cases e with
        | locked => rfl
        | escalated => rfl
        | finalized => exact absurd (hes _ hnew) hij

/-- A job as the supervisor publishes it. -/
structure PublishedRunning (r : Record) : Prop where
  status : r.status = .running
  exitCode : r.exitCode = none
  killSignal : r.killSignal = none

theorem inv_start {r : Record} (hr : PublishedRunning r) : Inv (⟨r, []⟩ : Cell ι) where
  running _ := ⟨hr.status, hr.exitCode⟩
  final hclosed := absurd (fun _ h => absurd h List.not_mem_nil) hclosed
  signalled := by simp [hr.killSignal, SignalledBefore, beforeFinal]
  silent _ h := absurd h List.not_mem_nil

theorem assertion_start (calls : ι → JobCall) (r : Record) (i : Option ι) :
    Assertion i (programs calls i) fun _ => ⟨r, []⟩ := by
  cases i with
  | none => exact .inl ⟨rfl, fun _ h => absurd h List.not_mem_nil⟩
  | some i =>
    simp only [programs]
    cases calls i with
    | kill sig n => exact .before (killJob_before (n := n)) fun _ h => absurd h List.not_mem_nil
    | status => exact .after jobStatus_after (fun _ h => absurd h List.not_mem_nil) fun h => absurd h List.not_mem_nil

/-- For every interleaving of killers, readers and the supervisor: no record says `succeeded` beside
a kill signal or a nonzero exit code; the final status is `killed` exactly when a killer sent its
signal under the lock before the supervisor finalized; and a killer whose locked step comes
later sends nothing and reports no signal. -/
theorem kill_attribution [DecidableEq ι] (calls : ι → JobCall) (r : Record) (hr : PublishedRunning r)
    (p : Pool (Option ι) Unit (Cell ι) Answer Reply) (hp : Interleaves SupervisorAlive (startPool calls r) p) :
    ((p.store ()).record.status = .succeeded →
      (p.store ()).record.killSignal = none ∧ (p.store ()).record.exitCode = some 0) ∧
    ((∃ exitCode, .finalized exitCode ∈ (p.store ()).log) →
      ((p.store ()).record.status = .killed ↔ SignalledBefore (p.store ()).log)) ∧
    ∀ i sent, .locked i sent ∈ fromFinal (p.store ()).log → sent = false ∧ .escalated i ∉ (p.store ()).log ∧
      ∀ reply, p.rest (some i) = .done reply → reply.signalSent = false := by
  obtain ⟨hinv, hall⟩ := pool_invariant pool_respects hp (inv_start hr) (assertion_start calls r)
  refine ⟨fun hsucceeded => ?_, fun hfinal => ?_, fun i sent hlocked => ?_⟩
  · have hclosed : ¬Open (p.store ()).log := fun ho => by
      rw [(hinv.running ho).1] at hsucceeded
      exact nomatch hsucceeded
    obtain ⟨exitCode, hstatus, hexit⟩ := hinv.final hclosed
    rw [hsucceeded, finalStatus] at hstatus
    split_ifs at hstatus with hkill hzero
    exact ⟨by simpa using hkill, hzero ▸ hexit⟩
  · obtain ⟨exitCode, hexit⟩ := hfinal
    have hclosed : ¬Open (p.store ()).log := fun ho => nomatch ho _ hexit
    obtain ⟨code, hstatus, -⟩ := hinv.final hclosed
    rw [← hinv.signalled, hstatus, finalStatus]
    split_ifs with hkill hzero
    · exact iff_of_true rfl hkill
    · exact iff_of_false (fun h => nomatch h) hkill
    · exact iff_of_false (fun h => nomatch h) hkill
  · have hsent : sent = false := by
      cases sent with
      | true => exact absurd hlocked (hinv.silent i)
      | false => rfl
    subst hsent
    have hmem := mem_of_mem_fromFinal hlocked
    have hcourse : Course i (p.rest (some i)) (p.store ()).log := hall (some i)
    cases hcourse with
    | before _ hnone => exact absurd rfl (hnone _ hmem)
    | @after sent rest hall hescalated =>
      have hfalse : false = sent := hall false hmem
      refine ⟨rfl, fun he => ?_, fun reply hreply => ?_⟩
      · exact nomatch hfalse.trans (hescalated he)
      · rw [hreply] at rest
        cases hsignal : reply.signalSent with
        | false => rfl
        | true => exact nomatch hfalse.trans (rest hsignal)

def publishedRecord : Record :=
  publishRunning 7 (some 7) (some (txt "job")) 2 (publishSupervisor 5 (some (txt "supervisor")) 1 (.starting 0))

/-- Every process is there, and the command ends by the signal. -/
def aliveAnswer : Answer where
  view :=
    { now := 3
      identityMatches := fun _ _ => some true
      getpgid := fun pid => .ok pid
      groupMembers := fun pgid => [(pgid, some (txt "job"))]
      groupExists := fun _ => true
      killpg := fun _ _ => .ok () }
  readable := true
  exitCode := -9

theorem aliveAnswer_allowed {s : Unit → Cell Unit} (h : (s ()).record.supervisorPid = some 5) :
    SupervisorAlive s aliveAnswer := by
  intro _ hgone
  simp only [ProcessView.supervisorState, ProcessView.matches, h] at hgone
  exact nomatch hgone

def killedPool : Pool (Option Unit) Unit (Cell Unit) Answer Reply :=
  startPool (fun _ => .kill .kill ⟨0, 0, 0⟩) publishedRecord

/-- A killer goes through its checks and its locked step. -/
def signalledPool : Pool (Option Unit) Unit (Cell Unit) Answer Reply :=
  (List.replicate 8 (some ())).foldl (fun p i => p.advance i aliveAnswer) killedPool

theorem signalledPool_reached : Interleaves SupervisorAlive killedPool signalledPool := by
  have hstep : ∀ {p}, Interleaves SupervisorAlive killedPool p → (p.store ()).record.supervisorPid = some 5 →
      Interleaves SupervisorAlive killedPool (p.advance (some ()) aliveAnswer) := fun h hs =>
    interleaves_advance h (some ()) (aliveAnswer_allowed hs)
  exact hstep (hstep (hstep (hstep (hstep (hstep (hstep (hstep .refl rfl) rfl) rfl) rfl) rfl) rfl) rfl) rfl

theorem signalled_job_killed : ((signalledPool.advance none aliveAnswer).store ()).record.status = .killed := by
  have hlog : ((signalledPool.advance none aliveAnswer).store ()).log = [.locked () true, .finalized (-9)] := rfl
  have hreached := interleaves_advance signalledPool_reached none (aliveAnswer_allowed rfl)
  refine ((kill_attribution (fun _ => .kill .kill ⟨0, 0, 0⟩) publishedRecord ⟨rfl, rfl, rfl⟩ _ hreached).2.1 ?_).mpr ?_
  · exact ⟨-9, by simp [hlog]⟩
  · exact ⟨(), by simp [hlog, beforeFinal, Event.isFinal]⟩

end WebOauthMcp.KillAttribution
