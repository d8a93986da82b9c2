import WebOauthMcp.LockedTransactions
import WebOauthMcp.ReplaceAtomicity

/-!
# Concurrent batch replacements

A call locks its paths in the order of their texts and touches nothing else until it gives
the locks back, so concurrent calls are locked transactions.
-/

namespace WebOauthMcp.ReplaceOverlap
open CodePoints Words ReplaceRules FaultyPrograms ReplaceFiles ReplaceAtomicity LockedTransactions

/-- The order of the locks. -/
def PathLt (p q : Path) : Prop := textLe p q = true ∧ p ≠ q

theorem pathLt_trans (p q r : Path) (hpq : PathLt p q) (hqr : PathLt q r) : PathLt p r := by
  refine ⟨textLe_trans p q r hpq.1 hqr.1, fun h => ?_⟩
  subst h
  exact hpq.2 (textLe_antisymm p q hpq.1 hqr.1)

theorem pathLt_irrefl (p : Path) : ¬PathLt p p := fun h => h.2 rfl

theorem orderedTargets_ascending {operations : List Operation} {maxReplacements : ℤ} {ts : List Target}
    (h : orderedTargets operations maxReplacements = .ok ts) : (ts.map Target.path).Pairwise PathLt := by
  have hnodup := orderedTargets_nodup h
  obtain ⟨grouped, -, rfl⟩ := orderedTargets_grouped h
  have hsorted : (grouped.mergeSort pathOrder).Pairwise fun s t => pathOrder s t = true :=
    List.pairwise_mergeSort (fun r s t => textLe_trans r.path s.path t.path) (fun s t => textLe_total s.path t.path) grouped
  exact List.Pairwise.and (List.pairwise_map.mpr hsorted) hnodup

/-! ## A call touches its targets only -/

section
variable {S : Set Path}

theorem inspect_within {ε α : Type} {fail : Text → ε} {p : Path} {look : Node → Except ε α} (hp : p ∈ S) :
    Action.Within S (fun _ => True) (inspect fail p look) := ⟨hp, fun _ _ _ _ => trivial⟩

theorem planOne_within {env : Env} {t : Target} {remaining : ℕ} (ht : t.path ∈ S) :
    Action.Within S (fun plan => plan.path = t.path) (planOne env t remaining) := by
  have hlook : Action.Within S (fun _ => True) (checkFile t.path) :=
    action_within_bind (inspect_within ht) fun _ _ => inspect_within ht
  apply action_within_bind hlook
  intro _ _
  apply action_within_bind (inspect_within ht)
  intro raw _
  have hrevision : Action.Within S (fun _ => True) (checkRevision t (env.revision raw)) := by
    rw [checkRevision]
    split_ifs
    · exact action_within_throw
    · exact action_within_pure trivial
  apply action_within_bind hrevision
  intro _ _
  have hplan : Action.Within S (fun _ => True) (liftPlan t.path (planTarget env t raw remaining)) :=
    fun _ _ => trivial
  apply action_within_bind hplan
  intro file _
  apply action_within_bind (inspect_within ht)
  intro mode _
  exact action_within_pure rfl

theorem planAll_within {env : Env} {maxReplacements : ℕ} {ts : List Target} (hts : ∀ t ∈ ts, t.path ∈ S) (total : ℕ) :
    Action.Within S (fun plans => ∀ plan ∈ plans, plan.path ∈ S) (planAll env maxReplacements ts total) := by
  induction ts generalizing total with
  | nil => exact action_within_pure fun _ h => nomatch h
  | cons t ts ih =>
    rw [List.forall_mem_cons] at hts
    apply action_within_bind (planOne_within hts.1)
    intro plan hplan
    apply action_within_bind (ih hts.2 _)
    intro plans hplans
    exact action_within_pure (List.forall_mem_cons.mpr ⟨hplan ▸ hts.1, hplans⟩)

theorem recheck_within {env : Env} {plans : List Plan} (hplans : ∀ plan ∈ plans, plan.path ∈ S) :
    Action.Within S (fun _ => True) (recheck env plans) := by
  induction plans with
  | nil => exact action_within_pure trivial
  | cons plan plans ih =>
    rw [List.forall_mem_cons] at hplans
    apply action_within_bind (inspect_within hplans.1)
    intro raw _
    split_ifs
    · exact ih hplans.2
    · apply action_within_bind (inspect_within hplans.1)
      intro again _
      exact action_within_throw

theorem prepare_within {env : Env} {maxReplacements : ℕ} {ts : List Target} (hts : ∀ t ∈ ts, t.path ∈ S) :
    Action.Within S (fun plans => ∀ plan ∈ plans, plan.path ∈ S) (prepare env ts maxReplacements) := by
  apply action_within_bind (planAll_within hts 0)
  intro plans hplans
  apply action_within_bind (recheck_within hplans)
  intro _ _
  exact action_within_pure hplans

theorem writeVerified_within {env : Env} {p : Path} {raw : Bytes} {mode : ℕ} {revision message : Text} (hp : p ∈ S) :
    Action.Within S (fun _ => True) (writeVerified env p raw mode revision message) := by
  have hwrite : Action.Within S (fun _ => True) (atomicWrite p raw mode) := ⟨hp, fun _ _ _ _ => trivial⟩
  apply action_within_bind hwrite
  intro _ _
  apply action_within_bind (inspect_within hp)
  intro back _
  rw [verify]
  split_ifs
  · exact action_within_pure trivial
  · exact action_within_throw

theorem commitPlans_within {env : Env} {plans attempted : List Plan} (hplans : ∀ plan ∈ plans, plan.path ∈ S)
    (hattempted : ∀ plan ∈ attempted, plan.path ∈ S) :
    (commitPlans env plans attempted).Within S fun c => ∀ plan ∈ c.attempted, plan.path ∈ S := by
  induction plans generalizing attempted with
  | nil => exact hattempted
  | cons plan plans ih =>
    rw [List.forall_mem_cons] at hplans
    rw [commitPlans]
    split_ifs
    · have hmore : ∀ p ∈ attempted ++ [plan], p.path ∈ S := by
        intro p hp
        cases List.mem_append.mp hp with
        | inl hold => exact hattempted p hold
        | inr hnew => exact List.mem_singleton.mp hnew ▸ hplans.1
      apply within_bind (writeVerified_within hplans.1)
      intro r _
      cases r with
      | ok u => exact ih hplans.2 hmore
      | error reason => exact hmore
    · exact ih hplans.2 hattempted

theorem rollBack_within {env : Env} {plans : List Plan} (hplans : ∀ plan ∈ plans, plan.path ∈ S) :
    (rollBack env plans).Within S fun _ => True := by
  induction plans with
  | nil => trivial
  | cons plan plans ih =>
    rw [List.forall_mem_cons] at hplans
    apply within_bind (writeVerified_within hplans.1)
    intro r _
    exact within_bind (ih hplans.2) fun _ _ => trivial

theorem writePlans_within {env : Env} {plans : List Plan} {report : Report} (hplans : ∀ plan ∈ plans, plan.path ∈ S) :
    (writePlans env plans report).Within S fun _ => True := by
  apply within_bind (commitPlans_within hplans fun _ h => absurd h List.not_mem_nil)
  intro c hc
  cases hfailure : c.failure with
  | none => trivial
  | some reason =>
    have hback : ∀ plan ∈ c.attempted.reverse, plan.path ∈ S := fun plan h => hc plan (List.mem_reverse.mp h)
    exact within_bind (rollBack_within hback) fun _ _ => trivial

theorem replaceLocked_within {env : Env} {ts : List Target} {dryRun : Bool} {maxReplacements : ℕ}
    (hts : ∀ t ∈ ts, t.path ∈ S) : (replaceLocked env ts dryRun maxReplacements).Within S fun _ => True := by
  apply within_bind (prepare_within hts)
  intro r hr
  cases r with
  | error stop => trivial
  | ok plans =>
    simp only [finish]
    split_ifs
    · trivial
    · exact within_bind (writePlans_within (hr plans rfl)) fun _ _ => trivial

end

/-! ## Calls as transactions -/

structure Call where
  operations : List Operation
  dryRun : Bool
  maxReplacements : ℤ

/-- The paths that a call locks, in the order of the locks. -/
def Call.locks (c : Call) : List Path :=
  match orderedTargets c.operations c.maxReplacements with
  | .error _ => []
  | .ok ts => ts.map Target.path

theorem locks_ascending (c : Call) : c.locks.Pairwise PathLt := by
  rw [Call.locks]
  cases h : orderedTargets c.operations c.maxReplacements with
  | error e => exact .nil
  | ok ts => exact orderedTargets_ascending h

theorem replaceFiles_within (env : Env) (c : Call) :
    (replaceFiles env c.operations c.dryRun c.maxReplacements).Within {p | p ∈ c.locks} fun _ => True := by
  rw [replaceFiles]
  cases h : orderedTargets c.operations c.maxReplacements with
  | error e => trivial
  | ok ts =>
    apply replaceLocked_within
    intro t ht
    simp only [Call.locks, h]
    exact List.mem_map_of_mem ht

def Call.transaction (env : Env) (c : Call) : Transaction Path Node Fault Reply PathLt where
  locks := c.locks
  body := replaceFiles env c.operations c.dryRun c.maxReplacements
  ascending := locks_ascending c
  within := replaceFiles_within env c

/-! ## One expected revision -/

/-- One of the call's operations expects this revision of the file. -/
def Call.Expects (c : Call) (p : Path) (revision : Text) : Prop :=
  ∃ ts, orderedTargets c.operations c.maxReplacements = .ok ts ∧
    ∃ t ∈ ts, t.path = p ∧ t.expectedRevision = .text revision

theorem Call.Expects.mem_locks {c : Call} {p : Path} {revision : Text} (h : c.Expects p revision) : p ∈ c.locks := by
  obtain ⟨ts, hts, t, ht, rfl, -⟩ := h
  simp only [Call.locks, hts]
  exact List.mem_map_of_mem ht

/-- The file has bytes of another revision. -/
def Differs (env : Env) (revision : Text) (n : Node) : Prop := ∃ raw mode, n = .file raw mode ∧ env.revision raw ≠ revision

theorem planned_expected {env : Env} {s : Path → Node} {maxReplacements total : ℕ} {ts : List Target}
    {plans : List Plan} (h : Planned env s maxReplacements ts total plans) :
    ∀ t ∈ ts, ∃ raw mode, s t.path = .file raw mode ∧ conflicts t.expectedRevision (env.revision raw) = false := by
  induction h with
  | nil => exact fun _ h => nomatch h
  | cons hplan _ ih =>
    exact List.forall_mem_cons.mpr ⟨⟨_, _, hplan.path ▸ hplan.node, hplan.expected⟩, ih⟩

theorem not_planned {env : Env} {s : Path → Node} {maxReplacements : ℕ} {ts : List Target} {plans : List Plan}
    {t : Target} {revision : Text} (ht : t ∈ ts) (hexpects : t.expectedRevision = .text revision)
    (hdiffers : Differs env revision (s t.path)) : ¬Planned env s maxReplacements ts 0 plans := by
  intro h
  obtain ⟨raw, mode, hnode, hagree⟩ := planned_expected h t ht
  obtain ⟨raw', mode', hnode', hne⟩ := hdiffers
  obtain ⟨rfl, rfl⟩ := Node.file.inj (hnode.symm.trans hnode')
  rw [hexpects] at hagree
  exact hne (not_not.mp (of_decide_eq_false hagree)).symm

/-- A call that expects another revision of a file is refused and changes nothing. -/
theorem conflict_ensures {env : Env} {c : Call} {p : Path} {revision : Text} {s : Path → Node}
    (hexpects : c.Expects p revision) (hdiffers : Differs env revision (s p)) :
    (c.transaction env).body.Ensures s fun reply s' => s' = s ∧ ∀ report, reply ≠ .success report := by
  obtain ⟨ts, hts, t, ht, rfl, hrevision⟩ := hexpects
  simp only [Call.transaction, replaceFiles, hts]
  refine ensures_bind.mpr ((prepare_ensures env ts _ s).mono fun r s' hr => ?_)
  obtain ⟨rfl, hplans⟩ := hr
  cases r with
  | ok plans => exact absurd (hplans plans rfl) (not_planned ht hrevision hdiffers)
  | error stop =>
    refine ⟨rfl, fun report h => ?_⟩
    cases stop with
    | refused e => exact Reply.noConfusion h
    | raised reason => exact Reply.noConfusion h

/-- Alone, the call succeeds and changes the file. -/
structure ChangesAlone (env : Env) (c : Call) (faults : ℕ → Fault) (fs : Path → Node) (p : Path) (revision : Text) :
    Prop where
  expects : c.Expects p revision
  succeeds : ∃ report, ((c.transaction env).body.run faults fs).result = .success report
  changes : Differs env revision (((c.transaction env).body.run faults fs).store p)

section
variable {n : ℕ} {env : Env} {calls : Fin n → Call} {faults : Fin n → ℕ → Fault} {p : Path} {revision : Text}
  {chosen : Fin n → Prop} {order : List (Fin n)} {s : Path → Node}

/-- The calls, one after the other. -/
abbrev inOrder (env : Env) (calls : Fin n → Call) (faults : Fin n → ℕ → Fault) (order : List (Fin n)) (s : Path → Node) :
    Ran Path Node (List (Fin n × Reply)) := sequential (fun i => (calls i).transaction env) faults order s

/-- Once the file has changed, none of the calls that expect the old revision succeeds. -/
theorem none_succeeds_after (hexpects : ∀ i, chosen i → (calls i).Expects p revision)
    (hothers : ∀ i, ¬chosen i → p ∉ (calls i).locks) (hdiffers : Differs env revision (s p)) :
    ∀ i report, chosen i → (i, Reply.success report) ∉ (inOrder env calls faults order s).result := by
  induction order generalizing s with
  | nil => exact fun _ _ _ => List.not_mem_nil
  | cons j order ih =>
    intro i report hi hmem
    have hcons := List.mem_cons.mp hmem
    by_cases hj : chosen j
    · have hrefused := (conflict_ensures (hexpects j hj) hdiffers).run (faults j)
      cases hcons with
      | inl heq => exact hrefused.2 report (Prod.mk.inj heq).2.symm
      | inr hrest =>
        rw [hrefused.1] at hrest
        exact ih hdiffers i report hi hrest
    · have hkept := run_frame ((calls j).transaction env).within (faults j) s (hothers j hj)
      cases hcons with
      | inl heq => exact hj ((Prod.mk.inj heq).1 ▸ hi)
      | inr hrest => exact ih (hkept.symm ▸ hdiffers) i report hi hrest

/-- The first one of them succeeds, as it does alone. -/
theorem first_succeeds {fs : Path → Node} (hchanges : ∀ i, chosen i → ChangesAlone env (calls i) (faults i) fs p revision)
    (hothers : ∀ i j, ¬chosen i → chosen j → ∀ q ∈ (calls j).locks, q ∉ (calls i).locks)
    (hsame : ∀ i, chosen i → ∀ q ∈ (calls i).locks, s q = fs q) (hnodup : order.Nodup) (hsome : ∃ i ∈ order, chosen i) :
    ∃! i, chosen i ∧ ∃ report, (i, Reply.success report) ∈ (inOrder env calls faults order s).result := by
  induction order generalizing s with
  | nil =>
    obtain ⟨i, hi, -⟩ := hsome
    exact absurd hi List.not_mem_nil
  | cons j order ih =>
    rw [List.nodup_cons] at hnodup
    have hcalls : ∀ {i reply t}, (i, reply) ∈ (inOrder env calls faults order t).result → i ∈ order := by
      intro i reply t h
      rw [← sequential_calls (fun i => (calls i).transaction env) faults order t]
      exact List.mem_map_of_mem h
    by_cases hj : chosen j
    · have hj' := hchanges j hj
      have hrun := run_congr ((calls j).transaction env).within (faults j) (hsame j hj)
      obtain ⟨report, hreport⟩ := hj'.succeeds
      refine ⟨j, ⟨hj, report, ?_⟩, ?_⟩
      · exact List.mem_cons.mpr (.inl (congrArg _ (hreport.symm.trans hrun.1.symm)))
      · intro i hi
        obtain ⟨hchosen, report', hmem⟩ := hi
        cases List.mem_cons.mp hmem with
        | inl heq => exact (Prod.mk.inj heq).1
        | inr hrest =>
          have hdiffers := (hrun.2 p hj'.expects.mem_locks).symm ▸ hj'.changes
          refine absurd hrest (none_succeeds_after (fun i hi => (hchanges i hi).expects) ?_ hdiffers i report' hchosen)
          exact fun i hi => hothers i j hi hj p hj'.expects.mem_locks
    · have hkept : ∀ i, chosen i → ∀ q ∈ (calls i).locks,
          (((calls j).transaction env).body.run (faults j) s).store q = fs q := fun i hi q hq =>
        (run_frame ((calls j).transaction env).within (faults j) s (hothers j i hj hi q hq)).trans (hsame i hi q hq)
      have hrest : ∃ i ∈ order, chosen i := by
        obtain ⟨i, hi, hchosen⟩ := hsome
        cases List.mem_cons.mp hi with
        | inl heq => exact absurd (heq ▸ hchosen) hj
        | inr hi => exact ⟨i, hi, hchosen⟩
      obtain ⟨i, ⟨hi, report, hmem⟩, huniq⟩ := ih hkept hnodup.2 hrest
      refine ⟨i, ⟨hi, report, List.mem_cons_of_mem _ hmem⟩, fun l hl => huniq l ⟨hl.1, ?_⟩⟩
      obtain ⟨hchosen, report', hmem'⟩ := hl
      cases List.mem_cons.mp hmem' with
      | inl heq => exact absurd ((Prod.mk.inj heq).1 ▸ hchosen) hj
      | inr hl => exact ⟨report', hl⟩

end

/-! ## All interleavings -/

/-- Concurrent calls never wait in a cycle and one of them can always go on. When they are over,
the files and the replies are those of some order of the calls. Of calls that expect one
revision of a file and each change it, exactly one succeeds, as long as the other calls keep
off their files. -/
theorem concurrent_calls_serializable (env : Env) {n : ℕ} (calls : Fin n → Call) (faults : Fin n → ℕ → Fault)
    (fs : Path → Node) (s : System (Fin n) Path Node Fault Reply)
    (h : Reachable (fun i => (calls i).transaction env) faults fs s) :
    (∀ i, ¬Relation.TransGen s.Waits i i) ∧
    (s.Over ∨ ∃ i s', advance (fun i => (calls i).transaction env) faults s i = some s') ∧
    (s.Over → (∃ order : List (Fin n), order.Nodup ∧ (∀ i, i ∈ order) ∧
      s.store = (inOrder env calls faults order fs).store ∧
      ∀ i reply, s.threads i = ⟨[], .ended reply⟩ ↔ (i, reply) ∈ (inOrder env calls faults order fs).result) ∧
      ∀ (p : Path) (revision : Text) (chosen : Fin n → Prop), (∃ i, chosen i) →
        (∀ i, chosen i → ChangesAlone env (calls i) (faults i) fs p revision) →
        (∀ i j, ¬chosen i → chosen j → ∀ q ∈ (calls j).locks, q ∉ (calls i).locks) →
        ∃! i, chosen i ∧ ∃ report, s.threads i = ⟨[], .ended (.success report)⟩) := by
  have hlock := (reachable_inv h).1
  refine ⟨waits_acyclic pathLt_trans pathLt_irrefl hlock, progress pathLt_trans pathLt_irrefl hlock, fun hover => ?_⟩
  obtain ⟨order, hnodup, hall, hstore, houtcomes⟩ := serializable h hover
  refine ⟨⟨order, hnodup, hall, hstore, houtcomes⟩, fun p revision chosen hsome hchanges hothers => ?_⟩
  obtain ⟨i, hi⟩ := hsome
  have hfirst := first_succeeds hchanges hothers (fun _ _ _ _ => rfl) hnodup ⟨i, hall i, hi⟩
  simpa only [houtcomes] using hfirst

/-! ### Two writers of one file -/

def plainEnv : Env where
  codecs := plainRegistry
  regexes := noEngine
  revision raw := raw.map fun b => Fin.ofNat _ b.val

def onlyFile (p : Path) : Node := if p = txt "/f" then .file [0x61] 0o644 else .missing

/-- Replaces `a` in `/f`, and expects the revision of `a`. -/
def rewriting (replacement : Text) : Call where
  operations := [⟨some (txt "/f"), some [literalRule (txt "a") replacement], .text (txt "a"), .absent⟩]
  dryRun := false
  maxReplacements := 10

def rewritten (replacement : Text) : Target := ⟨txt "/f", [literalRule (txt "a") replacement], .text (txt "a"), .absent⟩

theorem rewriting_targets (replacement : Text) :
    orderedTargets (rewriting replacement).operations (rewriting replacement).maxReplacements =
      .ok [rewritten replacement] := by
  have hgroup : groupOperations (rewriting replacement).operations [] = .ok [rewritten replacement] := rfl
  have hsome : (rewriting replacement).operations ≠ [] := List.cons_ne_nil _ _
  have hpositive : ¬(10 : ℤ) ≤ 0 := by decide
  simp only [orderedTargets, if_neg hsome, hgroup]
  refine (if_neg hpositive).trans ?_
  exact congrArg Except.ok (List.mergeSort_singleton _)

/-- The transaction of `rewriting`, with its only target. -/
def rewritingFile (replacement : Text) : Transaction Path Node Fault Reply PathLt where
  locks := [txt "/f"]
  body := replaceLocked plainEnv [rewritten replacement] false 10
  ascending := List.pairwise_singleton _ _
  within := replaceLocked_within fun t ht => by simp [List.mem_singleton.mp ht, rewritten]

theorem rewriting_transaction (replacement : Text) :
    (rewriting replacement).transaction plainEnv = rewritingFile replacement := by
  have hlocks : (rewriting replacement).locks = [txt "/f"] := by
    simp only [Call.locks, rewriting_targets]
    rfl
  have hbody : replaceFiles plainEnv (rewriting replacement).operations (rewriting replacement).dryRun
      (rewriting replacement).maxReplacements = replaceLocked plainEnv [rewritten replacement] false 10 := by
    simp only [replaceFiles, rewriting_targets]
    rfl
  simp only [Call.transaction, hlocks, hbody, rewritingFile]

def twoCalls (i : Fin 2) : Call := rewriting (if i = 0 then txt "b" else txt "c")

def twoTransactions (i : Fin 2) : Transaction Path Node Fault Reply PathLt :=
  rewritingFile (if i = 0 then txt "b" else txt "c")

theorem twoCalls_transactions : (fun i => (twoCalls i).transaction plainEnv) = twoTransactions :=
  funext fun i => rewriting_transaction (if i = 0 then txt "b" else txt "c")

theorem twoCalls_change : ∀ i, ChangesAlone plainEnv (twoCalls i) (fun _ => .none) onlyFile (txt "/f") (txt "a") := by
  have hbody : ∀ i, (twoCalls i).transaction plainEnv = twoTransactions i := congrFun twoCalls_transactions
  intro i
  refine ⟨⟨_, rewriting_targets _, _, List.mem_singleton.mpr rfl, rfl, rfl⟩, ?_, ?_⟩
  · rw [hbody]
    revert i
    exact Fin.forall_fin_two.mpr ⟨⟨_, rfl⟩, ⟨_, rfl⟩⟩
  · rw [hbody]
    revert i
    exact Fin.forall_fin_two.mpr ⟨⟨[0x62], 0o644, rfl, by decide⟩, ⟨[0x63], 0o644, rfl, by decide⟩⟩

/-- The second call starts when the first one has given its lock back. -/
def afterBoth : System (Fin 2) Path Node Fault Reply :=
  (schedule twoTransactions (fun _ _ => .none) (List.replicate 11 0 ++ List.replicate 7 1)
    (initial twoTransactions onlyFile)).get rfl

theorem afterBoth_over : afterBoth.Over := Fin.forall_fin_two.mpr ⟨⟨_, rfl⟩, ⟨_, rfl⟩⟩

theorem afterBoth_reachable :
    Reachable (fun i => (twoCalls i).transaction plainEnv) (fun _ _ => .none) onlyFile afterBoth := by
  rw [twoCalls_transactions]
  exact reachable_schedule .init (Option.some_get _).symm

theorem two_writers_one_succeeds : ∃! i, True ∧ ∃ report, afterBoth.threads i = ⟨[], .ended (.success report)⟩ :=
  ((concurrent_calls_serializable plainEnv twoCalls (fun _ _ => .none) onlyFile afterBoth
    afterBoth_reachable).2.2 afterBoth_over).2 (txt "/f") (txt "a") (fun _ => True) ⟨0, trivial⟩
    (fun i _ => twoCalls_change i) fun _ _ h => absurd trivial h

end WebOauthMcp.ReplaceOverlap
