import WebOauthMcp.ReplaceFiles

/-!
# A batch changes all of its files or none

Planning and checking touch no file. The writing loop only touches the files that it
attempts, and rolling back without an error gives all of these their bytes and modes back.
-/

namespace WebOauthMcp.ReplaceAtomicity
open CodePoints Words BudgetMetadata ReplaceRules FaultyPrograms ReplaceFiles

/-! ## Planning touches nothing -/

theorem inspect_ensures {ε α : Type} (fail : Text → ε) (p : Path) (look : Node → Except ε α) (s : Path → Node) :
    Action.Ensures (inspect fail p look) s fun r s' => s' = s ∧ ∀ a, r = .ok a → look (s p) = .ok a := by
  intro fault
  refine ⟨Function.update_eq_self p s, fun a ha => ?_⟩
  cases fault with
  | none => exact ha
  | before reason => exact nomatch ha
  | after reason => exact nomatch ha

theorem checkFile_ensures (p : Path) (s : Path → Node) :
    Action.Ensures (checkFile p) s fun r s' => s' = s ∧ ∀ a, r = .ok a → True := by
  apply action_ensures_bind_of_unchanged (inspect_ensures _ p _ s)
  · intro _ _
    exact (inspect_ensures _ p _ s).mono fun r s' h => ⟨h.1, fun _ _ => trivial⟩
  · exact fun e => ⟨rfl, fun _ _ => trivial⟩

theorem readBytes_ensures {ε : Type} (fail : Text → ε) (p : Path) (s : Path → Node) :
    Action.Ensures (readBytes fail p) s fun r s' => s' = s ∧ ∀ raw, r = .ok raw → ∃ mode, s p = .file raw mode := by
  refine (inspect_ensures fail p _ s).mono fun r s' h => ⟨h.1, fun raw hraw => ?_⟩
  have hlook := h.2 raw hraw
  cases hnode : s p with
  | missing =>
    rw [hnode] at hlook
    exact nomatch hlook
  | other =>
    rw [hnode] at hlook
    exact nomatch hlook
  | file b mode =>
    rw [hnode] at hlook
    obtain rfl := Except.ok.inj hlook
    exact ⟨mode, rfl⟩

theorem fileMode_ensures (p : Path) (s : Path → Node) :
    Action.Ensures (fileMode p) s fun r s' => s' = s ∧ ∀ mode, r = .ok mode → ∃ raw, s p = .file raw mode := by
  refine (inspect_ensures _ p _ s).mono fun r s' h => ⟨h.1, fun mode hmode => ?_⟩
  have hlook := h.2 mode hmode
  cases hnode : s p with
  | missing =>
    rw [hnode] at hlook
    exact nomatch hlook
  | other =>
    rw [hnode] at hlook
    exact nomatch hlook
  | file raw m =>
    rw [hnode] at hlook
    obtain rfl := Except.ok.inj hlook
    exact ⟨raw, rfl⟩

theorem checkRevision_ensures (t : Target) (actual : Text) (s : Path → Node) :
    Action.Ensures (checkRevision t actual) s fun r s' =>
      s' = s ∧ ∀ a, r = .ok a → conflicts t.expectedRevision actual = false := by
  rw [checkRevision]
  split_ifs with h
  · exact action_ensures_throw ⟨rfl, fun _ ha => nomatch ha⟩
  · exact action_ensures_pure ⟨rfl, fun _ _ => by simpa using h⟩

theorem liftPlan_ensures (p : Path) (x : Except PlanStop FilePlan) (s : Path → Node) :
    Action.Ensures (liftPlan p x) s fun r s' => s' = s ∧ ∀ file, r = .ok file → x = .ok file :=
  ⟨rfl, fun _ h => (ExceptSteps.mapError_ok_iff _).mp h⟩

/-- The plan is what the target's rules make of the file. -/
structure PlanOf (env : Env) (s : Path → Node) (t : Target) (remaining : ℕ) (plan : Plan) : Prop where
  path : plan.path = t.path
  node : s plan.path = .file plan.beforeRaw plan.mode
  file : planTarget env t plan.beforeRaw remaining = .ok plan.file
  expected : conflicts t.expectedRevision (env.revision plan.beforeRaw) = false
  before : plan.beforeRevision = env.revision plan.beforeRaw
  after : plan.afterRevision = env.revision plan.afterRaw

theorem planOne_ensures (env : Env) (t : Target) (remaining : ℕ) (s : Path → Node) :
    Action.Ensures (planOne env t remaining) s fun r s' => s' = s ∧ ∀ plan, r = .ok plan → PlanOf env s t remaining plan := by
  have hstop : ∀ e : Stop, s = s ∧ ∀ plan, (Except.error e : Except Stop Plan) = .ok plan →
      PlanOf env s t remaining plan := fun e => ⟨rfl, fun _ h => nomatch h⟩
  apply action_ensures_bind_of_unchanged (checkFile_ensures t.path s) _ hstop
  intro _ _
  apply action_ensures_bind_of_unchanged (readBytes_ensures _ t.path s) _ hstop
  intro raw hraw
  apply action_ensures_bind_of_unchanged (checkRevision_ensures t (env.revision raw) s) _ hstop
  intro _ hexpected
  apply action_ensures_bind_of_unchanged (liftPlan_ensures t.path (planTarget env t raw remaining) s) _ hstop
  intro file hfile
  apply action_ensures_bind_of_unchanged (fileMode_ensures t.path s) _ hstop
  intro mode hmode
  obtain ⟨m, hm⟩ := hraw
  obtain ⟨b, hb⟩ := hmode
  obtain ⟨rfl, rfl⟩ := Node.file.inj (hm.symm.trans hb)
  refine action_ensures_pure ⟨rfl, fun plan hplan => ?_⟩
  obtain rfl := Except.ok.inj hplan
  exact ⟨rfl, hm, hfile, hexpected, rfl, rfl⟩

/-- The plans of a batch, each within what the earlier ones leave of the budget. -/
inductive Planned (env : Env) (s : Path → Node) (maxReplacements : ℕ) : List Target → ℕ → List Plan → Prop
  | nil {total : ℕ} : Planned env s maxReplacements [] total []
  | cons {t : Target} {ts : List Target} {total : ℕ} {plan : Plan} {plans : List Plan} :
      PlanOf env s t (maxReplacements - total) plan →
      Planned env s maxReplacements ts (total + plan.file.replacements) plans →
      Planned env s maxReplacements (t :: ts) total (plan :: plans)

theorem planAll_ensures (env : Env) (maxReplacements : ℕ) (ts : List Target) (total : ℕ) (s : Path → Node) :
    Action.Ensures (planAll env maxReplacements ts total) s fun r s' =>
      s' = s ∧ ∀ plans, r = .ok plans → Planned env s maxReplacements ts total plans := by
  induction ts generalizing total with
  | nil =>
    refine action_ensures_pure ⟨rfl, fun plans hplans => ?_⟩
    obtain rfl := Except.ok.inj hplans
    exact .nil
  | cons t ts ih =>
    apply action_ensures_bind_of_unchanged (planOne_ensures env t (maxReplacements - total) s)
    · intro plan hplan
      apply action_ensures_bind_of_unchanged (ih (total + plan.file.replacements))
      · intro plans hplans
        refine action_ensures_pure ⟨rfl, fun all hall => ?_⟩
        obtain rfl := Except.ok.inj hall
        exact .cons hplan hplans
      · exact fun e => ⟨rfl, fun _ h => nomatch h⟩
    · exact fun e => ⟨rfl, fun _ h => nomatch h⟩

theorem recheck_ensures (env : Env) (plans : List Plan) (s : Path → Node) :
    Action.Ensures (recheck env plans) s fun r s' => s' = s ∧ ∀ a, r = .ok a → True := by
  induction plans with
  | nil => exact action_ensures_pure ⟨rfl, fun _ _ => trivial⟩
  | cons plan plans ih =>
    apply action_ensures_bind_of_unchanged (readBytes_ensures _ plan.path s)
    · intro raw _
      split_ifs
      · exact ih
      · apply action_ensures_bind_of_unchanged (readBytes_ensures _ plan.path s)
        · intro again _
          exact action_ensures_throw ⟨rfl, fun _ _ => trivial⟩
        · exact fun e => ⟨rfl, fun _ _ => trivial⟩
    · exact fun e => ⟨rfl, fun _ _ => trivial⟩

/-- Up to the first write nothing has changed. -/
theorem prepare_ensures (env : Env) (targets : List Target) (maxReplacements : ℕ) (s : Path → Node) :
    Action.Ensures (prepare env targets maxReplacements) s fun r s' =>
      s' = s ∧ ∀ plans, r = .ok plans → Planned env s maxReplacements targets 0 plans := by
  apply action_ensures_bind_of_unchanged (planAll_ensures env maxReplacements targets 0 s)
  · intro plans hplans
    apply action_ensures_bind_of_unchanged (recheck_ensures env plans s)
    · intro _ _
      refine action_ensures_pure ⟨rfl, fun all hall => ?_⟩
      obtain rfl := Except.ok.inj hall
      exact hplans
    · exact fun e => ⟨rfl, fun _ h => nomatch h⟩
  · exact fun e => ⟨rfl, fun _ h => nomatch h⟩

theorem Planned.targets {env : Env} {s : Path → Node} {maxReplacements total : ℕ} {ts : List Target}
    {plans : List Plan} (h : Planned env s maxReplacements ts total plans) :
    plans.map Plan.path = ts.map Target.path := by
  induction h with
  | nil => rfl
  | cons hplan _ ih => rw [List.map_cons, List.map_cons, hplan.path, ih]

theorem Planned.nodes {env : Env} {s : Path → Node} {maxReplacements total : ℕ} {ts : List Target}
    {plans : List Plan} (h : Planned env s maxReplacements ts total plans) :
    ∀ plan ∈ plans, s plan.path = .file plan.beforeRaw plan.mode := by
  induction h with
  | nil => exact fun _ hp => nomatch hp
  | cons hplan _ ih => exact List.forall_mem_cons.mpr ⟨hplan.node, ih⟩

/-! ## Writing -/

/-- Only `p` changes, and a write that succeeds leaves its bytes and mode. -/
def Wrote (p : Path) (raw : Bytes) (mode : ℕ) (s : Path → Node) (r : Except Text Unit) (s' : Path → Node) : Prop :=
  (∀ q, q ≠ p → s' q = s q) ∧ (r = .ok () → s' p = .file raw mode)

theorem written_of_ok {raw : Bytes} {mode : ℕ} {fault : Fault} {n : Node} (h : writeResult fault n = .ok ()) :
    written raw mode fault n = .file raw mode := by
  cases fault with
  | none =>
    cases n with
    | missing => rfl
    | other => exact nomatch h
    | file b m => rfl
  | before reason => exact nomatch h
  | after reason => exact nomatch h

theorem atomicWrite_ensures (p : Path) (raw : Bytes) (mode : ℕ) (s : Path → Node) :
    Action.Ensures (atomicWrite p raw mode) s (Wrote p raw mode s) := by
  intro fault
  refine ⟨fun q hq => Function.update_of_ne hq _ s, fun hr => ?_⟩
  exact (Function.update_self p _ s).trans (written_of_ok hr)

theorem verify_ensures (env : Env) (raw : Bytes) (revision message : Text) (s : Path → Node) :
    Action.Ensures (verify env raw revision message) s fun _ s' => s' = s := by
  rw [verify]
  split_ifs
  · exact action_ensures_pure rfl
  · exact action_ensures_throw rfl

theorem writeVerified_ensures (env : Env) (p : Path) (raw : Bytes) (mode : ℕ) (revision message : Text)
    (s : Path → Node) :
    Action.Ensures (writeVerified env p raw mode revision message) s (Wrote p raw mode s) := by
  refine action_ensures_bind ((atomicWrite_ensures p raw mode s).mono fun r s' hwrote => ⟨?_, ?_⟩)
  · intro _ hok
    apply action_ensures_bind_of_unchanged (readBytes_ensures id p s')
    · intro back _
      refine (verify_ensures env back revision message s').mono fun r' s'' hsame => ?_
      rw [hsame]
      exact ⟨hwrote.1, fun _ => hwrote.2 hok⟩
    · exact fun e => ⟨hwrote.1, fun h => nomatch h⟩
  · exact fun e _ => ⟨hwrote.1, fun h => nomatch h⟩

/-- Where the writing loop ends: it wrote to what it newly attempted, which are changed plans in
their order, and without a failure these are all of them, written. -/
structure Committed (plans attempted : List Plan) (s : Path → Node) (c : Commit) (more : List Plan)
    (s' : Path → Node) : Prop where
  attempted : c.attempted = attempted ++ more
  changed : more.Sublist (plans.filter Plan.changed)
  frame : ∀ q, q ∉ more.map Plan.path → s' q = s q
  complete : c.failure = none → more = plans.filter Plan.changed
  written : c.failure = none → ∀ plan ∈ more, s' plan.path = .file plan.afterRaw plan.mode

theorem commitPlans_ensures (env : Env) (plans attempted : List Plan) (s : Path → Node)
    (hpaths : (plans.map Plan.path).Nodup) :
    (commitPlans env plans attempted).Ensures s fun c s' => ∃ more, Committed plans attempted s c more s' := by
  induction plans generalizing attempted s with
  | nil => exact ⟨[], (List.append_nil attempted).symm, .slnil, fun _ _ => rfl, fun _ => rfl, fun _ _ h => nomatch h⟩
  | cons plan plans ih =>
    rw [List.map_cons, List.nodup_cons] at hpaths
    rw [commitPlans]
    split_ifs with hchanged
    · have hfilter : (plan :: plans).filter Plan.changed = plan :: plans.filter Plan.changed :=
        List.filter_cons_of_pos hchanged
      refine ensures_bind.mpr ((writeVerified_ensures env plan.path plan.afterRaw plan.mode plan.afterRevision
        _ s).mono fun r s₁ hwrote => ?_)
      cases r with
      | error reason =>
        refine ⟨[plan], rfl, ?_, ?_, fun h => (nomatch h), fun h => (nomatch h)⟩
        · rw [hfilter]
          exact (List.nil_sublist _).cons_cons plan
        · exact fun q hq => hwrote.1 q (by simpa using hq)
      | ok u =>
        refine (ih (attempted ++ [plan]) s₁ hpaths.2).mono fun c s' hc => ?_
        obtain ⟨more, hc⟩ := hc
        have hfresh : plan.path ∉ more.map Plan.path := fun h =>
          hpaths.1 (((hc.changed.trans List.filter_sublist).map Plan.path).subset h)
        refine ⟨plan :: more, ?_, ?_, ?_, ?_, ?_⟩
        · rw [hc.attempted, List.append_assoc]
          rfl
        · rw [hfilter]
          exact hc.changed.cons_cons plan
        · intro q hq
          rw [List.map_cons, List.mem_cons, not_or] at hq
          exact (hc.frame q hq.2).trans (hwrote.1 q hq.1)
        · intro hnone
          rw [hfilter, hc.complete hnone]
        · intro hnone
          refine List.forall_mem_cons.mpr ⟨?_, hc.written hnone⟩
          exact (hc.frame plan.path hfresh).trans (hwrote.2 rfl)
    · have hfilter : (plan :: plans).filter Plan.changed = plans.filter Plan.changed :=
        List.filter_cons_of_neg hchanged
      refine (ih attempted s hpaths.2).mono fun c s' hc => ?_
      obtain ⟨more, hc⟩ := hc
      refine ⟨more, hc.attempted, ?_, hc.frame, ?_, hc.written⟩
      · exact hfilter ▸ hc.changed
      · exact fun hnone => hfilter ▸ hc.complete hnone

/-- Without an error, every file that is rolled back has its bytes and mode again. -/
theorem rollBack_ensures (env : Env) (plans : List Plan) (s : Path → Node) (hpaths : (plans.map Plan.path).Nodup) :
    (rollBack env plans).Ensures s fun errors s' => (∀ q, q ∉ plans.map Plan.path → s' q = s q) ∧
      (errors = [] → ∀ plan ∈ plans, s' plan.path = .file plan.beforeRaw plan.mode) := by
  induction plans generalizing s with
  | nil => exact ⟨fun _ _ => rfl, fun _ _ h => nomatch h⟩
  | cons plan plans ih =>
    rw [List.map_cons, List.nodup_cons] at hpaths
    refine ensures_bind.mpr ((writeVerified_ensures env plan.path plan.beforeRaw plan.mode plan.beforeRevision
      _ s).mono fun r s₁ hwrote => ?_)
    refine ensures_bind.mpr ((ih s₁ hpaths.2).mono fun errors s' hrest => ?_)
    refine ⟨fun q hq => ?_, fun hnil => ?_⟩
    · rw [List.map_cons, List.mem_cons, not_or] at hq
      exact (hrest.1 q hq.2).trans (hwrote.1 q hq.1)
    · obtain ⟨hfirst, herrors⟩ := List.append_eq_nil_iff.mp hnil
      refine List.forall_mem_cons.mpr ⟨?_, hrest.2 herrors⟩
      rw [hrest.1 plan.path hpaths.1]
      cases r with
      | ok u => exact hwrote.2 rfl
      | error reason => exact nomatch hfirst

/-- What writing the plans comes to, from a store in which every plan is of its file. -/
structure WroteAll (plans : List Plan) (report : Report) (s : Path → Node) (r : Except ReplaceError Report)
    (s' : Path → Node) : Prop where
  failed : ∀ e, r = .error e → e.code = txt "write_failed" ∧ (e.rolledBack = some true → s' = s)
  report : ∀ report', r = .ok report' → report' = report
  written : ∀ report', r = .ok report' → ∀ plan ∈ plans, s' plan.path = .file plan.afterRaw plan.mode
  frame : ∀ q, q ∉ plans.map Plan.path → s' q = s q

theorem writePlans_ensures (env : Env) (plans : List Plan) (report : Report) (s : Path → Node)
    (hpaths : (plans.map Plan.path).Nodup) (hnodes : ∀ plan ∈ plans, s plan.path = .file plan.beforeRaw plan.mode) :
    (writePlans env plans report).Ensures s (WroteAll plans report s) := by
  refine ensures_bind.mpr ((commitPlans_ensures env plans [] s hpaths).mono fun c s₁ hc => ?_)
  obtain ⟨more, hc⟩ := hc
  have hmore : more.Sublist plans := hc.changed.trans List.filter_sublist
  have hsub : ∀ q, q ∉ plans.map Plan.path → q ∉ more.map Plan.path := fun q hq h => hq ((hmore.map Plan.path).subset h)
  cases hfailure : c.failure with
  | none =>
    refine ⟨fun _ h => (nomatch h), fun r h => (Except.ok.inj h).symm, ?_, fun q hq => hc.frame q (hsub q hq)⟩
    intro _ _ plan hplan
    by_cases hchanged : plan.changed = true
    · apply hc.written hfailure
      rw [hc.complete hfailure]
      exact List.mem_filter.mpr ⟨hplan, hchanged⟩
    · -- an unchanged plan was not attempted, and no attempted plan shares its path
      have hfresh : plan.path ∉ more.map Plan.path := by
        intro h
        obtain ⟨other, hother, hpath⟩ := List.mem_map.mp h
        obtain rfl := List.inj_on_of_nodup_map hpaths (hmore.subset hother) hplan hpath
        exact hchanged (List.mem_filter.mp (hc.changed.subset hother)).2
      rw [hc.frame plan.path hfresh, hnodes plan hplan]
      have hsame : plan.beforeRaw = plan.afterRaw := by simpa [Plan.changed] using hchanged
      rw [hsame]
  | some reason =>
    have hattempted : c.attempted.reverse = more.reverse := congrArg List.reverse hc.attempted
    have hnodup : (more.reverse.map Plan.path).Nodup := by
      rw [List.map_reverse, List.nodup_reverse]
      exact (hmore.map Plan.path).nodup hpaths
    refine ensures_bind.mpr ?_
    rw [hattempted]
    refine (rollBack_ensures env more.reverse s₁ hnodup).mono fun errors s' hback => ?_
    have hframe : ∀ q, q ∉ more.map Plan.path → s' q = s q := fun q hq =>
      (hback.1 q (by rwa [List.map_reverse, List.mem_reverse])).trans (hc.frame q hq)
    refine ⟨?_, fun _ h => (nomatch h), fun _ h => (nomatch h), fun q hq => hframe q (hsub q hq)⟩
    intro e he
    obtain rfl := Except.error.inj he
    refine ⟨rfl, fun hrolled => ?_⟩
    have hnone : errors = [] := by simpa [ReplaceError.rolledBack] using hrolled
    ext q
    by_cases hq : q ∈ more.map Plan.path
    · obtain ⟨plan, hplan, rfl⟩ := List.mem_map.mp hq
      rw [hback.2 hnone plan (List.mem_reverse.mpr hplan), hnodes plan (hmore.subset hplan)]
    · exact hframe q hq

/-! ## The targets of a call -/

theorem addOperation_paths {o : Operation} {path : Path} {rules : List Dict} {ts ts' : List Target}
    (h : addOperation o path rules ts = .ok ts') (hts : (ts.map Target.path).Nodup) :
    (ts'.map Target.path).Nodup ∧ ∀ q ∈ ts'.map Target.path, q = path ∨ q ∈ ts.map Target.path := by
  induction ts generalizing ts' with
  | nil =>
    obtain rfl := Except.ok.inj h
    exact ⟨List.nodup_singleton path, fun q hq => .inl (by simpa using hq)⟩
  | cons t ts ih =>
    rw [addOperation] at h
    split_ifs at h with hpath hencoding hexpected
    · obtain rfl := Except.ok.inj h
      exact ⟨hts, fun q hq => .inr hq⟩
    · cases hrest : addOperation o path rules ts with
      | error e =>
        rw [hrest] at h
        exact nomatch h
      | ok rest =>
        rw [hrest] at h
        obtain rfl := Except.ok.inj h
        rw [List.map_cons, List.nodup_cons] at hts
        have hih := ih hrest hts.2
        refine ⟨?_, fun q hq => ?_⟩
        · rw [List.map_cons, List.nodup_cons]
          refine ⟨fun hmem => ?_, hih.1⟩
          cases hih.2 _ hmem with
          | inl heq => exact hpath heq
          | inr hold => exact hts.1 hold
        · rw [List.map_cons, List.mem_cons] at hq ⊢
          cases hq with
          | inl heq => exact .inr (.inl heq)
          | inr hq => exact (hih.2 q hq).imp_right .inr

theorem addChecked_nodup {o : Operation} {ts ts' : List Target} (h : addChecked o ts = .ok ts')
    (hts : (ts.map Target.path).Nodup) : (ts'.map Target.path).Nodup := by
  cases hpath : o.path with
  | none =>
    simp only [addChecked, hpath] at h
    exact nomatch h
  | some path =>
    cases hrules : o.rules with
    | none =>
      simp only [addChecked, hpath, hrules] at h
      exact nomatch h
    | some rules =>
      cases rules with
      | nil =>
        simp only [addChecked, hpath, hrules] at h
        exact nomatch h
      | cons rule rules =>
        simp only [addChecked, hpath, hrules] at h
        exact (addOperation_paths h hts).1

theorem groupOperations_nodup {os : List Operation} {ts ts' : List Target} (h : groupOperations os ts = .ok ts')
    (hts : (ts.map Target.path).Nodup) : (ts'.map Target.path).Nodup := by
  induction os generalizing ts with
  | nil =>
    obtain rfl := Except.ok.inj h
    exact hts
  | cons o os ih =>
    obtain ⟨mid, hmid, hrest⟩ := ExceptSteps.bind_eq_ok.mp h
    exact ih hrest (addChecked_nodup hmid hts)

theorem orderedTargets_grouped {operations : List Operation} {maxReplacements : ℤ} {ts : List Target}
    (h : orderedTargets operations maxReplacements = .ok ts) :
    ∃ grouped, groupOperations operations [] = .ok grouped ∧ ts = grouped.mergeSort pathOrder := by
  rw [orderedTargets] at h
  split_ifs at h
  cases hgroup : groupOperations operations [] with
  | error e =>
    rw [hgroup] at h
    exact nomatch h
  | ok grouped =>
    rw [hgroup] at h
    exact ⟨grouped, rfl, (Except.ok.inj h).symm⟩

/-- No path is locked, planned or written twice. -/
theorem orderedTargets_nodup {operations : List Operation} {maxReplacements : ℤ} {ts : List Target}
    (h : orderedTargets operations maxReplacements = .ok ts) : (ts.map Target.path).Nodup := by
  obtain ⟨grouped, hgroup, rfl⟩ := orderedTargets_grouped h
  have hperm := (List.mergeSort_perm grouped pathOrder).map Target.path
  exact hperm.nodup_iff.mpr (groupOperations_nodup hgroup List.nodup_nil)

/-! ## A whole call -/

/-- A call keeps every file as it was when it is refused, raises, only plans, or rolls back;
a success leaves the planned bytes, under the old modes. -/
structure AllOrNothing (env : Env) (operations : List Operation) (dryRun : Bool) (maxReplacements : ℤ)
    (fs : Path → Node) (reply : Reply) (fs' : Path → Node) : Prop where
  raised : ∀ reason, reply = .raised reason → fs' = fs
  refused : ∀ e, reply = .error e → e.code ≠ txt "write_failed" → fs' = fs
  onlyPlanned : dryRun = true → fs' = fs
  rolledBack : ∀ e, reply = .error e → e.code = txt "write_failed" → e.rolledBack = some true → fs' = fs
  success : ∀ report, reply = .success report → ∃ targets plans,
    orderedTargets operations maxReplacements = .ok targets ∧
      Planned env fs maxReplacements.toNat targets 0 plans ∧
      report = reportOf plans dryRun maxReplacements.toNat ∧
      (dryRun = false → (∀ plan ∈ plans, fs' plan.path = .file plan.afterRaw plan.mode) ∧
        ∀ q, q ∉ plans.map Plan.path → fs' q = fs q)

section
variable {env : Env} {operations : List Operation} {dryRun : Bool} {maxReplacements : ℤ} {fs : Path → Node}

/-- A reply that is no success, over an unchanged store. -/
theorem allOrNothing_unchanged {reply : Reply} (hreply : ∀ report, reply ≠ .success report) :
    AllOrNothing env operations dryRun maxReplacements fs reply fs where
  raised _ _ := rfl
  refused _ _ _ := rfl
  onlyPlanned _ := rfl
  rolledBack _ _ _ _ := rfl
  success report h := absurd h (hreply report)

theorem finish_ensures {targets : List Target} {plans : List Plan}
    (htargets : orderedTargets operations maxReplacements = .ok targets)
    (hplans : Planned env fs maxReplacements.toNat targets 0 plans) :
    (finish env plans dryRun maxReplacements.toNat).Ensures fs
      (AllOrNothing env operations dryRun maxReplacements fs) := by
  have hpaths : (plans.map Plan.path).Nodup := hplans.targets ▸ orderedTargets_nodup htargets
  cases dryRun with
  | true =>
    refine ⟨fun _ _ => rfl, fun _ _ _ => rfl, fun _ => rfl, fun _ _ _ _ => rfl, fun report hreply => ?_⟩
    exact ⟨targets, plans, htargets, hplans, (Reply.success.inj hreply).symm, fun h => nomatch h⟩
  | false =>
    have hwrite := writePlans_ensures env plans (reportOf plans false maxReplacements.toNat) fs hpaths hplans.nodes
    refine ensures_bind.mpr (hwrite.mono fun r fs' hr => ?_)
    cases r with
    | ok report =>
      refine ⟨fun _ h => (nomatch h), fun _ h => (nomatch h), fun h => (nomatch h), fun _ h => (nomatch h), ?_⟩
      intro report' hreply
      have hreport : report' = reportOf plans false maxReplacements.toNat :=
        (Reply.success.inj hreply).symm.trans (hr.report report rfl)
      exact ⟨targets, plans, htargets, hplans, hreport, fun _ => ⟨hr.written report rfl, hr.frame⟩⟩
    | error e =>
      have hfailed := hr.failed e rfl
      refine ⟨fun _ h => (nomatch h), ?_, fun h => (nomatch h), ?_, fun _ h => (nomatch h)⟩
      · intro e' he hcode
        obtain rfl := Reply.error.inj he
        exact absurd hfailed.1 hcode
      · intro e' he _ hrolled
        obtain rfl := Reply.error.inj he
        exact hfailed.2 hrolled

theorem replaceFiles_ensures :
    (replaceFiles env operations dryRun maxReplacements).Ensures fs
      (AllOrNothing env operations dryRun maxReplacements fs) := by
  rw [replaceFiles]
  cases htargets : orderedTargets operations maxReplacements with
  | error e => exact allOrNothing_unchanged fun _ h => nomatch h
  | ok targets =>
    have hprepare := prepare_ensures env targets maxReplacements.toNat fs
    refine ensures_bind.mpr (hprepare.mono fun r fs' hr => ?_)
    obtain ⟨rfl, hplans⟩ := hr
    cases r with
    | error stop =>
      refine allOrNothing_unchanged fun report h => ?_
      cases stop with
      | refused e => exact nomatch h
      | raised reason => exact nomatch h
    | ok plans => exact finish_ensures htargets (hplans plans rfl)

end

end WebOauthMcp.ReplaceAtomicity
