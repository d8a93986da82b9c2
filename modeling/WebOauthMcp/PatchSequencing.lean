import WebOauthMcp.PatchExecution
import WebOauthMcp.ExceptSteps

/-!
# A patch against its operations one by one

A patch is planned as a whole from the tree before it and then executed; applying its
operations as patches of their own plans each from the tree the ones before it leave.
Operations are followed as steps with resolved paths, and the two executions are
compared through trees of one shape that may differ in what the files hold.
-/

namespace WebOauthMcp.PatchSequencing
open CodePoints Utf8Units FileTree PatchGrammar PatchPlanning PatchExecution ExceptSteps

def noFaults : ℕ → Option IoFault := fun _ => none

/-- Applying each operation as a patch of its own; `none` once one of them is refused. -/
def sequentially (env : PatchEnv) : List PatchOperation → Disk → Option Disk
  | [], disk => some disk
  | op :: ops, disk => match applyOperations env noFaults .apply [op] disk with
    | (.success _, disk') => sequentially env ops disk'
    | _ => none

/-- An operation with its paths resolved; a move to its own path is an update. -/
inductive Step where
  | add (path : Path) (lines : List Text)
  | delete (path : Path)
  | update (path : Path) (hunks : List UpdateHunk)
  | move (path target : Path) (hunks : List UpdateHunk)

def resolveStep (env : PatchEnv) : PatchOperation → Except Failure Step
  | .addFile path lines => do return .add (← resolve env path) lines
  | .deleteFile path => do return .delete (← resolve env path)
  | .updateFile path moveTo hunks => do
    let path ← resolve env path
    match ← resolveMoveTo env moveTo with
    | none => return .update path hunks
    | some target => return if target = path then .update path hunks else .move path target hunks

/-- The existing file a step is about. -/
def Step.source : Step → Option Path
  | .add _ _ => none
  | .delete path => some path
  | .update path _ => some path
  | .move path _ _ => some path

/-- The path a step creates. -/
def Step.created : Step → Option Path
  | .add path _ => some path
  | .move _ target _ => some target
  | _ => none

def isText (raw : Bytes) : Bool := !(raw.take 1024).contains 0

/-- The octets an update writes over a file that holds `raw`. -/
def updatedBytes (path : Path) (hunks : List UpdateHunk) (raw : Bytes) : Option Bytes :=
  match readText path raw with
  | .error _ => none
  | .ok original => match updatedText path hunks original with
    | .error _ => none
    | .ok text => encodeUtf8 text

/-- The octets a step writes when it is planned from `disk`. -/
def Step.bytes (disk : Disk) : Step → Option Bytes
  | .add _ lines => encodeUtf8 (joinWithNewline lines (!lines.isEmpty))
  | .delete _ => some []
  | .update path hunks => (disk.files path).bind (updatedBytes path hunks)
  | .move path _ hunks => (disk.files path).bind (updatedBytes path hunks)

def Step.exec (bytes : Bytes) : Step → Disk → Option Disk
  | .add path _, disk => (disk.mkdirs path.tail).bind fun d => d.write path bytes
  | .delete path, disk => disk.unlink path
  | .update path _, disk => (disk.mkdirs path.tail).bind fun d => d.write path bytes
  | .move path target _, disk =>
    ((disk.mkdirs target.tail).bind fun d => d.write target bytes).bind fun d => d.unlink path

/-- A step planned from `planned` and executed on `disk`. -/
def Step.run (planned : Disk) (step : Step) (disk : Disk) : Option Disk :=
  (step.bytes planned).bind fun bytes => step.exec bytes disk

/-- A file that can be read and is no binary file. -/
def Readable (env : PatchEnv) (disk : Disk) (path : Path) : Prop :=
  ∃ raw, disk.files path = some raw ∧ env.unreadable path = false ∧ isText raw = true

/-- The step is planned without an error on `disk`, and what it writes can be encoded. -/
structure Step.Plannable (env : PatchEnv) (disk : Disk) (step : Step) : Prop where
  encoded : (step.bytes disk).isSome
  absent : ∀ p, step.created = some p → disk.node p = none
  readable : ∀ p, step.source = some p → Readable env disk p
  source_ne : step.source ≠ step.created

/-! ## Steps and operations -/

theorem readText_ok {path : Path} {raw : Bytes} {text : Text} :
    readText path raw = .ok text ↔ isText raw = true ∧ decodeReplace raw = text := by
  unfold readText isText
  cases (raw.take 1024).contains 0 <;> simp

theorem readFile_ok {env : PatchEnv} {disk : Disk} {path : Path} {text : Text} :
    readFile env disk path = .ok text ↔
      ∃ raw, disk.files path = some raw ∧ env.unreadable path = false ∧ isText raw = true ∧
        decodeReplace raw = text := by
  unfold readFile
  cases disk.files path with
  | none => simp
  | some raw =>
    cases env.unreadable path with
    | true => simp
    | false => simp [mapError_ok_iff, readText_ok]

theorem updatedBytes_eq_some {path : Path} {hunks : List UpdateHunk} {raw bytes : Bytes} :
    updatedBytes path hunks raw = some bytes ↔ isText raw = true ∧
      ∃ text, updatedText path hunks (decodeReplace raw) = .ok text ∧ encodeUtf8 text = some bytes := by
  unfold updatedBytes
  cases hr : readText path raw with
  | error e =>
    have hno : ¬isText raw = true := fun h => by
      rw [readText_ok.mpr ⟨h, rfl⟩] at hr
      exact absurd hr (by simp)
    simp [hno]
  | ok original =>
    obtain ⟨ht, rfl⟩ := readText_ok.mp hr
    cases hu : updatedText path hunks (decodeReplace raw) <;> simp [ht, hu]

def planStep (env : PatchEnv) (disk : Disk) : Step → Except Failure PlannedChange
  | .add path lines => planAdd disk path lines
  | .delete path => planDelete env disk path
  | .update path hunks => planUpdate env disk path none hunks
  | .move path target hunks => planUpdate env disk path (some target) hunks

/-- The calls a planned change makes are those of the step. -/
def Step.Describes (change : PlannedChange) : Step → Prop
  | .add path _ | .update path _ =>
    change.kind ≠ .delete ∧ change.path = path ∧ change.movedFrom = none
  | .delete path => change.kind = .delete ∧ change.path = path
  | .move path target _ => change.kind ≠ .delete ∧ change.path = target ∧ change.movedFrom = some path

theorem planUpdate_self (env : PatchEnv) (disk : Disk) (path : Path) (hunks : List UpdateHunk) :
    planUpdate env disk path (some path) hunks = planUpdate env disk path none hunks := by
  simp [planUpdate]

theorem planOperation_ok {env : PatchEnv} {disk : Disk} {op : PatchOperation} {change : PlannedChange} :
    planOperation env disk op = .ok change ↔
      ∃ step, resolveStep env op = .ok step ∧ planStep env disk step = .ok change := by
  cases op with
  | addFile name lines => simp [planOperation, resolveStep, bind_eq_ok, planStep, pure, Except.pure]
  | deleteFile name => simp [planOperation, resolveStep, bind_eq_ok, planStep, pure, Except.pure]
  | updateFile name moveTo hunks =>
    simp only [planOperation, resolveStep, bind_eq_ok]
    constructor
    · rintro ⟨path, hpath, target, htarget, hplan⟩
      cases target with
      | none => exact ⟨_, ⟨path, hpath, none, htarget, rfl⟩, hplan⟩
      | some target =>
        refine ⟨_, ⟨path, hpath, some target, htarget, rfl⟩, ?_⟩
        split_ifs with hself
        · rwa [hself, planUpdate_self] at hplan
        · exact hplan
    · rintro ⟨step, ⟨path, hpath, target, htarget, hstep⟩, hplan⟩
      refine ⟨path, hpath, target, htarget, ?_⟩
      cases target with
      | none =>
        obtain rfl := Except.ok.inj hstep
        exact hplan
      | some target =>
        obtain rfl := Except.ok.inj hstep
        split_ifs at hplan with hself
        · rw [hself, planUpdate_self]
          exact hplan
        · exact hplan

theorem resolveStep_source_ne {env : PatchEnv} {op : PatchOperation} {step : Step}
    (h : resolveStep env op = .ok step) : step.source ≠ step.created := by
  cases op with
  | addFile name lines =>
    obtain ⟨p, -, h⟩ := bind_eq_ok.mp h
    obtain rfl := Except.ok.inj h
    simp [Step.source, Step.created]
  | deleteFile name =>
    obtain ⟨p, -, h⟩ := bind_eq_ok.mp h
    obtain rfl := Except.ok.inj h
    simp [Step.source, Step.created]
  | updateFile name moveTo hunks =>
    simp only [resolveStep, bind_eq_ok] at h
    obtain ⟨p, -, target, -, h⟩ := h
    cases target with
    | none =>
      obtain rfl := Except.ok.inj h
      simp [Step.source, Step.created]
    | some target =>
      obtain rfl := Except.ok.inj h
      split_ifs with hself
      · simp [Step.source, Step.created]
      · simpa [Step.source, Step.created] using Ne.symm hself

/-- What the reading part of an update found. -/
def Original (env : PatchEnv) (disk : Disk) (path : Path) (hunks : List UpdateHunk) (raw : Bytes)
    (text : Text) : Prop :=
  disk.files path = some raw ∧ env.unreadable path = false ∧ isText raw = true ∧
    updatedText path hunks (decodeReplace raw) = .ok text

theorem planUpdate_ok {env : PatchEnv} {disk : Disk} {path : Path} {hunks : List UpdateHunk}
    {change : PlannedChange} :
    planUpdate env disk path none hunks = .ok change ↔ ∃ raw text, Original env disk path hunks raw text ∧
      change = ⟨.update, path, none, decodeReplace raw, text, hunks.length⟩ := by
  unfold planUpdate Original
  rcases hn : disk.node path with - | raw | -
  · simp [throw, throwThe, MonadExceptOf.throw, Tree.files, hn]
  · simp only [bind_eq_ok, readFile_ok, mapError_ok_iff, pure, Except.pure, Except.ok.injEq]
    constructor
    · rintro ⟨old, ⟨raw, hf, hu, ht, rfl⟩, text, htext, rfl⟩
      exact ⟨raw, text, ⟨hf, hu, ht, htext⟩, rfl⟩
    · rintro ⟨raw, text, ⟨hf, hu, ht, htext⟩, rfl⟩
      exact ⟨_, ⟨raw, hf, hu, ht, rfl⟩, text, htext, rfl⟩
  · simp [throw, throwThe, MonadExceptOf.throw, Tree.files, hn]

theorem planMove_ok {env : PatchEnv} {disk : Disk} {path target : Path} {hunks : List UpdateHunk}
    {change : PlannedChange} (hne : target ≠ path) :
    planUpdate env disk path (some target) hunks = .ok change ↔ disk.node target = none ∧
      ∃ raw text, Original env disk path hunks raw text ∧
        change = ⟨.move, target, some path, decodeReplace raw, text, hunks.length⟩ := by
  unfold planUpdate Original
  rcases hn : disk.node path with - | raw | -
  · simp [throw, throwThe, MonadExceptOf.throw, Tree.files, hn]
  · cases hx : disk.node target with
    | some x =>
      simp [bind_eq_ok, hne, hx, throw, throwThe, MonadExceptOf.throw]
    | none =>
      simp only [bind_eq_ok, readFile_ok, mapError_ok_iff, pure, Except.pure, if_neg hne,
        hx, Option.isSome_none, Bool.false_eq_true, if_false, Except.ok.injEq, true_and]
      constructor
      · rintro ⟨old, ⟨raw, hf, hu, ht, rfl⟩, text, htext, rfl⟩
        exact ⟨raw, text, ⟨hf, hu, ht, htext⟩, rfl⟩
      · rintro ⟨raw, text, ⟨hf, hu, ht, htext⟩, rfl⟩
        exact ⟨_, ⟨raw, hf, hu, ht, rfl⟩, text, htext, rfl⟩
  · simp [throw, throwThe, MonadExceptOf.throw, Tree.files, hn]

theorem planDelete_ok {env : PatchEnv} {disk : Disk} {path : Path} {change : PlannedChange} :
    planDelete env disk path = .ok change ↔
      ∃ raw, disk.files path = some raw ∧ env.unreadable path = false ∧ isText raw = true ∧
        change = ⟨.delete, path, none, decodeReplace raw, [], 1⟩ := by
  unfold planDelete
  rcases hn : disk.node path with - | raw | -
  · simp [Tree.files, hn]
  · simp only [bind_eq_ok, readFile_ok, pure, Except.pure, Except.ok.injEq]
    constructor
    · rintro ⟨old, ⟨raw, hf, hu, ht, rfl⟩, rfl⟩
      exact ⟨raw, hf, hu, ht, rfl⟩
    · rintro ⟨raw, hf, hu, ht, rfl⟩
      exact ⟨_, ⟨raw, hf, hu, ht, rfl⟩, rfl⟩
  · simp [Tree.files, hn]

theorem planAdd_ok {disk : Disk} {path : Path} {lines : List Text} {change : PlannedChange} :
    planAdd disk path lines = .ok change ↔ disk.node path = none ∧
      change = ⟨.add, path, none, [], joinWithNewline lines (!lines.isEmpty), 1⟩ := by
  unfold planAdd
  cases disk.node path <;> simp [eq_comm]

/-- A planned step writes the step's octets, to the step's paths. -/
theorem Step.of_plan {env : PatchEnv} {disk : Disk} {step : Step} {change : PlannedChange} {bytes : Bytes}
    (hne : step.source ≠ step.created) (h : planStep env disk step = .ok change)
    (hb : encodeUtf8 change.newText = some bytes) :
    step.Plannable env disk ∧ step.bytes disk = some bytes ∧ step.Describes change := by
  cases step with
  | add path lines =>
    obtain ⟨hn, rfl⟩ := planAdd_ok.mp h
    have hbytes : Step.bytes disk (.add path lines) = some bytes := hb
    refine ⟨⟨by simp [hbytes], ?_, by simp [Step.source], hne⟩, hbytes, by simp [Step.Describes,
      PlannedChange.movedFrom]⟩
    rintro p ⟨⟩
    exact hn
  | delete path =>
    obtain ⟨raw, hf, hu, ht, rfl⟩ := planDelete_ok.mp h
    have hbytes : Step.bytes disk (.delete path) = some bytes := hb
    refine ⟨⟨by simp [hbytes], by simp [Step.created], ?_, hne⟩, hbytes, by simp [Step.Describes]⟩
    rintro p ⟨⟩
    exact ⟨raw, hf, hu, ht⟩
  | update path hunks =>
    obtain ⟨raw, text, ⟨hf, hu, ht, htext⟩, rfl⟩ := planUpdate_ok.mp h
    have hbytes : Step.bytes disk (.update path hunks) = some bytes := by
      simpa [Step.bytes, hf] using updatedBytes_eq_some.mpr ⟨ht, text, htext, hb⟩
    refine ⟨⟨by simp [hbytes], by simp [Step.created], ?_, hne⟩, hbytes, by simp [Step.Describes,
      PlannedChange.movedFrom]⟩
    rintro p ⟨⟩
    exact ⟨raw, hf, hu, ht⟩
  | move path target hunks =>
    have hself : target ≠ path := fun h => hne (by simp [Step.source, Step.created, h])
    obtain ⟨hn, raw, text, ⟨hf, hu, ht, htext⟩, rfl⟩ := (planMove_ok hself).mp h
    have hbytes : Step.bytes disk (.move path target hunks) = some bytes := by
      simpa [Step.bytes, hf] using updatedBytes_eq_some.mpr ⟨ht, text, htext, hb⟩
    refine ⟨⟨by simp [hbytes], ?_, ?_, hne⟩, hbytes, by simp [Step.Describes,
      PlannedChange.movedFrom, hself.symm]⟩
    · rintro p ⟨⟩
      exact hn
    · rintro p ⟨⟩
      exact ⟨raw, hf, hu, ht⟩

theorem Step.Plannable.plan {env : PatchEnv} {disk : Disk} {step : Step} (h : step.Plannable env disk) :
    ∃ change bytes, planStep env disk step = .ok change ∧ encodeUtf8 change.newText = some bytes := by
  obtain ⟨hsome, hcreated, hsource, hne⟩ := h
  obtain ⟨bytes, hbytes⟩ := Option.isSome_iff_exists.mp hsome
  have edited : ∀ path hunks, (disk.files path).bind (updatedBytes path hunks) = some bytes →
      Readable env disk path → ∃ raw text, Original env disk path hunks raw text ∧
        encodeUtf8 text = some bytes := by
    rintro path hunks hb ⟨raw, hf, hu, ht⟩
    rw [hf, Option.bind_some] at hb
    obtain ⟨-, text, htext, henc⟩ := updatedBytes_eq_some.mp hb
    exact ⟨raw, text, ⟨hf, hu, ht, htext⟩, henc⟩
  cases step with
  | add path lines => exact ⟨_, bytes, planAdd_ok.mpr ⟨hcreated path rfl, rfl⟩, hbytes⟩
  | delete path =>
    obtain ⟨raw, hf, hu, ht⟩ := hsource path rfl
    exact ⟨_, bytes, planDelete_ok.mpr ⟨raw, hf, hu, ht, rfl⟩, hbytes⟩
  | update path hunks =>
    obtain ⟨raw, text, ho, henc⟩ := edited path hunks hbytes (hsource path rfl)
    exact ⟨_, bytes, planUpdate_ok.mpr ⟨raw, text, ho, rfl⟩, henc⟩
  | move path target hunks =>
    have hself : target ≠ path := fun h => hne (by simp [Step.source, Step.created, h])
    obtain ⟨raw, text, ho, henc⟩ := edited path hunks hbytes (hsource path rfl)
    exact ⟨_, bytes, (planMove_ok hself).mpr ⟨hcreated target rfl, raw, text, ho, rfl⟩, henc⟩

/-! ## Executions of steps -/

theorem writeText_ok {path : Path} {text : Text} {bytes : Bytes} (hb : encodeUtf8 text = some bytes)
    (disk disk' : Disk) : writeText none path text disk = .ok disk' ↔ disk.write path bytes = some disk' := by
  have hbind := Tree.write_bind_write disk path [] bytes
  unfold writeText
  cases ho : disk.write path [] with
  | none =>
    rw [ho] at hbind
    simp [← hbind]
  | some opened =>
    rw [ho, Option.bind_some] at hbind
    have hsome : (disk.write path bytes).isSome := by
      rw [Tree.write_isSome_iff, ← Tree.write_isSome_iff (c := []), ho, Option.isSome_some]
    obtain ⟨written, hw⟩ := Option.isSome_iff_exists.mp hsome
    simp [hb, hbind, hw]

/-- Without faults a planned change does what its step does. -/
theorem Step.applyChange_ok {step : Step} {change : PlannedChange} {bytes : Bytes}
    (hd : step.Describes change) (hb : encodeUtf8 change.newText = some bytes) (disk disk' : Disk) :
    applyChange none change disk = .ok disk' ↔ step.exec bytes disk = some disk' := by
  have unlinks : ∀ path d, unlinkFile none path d = .ok disk' ↔ d.unlink path = some disk' := by
    intro path d
    unfold unlinkFile
    cases d.unlink path <;> simp
  have makes : ∀ path d d', mkdirParents none path d = .ok d' ↔ d.mkdirs path = some d' := by
    intro path d d'
    unfold mkdirParents
    cases d.mkdirs path <;> simp
  unfold applyChange
  cases step with
  | delete path =>
    obtain ⟨hk, rfl⟩ := hd
    simp [hk, Step.exec, unlinks]
  | add path lines =>
    obtain ⟨hk, rfl, hm⟩ := hd
    simp [hk, hm, Step.exec, bind_eq_ok, makes, writeText_ok hb, Option.bind_eq_some_iff, pure, Except.pure]
  | update path hunks =>
    obtain ⟨hk, rfl, hm⟩ := hd
    simp [hk, hm, Step.exec, bind_eq_ok, makes, writeText_ok hb, Option.bind_eq_some_iff, pure, Except.pure]
  | move path target hunks =>
    obtain ⟨hk, rfl, hm⟩ := hd
    simp only [hk, if_false, hm, bind_eq_ok, makes, writeText_ok hb, unlinks, Step.exec,
      Option.bind_eq_some_iff]
    constructor
    · rintro ⟨made, hmade, written, hwritten, hu⟩
      exact ⟨written, ⟨made, hmade, hwritten⟩, hu⟩
    · rintro ⟨written, ⟨made, hmade, hwritten⟩, hu⟩
      exact ⟨made, hmade, written, hwritten, hu⟩

/-- Steps planned from `planned` and executed one after another. -/
def batch (planned : Disk) : List Step → Disk → Option Disk
  | [], disk => some disk
  | step :: steps, disk => (step.run planned disk).bind (batch planned steps)

/-- The change writes what the step writes when planned from `planned`. -/
def Matches (planned : Disk) (step : Step) (change : PlannedChange) : Prop :=
  step.Describes change ∧ ∃ bytes, step.bytes planned = some bytes ∧ encodeUtf8 change.newText = some bytes

theorem executeChanges_ok {planned : Disk} {steps : List Step} {changes : List PlannedChange}
    (h : List.Forall₂ (Matches planned) steps changes) (disk disk' : Disk) :
    executeChanges noFaults changes disk = .ok disk' ↔ batch planned steps disk = some disk' := by
  induction h generalizing disk with
  | nil => simp [executeChanges, batch]
  | @cons step change steps changes hm _ ih =>
    obtain ⟨hd, bytes, hbytes, hb⟩ := hm
    simp only [executeChanges, batch, bind_eq_ok, Option.bind_eq_some_iff, Step.run, hbytes,
      Option.some.injEq, exists_eq_left', noFaults, Step.applyChange_ok hd hb]
    exact exists_congr fun d => and_congr_right fun _ => ih d

theorem summarizeChange_ok {env : PatchEnv} {change : PlannedChange} :
    (∃ file, summarizeChange env change = .ok file) ↔
      isEncodable change.oldText = true ∧ ∃ bytes, encodeUtf8 change.newText = some bytes := by
  unfold summarizeChange
  by_cases hold : isEncodable change.oldText = true
  · have hsome : encodeUtf8 change.oldText = some _ := (encodeUtf8_eq_some_iff _ _).mpr ⟨hold, rfl⟩
    cases hnew : encodeUtf8 change.newText <;> simp [hsome, hold]
  · simp [encodeUtf8, hold]

theorem planStep_oldText {env : PatchEnv} {disk : Disk} {step : Step} {change : PlannedChange}
    (hne : step.source ≠ step.created) (h : planStep env disk step = .ok change) :
    isEncodable change.oldText = true := by
  cases step with
  | add path lines =>
    obtain ⟨-, rfl⟩ := planAdd_ok.mp h
    rfl
  | delete path =>
    obtain ⟨raw, -, -, -, rfl⟩ := planDelete_ok.mp h
    exact isEncodable_decodeReplace raw
  | update path hunks =>
    obtain ⟨raw, text, -, rfl⟩ := planUpdate_ok.mp h
    exact isEncodable_decodeReplace raw
  | move path target hunks =>
    have hself : target ≠ path := fun h => hne (by simp [Step.source, Step.created, h])
    obtain ⟨-, raw, text, -, rfl⟩ := (planMove_ok hself).mp h
    exact isEncodable_decodeReplace raw

/-- The steps of a list of operations. -/
def StepsOf (env : PatchEnv) (ops : List PatchOperation) (steps : List Step) : Prop :=
  List.Forall₂ (fun op step => resolveStep env op = .ok step) ops steps

theorem StepsOf.unique {env : PatchEnv} {ops : List PatchOperation} {steps steps' : List Step}
    (h : StepsOf env ops steps) (h' : StepsOf env ops steps') : steps = steps' := by
  induction h generalizing steps' with
  | nil => exact (List.forall₂_nil_left_iff.mp h').symm
  | cons hr _ ih =>
    obtain ⟨step', rest, hr', hrest, rfl⟩ := List.forall₂_cons_left_iff.mp h'
    rw [Except.ok.inj (hr.symm.trans hr'), ih hrest]

theorem planOperations_ok {env : PatchEnv} {disk : Disk} {ops : List PatchOperation}
    {changes : List PlannedChange} {files : List FileSummary} :
    planOperations env disk ops = .ok (changes, files) ↔
      List.Forall₂ (fun op change => planOperation env disk op = .ok change) ops changes ∧
        List.Forall₂ (fun change file => summarizeChange env change = .ok file) changes files := by
  simp only [planOperations, bind_eq_ok, mapM_eq_ok, pure, Except.pure]
  constructor
  · rintro ⟨cs, hcs, fs, hfs, h⟩
    obtain ⟨rfl, rfl⟩ := Prod.mk.inj (Except.ok.inj h)
    exact ⟨hcs, hfs⟩
  · rintro ⟨hcs, hfs⟩
    exact ⟨changes, hcs, files, hfs, rfl⟩

/-- A planned patch consists of steps that can be planned, and its changes are theirs. -/
theorem stepsOf_planOperations {env : PatchEnv} {disk : Disk} {ops : List PatchOperation}
    {changes : List PlannedChange} {files : List FileSummary}
    (h : planOperations env disk ops = .ok (changes, files)) :
    ∃ steps, StepsOf env ops steps ∧ (∀ step ∈ steps, step.Plannable env disk) ∧
      List.Forall₂ (Matches disk) steps changes := by
  obtain ⟨hcs, hfs⟩ := planOperations_ok.mp h
  clear h
  induction hcs generalizing files with
  | nil => exact ⟨[], .nil, by simp, .nil⟩
  | @cons op change ops changes hplan _ ih =>
    obtain ⟨file, files, hfile, hrest, rfl⟩ := List.forall₂_cons_left_iff.mp hfs
    obtain ⟨steps, hsteps, hall, hm⟩ := ih hrest
    obtain ⟨step, hr, hstep⟩ := planOperation_ok.mp hplan
    obtain ⟨-, bytes, hb⟩ := summarizeChange_ok.mp ⟨file, hfile⟩
    obtain ⟨hplannable, hbytes, hd⟩ := Step.of_plan (resolveStep_source_ne hr) hstep hb
    exact ⟨step :: steps, .cons hr hsteps, List.forall_mem_cons.mpr ⟨hplannable, hall⟩,
      .cons ⟨hd, bytes, hbytes, hb⟩ hm⟩

theorem planOperations_of_plannable {env : PatchEnv} {disk : Disk} {ops : List PatchOperation}
    {steps : List Step} (hs : StepsOf env ops steps) (hall : ∀ step ∈ steps, step.Plannable env disk) :
    ∃ changes files, planOperations env disk ops = .ok (changes, files) := by
  simp only [planOperations_ok]
  induction hs with
  | nil => exact ⟨[], [], .nil, .nil⟩
  | @cons op step ops steps hr _ ih =>
    obtain ⟨hstep, hall⟩ := List.forall_mem_cons.mp hall
    obtain ⟨changes, files, hcs, hfs⟩ := ih hall
    obtain ⟨change, bytes, hplan, hb⟩ := hstep.plan
    obtain ⟨file, hfile⟩ := summarizeChange_ok.mpr
      ⟨planStep_oldText (resolveStep_source_ne hr) hplan, bytes, hb⟩
    exact ⟨change :: changes, file :: files, .cons (planOperation_ok.mpr ⟨step, hr, hplan⟩) hcs,
      .cons hfile hfs⟩

/-- A patch succeeds when its steps can all be planned and then run through. -/
theorem applyOperations_success_iff {env : PatchEnv} {ops : List PatchOperation} {disk disk' : Disk} :
    (∃ reply, applyOperations env noFaults .apply ops disk = (.success reply, disk')) ↔
      ∃ steps, StepsOf env ops steps ∧ (∀ step ∈ steps, step.Plannable env disk) ∧
        batch disk steps disk = some disk' := by
  have hplan : (∃ reply, applyOperations env noFaults .apply ops disk = (.success reply, disk')) ↔
      ∃ changes files, planOperations env disk ops = .ok (changes, files) ∧
        executeChanges noFaults changes disk = .ok disk' := by
    unfold applyOperations
    cases hp : planOperations env disk ops with
    | error e => cases e <;> simp
    | ok plan =>
      obtain ⟨changes, files⟩ := plan
      cases hx : executeChanges noFaults changes disk <;>
        simp [PatchFlags.inspects, PatchFlags.apply, hx]
  rw [hplan]
  constructor
  · rintro ⟨changes, files, hp, hx⟩
    obtain ⟨steps, hsteps, hall, hm⟩ := stepsOf_planOperations hp
    exact ⟨steps, hsteps, hall, (executeChanges_ok hm disk disk').mp hx⟩
  · rintro ⟨steps, hsteps, hall, hb⟩
    obtain ⟨changes, files, hp⟩ := planOperations_of_plannable hsteps hall
    obtain ⟨steps', hsteps', -, hm⟩ := stepsOf_planOperations hp
    obtain rfl := hsteps.unique hsteps'
    exact ⟨changes, files, hp, (executeChanges_ok hm disk disk').mpr hb⟩

/-! ## One step after another -/

/-- Steps each planned from the tree it is executed on. -/
def OneByOne (env : PatchEnv) : List Step → Disk → Disk → Prop
  | [], disk, disk' => disk = disk'
  | step :: steps, disk, disk' => step.Plannable env disk ∧
      ∃ next, step.run disk disk = some next ∧ OneByOne env steps next disk'

theorem sequentially_iff {env : PatchEnv} {ops : List PatchOperation} {disk disk' : Disk} :
    sequentially env ops disk = some disk' ↔
      ∃ steps, StepsOf env ops steps ∧ OneByOne env steps disk disk' := by
  induction ops generalizing disk with
  | nil => simp [sequentially, StepsOf, OneByOne]
  | cons op ops ih =>
    have hone : ∀ next, (∃ reply, applyOperations env noFaults .apply [op] disk = (.success reply, next)) ↔
        ∃ step, resolveStep env op = .ok step ∧ step.Plannable env disk ∧ step.run disk disk = some next := by
      intro next
      rw [applyOperations_success_iff]
      simp [StepsOf, batch, List.forall₂_cons_left_iff]
    have hsplit : sequentially env (op :: ops) disk = some disk' ↔
        ∃ next, (∃ reply, applyOperations env noFaults .apply [op] disk = (.success reply, next)) ∧
          sequentially env ops next = some disk' := by
      rw [sequentially]
      rcases applyOperations env noFaults .apply [op] disk with ⟨outcome, next⟩
      cases outcome <;> simp
    rw [hsplit]
    simp only [hone, ih, StepsOf, List.forall₂_cons_left_iff]
    constructor
    · rintro ⟨next, ⟨step, hr, hp, hrun⟩, steps, hsteps, hrest⟩
      exact ⟨step :: steps, ⟨step, steps, hr, hsteps, rfl⟩, hp, next, hrun, hrest⟩
    · rintro ⟨_, ⟨step, steps, hr, hsteps, rfl⟩, hp, next, hrun, hrest⟩
      exact ⟨next, ⟨step, hr, hp, hrun⟩, steps, hsteps, hrest⟩

/-! ## When both executions agree -/

/-- The steps about one existing file, in order. -/
def stepsOn (path : Path) (steps : List Step) : List Step :=
  steps.filter fun step => step.source = some path

/-- Each step on a file that held `original` still applies to `current`, what the steps
before it leave, and the last one leaves what the whole patch does. After a step that
removes the file there is nothing left for another one to apply to. -/
def ChainOk (path : Path) (original : Option Bytes) : Option Bytes → Option Bytes → List Step → Prop
  | current, left, [] => current = left
  | current, left, .add _ _ :: steps => ChainOk path original current left steps
  | current, _, .delete _ :: steps =>
    (∃ raw, current = some raw ∧ isText raw = true) ∧ ChainOk path original none none steps
  | current, _, .update _ hunks :: steps =>
    ∃ bytes, current.bind (updatedBytes path hunks) = some bytes ∧
      ChainOk path original (some bytes) (original.bind (updatedBytes path hunks)) steps
  | current, _, .move _ _ hunks :: steps =>
    ∃ bytes, current.bind (updatedBytes path hunks) = some bytes ∧
      original.bind (updatedBytes path hunks) = some bytes ∧ ChainOk path original none none steps

/-- No path is created twice, and the steps on each existing file build on each other. -/
structure InStep (original left current : Path → Option Bytes) (steps : List Step) : Prop where
  fresh : (steps.filterMap Step.created).Nodup
  absent : ∀ p ∈ steps.filterMap Step.created, left p = none
  chains : ∀ p, ChainOk p (original p) (current p) (left p) (stepsOn p steps)

/-- The files after a step that wrote `bytes`. -/
def Step.filesAfter (bytes : Bytes) (files : Path → Option Bytes) : Step → Path → Option Bytes
  | .add path _ | .update path _ => Function.update files path (some bytes)
  | .delete path => Function.update files path none
  | .move path target _ => Function.update (Function.update files target (some bytes)) path none

theorem Step.exec_files {step : Step} {bytes : Bytes} {disk disk' : Disk}
    (h : step.exec bytes disk = some disk') : disk'.files = step.filesAfter bytes disk.files := by
  have writes : ∀ path d, ((disk.mkdirs (List.tail path)).bind fun d => d.write path bytes) = some d →
      d.files = Function.update disk.files path (some bytes) := by
    intro path d hd
    obtain ⟨made, hmade, hw⟩ := Option.bind_eq_some_iff.mp hd
    rw [Tree.write_files hw, Tree.mkdirs_files hmade]
  cases step with
  | add path lines => exact writes path disk' h
  | delete path => exact Tree.unlink_files h
  | update path hunks => exact writes path disk' h
  | move path target hunks =>
    obtain ⟨written, hw, hu⟩ := Option.bind_eq_some_iff.mp h
    rw [Tree.unlink_files hu, writes target written hw]
    rfl

theorem Step.exec_shape {step : Step} {bytes : Bytes} {s t s' : Disk} (hst : SameShape s t)
    (h : step.exec bytes s = some s') (bytes' : Bytes) :
    ∃ t', step.exec bytes' t = some t' ∧ SameShape s' t' := by
  have writes : ∀ path u, ((s.mkdirs (List.tail path)).bind fun d => d.write path bytes) = some u →
      ∃ v, ((t.mkdirs path.tail).bind fun d => d.write path bytes') = some v ∧ SameShape u v := by
    intro path u hu
    obtain ⟨made, hmade, hw⟩ := Option.bind_eq_some_iff.mp hu
    obtain ⟨made', hmade', hsame⟩ := hst.mkdirs hmade
    obtain ⟨v, hv, huv⟩ := hsame.write hw bytes'
    exact ⟨v, by rw [hmade', Option.bind_some, hv], huv⟩
  cases step with
  | add path lines => exact writes path s' h
  | delete path => exact hst.unlink h
  | update path hunks => exact writes path s' h
  | move path target hunks =>
    obtain ⟨written, hw, hu⟩ := Option.bind_eq_some_iff.mp h
    obtain ⟨written', hw', hsame⟩ := writes target written hw
    obtain ⟨t', ht', hshape⟩ := hsame.unlink hu
    exact ⟨t', by simp only [Step.exec, hw', Option.bind_some, ht'], hshape⟩

/-- The path a step creates holds no directory. -/
theorem Step.exec_created {step : Step} {bytes : Bytes} {disk disk' : Disk} {path : Path}
    (h : step.exec bytes disk = some disk') (hc : step.created = some path) :
    disk.node path ≠ some .dir := by
  have writes : ∀ d, ((disk.mkdirs (List.tail path)).bind fun d => d.write path bytes) = some d →
      disk.node path ≠ some .dir := by
    intro d hd hdir
    obtain ⟨made, hmade, hw⟩ := Option.bind_eq_some_iff.mp hd
    refine (Tree.write_eq_some hw).1 ?_
    rcases Tree.mkdirs_node hmade path with he | ⟨-, he⟩
    · rw [he, hdir]
    · exact he
  cases step with
  | add p lines =>
    obtain rfl := Option.some.inj hc
    exact writes _ h
  | delete p => simp [Step.created] at hc
  | update p hunks => simp [Step.created] at hc
  | move p target hunks =>
    obtain rfl := Option.some.inj hc
    obtain ⟨written, hw, -⟩ := Option.bind_eq_some_iff.mp h
    exact writes _ hw

section Agreement

variable {original left current : Path → Option Bytes} {steps : List Step}

private theorem stepsOn_cons_self {path : Path} {step : Step} (h : step.source = some path) :
    stepsOn path (step :: steps) = step :: stepsOn path steps := by
  simp [stepsOn, h]

private theorem stepsOn_cons_of_ne {path : Path} {step : Step} (h : step.source ≠ some path) :
    stepsOn path (step :: steps) = stepsOn path steps := by
  simp [stepsOn, h]

private theorem inStep_add_iff {p : Path} {lines : List Text} (bytes : Bytes)
    (hsource : stepsOn p steps = []) (hsame : left p = none ↔ current p = none) :
    InStep original left current (.add p lines :: steps) ↔ left p = none ∧
      InStep original (Function.update left p (some bytes)) (Function.update current p (some bytes)) steps := by
  constructor
  · intro h
    have hp : left p = none := h.absent p (by simp [Step.created])
    obtain ⟨hnot, hfresh⟩ := List.nodup_cons.mp h.fresh
    refine ⟨hp, hfresh, fun q hq => ?_, fun q => ?_⟩
    · have hqp : q ≠ p := fun hqp => hnot (hqp ▸ hq)
      rw [Function.update_of_ne hqp]
      exact h.absent q (List.mem_cons_of_mem p hq)
    · by_cases hqp : q = p
      · subst hqp
        simp [hsource, ChainOk]
      · have hq := h.chains q
        rw [stepsOn_cons_of_ne (by simp [Step.source])] at hq
        rwa [Function.update_of_ne hqp, Function.update_of_ne hqp]
  · rintro ⟨hp, h⟩
    have hnot : p ∉ steps.filterMap Step.created := fun hm => by simpa using h.absent p hm
    refine ⟨List.nodup_cons.mpr ⟨hnot, h.fresh⟩, fun q hq => ?_, fun q => ?_⟩
    · by_cases hqp : q = p
      · rwa [hqp]
      · have hq' := h.absent q ((List.mem_cons.mp hq).resolve_left hqp)
        rwa [Function.update_of_ne hqp] at hq'
    · rw [stepsOn_cons_of_ne (by simp [Step.source])]
      by_cases hqp : q = p
      · subst hqp
        rw [hsource, hp, hsame.mp hp]
        rfl
      · have hq := h.chains q
        rwa [Function.update_of_ne hqp, Function.update_of_ne hqp] at hq

private theorem inStep_delete_iff {p : Path} (hnot : p ∉ steps.filterMap Step.created) :
    InStep original left current (.delete p :: steps) ↔ (∃ raw, current p = some raw ∧ isText raw = true) ∧
      InStep original (Function.update left p none) (Function.update current p none) steps := by
  have hcreated : (Step.delete p :: steps).filterMap Step.created = steps.filterMap Step.created := rfl
  have habsent : (∀ q ∈ steps.filterMap Step.created, Function.update left p none q = none) ↔
      ∀ q ∈ steps.filterMap Step.created, left q = none :=
    forall₂_congr fun q hq => by rw [Function.update_of_ne (ne_of_mem_of_not_mem hq hnot)]
  have hchain : ∀ q, q ≠ p → (ChainOk q (original q) (current q) (left q) (stepsOn q (.delete p :: steps)) ↔
      ChainOk q (original q) (Function.update current p none q) (Function.update left p none q)
        (stepsOn q steps)) := by
    intro q hq
    rw [stepsOn_cons_of_ne (by simpa [Step.source] using Ne.symm hq), Function.update_of_ne hq,
      Function.update_of_ne hq]
  constructor
  · intro h
    have hp := h.chains p
    rw [stepsOn_cons_self rfl] at hp
    refine ⟨hp.1, h.fresh, habsent.mpr h.absent, fun q => ?_⟩
    by_cases hqp : q = p
    · subst hqp
      simpa using hp.2
    · exact (hchain q hqp).mp (h.chains q)
  · rintro ⟨hraw, h⟩
    refine ⟨h.fresh, habsent.mp h.absent, fun q => ?_⟩
    by_cases hqp : q = p
    · subst hqp
      rw [stepsOn_cons_self rfl]
      exact ⟨hraw, by simpa using h.chains q⟩
    · exact (hchain q hqp).mpr (h.chains q)

private theorem inStep_update_iff {p : Path} {hunks : List UpdateHunk} {bytes : Bytes}
    (hnot : p ∉ steps.filterMap Step.created)
    (hleft : (original p).bind (updatedBytes p hunks) = some bytes) :
    InStep original left current (.update p hunks :: steps) ↔
      ∃ own, (current p).bind (updatedBytes p hunks) = some own ∧
        InStep original (Function.update left p (some bytes)) (Function.update current p (some own)) steps := by
  have habsent : (∀ q ∈ steps.filterMap Step.created, Function.update left p (some bytes) q = none) ↔
      ∀ q ∈ steps.filterMap Step.created, left q = none :=
    forall₂_congr fun q hq => by rw [Function.update_of_ne (ne_of_mem_of_not_mem hq hnot)]
  have hchain : ∀ own q, q ≠ p →
      (ChainOk q (original q) (current q) (left q) (stepsOn q (.update p hunks :: steps)) ↔
        ChainOk q (original q) (Function.update current p (some own) q)
          (Function.update left p (some bytes) q) (stepsOn q steps)) := by
    intro own q hq
    rw [stepsOn_cons_of_ne (by simpa [Step.source] using Ne.symm hq), Function.update_of_ne hq,
      Function.update_of_ne hq]
  constructor
  · intro h
    have hp := h.chains p
    rw [stepsOn_cons_self rfl] at hp
    obtain ⟨own, hown, hp⟩ := hp
    refine ⟨own, hown, h.fresh, habsent.mpr h.absent, fun q => ?_⟩
    by_cases hqp : q = p
    · subst hqp
      simpa [hleft] using hp
    · exact (hchain own q hqp).mp (h.chains q)
  · rintro ⟨own, hown, h⟩
    refine ⟨h.fresh, habsent.mp h.absent, fun q => ?_⟩
    by_cases hqp : q = p
    · subst hqp
      rw [stepsOn_cons_self rfl]
      exact ⟨own, hown, by simpa [hleft] using h.chains q⟩
    · exact (hchain own q hqp).mpr (h.chains q)

/-- A move is the creation of its target and the removal of its source, when the text
written is the same either way. -/
private theorem inStep_move_iff {p target : Path} {hunks : List UpdateHunk} :
    InStep original left current (.move p target hunks :: steps) ↔
      (∃ own, (current p).bind (updatedBytes p hunks) = some own ∧
        (original p).bind (updatedBytes p hunks) = some own) ∧
      InStep original left current (.add target [] :: .delete p :: steps) := by
  have hchain : ∀ q, q ≠ p →
      stepsOn q (.move p target hunks :: steps) = stepsOn q (.add target [] :: .delete p :: steps) := by
    intro q hq
    rw [stepsOn_cons_of_ne (by simpa [Step.source] using Ne.symm hq),
      stepsOn_cons_of_ne (by simp [Step.source]),
      stepsOn_cons_of_ne (by simpa [Step.source] using Ne.symm hq)]
  have hown : stepsOn p (.add target [] :: .delete p :: steps) = .delete p :: stepsOn p steps := by
    rw [stepsOn_cons_of_ne (by simp [Step.source]), stepsOn_cons_self rfl]
  constructor
  · intro h
    have hp := h.chains p
    rw [stepsOn_cons_self rfl] at hp
    obtain ⟨own, hcurrent, horiginal, hp⟩ := hp
    refine ⟨⟨own, hcurrent, horiginal⟩, h.fresh, h.absent, fun q => ?_⟩
    by_cases hqp : q = p
    · subst hqp
      obtain ⟨raw, hraw, hu⟩ := Option.bind_eq_some_iff.mp hcurrent
      rw [hown]
      exact ⟨⟨raw, hraw, (updatedBytes_eq_some.mp hu).1⟩, hp⟩
    · rw [← hchain q hqp]
      exact h.chains q
  · rintro ⟨⟨own, hcurrent, horiginal⟩, h⟩
    refine ⟨h.fresh, h.absent, fun q => ?_⟩
    by_cases hqp : q = p
    · subst hqp
      have hp := h.chains q
      rw [hown] at hp
      rw [stepsOn_cons_self rfl]
      exact ⟨own, hcurrent, horiginal, hp.2⟩
    · rw [hchain q hqp]
      exact h.chains q

end Agreement

/-- A file that was there before the patch is created by no step. -/
private theorem not_created {env : PatchEnv} {disk : Disk} {steps : List Step} {p : Path}
    (hall : ∀ step ∈ steps, step.Plannable env disk) (hp : (disk.files p).isSome) :
    p ∉ steps.filterMap Step.created := by
  intro hm
  obtain ⟨step, hstep, hc⟩ := List.mem_filterMap.mp hm
  have hn := (hall step hstep).absent p hc
  simp [Tree.files, hn] at hp

/-- No step is about a path that held nothing before the patch. -/
private theorem stepsOn_absent {env : PatchEnv} {disk : Disk} {steps : List Step} {p : Path}
    (hall : ∀ step ∈ steps, step.Plannable env disk) (hp : disk.node p = none) : stepsOn p steps = [] := by
  refine List.filter_eq_nil_iff.mpr fun step hstep hs => ?_
  obtain ⟨raw, hraw, -⟩ := (hall step hstep).readable p (by simpa using hs)
  simp [Tree.files, hp] at hraw

/-- The first of several steps: the agreement of the executions from here on means that
the step can be planned here too and that they still agree after it. -/
private theorem inStep_cons_iff {env : PatchEnv} {disk s s' t : Disk} {step : Step} {steps : List Step}
    (hplan : step.Plannable env disk) (hall : ∀ step ∈ steps, step.Plannable env disk)
    (hst : SameShape s t) (hrun : step.run disk s = some s') :
    InStep disk.files s.files t.files (step :: steps) ↔ step.Plannable env t ∧
      ∃ t', step.run t t = some t' ∧ SameShape s' t' ∧ InStep disk.files s'.files t'.files steps := by
  obtain ⟨bytes, hbytes, hexec⟩ := Option.bind_eq_some_iff.mp hrun
  have hs' := Step.exec_files hexec
  have absent_iff : ∀ p, step.created = some p → (s.files p = none ↔ t.node p = none) := by
    intro p hc
    rw [Tree.files_eq_none_iff, ← hst.none_iff]
    exact or_iff_left (Step.exec_created hexec hc)
  have runs : ∀ own, step.bytes t = some own → ∃ t', step.run t t = some t' ∧ SameShape s' t' ∧
      t'.files = step.filesAfter own t.files := by
    intro own hown
    obtain ⟨t', ht', hshape⟩ := Step.exec_shape hst hexec own
    exact ⟨t', by rw [Step.run, hown, Option.bind_some, ht'], hshape, Step.exec_files ht'⟩
  have ran : ∀ own t', step.bytes t = some own → step.run t t = some t' →
      t'.files = step.filesAfter own t.files := by
    intro own t' hown ht'
    rw [Step.run, hown, Option.bind_some] at ht'
    exact Step.exec_files ht'
  cases step with
  | add p lines =>
    have hn := hplan.absent p rfl
    rw [inStep_add_iff bytes (stepsOn_absent hall hn) (hst.files_none_iff p), absent_iff p rfl]
    constructor
    · rintro ⟨hp, h⟩
      obtain ⟨t', ht', hshape, hfiles⟩ := runs bytes hbytes
      refine ⟨⟨hplan.encoded, ?_, by simp [Step.source], hplan.source_ne⟩, t', ht', hshape, ?_⟩
      · rintro q ⟨⟩
        exact hp
      · rw [hs', hfiles]
        exact h
    · rintro ⟨hp, t', ht', -, h⟩
      rw [hs', ran bytes t' hbytes ht'] at h
      exact ⟨hp.absent p rfl, h⟩
  | delete p =>
    obtain ⟨raw, hraw, hread, -⟩ := hplan.readable p rfl
    rw [inStep_delete_iff (not_created hall (by simp [hraw]))]
    constructor
    · rintro ⟨⟨own, hown, htext⟩, h⟩
      obtain ⟨t', ht', hshape, hfiles⟩ := runs [] rfl
      refine ⟨⟨rfl, by simp [Step.created], ?_, hplan.source_ne⟩, t', ht', hshape, ?_⟩
      · rintro q ⟨⟩
        exact ⟨own, hown, hread, htext⟩
      · rw [hs', hfiles]
        exact h
    · rintro ⟨hp, t', ht', -, h⟩
      obtain ⟨own, hown, -, htext⟩ := hp.readable p rfl
      rw [hs', ran [] t' rfl ht'] at h
      exact ⟨⟨own, hown, htext⟩, h⟩
  | update p hunks =>
    obtain ⟨raw, hraw, hread, -⟩ := hplan.readable p rfl
    rw [inStep_update_iff (not_created hall (by simp [hraw])) hbytes]
    constructor
    · rintro ⟨own, hown, h⟩
      obtain ⟨t', ht', hshape, hfiles⟩ := runs own hown
      obtain ⟨before, hbefore, hu⟩ := Option.bind_eq_some_iff.mp hown
      have hown' : Step.bytes t (.update p hunks) = some own := hown
      refine ⟨⟨by simp [hown'], by simp [Step.created], ?_, hplan.source_ne⟩, t', ht', hshape, ?_⟩
      · rintro q ⟨⟩
        exact ⟨before, hbefore, hread, (updatedBytes_eq_some.mp hu).1⟩
      · rw [hs', hfiles]
        exact h
    · rintro ⟨hp, t', ht', -, h⟩
      obtain ⟨own, hown⟩ := Option.isSome_iff_exists.mp hp.encoded
      rw [hs', ran own t' hown ht'] at h
      exact ⟨own, hown, h⟩
  | move p target hunks =>
    obtain ⟨raw, hraw, hread, -⟩ := hplan.readable p rfl
    have hne : target ≠ p := fun h => hplan.source_ne (by simp [Step.source, Step.created, h])
    have hn := hplan.absent target rfl
    have hsource : stepsOn target steps = [] := stepsOn_absent hall hn
    have hboth : stepsOn target (.delete p :: steps) = [] := by
      rw [stepsOn_cons_of_ne (by simpa [Step.source] using hne.symm), hsource]
    rw [inStep_move_iff, inStep_add_iff bytes hboth (hst.files_none_iff target), absent_iff target rfl,
      inStep_delete_iff (not_created hall (by simp [hraw]))]
    constructor
    · rintro ⟨⟨own, hown, hsame⟩, hp, -, h⟩
      obtain rfl := Option.some.inj (hsame.symm.trans hbytes)
      obtain ⟨t', ht', hshape, hfiles⟩ := runs own hown
      obtain ⟨before, hbefore, hu⟩ := Option.bind_eq_some_iff.mp hown
      have hown' : Step.bytes t (.move p target hunks) = some own := hown
      refine ⟨⟨by simp [hown'], ?_, ?_, hplan.source_ne⟩, t', ht', hshape, ?_⟩
      · rintro q ⟨⟩
        exact hp
      · rintro q ⟨⟩
        exact ⟨before, hbefore, hread, (updatedBytes_eq_some.mp hu).1⟩
      · rw [hs', hfiles]
        exact h
    · rintro ⟨hp, t', ht', -, h⟩
      obtain ⟨own, hown⟩ := Option.isSome_iff_exists.mp hp.encoded
      obtain ⟨before, hbefore, hu⟩ := Option.bind_eq_some_iff.mp hown
      rw [hs', ran own t' hown ht'] at h
      have hagree := h.chains target
      rw [hsource] at hagree
      obtain rfl : own = bytes := by
        simpa [ChainOk, Step.filesAfter, Function.update_of_ne hne] using hagree
      refine ⟨⟨own, hown, hbytes⟩, hp.absent target rfl, ⟨before, ?_, (updatedBytes_eq_some.mp hu).1⟩, h⟩
      rwa [Function.update_of_ne hne.symm]

/-- The whole run: both executions end in the same tree exactly when they are in step. -/
theorem oneByOne_iff {env : PatchEnv} {disk s t s' : Disk} {steps : List Step}
    (hall : ∀ step ∈ steps, step.Plannable env disk) (hst : SameShape s t)
    (hrun : batch disk steps s = some s') :
    OneByOne env steps t s' ↔ InStep disk.files s.files t.files steps := by
  induction steps generalizing s t with
  | nil =>
    obtain rfl := Option.some.inj hrun
    constructor
    · rintro rfl
      exact ⟨List.nodup_nil, by simp, fun p => rfl⟩
    · intro h
      exact (hst.eq_of_files (funext fun p => (h.chains p).symm)).symm
  | cons step steps ih =>
    obtain ⟨next, hnext, hrest⟩ := Option.bind_eq_some_iff.mp hrun
    obtain ⟨hstep, hsteps⟩ := List.forall_mem_cons.mp hall
    rw [inStep_cons_iff hstep hsteps hst hnext]
    refine and_congr_right fun _ => ⟨?_, ?_⟩
    · rintro ⟨t', ht', h⟩
      obtain ⟨bytes, -, hexec⟩ := Option.bind_eq_some_iff.mp hnext
      obtain ⟨own, -, hexec'⟩ := Option.bind_eq_some_iff.mp ht'
      obtain ⟨u, hu, hshape⟩ := Step.exec_shape hst hexec own
      obtain rfl := Option.some.inj (hu.symm.trans hexec')
      exact ⟨u, ht', hshape, (ih hsteps hshape hrest).mp h⟩
    · rintro ⟨t', ht', hshape, h⟩
      exact ⟨t', ht', (ih hsteps hshape hrest).mpr h⟩

/-! ## Sequential meaning -/

/-- A patch that succeeds does what its operations do one after another. -/
def SequentialMeaning (env : PatchEnv) (ops : List PatchOperation) (disk : Disk) : Prop :=
  ∀ reply disk', applyOperations env noFaults .apply ops disk = (.success reply, disk') →
    sequentially env ops disk = some disk'

def operationSteps (env : PatchEnv) (ops : List PatchOperation) : List Step :=
  ops.filterMap fun op => (resolveStep env op).toOption

/-- The operations create no path twice, and those that name one existing file apply to
what the ones before them left and end in what they make of the file as it was. -/
structure Sequenceable (env : PatchEnv) (disk : Disk) (ops : List PatchOperation) : Prop where
  fresh : ((operationSteps env ops).filterMap Step.created).Nodup
  chains : ∀ p raw, disk.files p = some raw →
    ChainOk p (some raw) (some raw) (some raw) (stepsOn p (operationSteps env ops))

theorem StepsOf.eq_operationSteps {env : PatchEnv} {ops : List PatchOperation} {steps : List Step}
    (h : StepsOf env ops steps) : operationSteps env ops = steps := by
  induction h with
  | nil => rfl
  | cons hr _ ih =>
    rw [operationSteps, List.filterMap_cons, hr]
    exact congrArg _ ih

private theorem sequenceable_iff {env : PatchEnv} {disk : Disk} {ops : List PatchOperation}
    (hall : ∀ step ∈ operationSteps env ops, step.Plannable env disk) :
    InStep disk.files disk.files disk.files (operationSteps env ops) ↔ Sequenceable env disk ops := by
  constructor
  · intro h
    refine ⟨h.fresh, fun p raw hp => ?_⟩
    simpa [hp] using h.chains p
  · intro h
    refine ⟨h.fresh, fun p hp => ?_, fun p => ?_⟩
    · obtain ⟨step, hstep, hc⟩ := List.mem_filterMap.mp hp
      simp [Tree.files, (hall step hstep).absent p hc]
    · cases hp : disk.files p with
      | some raw => exact h.chains p raw hp
      | none =>
        have hnil : stepsOn p (operationSteps env ops) = [] := by
          refine List.filter_eq_nil_iff.mpr fun step hstep hs => ?_
          obtain ⟨raw, hraw, -⟩ := (hall step hstep).readable p (by simpa using hs)
          simp [hp] at hraw
        rw [hnil]
        rfl

/-- A patch that succeeds has its sequential meaning exactly when its operations can be
applied in sequence and nothing of an earlier one is dropped by a later one. -/
theorem sequentialMeaning_iff (env : PatchEnv) (ops : List PatchOperation) (disk : Disk) :
    SequentialMeaning env ops disk ↔
      ((applyOperations env noFaults .apply ops disk).1.isSuccess = true → Sequenceable env disk ops) := by
  have hrun : ∀ reply disk', applyOperations env noFaults .apply ops disk = (.success reply, disk') →
      (sequentially env ops disk = some disk' ↔ Sequenceable env disk ops) := by
    intro reply disk' h
    obtain ⟨steps, hsteps, hall, hb⟩ := applyOperations_success_iff.mp ⟨reply, h⟩
    have hops := hsteps.eq_operationSteps
    rw [← sequenceable_iff (by rwa [hops]), hops, ← oneByOne_iff hall (.refl disk) hb, sequentially_iff]
    constructor
    · rintro ⟨steps', hsteps', hrun⟩
      rwa [hsteps.unique hsteps']
    · exact fun hrun => ⟨steps, hsteps, hrun⟩
  rcases hcall : applyOperations env noFaults .apply ops disk with ⟨outcome, disk'⟩
  cases outcome with
  | success reply =>
    rw [SequentialMeaning]
    constructor
    · exact fun h _ => (hrun reply disk' hcall).mp (h reply disk' hcall)
    · intro h reply' disk'' hcall'
      exact (hrun reply' disk'' hcall').mpr (h rfl)
  | failed e => simp [SequentialMeaning, hcall, PatchOutcome.isSuccess]
  | raised r => simp [SequentialMeaning, hcall, PatchOutcome.isSuccess]

/-- Two update blocks on one file, each about a line of its own. -/
def updatedTwice : List PatchOperation :=
  [.updateFile (txt "a") none [⟨[⟨.removal, txt "x"⟩, ⟨.addition, txt "y"⟩], 3⟩],
    .updateFile (txt "a") none [⟨[⟨.removal, txt "z"⟩, ⟨.addition, txt "w"⟩], 6⟩]]

/-- The second block writes the file as it was planned from the original: the edit of the
first one is gone, and the reply reports both. -/
theorem updatedTwice_not_sequential :
    ¬SequentialMeaning plainEnv updatedTwice (Tree.ofFiles [([txt "a"], [0x78, 0x0A, 0x7A, 0x0A])]) := by
  intro h
  have hok : (applyOperations plainEnv noFaults .apply updatedTwice
      (Tree.ofFiles [([txt "a"], [0x78, 0x0A, 0x7A, 0x0A])])).1.isSuccess = true := by decide +kernel
  have hlost : (sequentially plainEnv updatedTwice
        (Tree.ofFiles [([txt "a"], [0x78, 0x0A, 0x7A, 0x0A])])).map (fun disk => disk.files [txt "a"]) ≠
      some ((applyOperations plainEnv noFaults .apply updatedTwice
        (Tree.ofFiles [([txt "a"], [0x78, 0x0A, 0x7A, 0x0A])])).2.files [txt "a"]) := by decide +kernel
  rcases hcall : applyOperations plainEnv noFaults .apply updatedTwice
      (Tree.ofFiles [([txt "a"], [0x78, 0x0A, 0x7A, 0x0A])]) with ⟨outcome, disk'⟩
  rw [hcall] at hok hlost
  cases outcome with
  | success reply => exact hlost (by rw [h reply disk' hcall, Option.map_some])
  | failed e => simp [PatchOutcome.isSuccess] at hok
  | raised r => simp [PatchOutcome.isSuccess] at hok

end WebOauthMcp.PatchSequencing
