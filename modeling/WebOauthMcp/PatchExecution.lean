import WebOauthMcp.PatchPlanning

/-!
# Executing a planned patch

The planned changes are executed one after another. Each is a few calls on the tree, any
of which the running system may refuse or break off; what was done before stays done.
The log of effects says what an execution left at each path it touched.
-/

namespace WebOauthMcp.PatchExecution
open CodePoints FileTree PatchGrammar PatchPlanning

/-- How the system breaks one change: directories are missing from some level on, the
file cannot be opened, only part of its octets reach it, or it cannot be removed. -/
inductive IoFault where
  | mkdir (missing : ℕ)
  | openFile
  | write (kept : ℕ)
  | unlink
  deriving DecidableEq

/-- The tree after a call, with the exception if it raised one. -/
abbrev IoResult := Except (Raised × Disk) Disk

def resultDisk : IoResult → Disk
  | .ok disk => disk
  | .error (_, disk) => disk

/-- `path.mkdir(parents=True, exist_ok=True)`. -/
def mkdirParents (fault : Option IoFault) (path : Path) (disk : Disk) : IoResult :=
  match fault with
  | some (.mkdir missing) =>
    if disk.node path = some .dir then .ok disk
    else .error (.osError, (disk.mkdirs (path.drop (missing + 1))).getD disk)
  | _ => match disk.mkdirs path with
    | some disk' => .ok disk'
    | none => .error (.osError, disk)

/-- `path.write_text(text, encoding="utf-8")`: opening empties the file, then the text is
encoded and written. -/
def writeText (fault : Option IoFault) (path : Path) (text : Text) (disk : Disk) : IoResult :=
  if fault = some .openFile then .error (.osError, disk)
  else match disk.write path [] with
    | none => .error (.osError, disk)
    | some opened => match encodeUtf8 text with
      | none => .error (.unicodeEncodeError, opened)
      | some bytes => match fault with
        | some (.write kept) => .error (.osError, (opened.write path (bytes.take kept)).getD opened)
        | _ => .ok ((opened.write path bytes).getD opened)

/-- `path.unlink()`. -/
def unlinkFile (fault : Option IoFault) (path : Path) (disk : Disk) : IoResult :=
  if fault = some .unlink then .error (.osError, disk)
  else match disk.unlink path with
    | some disk' => .ok disk'
    | none => .error (.osError, disk)

/-- `_apply_change`. -/
def applyChange (fault : Option IoFault) (change : PlannedChange) (disk : Disk) : IoResult :=
  if change.kind = .delete then unlinkFile fault change.path disk
  else do
    let disk ← mkdirParents fault change.path.tail disk
    let disk ← writeText fault change.path change.newText disk
    match change.movedFrom with
    | some previous => unlinkFile fault previous disk
    | none => return disk

/-- The execution loop of `apply_patch`; `faults i` breaks the change number `i`. -/
def executeChanges (faults : ℕ → Option IoFault) : List PlannedChange → Disk → IoResult
  | [], disk => .ok disk
  | change :: changes, disk => do
    let disk ← applyChange (faults 0) change disk
    executeChanges (fun i => faults (i + 1)) changes disk

/-! ## The call and its reply -/

structure SerializedChange where
  kind : ChangeKind
  path : Text
  previousPath : Option Text
  deriving DecidableEq

def serializeChange (change : PlannedChange) : SerializedChange :=
  ⟨change.kind, pathText change.path, change.previousPath.map pathText⟩

structure PatchReply where
  changes : List SerializedChange
  files : List FileSummary
  warnings : List Text
  applied : Bool
  validated : Bool
  diff : Option Text
  deriving DecidableEq

inductive PatchOutcome where
  | success (reply : PatchReply)
  | failed (e : PatchError)
  | raised (r : Raised)
  deriving DecidableEq

def PatchOutcome.isSuccess : PatchOutcome → Bool
  | .success _ => true
  | _ => false

structure PatchFlags where
  dryRun : Bool
  validateOnly : Bool
  returnDiff : Bool
  deriving DecidableEq

/-- The flags of a call that applies the patch. -/
def PatchFlags.apply : PatchFlags := ⟨false, false, false⟩

def PatchFlags.inspects (flags : PatchFlags) : Bool := flags.dryRun || flags.validateOnly

/-- `list(dict.fromkeys(...))`: the first occurrence of each warning. -/
def distinctWarnings : List Text → List Text
  | [] => []
  | w :: ws => w :: (distinctWarnings ws).filter (· ≠ w)

def patchReply (env : PatchEnv) (flags : PatchFlags) (changes : List PlannedChange)
    (files : List FileSummary) : PatchReply where
  changes := changes.map serializeChange
  files := files
  warnings := distinctWarnings (files.flatMap FileSummary.warnings)
  applied := !flags.inspects
  validated := flags.inspects
  diff := if flags.returnDiff then some ((changes.map (renderDiff env)).flatten) else none

/-- `apply_patch` from the parsed operations on. Only a `PatchError` becomes a payload. -/
def applyOperations (env : PatchEnv) (faults : ℕ → Option IoFault) (flags : PatchFlags)
    (operations : List PatchOperation) (disk : Disk) : PatchOutcome × Disk :=
  match planOperations env disk operations with
  | .error (.patchError e) => (.failed e, disk)
  | .error (.raised r) => (.raised r, disk)
  | .ok (changes, files) =>
    if flags.inspects then (.success (patchReply env flags changes files), disk)
    else match executeChanges faults changes disk with
      | .ok disk' => (.success (patchReply env flags changes files), disk')
      | .error (r, disk') => (.raised r, disk')

def applyPatch (env : PatchEnv) (faults : ℕ → Option IoFault) (flags : PatchFlags) (patch : Text)
    (disk : Disk) : PatchOutcome × Disk :=
  match parsePatch patch with
  | .error e => (.failed e, disk)
  | .ok operations => applyOperations env faults flags operations disk

/-! ## Effects of an execution -/

def writeEffects (fault : Option IoFault) (path : Path) (text : Text) (disk : Disk) :
    List (Effect Text Bytes) :=
  if fault = some .openFile ∨ (disk.write path []).isNone then []
  else match encodeUtf8 text with
    | none => [(path, some [])]
    | some bytes => match fault with
      | some (.write kept) => [(path, some (bytes.take kept))]
      | _ => [(path, some bytes)]

def unlinkEffects (fault : Option IoFault) (path : Path) (disk : Disk) : List (Effect Text Bytes) :=
  if fault = some .unlink ∨ (disk.unlink path).isNone then [] else [(path, none)]

/-- What one change did to the files when it ended or was broken off. -/
def changeEffects (fault : Option IoFault) (change : PlannedChange) (disk : Disk) :
    List (Effect Text Bytes) :=
  if change.kind = .delete then unlinkEffects fault change.path disk
  else match mkdirParents fault change.path.tail disk with
    | .error _ => []
    | .ok disk => writeEffects fault change.path change.newText disk ++
      match writeText fault change.path change.newText disk, change.movedFrom with
      | .ok disk, some previous => unlinkEffects fault previous disk
      | _, _ => []

/-- What an execution did to the files, up to the change that raised, if one did. -/
def executionEffects (faults : ℕ → Option IoFault) : List PlannedChange → Disk → List (Effect Text Bytes)
  | [], _ => []
  | change :: changes, disk => changeEffects (faults 0) change disk ++
      match applyChange (faults 0) change disk with
      | .ok disk => executionEffects (fun i => faults (i + 1)) changes disk
      | .error _ => []

/-- No change of the plan raises in the tree the changes before it leave. -/
def Completes (faults : ℕ → Option IoFault) : List PlannedChange → Disk → Prop
  | [], _ => True
  | change :: changes, disk => ∃ disk', applyChange (faults 0) change disk = .ok disk' ∧
      Completes (fun i => faults (i + 1)) changes disk'

theorem mkdirParents_files (fault : Option IoFault) (path : Path) (disk : Disk) :
    (resultDisk (mkdirParents fault path disk)).files = disk.files := by
  have hmk : ∀ p, ((disk.mkdirs p).getD disk).files = disk.files := by
    intro p
    cases h : disk.mkdirs p with
    | none => rfl
    | some disk' => exact Tree.mkdirs_files h
  unfold mkdirParents
  split
  · split_ifs
    · rfl
    · exact hmk _
  · cases h : disk.mkdirs path with
    | none => rfl
    | some disk' => exact Tree.mkdirs_files h

theorem writeText_files (fault : Option IoFault) (path : Path) (text : Text) (disk : Disk) :
    (resultDisk (writeText fault path text disk)).files =
      applyEffects disk.files (writeEffects fault path text disk) := by
  have rewritten : ∀ opened, disk.write path [] = some opened → ∀ bytes,
      ((opened.write path bytes).getD opened).files = Function.update disk.files path (some bytes) := by
    intro opened ho bytes
    obtain ⟨hp, hparent, hnode⟩ := Tree.write_eq_some ho
    have hne : path ≠ [] := ((Tree.write_isSome_iff _ _ _).mp (by rw [ho]; rfl)).1
    have hsome : (opened.write path bytes).isSome := by
      refine (Tree.write_isSome_iff _ _ _).mpr ⟨hne, by simp [hnode], ?_⟩
      rw [hnode, Function.update_of_ne, hparent]
      exact fun h => absurd (congrArg List.length h) (by cases path <;> simp_all)
    obtain ⟨w, hw⟩ := Option.isSome_iff_exists.mp hsome
    rw [hw, Option.getD_some, Tree.write_files hw, Tree.write_files ho, Function.update_idem]
  unfold writeText writeEffects
  by_cases hf : fault = some .openFile
  · simp [hf, resultDisk, applyEffects]
  · cases ho : disk.write path [] with
    | none => simp [hf, resultDisk, applyEffects]
    | some opened =>
      cases encodeUtf8 text with
      | none => simpa [hf, resultDisk, applyEffects] using Tree.write_files ho
      | some bytes =>
        simp only [hf, Option.isNone_some, Bool.false_eq_true, or_self, if_false]
        split <;> simpa [resultDisk, applyEffects] using rewritten opened ho _

theorem unlinkFile_files (fault : Option IoFault) (path : Path) (disk : Disk) :
    (resultDisk (unlinkFile fault path disk)).files =
      applyEffects disk.files (unlinkEffects fault path disk) := by
  unfold unlinkFile unlinkEffects
  by_cases hf : fault = some .unlink
  · simp [hf, resultDisk, applyEffects]
  · cases hu : disk.unlink path with
    | none => simp [hf, resultDisk, applyEffects]
    | some disk' => simpa [hf, resultDisk, applyEffects] using Tree.unlink_files hu

theorem applyChange_files (fault : Option IoFault) (change : PlannedChange) (disk : Disk) :
    (resultDisk (applyChange fault change disk)).files =
      applyEffects disk.files (changeEffects fault change disk) := by
  unfold applyChange changeEffects
  split_ifs with hdel
  · exact unlinkFile_files fault change.path disk
  · have hmk := mkdirParents_files fault change.path.tail disk
    cases hm : mkdirParents fault change.path.tail disk with
    | error e =>
      rw [hm] at hmk
      exact hmk
    | ok made =>
      rw [hm] at hmk
      have hfiles : made.files = disk.files := hmk
      have hwr := writeText_files fault change.path change.newText made
      simp only [bind, Except.bind]
      cases hw : writeText fault change.path change.newText made with
      | error e =>
        rw [hw] at hwr
        simpa [hfiles] using hwr
      | ok written =>
        rw [hw] at hwr
        have hwritten : written.files =
            applyEffects made.files (writeEffects fault change.path change.newText made) := hwr
        cases change.movedFrom with
        | none => simpa [hfiles, pure, Except.pure, resultDisk] using hwritten
        | some previous =>
          simp only [applyEffects_append]
          rw [unlinkFile_files, hwritten, hfiles]

/-- An execution leaves the files as its log of effects says, however it ends. -/
theorem executeChanges_files (faults : ℕ → Option IoFault) (changes : List PlannedChange) (disk : Disk) :
    (resultDisk (executeChanges faults changes disk)).files =
      applyEffects disk.files (executionEffects faults changes disk) := by
  induction changes generalizing faults disk with
  | nil => rfl
  | cons change changes ih =>
    have hstep := applyChange_files (faults 0) change disk
    simp only [executeChanges, executionEffects, bind, Except.bind, applyEffects_append]
    cases hc : applyChange (faults 0) change disk with
    | error e =>
      rw [hc] at hstep
      simpa [applyEffects] using hstep
    | ok disk' =>
      rw [hc] at hstep
      rw [← hstep]
      exact ih _ disk'

theorem completes_iff (faults : ℕ → Option IoFault) (changes : List PlannedChange) (disk : Disk) :
    Completes faults changes disk ↔ ∃ disk', executeChanges faults changes disk = .ok disk' := by
  induction changes generalizing faults disk with
  | nil => simp [Completes, executeChanges]
  | cons change changes ih =>
    simp only [Completes, executeChanges, bind, Except.bind]
    cases applyChange (faults 0) change disk with
    | error e => simp
    | ok disk' => simp [ih]

/-! ## All or nothing -/

/-- A call without success changed no file, and a call that only inspects changed nothing. -/
def AllOrNothing (env : PatchEnv) (faults : ℕ → Option IoFault) (flags : PatchFlags) (patch : Text)
    (disk : Disk) : Prop :=
  ((applyPatch env faults flags patch disk).1.isSuccess = false →
    (applyPatch env faults flags patch disk).2.files = disk.files) ∧
  (flags.inspects = true → (applyPatch env faults flags patch disk).2 = disk)

/-- Names below the root, with library functions that return nothing. -/
def plainEnv : PatchEnv where
  resolvePath name := .ok [name]
  unreadable _ := false
  unifiedDiff _ _ _ _ := []
  sha256Hex _ := []

def deletedTwice : Text :=
  patchText ["*** Begin Patch", "*** Delete File: a", "*** Delete File: a", "*** End Patch"]

end WebOauthMcp.PatchExecution
