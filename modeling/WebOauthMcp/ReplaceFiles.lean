import Mathlib.Algebra.GroupWithZero.Nat
import WebOauthMcp.Words
import WebOauthMcp.FaultyPrograms
import WebOauthMcp.ReplaceRules

/-!
# Batch replacement

All files of a batch are planned before the first one is written. Reading, writing,
renaming and syncing may fail at any point; an atomic write may fail before or after its
rename. A path leads to one file: the paths of a call are resolved. The mode of a file is
what the temporary file was given before the rename.
-/

namespace WebOauthMcp.ReplaceFiles
open CodePoints Words BudgetMetadata ContentIo ReplaceRules FaultyPrograms

abbrev Path := Text

inductive Node
  | missing
  | other
  | file (raw : Bytes) (mode : ℕ)

/-- What happens to an access: an operating system error before or after its effect. -/
inductive Fault
  | none
  | before (reason : Text)
  | after (reason : Text)

/-! ## Operations and targets -/

/-- An optional argument of an operation. Values that are no strings are told apart by
their text. -/
inductive Setting
  | absent
  | text (t : Text)
  | other (v : Text)
  deriving DecidableEq

/-- An operation as it is passed in; ill-typed paths and rules are `none`. -/
structure Operation where
  path : Option Path
  rules : Option (List Dict)
  expectedRevision : Setting
  encoding : Setting

/-- All operations on one path. -/
structure Target where
  path : Path
  rules : List Dict
  expectedRevision : Setting
  encoding : Setting

inductive ReplaceError
  | invalidArguments (message : Text)
  | fileNotFound (path : Path)
  | notAFile (path : Path)
  | revisionConflict (path : Path) (expected : Setting) (actual : Text)
  | changedWhilePlanned (path : Path) (expected actual : Text)
  | encodingError (path : Path) (e : DecodingError)
  | rule (path : Path) (index : ℕ) (e : RuleError)
  | writeFailed (reason : Text) (rollbackErrors : List Text)

def ReplaceError.code : ReplaceError → Text
  | .invalidArguments _ => txt "invalid_arguments"
  | .fileNotFound _ => txt "file_not_found"
  | .notAFile _ => txt "not_a_file"
  | .revisionConflict .. => txt "revision_conflict"
  | .changedWhilePlanned .. => txt "revision_conflict"
  | .encodingError .. => txt "encoding_error"
  | .rule _ _ e => e.code
  | .writeFailed .. => txt "write_failed"

/-- The field `rolled_back` of a failed write. -/
def ReplaceError.rolledBack : ReplaceError → Option Bool
  | .writeFailed _ errors => some errors.isEmpty
  | _ => none

def addOperation (o : Operation) (path : Path) (rules : List Dict) : List Target → Except ReplaceError (List Target)
  | [] => .ok [⟨path, rules, o.expectedRevision, o.encoding⟩]
  | t :: ts =>
    if t.path = path then
      if t.encoding ≠ o.encoding then .error (.invalidArguments (txt "Conflicting encodings for " ++ path ++ txt "."))
      else if t.expectedRevision ≠ o.expectedRevision then
        .error (.invalidArguments (txt "Conflicting expected revisions for " ++ path ++ txt "."))
      else .ok ({ t with rules := t.rules ++ rules } :: ts)
    else (addOperation o path rules ts).map fun ts => t :: ts

def addChecked (o : Operation) (grouped : List Target) : Except ReplaceError (List Target) :=
  match o.path, o.rules with
  | none, _ => .error (.invalidArguments (txt "Each operation requires a resolved path."))
  | some _, none => .error (.invalidArguments (txt "Each operation requires a non-empty rules list."))
  | some _, some [] => .error (.invalidArguments (txt "Each operation requires a non-empty rules list."))
  | some path, some (rule :: rules) => addOperation o path (rule :: rules) grouped

def groupOperations : List Operation → List Target → Except ReplaceError (List Target)
  | [], grouped => .ok grouped
  | o :: os, grouped => do
    let grouped ← addChecked o grouped
    groupOperations os grouped

def pathOrder (s t : Target) : Bool := textLe s.path t.path

/-- The targets of a call, in the order of their locks. -/
def orderedTargets (operations : List Operation) (maxReplacements : ℤ) : Except ReplaceError (List Target) :=
  if operations = [] then .error (.invalidArguments (txt "Provide at least one replacement operation."))
  else if maxReplacements ≤ 0 then
    .error (.invalidArguments (txt "max_replacements must be a positive integer."))
  else (groupOperations operations []).map fun grouped => grouped.mergeSort pathOrder

/-! ## Accesses -/

/-- Why a call stops: with an error reply or with an exception. -/
inductive Stop
  | refused (e : ReplaceError)
  | raised (reason : Text)

abbrev FileAction := Action Path Node Fault

/-- Looking at a path. -/
def inspect {ε α : Type} (fail : Text → ε) (p : Path) (look : Node → Except ε α) : FileAction ε α :=
  ExceptT.mk (.access p (fun _ n => n) fun fault n => .done (match fault with
    | .none => look n
    | .before reason => .error (fail reason)
    | .after reason => .error (fail reason)))

def Node.exists : Node → Bool
  | .missing => false
  | _ => true

def Node.isFile : Node → Bool
  | .file .. => true
  | _ => false

/-- `path.exists()` and `path.is_file()`, with the errors they are checked for. -/
def checkFile (p : Path) : FileAction Stop Unit := do
  inspect .raised p fun n => if n.exists then .ok () else .error (.refused (.fileNotFound p))
  inspect .raised p fun n => if n.isFile then .ok () else .error (.refused (.notAFile p))

/-- `path.read_bytes()`. -/
def readBytes {ε : Type} (fail : Text → ε) (p : Path) : FileAction ε Bytes :=
  inspect fail p fun n => match n with
    | .file raw _ => .ok raw
    | _ => .error (fail (txt "Is a directory or missing"))

/-- `stat.S_IMODE(path.stat().st_mode)`. -/
def fileMode (p : Path) : FileAction Stop ℕ :=
  inspect .raised p fun n => match n with
    | .file _ mode => .ok mode
    | _ => .error (.raised (txt "No such file"))

/-- What the rename leaves behind. -/
def written (raw : Bytes) (mode : ℕ) : Fault → Node → Node
  | .before _, n => n
  | _, .other => .other
  | _, _ => .file raw mode

def writeResult : Fault → Node → Except Text Unit
  | .none, .other => .error (txt "Is a directory")
  | .none, _ => .ok ()
  | .before reason, _ => .error reason
  | .after reason, _ => .error reason

/-- `_atomic_write`. -/
def atomicWrite (p : Path) (raw : Bytes) (mode : ℕ) : FileAction Text Unit :=
  ExceptT.mk (.access p (written raw mode) fun fault n => .done (writeResult fault n))

/-! ## Planning -/

structure Plan where
  path : Path
  beforeRaw : Bytes
  beforeRevision : Text
  afterRevision : Text
  mode : ℕ
  file : FilePlan

def Plan.afterRaw (p : Plan) : Bytes := p.file.afterRaw
def Plan.changed (p : Plan) : Bool := decide (p.beforeRaw ≠ p.afterRaw)

/-- The parameters of the program: the codecs, the regular expressions, and SHA-256. -/
structure Env where
  codecs : CodecRegistry
  regexes : RegexEngine
  revision : Bytes → Text

def settingEncoding : Setting → Except PlanStop (Option Text)
  | .absent => .ok none
  | .text t => .ok (some t)
  | .other _ => .error .raised

def planTarget (env : Env) (t : Target) (raw : Bytes) (remaining : ℕ) : Except PlanStop FilePlan := do
  let encoding ← settingEncoding t.encoding
  planFile env.codecs env.regexes raw encoding t.rules remaining

def stopPlanning (p : Path) : PlanStop → Stop
  | .decoding e => .refused (.encodingError p e)
  | .rule index e => .refused (.rule p index e)
  | .raised => .raised []

/-- A different revision was expected. -/
def conflicts (expected : Setting) (actual : Text) : Bool :=
  match expected with
  | .absent => false
  | .text t => decide (t ≠ actual)
  | .other _ => true

def checkRevision (t : Target) (actual : Text) : FileAction Stop Unit :=
  if conflicts t.expectedRevision actual then throw (.refused (.revisionConflict t.path t.expectedRevision actual))
  else pure ()

def liftPlan (p : Path) (x : Except PlanStop FilePlan) : FileAction Stop FilePlan :=
  ExceptT.mk (.done (x.mapError (stopPlanning p)))

/-- Planning one target. -/
def planOne (env : Env) (t : Target) (remaining : ℕ) : FileAction Stop Plan := do
  checkFile t.path
  let raw ← readBytes .raised t.path
  checkRevision t (env.revision raw)
  let file ← liftPlan t.path (planTarget env t raw remaining)
  let mode ← fileMode t.path
  pure ⟨t.path, raw, env.revision raw, env.revision file.afterRaw, mode, file⟩

/-- The loop over the targets; `total` counts the replacements so far. -/
def planAll (env : Env) (maxReplacements : ℕ) : List Target → ℕ → FileAction Stop (List Plan)
  | [], _ => pure []
  | t :: ts, total => do
    let plan ← planOne env t (maxReplacements - total)
    let plans ← planAll env maxReplacements ts (total + plan.file.replacements)
    pure (plan :: plans)

/-- `path.read_bytes()` again, for the message of a conflict. -/
def refuseChanged (env : Env) (plan : Plan) : FileAction Stop Unit := do
  let raw ← readBytes .raised plan.path
  throw (.refused (.changedWhilePlanned plan.path plan.beforeRevision (env.revision raw)))

/-- The check of every target before the first one is written. -/
def recheck (env : Env) : List Plan → FileAction Stop Unit
  | [] => pure ()
  | plan :: plans => do
    let raw ← readBytes .raised plan.path
    if env.revision raw = plan.beforeRevision then recheck env plans else refuseChanged env plan

/-! ## Writing -/

def verify (env : Env) (raw : Bytes) (revision message : Text) : FileAction Text Unit :=
  if env.revision raw = revision then pure () else throw message

/-- An atomic write and the check of what it wrote. -/
def writeVerified (env : Env) (p : Path) (raw : Bytes) (mode : ℕ) (revision message : Text) : FileAction Text Unit := do
  atomicWrite p raw mode
  let back ← readBytes id p
  verify env back revision message

/-- The writing loop: what it attempted, and what stopped it. -/
structure Commit where
  attempted : List Plan
  failure : Option Text

def afterWrite (attempted : List Plan) (next : FileAction Text Unit) (rest : Prog Path Node Fault Commit) :
    Prog Path Node Fault Commit := do
  let r ← next.run
  match r with
  | .error reason => pure ⟨attempted, some reason⟩
  | .ok _ => rest

def commitPlans (env : Env) : List Plan → List Plan → Prog Path Node Fault Commit
  | [], attempted => pure ⟨attempted, none⟩
  | plan :: plans, attempted =>
    if plan.changed then
      afterWrite (attempted ++ [plan])
        (writeVerified env plan.path plan.afterRaw plan.mode plan.afterRevision
          (txt "post-write revision verification failed for " ++ plan.path))
        (commitPlans env plans (attempted ++ [plan]))
    else commitPlans env plans attempted

/-- The error of one rolled back file. -/
def rollbackError (p : Path) : Except Text Unit → List Text
  | .ok _ => []
  | .error reason => [p ++ txt ": " ++ reason]

def rollBack (env : Env) : List Plan → Prog Path Node Fault (List Text)
  | [] => pure []
  | plan :: plans => do
    let r ← (writeVerified env plan.path plan.beforeRaw plan.mode plan.beforeRevision
      (txt "rollback revision verification failed")).run
    let errors ← rollBack env plans
    pure (rollbackError plan.path r ++ errors)

structure FileReport where
  path : Path
  changed : Bool
  replacements : ℕ
  rules : List ℕ
  beforeRevision : Text
  afterRevision : Text
  encoding : Text
  bom : Option Text
  newline : NewlineStyle
  mode : ℕ

def Plan.report (p : Plan) : FileReport where
  path := p.path
  changed := p.changed
  replacements := p.file.replacements
  rules := p.file.rules
  beforeRevision := p.beforeRevision
  afterRevision := p.afterRevision
  encoding := p.file.encoding
  bom := p.file.bom
  newline := p.file.newline
  mode := p.mode

structure Report where
  dryRun : Bool
  changedFiles : ℕ
  totalReplacements : ℕ
  maxReplacements : ℕ
  files : List FileReport

def reportOf (plans : List Plan) (dryRun : Bool) (maxReplacements : ℕ) : Report where
  dryRun := dryRun
  changedFiles := plans.countP Plan.changed
  totalReplacements := (plans.map fun p => p.file.replacements).sum
  maxReplacements := maxReplacements
  files := plans.map Plan.report

/-- Writing all plans, or rolling back what was attempted, last one first. -/
def writePlans (env : Env) (plans : List Plan) (report : Report) : Prog Path Node Fault (Except ReplaceError Report) := do
  let commit ← commitPlans env plans []
  match commit.failure with
  | none => pure (.ok report)
  | some reason => do
    let errors ← rollBack env commit.attempted.reverse
    pure (.error (.writeFailed reason errors))

/-- What a call under its locks returns, or the exception it raises. -/
inductive Reply
  | success (report : Report)
  | error (e : ReplaceError)
  | raised (reason : Text)

def Reply.ofStop : Stop → Reply
  | .refused e => .error e
  | .raised reason => .raised reason

def Reply.ofWrite : Except ReplaceError Report → Reply
  | .ok report => .success report
  | .error e => .error e

def finish (env : Env) (plans : List Plan) (dryRun : Bool) (maxReplacements : ℕ) : Prog Path Node Fault Reply :=
  if dryRun then pure (.success (reportOf plans dryRun maxReplacements))
  else do
    let r ← writePlans env plans (reportOf plans dryRun maxReplacements)
    pure (Reply.ofWrite r)

/-- Planning and checking. -/
def prepare (env : Env) (targets : List Target) (maxReplacements : ℕ) : FileAction Stop (List Plan) := do
  let plans ← planAll env maxReplacements targets 0
  recheck env plans
  pure plans

/-- `replace_files` while it holds its locks. -/
def replaceLocked (env : Env) (targets : List Target) (dryRun : Bool) (maxReplacements : ℕ) :
    Prog Path Node Fault Reply := do
  let prepared ← (prepare env targets maxReplacements).run
  match prepared with
  | .error stop => pure (Reply.ofStop stop)
  | .ok plans => finish env plans dryRun maxReplacements

/-- `replace_files`. -/
def replaceFiles (env : Env) (operations : List Operation) (dryRun : Bool) (maxReplacements : ℤ) :
    Prog Path Node Fault Reply :=
  match orderedTargets operations maxReplacements with
  | .error e => pure (.error e)
  | .ok targets => replaceLocked env targets dryRun maxReplacements.toNat

end WebOauthMcp.ReplaceFiles
