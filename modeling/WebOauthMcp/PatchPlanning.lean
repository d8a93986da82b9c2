import WebOauthMcp.PatchGrammar
import WebOauthMcp.FileTree
import WebOauthMcp.Utf8Units

/-!
# Planning a patch against the files on disk

Every operation of a patch becomes one planned change, computed from the tree as it is
before any change is executed. Planning reads the tree and never writes it.
-/

namespace WebOauthMcp.PatchPlanning
open CodePoints Utf8Units LineSplitting FileTree PatchGrammar

abbrev Path := List Text
abbrev Disk := Tree Text Bytes

/-- `str(path)` of a resolved path. -/
def pathText (p : Path) : Text :=
  if p.isEmpty then txt "/" else p.reverse.flatMap fun name => txt "/" ++ name

/-- Exceptions that are no `PatchError` and therefore leave `apply_patch`. -/
inductive Raised where
  | osError
  | valueError
  | unicodeEncodeError
  deriving DecidableEq

inductive Failure where
  | patchError (e : PatchError)
  | raised (r : Raised)
  deriving DecidableEq

/-- What planning takes from the running system: path resolution, which files the
process may not read, and the library functions behind the diff and the digest. -/
structure PatchEnv where
  resolvePath : Text → Except Raised Path
  unreadable : Path → Bool
  unifiedDiff : List Text → List Text → Text → Text → List Text
  sha256Hex : Bytes → Text

inductive ChangeKind where
  | add | delete | update | move
  deriving DecidableEq

structure PlannedChange where
  kind : ChangeKind
  path : Path
  previousPath : Option Path
  oldText : Text
  newText : Text
  hunksApplied : ℕ
  deriving DecidableEq

/-- The file a move leaves behind, to be removed after the new one is written. -/
def PlannedChange.movedFrom (change : PlannedChange) : Option Path :=
  match change.previousPath with
  | some previous => if change.kind = .move ∧ previous ≠ change.path then some previous else none
  | none => none

/-! ## Hunks -/

/-- `_find_sequence_matches`: every index at which `needle` occurs in `lines`. -/
def findSequenceMatches (lines needle : List Text) : List ℕ :=
  if needle.isEmpty then []
  else if lines.length + 1 < needle.length then []
  else (List.range (lines.length + 1 - needle.length + 1)).filter fun index =>
    (lines.drop index).take needle.length = needle

theorem mem_findSequenceMatches {lines needle : List Text} {i : ℕ} :
    i ∈ findSequenceMatches lines needle ↔ needle ≠ [] ∧ (lines.drop i).take needle.length = needle := by
  rw [findSequenceMatches]
  split_ifs with hempty hlong
  · refine iff_of_false List.not_mem_nil fun h => h.1 (List.isEmpty_iff.mp hempty)
  · refine iff_of_false List.not_mem_nil fun h => ?_
    have hlength := congrArg List.length h.2
    rw [List.length_take, List.length_drop] at hlength
    omega
  · have hne : needle ≠ [] := fun h => hempty (List.isEmpty_iff.mpr h)
    rw [List.mem_filter, List.mem_range, decide_eq_true_iff, and_iff_right hne, and_iff_right_iff_imp]
    intro h
    have hpos := List.length_pos_iff.mpr hne
    have hlength := congrArg List.length h
    rw [List.length_take, List.length_drop] at hlength
    omega

def oldLines (hunk : UpdateHunk) : List Text :=
  (hunk.lines.filter fun l => l.kind ≠ .addition).map DiffLine.text

def newLines (hunk : UpdateHunk) : List Text :=
  (hunk.lines.filter fun l => l.kind ≠ .removal).map DiffLine.text

/-- `_apply_hunk`: the lines with the hunk applied, and the cursor after it. -/
def applyHunk (lines : List Text) (hunk : UpdateHunk) (cursor : ℕ) (path : Path) (hunkIndex : ℕ) :
    Except PatchError (List Text × ℕ) :=
  let old := oldLines hunk
  let searchStart := cursor - old.length
  let found := findSequenceMatches lines old
  match found with
  | [] => .error (.contextNotFound (pathText path) hunkIndex hunk.patchLine old (searchStart + 1))
  | [index] => .ok (lines.take index ++ newLines hunk ++ lines.drop (index + old.length),
      index + (newLines hunk).length)
  | _ => .error (.ambiguousContext (pathText path) hunkIndex hunk.patchLine old found.length
      (found.map (· + 1)))

/-- The hunk loop of `_plan_update`, from hunk number `hunkIndex` on. -/
def applyHunks (path : Path) : List UpdateHunk → ℕ → List Text → ℕ → Except PatchError (List Text)
  | [], _, lines, _ => .ok lines
  | hunk :: hunks, hunkIndex, lines, cursor => do
    let (lines, cursor) ← applyHunk lines hunk cursor path hunkIndex
    applyHunks path hunks (hunkIndex + 1) lines cursor

/-! ## Planning one operation -/

def joinWithNewline (lines : List Text) (trailingNewline : Bool) : Text :=
  if lines.isEmpty then [] else joinLines lines ++ if trailingNewline then [lineFeed] else []

/-- `_read_text` on the octets of a file. -/
def readText (path : Path) (raw : Bytes) : Except PatchError Text :=
  if (raw.take 1024).contains 0 then .error (.notTextFile (pathText path)) else .ok (decodeReplace raw)

/-- `_read_text`: reading may be denied, a directory cannot be read. -/
def readFile (env : PatchEnv) (disk : Disk) (path : Path) : Except Failure Text :=
  match disk.files path with
  | some raw =>
    if env.unreadable path then .error (.raised .osError)
    else (readText path raw).mapError .patchError
  | none => .error (.raised .osError)

/-- The text an update leaves in a file that holds `original`. -/
def updatedText (path : Path) (hunks : List UpdateHunk) (original : Text) : Except PatchError Text := do
  let lines ← applyHunks path hunks 0 (splitlines original) 0
  return joinWithNewline lines (endsWithNewline original)

def planUpdate (env : PatchEnv) (disk : Disk) (path : Path) (moveTo : Option Path)
    (hunks : List UpdateHunk) : Except Failure PlannedChange := do
  match disk.node path with
  | none => throw (.patchError (.fileNotFound (pathText path)))
  | some .dir => throw (.patchError (.notAFile (pathText path)))
  | some (.file _) =>
    let original ← readFile env disk path
    let newText ← (updatedText path hunks original).mapError .patchError
    match moveTo with
    | none => return ⟨.update, path, none, original, newText, hunks.length⟩
    | some target =>
      if target = path then return ⟨.update, target, none, original, newText, hunks.length⟩
      else if (disk.node target).isSome then throw (.patchError (.targetExists (pathText target)))
      else return ⟨.move, target, some path, original, newText, hunks.length⟩

def planAdd (disk : Disk) (path : Path) (lines : List Text) : Except Failure PlannedChange :=
  if (disk.node path).isSome then .error (.patchError (.pathExists (pathText path)))
  else .ok ⟨.add, path, none, [], joinWithNewline lines (!lines.isEmpty), 1⟩

def planDelete (env : PatchEnv) (disk : Disk) (path : Path) : Except Failure PlannedChange :=
  match disk.node path with
  | none => .error (.patchError (.pathNotFound (pathText path)))
  | some .dir => .error (.patchError (.deleteNotAFile (pathText path)))
  | some (.file _) => do
    let original ← readFile env disk path
    return ⟨.delete, path, none, original, [], 1⟩

def resolve (env : PatchEnv) (path : Text) : Except Failure Path :=
  (env.resolvePath path).mapError .raised

/-- An empty `Move to` path counts as none. -/
def resolveMoveTo (env : PatchEnv) : Option Text → Except Failure (Option Path)
  | some name => if name.isEmpty then .ok none else (resolve env name).map some
  | none => .ok none

/-- The change one operation is planned as, on the tree `disk`. -/
def planOperation (env : PatchEnv) (disk : Disk) : PatchOperation → Except Failure PlannedChange
  | .addFile path lines => do planAdd disk (← resolve env path) lines
  | .deleteFile path => do planDelete env disk (← resolve env path)
  | .updateFile path moveTo hunks => do
    let target ← resolve env path
    planUpdate env disk target (← resolveMoveTo env moveTo) hunks

/-! ## Reply data -/

structure FileSummary where
  kind : ChangeKind
  path : Text
  linesAdded : ℕ
  linesRemoved : ℕ
  bytesBefore : ℕ
  bytesAfter : ℕ
  hunksApplied : ℕ
  sha256After : Text
  warnings : List Text
  previousPath : Option Text
  deriving DecidableEq

def renderDiff (env : PatchEnv) (change : PlannedChange) : Text :=
  (env.unifiedDiff (splitlinesKeepends change.oldText) (splitlinesKeepends change.newText)
    (pathText (change.previousPath.getD change.path)) (pathText change.path)).flatten

/-- `_diff_line_counts`: lines added and removed in a unified diff. -/
def diffLineCounts (diff : Text) : ℕ × ℕ :=
  let body := (splitlines diff).filter fun line =>
    !(startsWith line (txt "+++") || startsWith line (txt "---") || startsWith line (txt "@@"))
  ((body.filter fun line => startsWith line (txt "+")).length,
    (body.filter fun line => startsWith line (txt "-")).length)

def changeWarnings (change : PlannedChange) (linesAdded linesRemoved : ℕ) : List Text :=
  if (change.kind = .update ∨ change.kind = .move) ∧ linesAdded > 0 ∧ linesRemoved = 0 then
    [txt "update inserted lines without removing any existing lines; verify this was intended"]
  else []

/-- `_summarize_change`; it encodes both texts, so a lone surrogate in them raises here. -/
def summarizeChange (env : PatchEnv) (change : PlannedChange) : Except Failure FileSummary :=
  let (linesAdded, linesRemoved) := diffLineCounts (renderDiff env change)
  match encodeUtf8 change.oldText, encodeUtf8 change.newText with
  | some before, some after => .ok {
      kind := change.kind
      path := pathText change.path
      linesAdded, linesRemoved
      bytesBefore := before.length
      bytesAfter := after.length
      hunksApplied := change.hunksApplied
      sha256After := env.sha256Hex after
      warnings := changeWarnings change linesAdded linesRemoved
      previousPath := change.previousPath.map pathText }
  | _, _ => .error (.raised .unicodeEncodeError)

/-- Everything `apply_patch` does with the parsed operations before it touches the tree. -/
def planOperations (env : PatchEnv) (disk : Disk) (operations : List PatchOperation) :
    Except Failure (List PlannedChange × List FileSummary) := do
  let changes ← operations.mapM (planOperation env disk)
  let summaries ← changes.mapM (summarizeChange env)
  return (changes, summaries)

/-- Everything `apply_patch` does before it touches the tree. -/
def planPatch (env : PatchEnv) (disk : Disk) (patch : Text) :
    Except Failure (List PlannedChange × List FileSummary) := do
  planOperations env disk (← (parsePatch patch).mapError .patchError)

end WebOauthMcp.PatchPlanning
