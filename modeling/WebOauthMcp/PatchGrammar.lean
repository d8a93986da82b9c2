import WebOauthMcp.LineSplitting

/-!
# Structured patches: operations, errors and the parser

The parser reads the lines of the patch text once, front to back. Where the source
returns an advanced index, the functions here return how many lines they used; the
loops over blocks and hunks then skip that many lines, so they recurse on the list.
-/

namespace WebOauthMcp.PatchGrammar
open CodePoints LineSplitting

inductive LineKind where
  | context | addition | removal
  deriving DecidableEq

structure DiffLine where
  kind : LineKind
  text : Text
  deriving DecidableEq

structure UpdateHunk where
  lines : List DiffLine
  patchLine : ℕ
  deriving DecidableEq

inductive PatchOperation where
  | addFile (path : Text) (lines : List Text)
  | deleteFile (path : Text)
  | updateFile (path : Text) (moveTo : Option Text) (hunks : List UpdateHunk)
  deriving DecidableEq

/-- What a `PatchError` carries. Advisory `candidates` of a failed match are left out. -/
inductive PatchError where
  | invalidPatch (message : Text)
  | emptyHunk (patchLine : ℕ)
  | unanchoredHunk (patchLine : ℕ)
  | contextNotFound (path : Text) (hunkIndex patchLine : ℕ) (expected : List Text)
      (searchStartedAtLine : ℕ)
  | ambiguousContext (path : Text) (hunkIndex patchLine : ℕ) (expected : List Text)
      (matchCount : ℕ) (matchingLines : List ℕ)
  | notTextFile (path : Text)
  | fileNotFound (path : Text)
  | notAFile (path : Text)
  | targetExists (path : Text)
  | pathExists (path : Text)
  | pathNotFound (path : Text)
  | deleteNotAFile (path : Text)
  deriving DecidableEq

def PatchError.code : PatchError → Text
  | .invalidPatch _ => txt "invalid_patch"
  | .emptyHunk _ => txt "empty_hunk"
  | .unanchoredHunk _ => txt "unanchored_hunk"
  | .contextNotFound .. => txt "patch_context_not_found"
  | .ambiguousContext .. => txt "ambiguous_context_match"
  | .notTextFile _ => txt "not_text_file"
  | .fileNotFound _ => txt "file_not_found"
  | .notAFile _ => txt "not_a_file"
  | .targetExists _ => txt "target_exists"
  | .pathExists _ => txt "path_exists"
  | .pathNotFound _ => txt "path_not_found"
  | .deleteNotAFile _ => txt "not_a_file"

def PatchError.message : PatchError → Text
  | .invalidPatch message => message
  | .emptyHunk n => txt "Hunk at patch line " ++ decimal n ++
      txt " contains only context lines; did you mean to add '-' or '+' markers?"
  | .unanchoredHunk n => txt "Hunk at patch line " ++ decimal n ++
      txt " contains only '+' lines and cannot be anchored uniquely; add surrounding context or '-' lines."
  | .contextNotFound path index _ _ _ => txt "Could not match update hunk #" ++ decimal (index + 1) ++
      txt " in " ++ path ++ txt (". See `candidates` for the closest line windows; the hunk's " ++
        "expected context is in `expected`.")
  | .ambiguousContext path index _ _ count _ => txt "Update hunk #" ++ decimal (index + 1) ++
      txt " in " ++ path ++ txt " matched " ++ decimal count ++ txt (" locations. Patch context must " ++
        "match exactly one location; add more surrounding context.")
  | .notTextFile path => txt "Binary files are not supported: " ++ path
  | .fileNotFound path => txt "File not found: " ++ path
  | .notAFile path => txt "Path is not a file: " ++ path
  | .targetExists path => txt "Move target already exists: " ++ path
  | .pathExists path => txt "Path already exists: " ++ path
  | .pathNotFound path => txt "Path not found: " ++ path
  | .deleteNotAFile path => txt "Delete file patch only supports files: " ++ path

def startsWith (line mark : Text) : Bool := mark.isPrefixOf line

def beginPatch : Text := txt "*** Begin Patch"
def endPatch : Text := txt "*** End Patch"
def addFileMark : Text := txt "*** Add File: "
def deleteFileMark : Text := txt "*** Delete File: "
def updateFileMark : Text := txt "*** Update File: "
def moveToMark : Text := txt "*** Move to: "
def endOfFileMark : Text := txt "*** End of File"
def hunkMark : Text := txt "@@"

def nextIsOperationHeader (line : Text) : Bool :=
  startsWith line addFileMark || startsWith line deleteFileMark || startsWith line updateFileMark ||
    line = endPatch

def lineKind : CodePoint → Option LineKind := fun c =>
  if c = 0x20 then some .context
  else if c = 0x2B then some .addition
  else if c = 0x2D then some .removal
  else none

/-- The `+` lines after an Add File header, and how many there are. -/
def parseAddLines : List Text → Except PatchError (List Text)
  | [] => .ok []
  | line :: rest =>
    if nextIsOperationHeader line then .ok []
    else if startsWith line (txt "+") then (parseAddLines rest).map (line.drop 1 :: ·)
    else .error (.invalidPatch (txt "Add file lines must start with '+': " ++ line))

def parseAddFile (header : Text) (rest : List Text) : Except PatchError (PatchOperation × ℕ) := do
  let content ← parseAddLines rest
  return (.addFile (header.drop addFileMark.length) content, content.length + 1)

/-- The body of a hunk with the number of lines read; it ends before a header or `@@`. -/
def parseHunkLines : List Text → Except PatchError (List DiffLine × ℕ)
  | [] => .ok ([], 0)
  | line :: rest =>
    if nextIsOperationHeader line || startsWith line hunkMark then .ok ([], 0)
    else if line = endOfFileMark then (parseHunkLines rest).map fun r => (r.1, r.2 + 1)
    else match line with
      | [] => .error (.invalidPatch (txt "Unexpected patch line: " ++ line))
      | c :: text => match lineKind c with
        | none => .error (.invalidPatch (txt "Unexpected patch line: " ++ line))
        | some kind => (parseHunkLines rest).map fun r => (⟨kind, text⟩ :: r.1, r.2 + 1)

/-- The checks on a hunk that was read: it changes something and can be anchored. -/
def checkHunk (diffLines : List DiffLine) (patchLine : ℕ) : Except PatchError UpdateHunk :=
  let hasAdditions := diffLines.any fun l => l.kind = .addition
  let hasRemovals := diffLines.any fun l => l.kind = .removal
  let hasContext := diffLines.any fun l => l.kind = .context
  if diffLines.isEmpty then
    .error (.invalidPatch (txt "Update hunks must contain at least one diff line."))
  else if !hasAdditions && !hasRemovals then .error (.emptyHunk patchLine)
  else if hasAdditions && !hasRemovals && !hasContext then .error (.unanchoredHunk patchLine)
  else .ok ⟨diffLines, patchLine⟩

/-- One hunk starting at line `index` (from 0) of the patch, and the lines it used. -/
def parseHunk (lines : List Text) (index : ℕ) : Except PatchError (UpdateHunk × ℕ) := do
  let marked := match lines with
    | first :: _ => startsWith first hunkMark
    | [] => false
  let (diffLines, used) ← parseHunkLines (if marked then lines.drop 1 else lines)
  let hunk ← checkHunk diffLines (index + 1)
  return (hunk, used + if marked then 1 else 0)

/-- The hunks up to the next header, with the number of lines read. `skip` lines still
belong to the hunk read last. -/
def parseHunks : ℕ → ℕ → List Text → Except PatchError (List UpdateHunk × ℕ)
  | _, _, [] => .ok ([], 0)
  | skip + 1, index, _ :: rest => (parseHunks skip (index + 1) rest).map fun r => (r.1, r.2 + 1)
  | 0, index, line :: rest =>
    if nextIsOperationHeader line then .ok ([], 0)
    else do
      let (hunk, used) ← parseHunk (line :: rest) index
      let (hunks, more) ← parseHunks (used - 1) (index + 1) rest
      return (hunk :: hunks, more + 1)

def parseUpdateFile (header : Text) (rest : List Text) (index : ℕ) :
    Except PatchError (PatchOperation × ℕ) := do
  let path := header.drop updateFileMark.length
  let moveTo := match rest with
    | line :: _ => if startsWith line moveToMark then some (line.drop moveToMark.length) else none
    | [] => none
  let moveLines := if moveTo.isSome then 1 else 0
  let (hunks, used) ← parseHunks 0 (index + 1 + moveLines) (rest.drop moveLines)
  if hunks.isEmpty && moveTo.isNone then
    throw (.invalidPatch (txt "Update file patch has no changes: " ++ path))
  return (.updateFile path moveTo hunks, 1 + moveLines + used)

/-- The operations from line `index` on. -/
def parseOperations : ℕ → ℕ → List Text → Except PatchError (List PatchOperation)
  | _, _, [] => .error (.invalidPatch (txt "Patch must end with '*** End Patch'."))
  | skip + 1, index, _ :: rest => parseOperations skip (index + 1) rest
  | 0, index, line :: rest =>
    if line = endPatch then .ok []
    else if startsWith line addFileMark then do
      let (operation, used) ← parseAddFile line rest
      return operation :: (← parseOperations (used - 1) (index + 1) rest)
    else if startsWith line deleteFileMark then do
      return .deleteFile (line.drop deleteFileMark.length) :: (← parseOperations 0 (index + 1) rest)
    else if startsWith line updateFileMark then do
      let (operation, used) ← parseUpdateFile line rest index
      return operation :: (← parseOperations (used - 1) (index + 1) rest)
    else .error (.invalidPatch (txt "Unexpected patch header: " ++ line))

def parsePatch (patch : Text) : Except PatchError (List PatchOperation) :=
  match splitlines patch with
  | first :: rest =>
    if first = beginPatch then parseOperations 0 1 rest
    else .error (.invalidPatch (txt "Patch must start with '*** Begin Patch'."))
  | [] => .error (.invalidPatch (txt "Patch must start with '*** Begin Patch'."))

def patchText (lines : List String) : Text := joinLines (lines.map txt)

example : parsePatch (patchText ["*** Begin Patch", "*** Update File: app.py", "@@", " one", "-two",
      "+TWO", "@@", "-four", "*** Delete File: b", "*** End Patch"]) =
    .ok [.updateFile (txt "app.py") none
        [⟨[⟨.context, txt "one"⟩, ⟨.removal, txt "two"⟩, ⟨.addition, txt "TWO"⟩], 3⟩,
          ⟨[⟨.removal, txt "four"⟩], 7⟩],
      .deleteFile (txt "b")] := by decide +kernel

end WebOauthMcp.PatchGrammar
