import WebOauthMcp.BudgetMetadata
import WebOauthMcp.ExceptSteps
import WebOauthMcp.GitOutput
import WebOauthMcp.HttpGate
import WebOauthMcp.TextScans
import WebOauthMcp.Utf8Units

/-!
# The table of tmux panes

Every operation on a session starts from the table of all panes: a line for each pane, with
twenty fields. Some builds of tmux print the octal escape of the delimiter for the delimiter.
-/

namespace WebOauthMcp.TmuxPanes
open CodePoints Utf8Units LineSplitting Words JsonText BudgetMetadata OauthStore HttpGate TextScans ExceptSteps GitOutput

structure TmuxControlError where
  code : Text
  message : Text
  extra : Dict

/-- What a tmux command left behind. -/
structure RunResult where
  exitCode : ℤ
  stdout : Bytes
  stderr : Bytes

variable {α β : Type}

/-! ## Panes -/

/-- A value for each of the fields of a pane. -/
structure Pane (α : Type) where
  sessionName : α
  sessionId : α
  sessionAttached : α
  sessionWindows : α
  sessionCreated : α
  windowId : α
  windowIndex : α
  windowName : α
  paneId : α
  paneIndex : α
  paneActive : α
  panePid : α
  paneCurrentCommand : α
  paneCurrentPath : α
  paneDead : α
  paneDeadStatus : α
  paneDeadSignal : α
  paneWidth : α
  paneHeight : α
  m5localManaged : α

namespace Pane

/-- The fields between the first one and the last one. -/
def middle (p : Pane α) : List α :=
  [p.sessionId, p.sessionAttached, p.sessionWindows, p.sessionCreated, p.windowId, p.windowIndex, p.windowName, p.paneId, p.paneIndex,
    p.paneActive, p.panePid, p.paneCurrentCommand, p.paneCurrentPath, p.paneDead, p.paneDeadStatus, p.paneDeadSignal, p.paneWidth,
    p.paneHeight]

def toList (p : Pane α) : List α := p.sessionName :: (p.middle ++ [p.m5localManaged])

/-- `dict(zip(_PANE_FIELDS, parts, strict=True))` -/
def ofList : List α → Option (Pane α)
  | [a, b, c, d, e, f, g, h, i, j, k, l, m, n, o, p, q, r, s, t] => some ⟨a, b, c, d, e, f, g, h, i, j, k, l, m, n, o, p, q, r, s, t⟩
  | _ => none

def map (f : α → β) (p : Pane α) : Pane β where
  sessionName := f p.sessionName
  sessionId := f p.sessionId
  sessionAttached := f p.sessionAttached
  sessionWindows := f p.sessionWindows
  sessionCreated := f p.sessionCreated
  windowId := f p.windowId
  windowIndex := f p.windowIndex
  windowName := f p.windowName
  paneId := f p.paneId
  paneIndex := f p.paneIndex
  paneActive := f p.paneActive
  panePid := f p.panePid
  paneCurrentCommand := f p.paneCurrentCommand
  paneCurrentPath := f p.paneCurrentPath
  paneDead := f p.paneDead
  paneDeadStatus := f p.paneDeadStatus
  paneDeadSignal := f p.paneDeadSignal
  paneWidth := f p.paneWidth
  paneHeight := f p.paneHeight
  m5localManaged := f p.m5localManaged

end Pane

/-- `len(_PANE_FIELDS)` -/
def expectedFieldCount : ℕ := 20

theorem ofList_toList (p : Pane α) : Pane.ofList p.toList = some p := rfl

theorem toList_of_ofList {fields : List α} {p : Pane α} (h : Pane.ofList fields = some p) : p.toList = fields := by
  unfold Pane.ofList at h
  split at h
  · cases h
    rfl
  · cases h

theorem toList_map (f : α → β) (p : Pane α) : (p.map f).toList = p.toList.map f := rfl

structure Row where
  sessionName : Text
  sessionId : Text
  sessionAttached : Bool
  sessionWindows : Option ℤ
  sessionCreated : Option ℤ
  windowId : Text
  windowIndex : Option ℤ
  windowName : Text
  paneId : Text
  paneIndex : Option ℤ
  paneActive : Bool
  panePid : Option ℤ
  paneCurrentCommand : Text
  paneCurrentPath : Text
  paneDead : Bool
  paneDeadStatus : Option ℤ
  paneDeadSignal : Option ℤ
  paneWidth : Option ℤ
  paneHeight : Option ℤ
  m5localManaged : Bool
  deriving DecidableEq

/-- `_int_or_none`, over an `int` that may raise. -/
def intOrNone (int : Text → Option ℤ) (value : Text) : Option ℤ := if value = [] then none else int value

def boolValue (value : Text) : Bool := decide (value = txt "1")

def rowOf (int : Text → Option ℤ) (raw : Pane Text) : Row where
  sessionName := raw.sessionName
  sessionId := raw.sessionId
  sessionAttached := boolValue raw.sessionAttached
  sessionWindows := intOrNone int raw.sessionWindows
  sessionCreated := intOrNone int raw.sessionCreated
  windowId := raw.windowId
  windowIndex := intOrNone int raw.windowIndex
  windowName := raw.windowName
  paneId := raw.paneId
  paneIndex := intOrNone int raw.paneIndex
  paneActive := boolValue raw.paneActive
  panePid := intOrNone int raw.panePid
  paneCurrentCommand := raw.paneCurrentCommand
  paneCurrentPath := raw.paneCurrentPath
  paneDead := boolValue raw.paneDead
  paneDeadStatus := intOrNone int raw.paneDeadStatus
  paneDeadSignal := intOrNone int raw.paneDeadSignal
  paneWidth := intOrNone int raw.paneWidth
  paneHeight := intOrNone int raw.paneHeight
  m5localManaged := boolValue raw.m5localManaged

/-! ## Parsing -/

def fieldSeparator : CodePoint := 0x1F

def escapedSeparator : Text := txt "\\037"

/-- `_split_tmux_fields`. -/
def splitTmuxFields (value : Text) : List Text :=
  if fieldSeparator ∈ value then strSplit [fieldSeparator] value else strSplit escapedSeparator value

def parseFailed (fieldCount : ℕ) : TmuxControlError where
  code := txt "tmux_parse_failed"
  message := txt "tmux returned an unexpected pane status format."
  extra := [(txt "field_count", .int fieldCount), (txt "expected_field_count", .int expectedFieldCount)]

def parseRow (int : Text → Option ℤ) (line : Text) : Except TmuxControlError Row :=
  match Pane.ofList (splitTmuxFields line) with
  | none => .error (parseFailed (splitTmuxFields line).length)
  | some raw => .ok (rowOf int raw)

/-- `int(row["window_index"] or 0)` -/
def Row.window (r : Row) : ℤ := r.windowIndex.getD 0

def Row.pane (r : Row) : ℤ := r.paneIndex.getD 0

/-- The order by window and pane. -/
def inOrder (r s : Row) : Bool := if r.window = s.window then decide (r.pane ≤ s.pane) else decide (r.window < s.window)

/-- The order of the sort key. -/
def rowLe (r s : Row) : Bool := if r.sessionName = s.sessionName then inOrder r s else textLe r.sessionName s.sessionName

/-- `_parse_rows`. -/
def parseRows (int : Text → Option ℤ) (stdout : Bytes) : Except TmuxControlError (List Row) :=
  (((splitlines (decodeReplace stdout)).filter fun line => decide (line ≠ [])).mapM (parseRow int)).map fun rows => rows.mergeSort rowLe

/-! ## Operations on a session -/

/-- `_is_no_server`; the phrases are ASCII. -/
def isNoServer (stderr : Text) : Bool :=
  let normalized := lowerAscii stderr
  decide (txt "no server running" <:+: normalized) || decide (txt "no sessions" <:+: normalized) ||
    (decide (txt "error connecting to" <:+: normalized) && decide (txt "no such file or directory" <:+: normalized))

def commandFailed (operation : Text) (result : RunResult) : TmuxControlError where
  code := txt "tmux_command_failed"
  message :=
    let stderr := strip (decodeReplace result.stderr)
    if stderr = [] then txt "tmux " ++ operation ++ txt " failed with exit code " ++ integer result.exitCode ++ txt "." else stderr
  extra := [(txt "operation", .str operation), (txt "exit_code", .int result.exitCode)]

def requireOk (operation : Text) (result : RunResult) : Except TmuxControlError Unit :=
  if result.exitCode = 0 then .ok () else .error (commandFailed operation result)

/-- `_all_panes`, with what the command returns or raises. -/
def allPanes (int : Text → Option ℤ) (listPanes : Except TmuxControlError RunResult) : Except TmuxControlError (List Row) := do
  let result ← listPanes
  if result.exitCode ≠ 0 ∧ isNoServer (strip (decodeReplace result.stderr)) = true then pure []
  else do
    requireOk (txt "list-panes") result
    parseRows int result.stdout

def isNameChar (c : CodePoint) : Bool :=
  (0x41 ≤ c.val && c.val ≤ 0x5A) || (0x61 ≤ c.val && c.val ≤ 0x7A) || (0x30 ≤ c.val && c.val ≤ 0x39)

/-- `SESSION_NAME_PATTERN.fullmatch`. -/
def isSessionName : Text → Bool
  | [] => false
  | c :: rest => isNameChar c && decide (rest.length ≤ 63) && rest.all fun c => isNameChar c || c.val == 0x5F || c.val == 0x2D

def invalidSessionName (session : Text) : TmuxControlError where
  code := txt "invalid_session_name"
  message := txt "session must match ^[A-Za-z0-9][A-Za-z0-9_-]\x7b0,63\x7d$."
  extra := [(txt "session", .str session)]

def sessionNotFound (session : Text) : TmuxControlError where
  code := txt "session_not_found"
  message := txt "tmux session not found: " ++ session
  extra := [(txt "session", .str session)]

def validateSessionName (session : Text) : Except TmuxControlError Text :=
  if isSessionName (strip session) then .ok (strip session) else .error (invalidSessionName session)

def sessionRows (int : Text → Option ℤ) (listPanes : Except TmuxControlError RunResult) (session : Text) :
    Except TmuxControlError (List Row) := do
  let normalized ← validateSessionName session
  let rows ← allPanes int listPanes
  pure (rows.filter fun row => decide (row.sessionName = normalized))

def requireSessionRows (int : Text → Option ℤ) (listPanes : Except TmuxControlError RunResult) (session : Text) :
    Except TmuxControlError (List Row) := do
  let normalized ← validateSessionName session
  let rows ← sessionRows int listPanes normalized
  if rows = [] then throw (sessionNotFound normalized) else pure rows

/-- `grouped.setdefault(session_id, []).append(row)` -/
def addToGroup (groups : List (Text × List Row)) (row : Row) : List (Text × List Row) :=
  if groups.any fun g => decide (g.1 = row.sessionId) then
    groups.map fun g => if g.1 = row.sessionId then (g.1, g.2 ++ [row]) else g
  else groups ++ [(row.sessionId, [row])]

def groupRows (rows : List Row) : List (Text × List Row) := rows.foldl addToGroup []

/-! ## What tmux prints -/

/-- What stands between the fields of a pane. -/
inductive Delimiter
  | raw
  | escaped
  deriving DecidableEq

def Delimiter.text : Delimiter → Text
  | .raw => [fieldSeparator]
  | .escaped => escapedSeparator

def Delimiter.bytes (d : Delimiter) : Bytes := d.text.flatMap utf8Bytes

/-- A pane whose fields have neither a line feed nor the delimiter. -/
structure PrintedPane (d : Delimiter) where
  fields : Pane Bytes
  noFeed : ∀ f ∈ fields.toList, (0x0A : Byte) ∉ f
  noDelimiter : ∀ f ∈ fields.toList, ¬d.bytes <:+: f

def printPanes {d : Delimiter} (panes : List (PrintedPane d)) : Bytes :=
  panes.flatMap fun p => List.intercalate d.bytes p.fields.toList ++ [0x0A]

/-- The fields of the pane as texts. -/
def PrintedPane.texts {d : Delimiter} (p : PrintedPane d) : Pane Text := p.fields.map decodeReplace

/-- The table is parsed into a row for every pane, and the rows of a session are in order. -/
def Recovered (int : Text → Option ℤ) {d : Delimiter} (panes : List (PrintedPane d)) : Prop :=
  ∃ rows, parseRows int (printPanes panes) = .ok rows ∧ rows.Perm (panes.map fun p => rowOf int p.texts) ∧
    ∀ group ∈ groupRows rows, group.2.Pairwise fun r s => r.sessionName = s.sessionName → inOrder r s = true

end WebOauthMcp.TmuxPanes
