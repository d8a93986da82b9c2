import Mathlib.Data.List.DropRight
import WebOauthMcp.TmuxPanes

/-!
# Capturing a pane

A capture is bounded three times, always from its end: by lines, by bytes and by the tokens
of the reply. A last line beyond the byte limit is cut at a byte and decoded again.
-/

namespace WebOauthMcp.TmuxCapture
open CodePoints Utf8Units LineSplitting JsonText ExceptSteps ResponseBudget BudgetMetadata TmuxPanes

def maxCaptureLines : ℕ := 500

def maxCaptureOutputLines : ℕ := 700

def maxCaptureBytes : ℕ := 256 * 1024

/-- `text.encode("utf-8", errors="replace")`. -/
def encodeReplace (t : Text) : Bytes := t.flatMap fun c => if isSurrogate c then [0x3F] else utf8Bytes c

/-! ## Bounding the lines -/

def lineBytes (line : Text) : ℕ := (encodeReplace line).length + 1

/-- The last bytes of a line, decoded. -/
def cutLine (limit : ℕ) (line : Text) : Text := decodeReplace ((encodeReplace line).rtake limit)

/-- The loop over the lines from the last one on, with the lines selected so far in their order, and
whether the byte limit ended it. -/
def selectLines (limit : ℕ) : List Text → ℕ → List Text → List Text × Bool
  | [], _, selected => (selected, false)
  | line :: older, byteCount, selected =>
    if selected ≠ [] ∧ limit < byteCount + lineBytes line then (selected, true)
    else if selected = [] ∧ limit < lineBytes line then ([cutLine limit line], true)
    else selectLines limit older (byteCount + lineBytes line) (line :: selected)

/-- The lines of a capture that are within the limits of lines and bytes. -/
def outputLines (captured : List Text) : List Text × Bool :=
  selectLines maxCaptureBytes (captured.rtake maxCaptureOutputLines).reverse 0 []

/-! ## The reply -/

/-- The arguments of `capture`, with the socket of the client. -/
structure CaptureCall where
  socketName : Text
  session : Text
  requestedLines : ℤ
  joinWrapped : Bool
  maxTokens : ℕ+

def CaptureCall.budget (call : CaptureCall) : Budget := { maxTokens := call.maxTokens }

def optionalInt : Option ℤ → Json
  | none => .null
  | some i => .int i

section
variable (enc : TokenEncoding) (call : CaptureCall) (primary : Row) (captured : List Text)

def truncatedByLineLimit : Bool :=
  decide ((maxCaptureLines : ℤ) < call.requestedLines) || decide (maxCaptureOutputLines < captured.length)

def capturePayload (byTokens : Bool) (lines : List Text) : Dict :=
  [(txt "success", .bool true),
    (txt "socket_name", .str call.socketName),
    (txt "session", .str primary.sessionName),
    (txt "pane_id", .str primary.paneId),
    (txt "current_command", .str primary.paneCurrentCommand),
    (txt "current_path", .str primary.paneCurrentPath),
    (txt "pane_dead", .bool primary.paneDead),
    (txt "exit_code", optionalInt primary.paneDeadStatus),
    (txt "requested_lines", .int call.requestedLines),
    (txt "effective_line_limit", .int (min call.requestedLines maxCaptureLines)),
    (txt "max_output_lines", natJson maxCaptureOutputLines),
    (txt "lines_returned", natJson lines.length),
    (txt "bytes_returned", natJson (encodeReplace (joinLines lines)).length),
    (txt "truncated_by_line_limit", .bool (truncatedByLineLimit call captured)),
    (txt "truncated_by_byte_limit", .bool (outputLines captured).2),
    (txt "truncated_by_token_budget", .bool byTokens),
    (txt "join_wrapped", .bool call.joinWrapped),
    (txt "lines", .arr (lines.map .str)),
    (txt "content", .str (joinLines lines)),
    (txt "next_offset", .null)]

def initiallyTruncated : Bool := truncatedByLineLimit call captured || (outputLines captured).2

def stopReason : Text :=
  if initiallyTruncated call captured then
    if (outputLines captured).2 then txt "byte_budget" else txt "line_limit"
  else txt "snapshot_complete"

/-- The loop that gives up the oldest line until the reply fits, and whether it gave up any. -/
def fitLines : List Text → Bool → Dict × BudgetMeasurement → Except Raised (Dict × Bool)
  | [], tokenTruncated, rendered => pure (rendered.1, tokenTruncated)
  | _ :: lines, tokenTruncated, rendered =>
    if rendered.2.fits then pure (rendered.1, tokenTruncated)
    else do
      let rendered ← withBudgetMetadata enc (capturePayload call primary captured true lines) call.budget true (txt "token_budget")
      fitLines lines true rendered

def captureReply : Except Raised Dict := do
  let lines := (outputLines captured).1
  let rendered ← withBudgetMetadata enc (capturePayload call primary captured false lines) call.budget
    (initiallyTruncated call captured) (stopReason call captured)
  let fitted ← fitLines enc call primary captured lines false rendered
  if fitted.2 then pure (dictSet (txt "truncated_by_token_budget") (.bool true) fitted.1) else pure fitted.1

end

/-! ## The call -/

/-- The exceptions that running a command ends in. -/
inductive RunFailure
  | fileNotFound (binary : Text)
  | timeoutExpired (timeout : ℕ)
  | osError (exc : Text)

/-- What `_run` raises for them. -/
def RunFailure.error : RunFailure → TmuxControlError
  | .fileNotFound binary =>
    ⟨txt "tmux_not_found", txt "tmux executable was not found: " ++ binary, [(txt "binary", .str binary)]⟩
  | .timeoutExpired timeout =>
    ⟨txt "tmux_timeout", txt "tmux control command exceeded " ++ integer timeout ++ txt " seconds.",
      [(txt "timeout_seconds", natJson timeout)]⟩
  | .osError exc => ⟨txt "tmux_command_failed", txt "Failed to run tmux: " ++ exc, []⟩

def run (outcome : Except RunFailure RunResult) : Except TmuxControlError RunResult := outcome.mapError RunFailure.error

def invalidLines : TmuxControlError where
  code := txt "invalid_arguments"
  message := txt "lines must be at least 1."
  extra := []

/-- `TmuxControlError.as_payload`. -/
def asPayload (e : TmuxControlError) : Dict :=
  e.extra.foldl (fun d field => dictSet field.1 field.2 d)
    [(txt "success", .bool false), (txt "error", .obj [(txt "code", .str e.code), (txt "message", .str e.message)])]

/-- The pane of a session and the lines captured from it. -/
def takeSnapshot (int : Text → Option ℤ) (call : CaptureCall) (listPanes capturePane : Except RunFailure RunResult) :
    Except TmuxControlError (Row × List Text) :=
  if call.requestedLines < 1 then throw invalidLines
  else do
    match ← requireSessionRows int (run listPanes) call.session with
    | [] => throw (sessionNotFound call.session)
    | primary :: _ => do
      let result ← run capturePane
      requireOk (txt "capture-pane") result
      pure (primary, splitlines (decodeReplace result.stdout))

/-- `TmuxClient.capture`, with what comes of its two commands. -/
def capture (int : Text → Option ℤ) (enc : TokenEncoding) (call : CaptureCall) (listPanes capturePane : Except RunFailure RunResult) :
    Except Raised Dict :=
  match takeSnapshot int call listPanes capturePane with
  | .error e => pure (asPayload e)
  | .ok snapshot => captureReply enc call snapshot.1 snapshot.2

end WebOauthMcp.TmuxCapture
