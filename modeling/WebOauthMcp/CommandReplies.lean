import WebOauthMcp.Words
import WebOauthMcp.CapturedOutput
import WebOauthMcp.FileReplies

/-!
# Replies of foreground commands

A command is run to its end and its output is rendered; only then is there something to
return. A batch runs every command first and then fits all results into one budget, down
to bare outcomes. What a run comes to outside the process is an input of the model.
-/

namespace WebOauthMcp.CommandReplies
open CodePoints Utf8Units LineSplitting Words AvoidedWords JsonText ExceptSteps ResponseBudget BudgetMetadata
  TokenOctets CapturedOutput FileReplies

def timeoutExitCode : ℤ := -1
def maxCommandTimeoutSeconds : ℤ := 300
def maxCommandBatchConcurrency : ℕ := 3
def maxCommandBatchSize : ℕ := 20

/-! ## One command -/

/-- The arguments that the commands of a call share. -/
structure CommandCall where
  cwd : Text
  timeout : ℤ
  force : Bool
  maxTokens : ℕ+
  captureMaxBytes : ℕ+

/-- What trying to run a command comes to. -/
inductive CommandRun
  | cwdMissing
  | cwdNotDirectory
  | notStarted (reason : Text)
  | ran (stdoutChunks stderrChunks : List Bytes) (timedOut : Bool) (exitCode : Option ℤ)

structure CommandError where
  code : Text
  message : Text

structure OutputMetadata where
  stdout : StreamMetadata
  stderr : StreamMetadata
  aggregate : AggregateMetadata

structure CommandResult where
  success : Bool
  command : Text
  cwd : Text
  exitCode : ℤ
  stdout : Text
  stderr : Text
  timedOut : Bool
  timeout : ℤ
  force : Option Bool := none
  outputMetadata : Option OutputMetadata := none
  error : Option CommandError := none
  hint : Option Text := none

def captures (call : CommandCall) (stdoutChunks stderrChunks : List Bytes) : Stream → StreamCapture
  | .stdout => StreamCapture.drain ((call.captureMaxBytes + 1) / 2) stdoutChunks
  | .stderr => StreamCapture.drain (call.captureMaxBytes / 2) stderrChunks

/-- A command that produced nothing. -/
def failedBefore (call : CommandCall) (command code message : Text) : CommandResult where
  success := false
  command := command
  cwd := call.cwd
  exitCode := timeoutExitCode
  stdout := []
  stderr := []
  timedOut := false
  timeout := call.timeout
  error := some ⟨code, message⟩

def timedOutMessage (timeout : ℤ) : Text :=
  txt "Command exceeded the " ++ (integer timeout ++ txt ("s timeout. Retry with a larger `timeout` argument, " ++
    "use `job_start` for durable non-interactive work, or use `tmux_*` for interactive work."))

/-- The result of a command that ran, around its rendered output. -/
def ranResult (call : CommandCall) (command : Text) (timedOut : Bool) (exitCode : Option ℤ) (o : RenderedOutput) :
    CommandResult :=
  let base : CommandResult := {
    success := false
    command := command
    cwd := call.cwd
    exitCode := timeoutExitCode
    stdout := o.stdout
    stderr := o.stderr
    timedOut := timedOut
    timeout := call.timeout
    outputMetadata := some ⟨o.stdoutMetadata, o.stderrMetadata, o.aggregate⟩ }
  if timedOut then
    { base with
      error := some ⟨txt "timed_out", timedOutMessage call.timeout⟩
      hint := some (txt "increase_timeout_or_use_job_or_tmux") }
  else
    { base with
      success := decide (exitCode.getD timeoutExitCode = 0)
      exitCode := exitCode.getD timeoutExitCode
      force := some call.force }

/-- `run_command`, once the timeout has been accepted. -/
def runCommand (enc : TokenEncoding) (call : CommandCall) (command : Text) :
    CommandRun → Except Raised CommandResult
  | .cwdMissing => pure (failedBefore call command (txt "cwd_not_found")
      (txt "Working directory not found: " ++ call.cwd))
  | .cwdNotDirectory => pure (failedBefore call command (txt "cwd_not_directory")
      (txt "Working directory is not a directory: " ++ call.cwd))
  | .notStarted reason => pure { failedBefore call command (txt "command_start_failed")
      (txt "Failed to start command: " ++ reason) with force := some call.force }
  | .ran out err timedOut exitCode => do
    let o ← renderCapturedOutput enc (captures call out err) call.maxTokens call.captureMaxBytes
    pure (ranResult call command timedOut exitCode o)

/-- How a command ended. -/
structure Outcome where
  success : Bool
  exitCode : ℤ
  timedOut : Bool
  deriving DecidableEq

def CommandRun.outcome : CommandRun → Outcome
  | .ran _ _ true _ => ⟨false, timeoutExitCode, true⟩
  | .ran _ _ false exitCode =>
    ⟨decide (exitCode.getD timeoutExitCode = 0), exitCode.getD timeoutExitCode, false⟩
  | _ => ⟨false, timeoutExitCode, false⟩

def CommandResult.outcome (r : CommandResult) : Outcome := ⟨r.success, r.exitCode, r.timedOut⟩

/-- The output of the run, where there is some, spells no special token in any piece that
is shown. -/
def CommandRun.Showable (call : CommandCall) : CommandRun → Prop
  | .ran out err _ _ => ∀ piece ∈ shownRuns (captures call out err), SpellsNoToken piece
  | _ => True

theorem ranResult_outcome (call : CommandCall) (command : Text) (out err : List Bytes) (timedOut : Bool)
    (exitCode : Option ℤ) (o : RenderedOutput) :
    (ranResult call command timedOut exitCode o).outcome = (CommandRun.ran out err timedOut exitCode).outcome := by
  cases timedOut <;> rfl

theorem runCommand_outcome {enc : TokenEncoding} {call : CommandCall} {command : Text} {run : CommandRun}
    {r : CommandResult} (h : runCommand enc call command run = .ok r) : r.outcome = run.outcome := by
  cases run with
  | cwdMissing =>
    obtain rfl := Except.ok.inj h
    rfl
  | cwdNotDirectory =>
    obtain rfl := Except.ok.inj h
    rfl
  | notStarted reason =>
    obtain rfl := Except.ok.inj h
    rfl
  | ran out err timedOut exitCode =>
    obtain ⟨o, -, h⟩ := bind_eq_ok.mp h
    obtain rfl := Except.ok.inj h
    exact ranResult_outcome call command out err timedOut exitCode o

/-- A command's outcome is reported exactly when its output can be shown. -/
theorem runCommand_reports_iff (enc : TokenEncoding) (call : CommandCall) (command : Text) (run : CommandRun) :
    (∃ r, runCommand enc call command run = .ok r ∧ r.outcome = run.outcome) ↔ run.Showable call := by
  refine Iff.trans ⟨fun h => ?_, fun h => ?_⟩ (show (∃ r, runCommand enc call command run = .ok r) ↔ _ from ?_)
  · obtain ⟨r, hr, -⟩ := h
    exact ⟨r, hr⟩
  · obtain ⟨r, hr⟩ := h
    exact ⟨r, hr, runCommand_outcome hr⟩
  · cases run with
    | cwdMissing => exact iff_of_true ⟨_, rfl⟩ trivial
    | cwdNotDirectory => exact iff_of_true ⟨_, rfl⟩ trivial
    | notStarted reason => exact iff_of_true ⟨_, rfl⟩ trivial
    | ran out err timedOut exitCode =>
      rw [CommandRun.Showable, ← renderCapturedOutput_returns_iff enc _ call.maxTokens call.captureMaxBytes]
      constructor
      · intro h
        obtain ⟨r, hr⟩ := h
        obtain ⟨o, ho, -⟩ := bind_eq_ok.mp hr
        exact ⟨o, ho⟩
      · intro h
        obtain ⟨o, ho⟩ := h
        exact ⟨_, bind_eq_ok.mpr ⟨o, ho, rfl⟩⟩

/-! ## A batch of commands -/

inductive ExecutionMode
  | sequential
  | parallel

def ExecutionMode.name : ExecutionMode → Text
  | .sequential => txt "sequential"
  | .parallel => txt "parallel"

structure BatchCall where
  commands : List Text
  mode : ExecutionMode
  maxConcurrency : ℕ
  shared : CommandCall

/-- A result of a batch. The detailed metadata may be cut down to the token count. -/
structure BatchEntry where
  index : ℕ
  result : CommandResult
  truncated : Bool := false
  compacted : Bool := false

def optionalField (k : Text) : Option Json → Dict
  | none => []
  | some v => [(k, v)]

def streamMetadataJson (m : StreamMetadata) : Json :=
  .obj [(txt "total_bytes", natJson m.totalBytes), (txt "total_lines", natJson m.totalLines),
    (txt "retained_bytes", natJson m.retainedBytes), (txt "retained_lines", natJson m.retainedLines),
    (txt "displayed_bytes", natJson m.displayedBytes), (txt "displayed_lines", natJson m.displayedLines),
    (txt "capture_dropped_bytes", natJson m.captureDroppedBytes), (txt "dropped", .bool m.truncated),
    (txt "truncated", .bool m.truncated), (txt "capture_truncated", .bool m.captureTruncated),
    (txt "token_truncated", .bool m.tokenTruncated), (txt "token_count", natJson m.tokenCount),
    (txt "effective_token_budget", natJson m.effectiveTokenBudget),
    (txt "fits_token_budget", .bool m.fitsTokenBudget), (txt "omission_marker", .bool m.truncated),
    (txt "oversized_line", .bool m.oversizedLine), (txt "long_line_truncated", .bool m.longLineTruncated)]

def optionalStream : Option Stream → Json
  | none => .null
  | some s => .str s.name

def aggregateMetadataJson (m : AggregateMetadata) : Json :=
  .obj [(txt "total_bytes", natJson m.totalBytes), (txt "total_lines", natJson m.totalLines),
    (txt "retained_bytes", natJson m.retainedBytes), (txt "retained_lines", natJson m.retainedLines),
    (txt "displayed_bytes", natJson m.displayedBytes), (txt "displayed_lines", natJson m.displayedLines),
    (txt "capture_dropped_bytes", natJson m.captureDroppedBytes), (txt "dropped", .bool m.truncated),
    (txt "truncated", .bool m.truncated), (txt "capture_truncated", .bool m.captureTruncated),
    (txt "token_truncated", .bool m.tokenTruncated), (txt "token_count", natJson m.tokenCount),
    (txt "effective_token_budget", natJson m.effectiveTokenBudget),
    (txt "fits_token_budget", .bool m.fitsTokenBudget), (txt "displayed_payload_fits", .bool m.fitsTokenBudget),
    (txt "token_encoding", .str encodingName),
    (txt "capture_memory_limit_bytes", natJson m.captureMemoryLimitBytes),
    (txt "oversized_line", .bool m.oversizedStream.isSome), (txt "oversized_stream", optionalStream m.oversizedStream)]

def outputMetadataJson (m : OutputMetadata) : Json :=
  .obj [(txt "stdout", streamMetadataJson m.stdout), (txt "stderr", streamMetadataJson m.stderr),
    (txt "aggregate", aggregateMetadataJson m.aggregate)]

def compactMetadataJson (m : OutputMetadata) : Json :=
  .obj [(txt "aggregate", .obj [(txt "token_count", natJson m.aggregate.tokenCount),
    (txt "batch_budget_truncated", .bool true)])]

def errorJson (e : CommandError) : Json := .obj [(txt "code", .str e.code), (txt "message", .str e.message)]

def resultPayload (e : BatchEntry) : Dict :=
  [(txt "success", .bool e.result.success), (txt "command", .str e.result.command), (txt "cwd", .str e.result.cwd),
    (txt "exit_code", .int e.result.exitCode), (txt "stdout", .str e.result.stdout),
    (txt "stderr", .str e.result.stderr), (txt "timed_out", .bool e.result.timedOut),
    (txt "timeout", .int e.result.timeout), (txt "index", natJson e.index)] ++
  (optionalField (txt "force") (e.result.force.map .bool) ++
    (optionalField (txt "output_metadata")
        (e.result.outputMetadata.map (if e.compacted then compactMetadataJson else outputMetadataJson)) ++
      (optionalField (txt "error") (e.result.error.map errorJson) ++
        (optionalField (txt "hint") (e.result.hint.map .str) ++
          if e.truncated then [(txt "batch_budget_truncated", .bool true)] else []))))

/-- What is left of a result when the budget cannot carry it. -/
def summaryPayload (e : BatchEntry) : Dict :=
  [(txt "index", natJson e.index), (txt "success", .bool e.result.success), (txt "exit_code", .int e.result.exitCode),
    (txt "timed_out", .bool e.result.timedOut), (txt "output_omitted_by_batch_budget", .bool true)]

def resultsJson (payload : BatchEntry → Dict) (entries : List BatchEntry) : Json :=
  .arr (entries.map fun e => .obj (payload e))

/-- One stream of one result: `f"{index}:{stream}"`. -/
structure StreamKey where
  index : ℕ
  stream : Stream
  deriving DecidableEq

def StreamKey.text (k : StreamKey) : Text := decimal k.index ++ (txt ":" ++ k.stream.name)

def streamText (r : CommandResult) : Stream → Text
  | .stdout => r.stdout
  | .stderr => r.stderr

/-- `content_needs`, for one stream. -/
def contentNeed (enc : TokenEncoding) (text : Text) : Except Raised ℕ :=
  if text = [] then pure 0 else countTokens enc text

structure EntryNeeds where
  index : ℕ
  stdout : ℕ
  stderr : ℕ

def EntryNeeds.of (n : EntryNeeds) : Stream → ℕ
  | .stdout => n.stdout
  | .stderr => n.stderr

def entryNeeds (enc : TokenEncoding) (e : BatchEntry) : Except Raised EntryNeeds := do
  let out ← contentNeed enc e.result.stdout
  let err ← contentNeed enc e.result.stderr
  pure ⟨e.index, out, err⟩

def needOf (needs : List EntryNeeds) (k : StreamKey) : ℕ :=
  ((needs.find? fun n => decide (n.index = k.index)).map fun n => n.of k.stream).getD 0

def streamKeys (needs : List EntryNeeds) : List StreamKey :=
  needs.flatMap fun n => [⟨n.index, .stdout⟩, ⟨n.index, .stderr⟩]

def batchAllocations (needs : List EntryNeeds) (maxTokens : ℕ) : StreamKey → ℕ :=
  allocateBudgets (fun k l => textLe k.text l.text) (needOf needs)
    ((streamKeys needs).filter fun k => decide (0 < needOf needs k)) maxTokens fun _ => 0

structure CutEntry where
  entry : BatchEntry
  cut : Bool

/-- Both streams of a result, cut to their allocations. -/
def cutEntry (enc : TokenEncoding) (needs allocations : StreamKey → ℕ) (e : BatchEntry) : Except Raised CutEntry := do
  let out ← truncateTextToTokens enc e.result.stdout (allocations ⟨e.index, .stdout⟩)
  let err ← truncateTextToTokens enc e.result.stderr (allocations ⟨e.index, .stderr⟩)
  let short := fun s => decide (allocations ⟨e.index, s⟩ < needs ⟨e.index, s⟩)
  pure {
    entry := { e with
      result := { e.result with stdout := out.text, stderr := err.text }
      truncated := short .stdout || short .stderr }
    cut := out.truncated || err.truncated }

def compactEntry (e : BatchEntry) : BatchEntry := { e with compacted := true }

/-- The end of the fitting: detailed metadata goes first, then everything but the outcomes. -/
def compactBatch (enc : TokenEncoding) (budget : Budget) (rendered : Dict) (entries : List BatchEntry) :
    Except Raised Dict := do
  let compact ← withBudgetMetadata enc
    (dictSet (txt "results") (resultsJson resultPayload (entries.map compactEntry)) rendered) budget true
    (txt "token_budget")
  if compact.2.fits then pure compact.1
  else do
    let bare ← withBudgetMetadata enc (dictSet (txt "results") (resultsJson summaryPayload entries) compact.1) budget
      true (txt "token_budget")
    pure bare.1

def batchStopReason (truncated : Bool) : Text := if truncated then txt "token_budget" else txt "end_of_results"

/-- `_fit_command_batch_to_budget`. -/
def fitCommandBatchToBudget (enc : TokenEncoding) (base : Dict) (entries : List BatchEntry) (maxTokens : ℕ+) :
    Except Raised Dict := do
  let needs ← entries.mapM (entryNeeds enc)
  let cuts ← entries.mapM (cutEntry enc (needOf needs) (batchAllocations needs ((maxTokens : ℕ) / 2)))
  let anyTruncated := cuts.any CutEntry.cut
  let payload := dictSet (txt "next_offset") .null
    (dictSet (txt "results") (resultsJson resultPayload (cuts.map CutEntry.entry)) base)
  let rendered ← withBudgetMetadata enc payload { maxTokens } anyTruncated (batchStopReason anyTruncated)
  if rendered.2.fits then pure rendered.1
  else compactBatch enc { maxTokens } rendered.1 (cuts.map CutEntry.entry)

def invalidBatchArguments (message : Text) : Dict :=
  [(txt "success", .bool false), (txt "mode", .str (txt "batch")),
    (txt "error", errorJson ⟨txt "invalid_arguments", message⟩), (txt "results", .arr [])]

def timeoutLimitMessage : Text := txt ("run_command timeout is limited to 300s. Use job_start for durable " ++
  "non-interactive work or tmux_* for interactive work. If run_command is still required, set force=true only " ++
  "after explicit user approval.")

/-- `_timeout_limit_error`, as a batch returns it. -/
def timeoutLimitError (call : BatchCall) : Dict :=
  [(txt "success", .bool false),
    (txt "error", .obj [(txt "code", .str (txt "timeout_exceeds_limit")), (txt "message", .str timeoutLimitMessage),
      (txt "requested_timeout_seconds", .int call.shared.timeout),
      (txt "max_timeout_seconds", .int maxCommandTimeoutSeconds), (txt "force_required", .bool true),
      (txt "approval_required", .bool true)]),
    (txt "exit_code", .int timeoutExitCode), (txt "stdout", .str []), (txt "stderr", .str []),
    (txt "timed_out", .bool false), (txt "timeout", .int call.shared.timeout),
    (txt "hint", .str (txt "job_or_tmux_or_force_after_user_approval")), (txt "mode", .str (txt "batch")),
    (txt "cwd", .str call.shared.cwd), (txt "results", .arr []), (txt "command_count", natJson call.commands.length)]

/-- What a batch is refused with before any command runs. -/
def refusal (call : BatchCall) : Option Dict :=
  if maxCommandTimeoutSeconds < call.shared.timeout ∧ call.shared.force = false then some (timeoutLimitError call)
  else if call.commands = [] then some (invalidBatchArguments (txt "Provide at least one command."))
  else if call.commands.any fun c => c.all isSpace then
    some (invalidBatchArguments (txt "Batch commands must be non-empty strings."))
  else if maxCommandBatchSize < call.commands.length then
    some (invalidBatchArguments (txt "At most 20 commands may be executed in one batch."))
  else if call.maxConcurrency < 1 ∨ maxCommandBatchConcurrency < call.maxConcurrency then
    some (invalidBatchArguments (txt "max_concurrency must be between 1 and 3."))
  else none

/-- A command of a batch that was run, and what its run came to. -/
structure Executed where
  index : ℕ
  command : Text
  run : CommandRun

def executed (call : BatchCall) (runs : ℕ → CommandRun) : List Executed :=
  match refusal call with
  | some _ => []
  | none => call.commands.zipIdx.map fun c => ⟨c.2, c.1, runs c.2⟩

def effectiveConcurrency (call : BatchCall) : ℕ :=
  match call.mode with
  | .sequential => 1
  | .parallel => min call.maxConcurrency call.commands.length

def batchCounts (call : BatchCall) (entries : List BatchEntry) : Dict :=
  [(txt "success", .bool (entries.all fun e => e.result.success)), (txt "mode", .str (txt "batch")),
    (txt "execution_mode", .str call.mode.name), (txt "command_count", natJson call.commands.length),
    (txt "completed_count", natJson entries.length),
    (txt "failed_count", natJson (entries.countP fun e => !e.result.success)),
    (txt "timed_out_count", natJson (entries.countP fun e => e.result.timedOut)),
    (txt "max_concurrency", natJson (effectiveConcurrency call)), (txt "timeout", .int call.shared.timeout),
    (txt "force", .bool call.shared.force)]

def batchPayload (call : BatchCall) (entries : List BatchEntry) : Dict :=
  batchCounts call entries ++ [(txt "results", resultsJson resultPayload entries)]

def batchEntry (enc : TokenEncoding) (call : CommandCall) (x : Executed) : Except Raised BatchEntry := do
  let r ← runCommand enc call x.command x.run
  pure { index := x.index, result := r }

/-- `run_commands`. In both modes the results are in the order of the commands, and an
exception of one command is the exception of the batch. -/
def runCommands (enc : TokenEncoding) (call : BatchCall) (runs : ℕ → CommandRun) : Except Raised Dict :=
  match refusal call with
  | some refused => pure refused
  | none => do
    let entries ← (executed call runs).mapM (batchEntry enc call.shared)
    fitCommandBatchToBudget enc (batchPayload call entries) entries call.shared.maxTokens

/-! ## What a batch reports -/

/-- A result says how the command at its index ended. -/
def ReportsOutcome (x : Executed) (j : Json) : Prop :=
  ∃ d, j = .obj d ∧ dictGet (txt "index") d = some (natJson x.index) ∧
    dictGet (txt "success") d = some (.bool x.run.outcome.success) ∧
    dictGet (txt "exit_code") d = some (.int x.run.outcome.exitCode) ∧
    dictGet (txt "timed_out") d = some (.bool x.run.outcome.timedOut)

/-- The reply holds one result for each command, in order. -/
def Reports (xs : List Executed) (reply : Dict) : Prop :=
  ∃ js, dictGet (txt "results") reply = some (.arr js) ∧ List.Forall₂ ReportsOutcome xs js

/-- The entry belongs to the command and says how it ended. -/
def Describes (x : Executed) (e : BatchEntry) : Prop := e.index = x.index ∧ e.result.outcome = x.run.outcome

theorem Describes.fields {x : Executed} {e : BatchEntry} (h : Describes x e) :
    natJson x.index = natJson e.index ∧ x.run.outcome.success = e.result.success ∧
      x.run.outcome.exitCode = e.result.exitCode ∧ x.run.outcome.timedOut = e.result.timedOut := by
  rw [← h.1, ← h.2]
  exact ⟨rfl, rfl, rfl, rfl⟩

theorem resultPayload_reports {x : Executed} {e : BatchEntry} (h : Describes x e) :
    ReportsOutcome x (.obj (resultPayload e)) := by
  obtain ⟨hindex, hsuccess, hcode, htimed⟩ := h.fields
  refine ⟨_, rfl, ?_, ?_, ?_, ?_⟩
  · rw [hindex]
    rfl
  · rw [hsuccess]
    rfl
  · rw [hcode]
    rfl
  · rw [htimed]
    rfl

theorem summaryPayload_reports {x : Executed} {e : BatchEntry} (h : Describes x e) :
    ReportsOutcome x (.obj (summaryPayload e)) := by
  obtain ⟨hindex, hsuccess, hcode, htimed⟩ := h.fields
  refine ⟨_, rfl, ?_, ?_, ?_, ?_⟩
  · rw [hindex]
    rfl
  · rw [hsuccess]
    rfl
  · rw [hcode]
    rfl
  · rw [htimed]
    rfl

/-- The entry has the index of the other and ends as it does. -/
def SameOutcome (e c : BatchEntry) : Prop := c.index = e.index ∧ c.result.outcome = e.result.outcome

/-- The results that are shown are those of the entries, in full or summed up. -/
def Shows (entries : List BatchEntry) (d : Dict) : Prop :=
  ∃ shown, List.Forall₂ SameOutcome entries shown ∧ (dictGet (txt "results") d = some (resultsJson resultPayload shown) ∨
    dictGet (txt "results") d = some (resultsJson summaryPayload shown))

theorem Shows.reports {xs : List Executed} {entries : List BatchEntry} {d : Dict} (h : Shows entries d)
    (hdescribes : List.Forall₂ Describes xs entries) : Reports xs d := by
  obtain ⟨shown, hshown, hd⟩ := h
  have hall : List.Forall₂ Describes xs shown :=
    forall₂_comp (fun x e c hx hc => ⟨hc.1.trans hx.1, hc.2.trans hx.2⟩) hdescribes hshown
  cases hd with
  | inl hd =>
    refine ⟨_, hd, ?_⟩
    rw [List.forall₂_map_right_iff]
    exact hall.imp fun x e hxe => resultPayload_reports hxe
  | inr hd =>
    refine ⟨_, hd, ?_⟩
    rw [List.forall₂_map_right_iff]
    exact hall.imp fun x e hxe => summaryPayload_reports hxe

theorem results_notMem_contractKeys : txt "results" ∉ contractKeys := by decide

/-! ## Which results can be rendered -/

structure CommandResult.Clean (r : CommandResult) : Prop where
  command : Measurable r.command
  cwd : Measurable r.cwd
  stdout : Measurable r.stdout
  stderr : Measurable r.stderr
  error : ∀ e, r.error = some e → Measurable e.code ∧ Measurable e.message
  hint : ∀ t, r.hint = some t → Measurable t

theorem optionalField_clean_iff {k : Text} {o : Option Json} (hk : isBenign k = true) :
    (∀ f ∈ optionalField k o, CleanField f) ↔ ∀ v, o = some v → CleanJson v := by
  cases o with
  | none => simp [optionalField]
  | some v => simp [optionalField, cleanField_iff hk]

theorem cleanJson_of_isBenign {j : Json} (h : (strings j).all isBenign = true) : CleanJson j := fun t ht =>
  measurable_of_isBenign (List.all_eq_true.mp h t ht)

theorem outputMetadataJson_clean (m : OutputMetadata) : CleanJson (outputMetadataJson m) := by
  apply cleanJson_of_isBenign
  obtain ⟨out, err, aggregate⟩ := m
  obtain ⟨_, _, _, _, _, _, _, _, _, _, _, _, _, _, _, oversized⟩ := aggregate
  cases oversized with
  | none => rfl
  | some s => cases s <;> rfl

theorem compactMetadataJson_clean (m : OutputMetadata) : CleanJson (compactMetadataJson m) :=
  cleanJson_of_isBenign rfl

theorem errorJson_clean_iff (e : CommandError) : CleanJson (errorJson e) ↔ Measurable e.code ∧ Measurable e.message := by
  rw [errorJson, cleanJson_obj]
  simp only [List.forall_mem_cons, List.not_mem_nil, false_implies, implies_true, and_true]
  rw [cleanField_str_iff (by decide), cleanField_str_iff (by decide)]

/-- An entry can be rendered exactly when the texts of its result are measurable. -/
theorem resultPayload_clean_iff (e : BatchEntry) : (∀ f ∈ resultPayload e, CleanField f) ↔ e.result.Clean := by
  have hforce : ∀ f ∈ optionalField (txt "force") (e.result.force.map .bool), CleanField f := by
    refine (optionalField_clean_iff (by decide)).mpr fun v hv => ?_
    obtain ⟨b, -, rfl⟩ := Option.map_eq_some_iff.mp hv
    exact cleanJson_of_strings_nil rfl
  have hmetadata : ∀ f ∈ optionalField (txt "output_metadata")
      (e.result.outputMetadata.map (if e.compacted then compactMetadataJson else outputMetadataJson)), CleanField f := by
    refine (optionalField_clean_iff (by decide)).mpr fun v hv => ?_
    obtain ⟨m, -, rfl⟩ := Option.map_eq_some_iff.mp hv
    cases e.compacted with
    | true => exact compactMetadataJson_clean m
    | false => exact outputMetadataJson_clean m
  have herror : (∀ f ∈ optionalField (txt "error") (e.result.error.map errorJson), CleanField f) ↔
      ∀ r, e.result.error = some r → Measurable r.code ∧ Measurable r.message := by
    rw [optionalField_clean_iff (by decide)]
    simp only [Option.map_eq_some_iff, forall_exists_index, and_imp, forall_apply_eq_imp_iff₂, errorJson_clean_iff]
  have hhint : (∀ f ∈ optionalField (txt "hint") (e.result.hint.map .str), CleanField f) ↔
      ∀ t, e.result.hint = some t → Measurable t := by
    rw [optionalField_clean_iff (by decide)]
    simp only [Option.map_eq_some_iff, forall_exists_index, and_imp, forall_apply_eq_imp_iff₂, cleanJson_str]
  have hmark : ∀ f ∈ (if e.truncated then [(txt "batch_budget_truncated", Json.bool true)] else []), CleanField f := by
    cases e.truncated with
    | true => simpa using cleanField_bool (by decide)
    | false => simp
  rw [resultPayload]
  simp only [List.forall_mem_append, List.forall_mem_cons, List.not_mem_nil, false_implies, implies_true, and_true]
  rw [and_iff_right (cleanField_bool (by decide)), and_iff_right (cleanField_int (by decide)),
    and_iff_right (cleanField_bool (by decide)), and_iff_right (cleanField_int (by decide)),
    and_iff_left (cleanField_nat (by decide)), and_iff_right hforce, and_iff_right hmetadata, and_iff_left hmark,
    herror, hhint, cleanField_str_iff (by decide), cleanField_str_iff (by decide), cleanField_str_iff (by decide),
    cleanField_str_iff (by decide)]
  constructor
  · intro h
    exact ⟨h.1.1, h.1.2.1, h.1.2.2.1, h.1.2.2.2, h.2.1, h.2.2⟩
  · intro h
    exact ⟨⟨h.command, h.cwd, h.stdout, h.stderr⟩, h.error, h.hint⟩

theorem summaryPayload_clean (e : BatchEntry) : ∀ f ∈ summaryPayload e, CleanField f := by
  rw [summaryPayload]
  simp only [List.forall_mem_cons, List.not_mem_nil, false_implies, implies_true, and_true]
  exact ⟨cleanField_nat (by decide), cleanField_bool (by decide), cleanField_int (by decide),
    cleanField_bool (by decide), cleanField_bool (by decide)⟩

theorem cleanField_results {payload : BatchEntry → Dict} {entries : List BatchEntry} :
    CleanField (txt "results", resultsJson payload entries) ↔ ∀ e ∈ entries, ∀ f ∈ payload e, CleanField f := by
  rw [cleanField_iff (by decide), resultsJson, cleanJson_arr]
  simp only [List.forall_mem_map, cleanJson_obj]

theorem batchPayload_clean (call : BatchCall) (entries : List BatchEntry) :
    CleanExcept (txt "results" :: txt "next_offset" :: contractKeys) (batchPayload call entries) := by
  have hmode : CleanField (txt "execution_mode", .str call.mode.name) :=
    cleanField_benign (by decide) (by cases call.mode <;> decide)
  have hcounts : ∀ f ∈ batchCounts call entries, CleanField f := by
    simp only [batchCounts, List.forall_mem_cons, List.not_mem_nil, false_implies, implies_true, and_true]
    exact ⟨cleanField_bool (by decide), cleanField_benign (by decide) (by decide), hmode, cleanField_nat (by decide),
      cleanField_nat (by decide), cleanField_nat (by decide), cleanField_nat (by decide), cleanField_nat (by decide),
      cleanField_int (by decide), cleanField_bool (by decide)⟩
  intro f hf hkey
  cases List.mem_append.mp hf with
  | inl hf => exact hcounts f hf
  | inr hf =>
    obtain rfl := List.mem_singleton.mp hf
    exact absurd List.mem_cons_self hkey

/-! ## Which commands can be reported -/

/-- The texts of a command that its result echoes. -/
structure Executed.Echoed (call : CommandCall) (x : Executed) : Prop where
  command : Measurable x.command
  cwd : Measurable call.cwd
  reason : ∀ t, x.run = .notStarted t → Measurable t

/-- The command's output and its echoed texts can be shown. -/
def Executed.Showable (call : CommandCall) (x : Executed) : Prop := x.run.Showable call ∧ x.Echoed call

theorem measurable_append_benign_iff {s t : Text} (hs : isBenign s = true) : Measurable (s ++ t) ↔ Measurable t :=
  avoids_append_iff_of_neverOpens nil_notMem_unmeasurable (neverOpens_of_isBenign hs)

theorem measurable_timedOutMessage (timeout : ℤ) : Measurable (timedOutMessage timeout) := by
  rw [timedOutMessage, measurable_append_benign_iff (by decide), ResponseBudget.Measurable,
    avoids_append_iff_of_neverOpens nil_notMem_unmeasurable (inStrings_unmeasurable.neverOpens (integer_json timeout))]
  exact measurable_of_isBenign (by decide +kernel)

theorem renderCapturedOutput_measurable {enc : TokenEncoding} {cs : Stream → StreamCapture} {maxTokens : ℕ+}
    {captureMaxBytes : ℕ} {o : RenderedOutput} (h : renderCapturedOutput enc cs maxTokens captureMaxBytes = .ok o) :
    Measurable o.stdout ∧ Measurable o.stderr := by
  obtain ⟨combined, -, h⟩ := bind_eq_ok.mp h
  obtain ⟨r, -, h⟩ := bind_eq_ok.mp h
  obtain ⟨out, hout, h⟩ := bind_eq_ok.mp h
  obtain ⟨err, herr, h⟩ := bind_eq_ok.mp h
  obtain ⟨displayed, -, h⟩ := bind_eq_ok.mp h
  obtain rfl := Except.ok.inj h
  exact ⟨(measure_returns_iff enc _ _).mp ⟨out, hout⟩, (measure_returns_iff enc _ _).mp ⟨err, herr⟩⟩

theorem failedBefore_clean_iff (call : CommandCall) (command code message : Text) (force : Option Bool)
    (hcode : isBenign code = true) : CommandResult.Clean { failedBefore call command code message with force := force } ↔
      Measurable command ∧ Measurable call.cwd ∧ Measurable message := by
  have hnil : Measurable [] := avoids_nil nil_notMem_unmeasurable
  constructor
  · intro h
    exact ⟨h.command, h.cwd, (h.error _ rfl).2⟩
  · intro h
    refine ⟨h.1, h.2.1, hnil, hnil, fun e he => ?_, fun t ht => nomatch ht⟩
    obtain rfl := Option.some.inj he
    exact ⟨measurable_of_isBenign hcode, h.2.2⟩

theorem ranResult_clean_iff (call : CommandCall) (command : Text) (timedOut : Bool) (exitCode : Option ℤ)
    {o : RenderedOutput} (ho : Measurable o.stdout ∧ Measurable o.stderr) :
    (ranResult call command timedOut exitCode o).Clean ↔ Measurable command ∧ Measurable call.cwd := by
  cases timedOut with
  | false =>
    constructor
    · intro h
      exact ⟨h.command, h.cwd⟩
    · intro h
      exact ⟨h.1, h.2, ho.1, ho.2, fun e he => (nomatch he), fun t ht => (nomatch ht)⟩
  | true =>
    constructor
    · intro h
      exact ⟨h.command, h.cwd⟩
    · intro h
      have hcode : Measurable (txt "timed_out") := measurable_of_isBenign (by decide)
      refine ⟨h.1, h.2, ho.1, ho.2, fun e he => ?_, fun t ht => ?_⟩
      · obtain rfl := Option.some.inj he
        exact ⟨hcode, measurable_timedOutMessage _⟩
      · obtain rfl := Option.some.inj ht
        exact measurable_of_isBenign (by decide)

theorem runCommand_clean_iff {enc : TokenEncoding} {call : CommandCall} {x : Executed} {r : CommandResult}
    (h : runCommand enc call x.command x.run = .ok r) : r.Clean ↔ x.Echoed call := by
  obtain ⟨index, command, run⟩ := x
  have hback : ∀ {p : Prop}, (p ↔ Measurable command ∧ Measurable call.cwd) → (∀ t, run ≠ .notStarted t) →
      (p ↔ Executed.Echoed call ⟨index, command, run⟩) := by
    intro p hp hrun
    refine hp.trans ⟨fun hm => ⟨hm.1, hm.2, fun t ht => absurd ht (hrun t)⟩, fun he => ⟨he.command, he.cwd⟩⟩
  cases run with
  | cwdMissing =>
    obtain rfl := Except.ok.inj h
    refine hback ((failedBefore_clean_iff call command _ _ none (by decide)).trans ?_) (by simp)
    rw [measurable_append_benign_iff (by decide), and_self]
  | cwdNotDirectory =>
    obtain rfl := Except.ok.inj h
    refine hback ((failedBefore_clean_iff call command _ _ none (by decide)).trans ?_) (by simp)
    rw [measurable_append_benign_iff (by decide), and_self]
  | notStarted reason =>
    obtain rfl := Except.ok.inj h
    rw [failedBefore_clean_iff call command _ _ _ (by decide), measurable_append_benign_iff (by decide)]
    constructor
    · intro hm
      refine ⟨hm.1, hm.2.1, fun t ht => ?_⟩
      obtain rfl := CommandRun.notStarted.inj ht
      exact hm.2.2
    · intro he
      exact ⟨he.command, he.cwd, he.reason reason rfl⟩
  | ran out err timedOut exitCode =>
    obtain ⟨o, ho, h⟩ := bind_eq_ok.mp h
    obtain rfl := Except.ok.inj h
    exact hback (ranResult_clean_iff call command timedOut exitCode (renderCapturedOutput_measurable ho)) (by simp)

/-! ## Fitting the batch -/

theorem cutEntry_ok {enc : TokenEncoding} {needs allocations : StreamKey → ℕ} {e : BatchEntry} {c : CutEntry}
    (h : cutEntry enc needs allocations e = .ok c) :
    ∃ out err, c.entry.result = { e.result with stdout := out, stderr := err } := by
  obtain ⟨out, -, h⟩ := bind_eq_ok.mp h
  obtain ⟨err, -, h⟩ := bind_eq_ok.mp h
  obtain rfl := Except.ok.inj h
  exact ⟨out.text, err.text, rfl⟩

theorem contentNeed_returns {enc : TokenEncoding} {text : Text} (h : Measurable text) :
    Returns (contentNeed enc text) fun _ => True := by
  rw [contentNeed]
  split_ifs
  · exact returns_pure trivial
  · exact countTokens_of_measurable h

theorem entryNeeds_returns {enc : TokenEncoding} {e : BatchEntry} (h : e.result.Clean) :
    Returns (entryNeeds enc e) fun _ => True := by
  apply (contentNeed_returns h.stdout).bind
  intro out _
  apply (contentNeed_returns h.stderr).bind
  intro err _
  exact returns_pure trivial

theorem cutEntry_returns {enc : TokenEncoding} {needs allocations : StreamKey → ℕ} {e : BatchEntry}
    (h : e.result.Clean) : Returns (cutEntry enc needs allocations e) fun c =>
      c.entry.index = e.index ∧ c.entry.result.outcome = e.result.outcome ∧ c.entry.result.Clean := by
  apply (truncateTextToTokens_returns h.stdout _).bind
  intro out hout
  apply (truncateTextToTokens_returns h.stderr _).bind
  intro err herr
  exact returns_pure ⟨rfl, rfl, h.command, h.cwd, hout.measurable h.stdout, herr.measurable h.stderr, h.error, h.hint⟩

theorem isBenign_batchStopReason (truncated : Bool) : isBenign (batchStopReason truncated) = true := by
  cases truncated <;> decide

theorem compactBatch_returns {enc : TokenEncoding} {budget : Budget} {rendered : Dict} {entries shown : List BatchEntry}
    (hrendered : CleanExcept [] rendered) (hclean : ∀ e ∈ shown, e.result.Clean)
    (hshown : List.Forall₂ SameOutcome entries shown) : Returns (compactBatch enc budget rendered shown) (Shows entries) := by
  have hpayload : ∀ {d : Dict} {results : Json}, CleanExcept [] d → CleanField (txt "results", results) →
      CleanPayload (dictSet (txt "results") results d) := fun hd hresults =>
    cleanExcept_mono (by simp) (clean_set hresults hd)
  have hcompact : CleanField (txt "results", resultsJson resultPayload (shown.map compactEntry)) := by
    refine cleanField_results.mpr (List.forall_mem_map.mpr fun e he => ?_)
    exact (resultPayload_clean_iff _).mpr (hclean e he)
  have hsummaries : CleanField (txt "results", resultsJson summaryPayload shown) :=
    cleanField_results.mpr fun e _ => summaryPayload_clean e
  have hreason : Measurable (txt "token_budget") := measurable_of_isBenign (by decide)
  have hcompacted : List.Forall₂ SameOutcome entries (shown.map compactEntry) := by
    rw [List.forall₂_map_right_iff]
    exact hshown
  apply (withBudgetMetadata_keeps (hpayload hrendered hcompact) hreason).bind
  intro compact hc
  have hcget := (hc.2 _ results_notMem_contractKeys).trans (dictGet_dictSet_self _ _ _)
  split_ifs
  · exact returns_pure ⟨_, hcompacted, .inl hcget⟩
  · apply (withBudgetMetadata_keeps (hpayload hc.1 hsummaries) hreason).bind
    intro bare hb
    have hbget := (hb.2 _ results_notMem_contractKeys).trans (dictGet_dictSet_self _ _ _)
    exact returns_pure ⟨_, hshown, .inr hbget⟩

/-- The payload of a batch can be rendered exactly when its results can. -/
theorem fitPayload_clean_iff (call : BatchCall) (entries cuts : List BatchEntry) :
    CleanPayload (dictSet (txt "next_offset") .null
      (dictSet (txt "results") (resultsJson resultPayload cuts) (batchPayload call entries))) ↔
      ∀ e ∈ cuts, e.result.Clean := by
  have hnext : CleanField (txt "next_offset", .null) := cleanField_of_strings_nil (by decide) rfl
  have hback : CleanPayload (dictSet (txt "next_offset") .null
      (dictSet (txt "results") (resultsJson resultPayload cuts) (batchPayload call entries))) →
      CleanField (txt "results", resultsJson resultPayload cuts) := by
    intro h
    exact h _ (mem_dictSet_of_ne (by decide) mem_dictSet_self) results_notMem_contractKeys
  have hfield : CleanField (txt "results", resultsJson resultPayload cuts) ↔ ∀ e ∈ cuts, e.result.Clean := by
    simp only [cleanField_results, resultPayload_clean_iff]
  rw [← hfield]
  constructor
  · exact hback
  · intro hresults
    rw [CleanPayload, cleanExcept_set hnext, cleanExcept_set hresults]
    exact batchPayload_clean call entries

theorem fitCommandBatchToBudget_returns {enc : TokenEncoding} {call : BatchCall} {entries : List BatchEntry}
    (hentries : ∀ e ∈ entries, e.result.Clean) (maxTokens : ℕ+) :
    Returns (fitCommandBatchToBudget enc (batchPayload call entries) entries maxTokens) (Shows entries) := by
  apply (mapM_returns fun e he => entryNeeds_returns (hentries e he)).bind
  intro needs _
  apply (mapM_returns fun e he => cutEntry_returns (hentries e he)).bind
  intro cuts hcuts
  have hcut : List.Forall₂ SameOutcome entries (cuts.map CutEntry.entry) := by
    rw [List.forall₂_map_right_iff]
    exact hcuts.imp fun e c hc => ⟨hc.1, hc.2.1⟩
  have hclean : ∀ e ∈ cuts.map CutEntry.entry, e.result.Clean :=
    List.forall_mem_map.mpr (forall₂_right hcuts fun e c hc => hc.2.2)
  apply (withBudgetMetadata_keeps ((fitPayload_clean_iff call entries _).mpr hclean)
    (measurable_of_isBenign (isBenign_batchStopReason _))).bind
  intro rendered hr
  have hget := (hr.2 _ results_notMem_contractKeys).trans
    ((dictGet_dictSet_of_ne (by decide) _ _).trans (dictGet_dictSet_self _ _ _))
  split_ifs
  · exact returns_pure ⟨_, hcut, .inl hget⟩
  · exact compactBatch_returns hr.1 hclean hcut

/-- What a returned batch says about one of its commands. -/
theorem fitCommandBatchToBudget_clean {enc : TokenEncoding} {call : BatchCall} {entries : List BatchEntry}
    {maxTokens : ℕ+} {d : Dict}
    (h : fitCommandBatchToBudget enc (batchPayload call entries) entries maxTokens = .ok d) {e : BatchEntry}
    (he : e ∈ entries) (hout : Measurable e.result.stdout ∧ Measurable e.result.stderr) : e.result.Clean := by
  obtain ⟨needs, -, h⟩ := bind_eq_ok.mp h
  obtain ⟨cuts, hcuts, h⟩ := bind_eq_ok.mp h
  obtain ⟨rendered, hr, -⟩ := bind_eq_ok.mp h
  have hclean := ((withBudgetMetadata_returns_iff enc _ _ _ _).mp ⟨rendered, hr⟩).1
  rw [fitPayload_clean_iff, List.forall_mem_map] at hclean
  obtain ⟨c, hc, hce⟩ := mapM_mem hcuts he
  obtain ⟨out, err, hresult⟩ := cutEntry_ok hce
  have hcut := hclean c hc
  rw [hresult] at hcut
  exact ⟨hcut.command, hcut.cwd, hout.1, hout.2, hcut.error, hcut.hint⟩

theorem runCommand_streams {enc : TokenEncoding} {call : CommandCall} {command : Text} {run : CommandRun}
    {r : CommandResult} (h : runCommand enc call command run = .ok r) : Measurable r.stdout ∧ Measurable r.stderr := by
  have hnil : Measurable [] := avoids_nil nil_notMem_unmeasurable
  cases run with
  | cwdMissing =>
    obtain rfl := Except.ok.inj h
    exact ⟨hnil, hnil⟩
  | cwdNotDirectory =>
    obtain rfl := Except.ok.inj h
    exact ⟨hnil, hnil⟩
  | notStarted reason =>
    obtain rfl := Except.ok.inj h
    exact ⟨hnil, hnil⟩
  | ran out err timedOut exitCode =>
    obtain ⟨o, ho, h⟩ := bind_eq_ok.mp h
    obtain rfl := Except.ok.inj h
    have hstreams := renderCapturedOutput_measurable ho
    cases timedOut with
    | false => exact hstreams
    | true => exact hstreams

theorem batchEntry_returns {enc : TokenEncoding} {call : CommandCall} {x : Executed} (h : x.Showable call) :
    Returns (batchEntry enc call x) fun e => Describes x e ∧ e.result.Clean := by
  obtain ⟨r, hr, houtcome⟩ := (runCommand_reports_iff enc call x.command x.run).mpr h.1
  refine ⟨⟨x.index, r, false, false⟩, ?_, ⟨rfl, houtcome⟩, (runCommand_clean_iff hr).mpr h.2⟩
  exact bind_eq_ok.mpr ⟨r, hr, rfl⟩

theorem refusal_reports {call : BatchCall} {d : Dict} (h : refusal call = some d) : Reports [] d := by
  have hresults : dictGet (txt "results") d = some (.arr []) := by
    simp only [refusal] at h
    split_ifs at h
    all_goals
      obtain rfl := Option.some.inj h
      rfl
  exact ⟨[], hresults, .nil⟩

/-- Every command of a batch is reported exactly when the output and the echoed texts of
each can be shown. -/
theorem runCommands_reports_iff (enc : TokenEncoding) (call : BatchCall) (runs : ℕ → CommandRun) :
    (∃ d, runCommands enc call runs = .ok d ∧ Reports (executed call runs) d) ↔
      ∀ x ∈ executed call runs, x.Showable call.shared := by
  cases hrefusal : refusal call with
  | some refused =>
    have hnone : executed call runs = [] := by rw [executed, hrefusal]
    rw [hnone, runCommands, hrefusal]
    exact iff_of_true ⟨refused, rfl, refusal_reports hrefusal⟩ (by simp)
  | none =>
    rw [runCommands, hrefusal]
    constructor
    · intro h x hx
      obtain ⟨d, hd, -⟩ := h
      obtain ⟨entries, hentries, hfit⟩ := bind_eq_ok.mp hd
      obtain ⟨e, he, hxe⟩ := mapM_mem hentries hx
      obtain ⟨r, hr, hxe⟩ := bind_eq_ok.mp hxe
      obtain rfl := Except.ok.inj hxe
      have hclean := fitCommandBatchToBudget_clean hfit he (runCommand_streams hr)
      exact ⟨(runCommand_reports_iff enc _ _ _).mp ⟨r, hr, runCommand_outcome hr⟩, (runCommand_clean_iff hr).mp hclean⟩
    · intro h
      have hrun : ∀ x ∈ executed call runs, Returns (batchEntry enc call.shared x) fun e =>
          Describes x e ∧ e.result.Clean := fun x hx => batchEntry_returns (h x hx)
      apply (mapM_returns hrun).bind
      intro entries hentries
      have hdescribes : List.Forall₂ Describes (executed call runs) entries := hentries.imp fun x e hxe => hxe.1
      have hclean : ∀ e ∈ entries, e.result.Clean := forall₂_right hentries fun x e hxe => hxe.2
      exact (fitCommandBatchToBudget_returns hclean _).mono fun d hd => hd.reports hdescribes

end WebOauthMcp.CommandReplies
