import Mathlib.Algebra.GroupWithZero.Nat
import WebOauthMcp.LineSplitting
import WebOauthMcp.TokenOctets
import WebOauthMcp.BudgetMetadata

/-!
# Output of foreground commands

Each stream of a command is captured with bounded head and tail windows, decoded with
replacement and cut down to the run's token budget. Cutting takes characters out of the
middle and puts a marker in their place; the budgets of the two streams are tightened
until both together fit. Every text measured on the way is made of pieces of the
captured text that markers keep apart.
-/

namespace WebOauthMcp.CapturedOutput
open CodePoints LineSplitting Utf8Units AvoidedWords JsonText ExceptSteps ResponseBudget BudgetMetadata
  TokenOctets

inductive Stream
  | stdout
  | stderr
  deriving DecidableEq, Repr

def Stream.name : Stream → Text
  | .stdout => txt "stdout"
  | .stderr => txt "stderr"

/-! ## Bounded capture -/

def lineFeedByte : Byte := 0x0A
def carriageReturnByte : Byte := 0x0D

/-- `chunk.count(b"\r\n")`, on octets or characters. -/
def countPairs {α : Type} [DecidableEq α] (a b : α) : List α → ℕ
  | x :: y :: rest => (if x = a ∧ y = b then 1 else 0) + countPairs a b (y :: rest)
  | _ => 0

def countBreaks {α : Type} [DecidableEq α] (cr lf : α) (content : List α) : ℕ :=
  content.count lf + content.count cr - countPairs cr lf content

/-- `_count_lines`, on octets or characters. -/
def countLines {α : Type} [DecidableEq α] (cr lf : α) (content : List α) : ℕ :=
  match content.getLast? with
  | none => 0
  | some last => countBreaks cr lf content + if last = lf ∨ last = cr then 0 else 1

/-- `_BoundedStreamCapture`. -/
structure StreamCapture where
  maxBytes : ℕ
  head : Bytes := []
  tail : Bytes := []
  totalBytes : ℕ := 0
  lineBreaks : ℕ := 0
  lastByte : Option Byte := none

namespace StreamCapture

def headLimit (c : StreamCapture) : ℕ := (c.maxBytes + 1) / 2
def tailLimit (c : StreamCapture) : ℕ := c.maxBytes - c.headLimit

/-- The tail window after more octets: the last ones are kept. -/
def keepTail (c : StreamCapture) (rest : Bytes) : Bytes :=
  if rest = [] ∨ c.tailLimit = 0 then c.tail
  else (c.tail ++ rest).drop ((c.tail ++ rest).length - c.tailLimit)

def add (c : StreamCapture) (chunk : Bytes) : StreamCapture :=
  if chunk = [] then c
  else
    { c with
      totalBytes := c.totalBytes + chunk.length
      lineBreaks := c.lineBreaks + countBreaks carriageReturnByte lineFeedByte chunk -
        if c.lastByte = some carriageReturnByte ∧ chunk.head? = some lineFeedByte then 1 else 0
      lastByte := chunk.getLast?
      head := c.head ++ chunk.take (c.headLimit - c.head.length)
      tail := c.keepTail (chunk.drop (c.headLimit - c.head.length)) }

/-- `_drain_pipe` on the chunks read from the pipe. -/
def drain (maxBytes : ℕ) (chunks : List Bytes) : StreamCapture := chunks.foldl add { maxBytes }

def retainedBytes (c : StreamCapture) : ℕ := c.head.length + c.tail.length
def droppedBytes (c : StreamCapture) : ℕ := c.totalBytes - c.retainedBytes

def totalLines (c : StreamCapture) : ℕ :=
  if c.totalBytes = 0 then 0
  else c.lineBreaks + if c.lastByte = some lineFeedByte ∨ c.lastByte = some carriageReturnByte then 0 else 1

def retainedLines (c : StreamCapture) : ℕ :=
  if c.droppedBytes = 0 then c.totalLines
  else min c.totalLines (countLines carriageReturnByte lineFeedByte c.head +
    countLines carriageReturnByte lineFeedByte c.tail)

end StreamCapture

def captureMarker (stream : Stream) (dropped : ℕ) : Text :=
  txt "\n... [" ++ (stream.name ++ (txt ": " ++ (decimal dropped ++ txt " bytes omitted by capture limit] ...\n")))

/-- `_capture_text`. -/
def captureText (capture : StreamCapture) (stream : Stream) : Text :=
  if capture.droppedBytes = 0 then decodeReplace (capture.head ++ capture.tail)
  else decodeReplace capture.head ++ captureMarker stream capture.droppedBytes ++ decodeReplace capture.tail

/-! ## Cutting text to a token budget -/

def omissionMarkers : List Text :=
  [txt "\n... [output omitted to fit run token budget] ...\n", txt "\n...\n", txt "…"]

def firstFitting (enc : TokenEncoding) (maxTokens : ℕ) : List Text → Except Raised Text
  | [] => pure []
  | marker :: markers => do
    let tokens ← countTokens enc marker
    if tokens ≤ maxTokens then pure marker else firstFitting enc maxTokens markers

/-- `_token_omission_marker`. -/
def tokenOmissionMarker (enc : TokenEncoding) (maxTokens : ℕ) : Except Raised Text :=
  firstFitting enc maxTokens omissionMarkers

/-- The text with `kept` characters left of it, half at each end. -/
def candidate (text marker : Text) (kept : ℕ) : Text :=
  text.take ((kept + 1) / 2) ++ marker ++ text.drop (text.length - kept / 2)

/-- The binary search for the number of characters to keep. -/
def searchKept (enc : TokenEncoding) (budget : Budget) (text marker : Text) (low high : ℕ) : Except Raised ℕ :=
  if low < high then do
    let measurement ← measure enc budget (candidate text marker ((low + high + 1) / 2))
    if measurement.fits then searchKept enc budget text marker ((low + high + 1) / 2) high
    else searchKept enc budget text marker low ((low + high + 1) / 2 - 1)
  else pure low
termination_by high - low

/-- A text after cutting, and whether anything was cut. -/
structure Cut where
  text : Text
  truncated : Bool

/-- `_truncate_text_to_tokens`. -/
def truncateTextToTokens (enc : TokenEncoding) (text : Text) (maxTokens : ℕ) : Except Raised Cut :=
  if text = [] then pure ⟨[], false⟩
  else if h : 0 < maxTokens then do
    let budget : Budget := { maxTokens := ⟨maxTokens, h⟩ }
    let whole ← measure enc budget text
    if whole.fits then pure ⟨text, false⟩
    else do
      let marker ← tokenOmissionMarker enc maxTokens
      let kept ← searchKept enc budget text marker 0 (text.length - 1)
      let rendered ← measure enc budget (candidate text marker kept)
      if rendered.fits then pure ⟨candidate text marker kept, true⟩
      else do
        let bare ← measure enc budget marker
        pure ⟨if bare.fits then marker else [], true⟩
  else pure ⟨[], true⟩

/-- The streams that need more than their share. -/
def unserved {K : Type} (needs : K → ℕ) (share : ℕ) (pending : List K) : List K :=
  pending.filter fun k => decide (share < needs k)

/-- `_allocate_stream_token_budgets`: equal shares of what is left, until every stream
that needs less than its share has been served. -/
def allocateBudgets {K : Type} [DecidableEq K] (nameLe : K → K → Bool) (needs : K → ℕ)
    (pending : List K) (remaining : ℕ) (allocations : K → ℕ) : K → ℕ :=
  if pending = [] then allocations
  else
    let share := remaining / pending.length
    if (unserved needs share pending).length = pending.length then
      let ordered := pending.mergeSort nameLe
      fun k => match ordered.idxOf? k with
        | none => allocations k
        | some i => share + if i < remaining % ordered.length then 1 else 0
    else
      allocateBudgets nameLe needs (unserved needs share pending)
        (remaining - ((pending.filter fun k => decide (needs k ≤ share)).map needs).sum)
        (fun k => if k ∈ pending ∧ needs k ≤ share then needs k else allocations k)
termination_by pending.length
decreasing_by
  rename_i hlen
  exact Nat.lt_of_le_of_ne (List.length_filter_le _ pending) hlen

def allocateStreamTokenBudgets (needs : Stream → ℕ) (maxTokens : ℕ) : Stream → ℕ :=
  allocateBudgets (fun s t => decide (s = .stderr ∨ t = .stdout)) needs
    ([Stream.stdout, .stderr].filter fun s => decide (0 < needs s)) maxTokens fun _ => 0

/-! ## Rendering both streams -/

/-- The rendered streams between two rounds of tightening. -/
structure Rendering where
  rendered : Stream → Text
  allocations : Stream → ℕ
  budgetTruncated : Stream → Bool

def Rendering.combined (r : Rendering) : Text := r.rendered .stdout ++ r.rendered .stderr

def Rendering.set (r : Rendering) (stream : Stream) (allocation : ℕ) (cut : Cut) : Rendering where
  rendered := Function.update r.rendered stream cut.text
  allocations := Function.update r.allocations stream allocation
  budgetTruncated := Function.update r.budgetTruncated stream cut.truncated

/-- `max(captures, key=...)`: the first of the two on a tie. -/
def largerStream (enc : TokenEncoding) (r : Rendering) : Except Raised Stream := do
  let out ← countTokens enc (r.rendered .stdout)
  let err ← countTokens enc (r.rendered .stderr)
  pure (if out < err then .stderr else .stdout)

/-- The tightening loop. Out of rounds, the larger stream is dropped. -/
def tighten (enc : TokenEncoding) (budget : Budget) (initial : Stream → Text) : ℕ → Rendering → Except Raised Rendering
  | 0, r => do
    let stream ← largerStream enc r
    pure (r.set stream 0 ⟨[], !(initial stream).isEmpty⟩)
  | rounds + 1, r => do
    let combined ← measure enc budget r.combined
    if combined.fits then pure r
    else do
      let stream ← largerStream enc r
      let allocation := r.allocations stream - max 1 (combined.estimatedTokens - budget.maxTokens)
      let cut ← truncateTextToTokens enc (initial stream) allocation
      tighten enc budget initial rounds (r.set stream allocation cut)

def activeStreams (captures : Stream → StreamCapture) : List Stream :=
  [Stream.stdout, .stderr].filter fun s => decide (0 < (captures s).totalBytes)

/-- The only stream with output, when all of it is one line. -/
def oversizedStream (captures : Stream → StreamCapture) : Option Stream :=
  match activeStreams captures with
  | [s] => if (captures s).droppedBytes = 0 ∧ (captures s).totalLines = 1 then some s else none
  | _ => none

/-- The part of `_render_captured_output` for output that does not fit. -/
def fitStreams (enc : TokenEncoding) (budget : Budget) (initial : Stream → Text) : Except Raised Rendering := do
  let needsOut ← countTokens enc (initial .stdout)
  let needsErr ← countTokens enc (initial .stderr)
  let allocations := allocateStreamTokenBudgets
    (fun s => match s with | .stdout => needsOut | .stderr => needsErr) budget.maxTokens
  let out ← truncateTextToTokens enc (initial .stdout) (allocations .stdout)
  let err ← truncateTextToTokens enc (initial .stderr) (allocations .stderr)
  let start : Rendering := ⟨initial, allocations, fun _ => false⟩
  tighten enc budget initial 8 ((start.set .stdout (allocations .stdout) out).set .stderr (allocations .stderr) err)

/-- What is shown: everything when it fits or is one oversized line. -/
def shownStreams (enc : TokenEncoding) (budget : Budget) (whole : Rendering) (fits : Bool)
    (oversized : Option Stream) : Except Raised Rendering :=
  if fits || oversized.isSome then pure whole else fitStreams enc budget whole.rendered

structure StreamMetadata where
  totalBytes : ℕ
  totalLines : ℕ
  retainedBytes : ℕ
  retainedLines : ℕ
  displayedBytes : ℕ
  displayedLines : ℕ
  captureDroppedBytes : ℕ
  truncated : Bool
  captureTruncated : Bool
  tokenTruncated : Bool
  tokenCount : ℕ
  effectiveTokenBudget : ℕ
  fitsTokenBudget : Bool
  oversizedLine : Bool
  longLineTruncated : Bool

structure AggregateMetadata where
  totalBytes : ℕ
  totalLines : ℕ
  retainedBytes : ℕ
  retainedLines : ℕ
  displayedBytes : ℕ
  displayedLines : ℕ
  captureDroppedBytes : ℕ
  truncated : Bool
  captureTruncated : Bool
  tokenTruncated : Bool
  tokenCount : ℕ
  effectiveTokenBudget : ℕ
  fitsTokenBudget : Bool
  tokenEncoding : Text
  captureMemoryLimitBytes : ℕ
  oversizedStream : Option Stream

structure RenderedOutput where
  stdout : Text
  stderr : Text
  stdoutMetadata : StreamMetadata
  stderrMetadata : StreamMetadata
  aggregate : AggregateMetadata

def streamMetadata (capture : StreamCapture) (r : Rendering) (stream : Stream) (oversized : Option Stream)
    (m : BudgetMeasurement) : StreamMetadata where
  totalBytes := capture.totalBytes
  totalLines := capture.totalLines
  retainedBytes := capture.retainedBytes
  retainedLines := capture.retainedLines
  displayedBytes := m.renderedBytes
  displayedLines := countLines carriageReturn lineFeed (r.rendered stream)
  captureDroppedBytes := capture.droppedBytes
  truncated := decide (0 < capture.droppedBytes) || r.budgetTruncated stream
  captureTruncated := decide (0 < capture.droppedBytes)
  tokenTruncated := r.budgetTruncated stream
  tokenCount := m.estimatedTokens
  effectiveTokenBudget := r.allocations stream
  fitsTokenBudget := decide (m.estimatedTokens ≤ r.allocations stream)
  oversizedLine := decide (oversized = some stream)
  longLineTruncated := decide (capture.totalLines = 1) &&
    (decide (0 < capture.droppedBytes) || r.budgetTruncated stream)

def aggregateMetadata (captures : Stream → StreamCapture) (r : Rendering) (budget : Budget) (captureMaxBytes : ℕ)
    (oversized : Option Stream) (out err : StreamMetadata) (m : BudgetMeasurement) : AggregateMetadata where
  totalBytes := (captures .stdout).totalBytes + (captures .stderr).totalBytes
  totalLines := (captures .stdout).totalLines + (captures .stderr).totalLines
  retainedBytes := (captures .stdout).retainedBytes + (captures .stderr).retainedBytes
  retainedLines := (captures .stdout).retainedLines + (captures .stderr).retainedLines
  displayedBytes := m.renderedBytes
  displayedLines := out.displayedLines + err.displayedLines
  captureDroppedBytes := (captures .stdout).droppedBytes + (captures .stderr).droppedBytes
  truncated := out.truncated || err.truncated
  captureTruncated := out.captureTruncated || err.captureTruncated
  tokenTruncated := r.budgetTruncated .stdout || r.budgetTruncated .stderr
  tokenCount := m.estimatedTokens
  effectiveTokenBudget := budget.maxTokens
  fitsTokenBudget := m.fits
  tokenEncoding := encodingName
  captureMemoryLimitBytes := captureMaxBytes
  oversizedStream := oversized

/-- `_render_captured_output`. -/
def renderCapturedOutput (enc : TokenEncoding) (captures : Stream → StreamCapture) (maxTokens : ℕ+)
    (captureMaxBytes : ℕ) : Except Raised RenderedOutput := do
  let budget : Budget := { maxTokens }
  let whole : Rendering := ⟨fun s => captureText (captures s) s, fun _ => maxTokens, fun _ => false⟩
  let combined ← measure enc budget whole.combined
  let oversized := if combined.fits then none else oversizedStream captures
  let r ← shownStreams enc budget whole combined.fits oversized
  let out ← measure enc budget (r.rendered .stdout)
  let err ← measure enc budget (r.rendered .stderr)
  let displayed ← measure enc budget r.combined
  let outMetadata := streamMetadata (captures .stdout) r .stdout oversized out
  let errMetadata := streamMetadata (captures .stderr) r .stderr oversized err
  pure {
    stdout := r.rendered .stdout
    stderr := r.rendered .stderr
    stdoutMetadata := outMetadata
    stderrMetadata := errMetadata
    aggregate := aggregateMetadata captures r budget captureMaxBytes oversized outMetadata errMetadata displayed }

/-! ## What is measured -/

/-- The retained octets, in the runs that are shown without a marker between them. -/
def pieces (c : StreamCapture) : List Bytes :=
  if c.droppedBytes = 0 then [c.head ++ c.tail] else [c.head, c.tail]

/-- Two sequences of runs, where the last of the one meets the first of the other. -/
def adjoin : List Bytes → List Bytes → List Bytes
  | [], ys => ys
  | [x], [] => [x]
  | [x], y :: ys => (x ++ y) :: ys
  | x :: x' :: xs, ys => x :: adjoin (x' :: xs) ys

def shownRuns (captures : Stream → StreamCapture) : List Bytes :=
  adjoin (pieces (captures .stdout)) (pieces (captures .stderr))

/-- A marker: a line break or an ellipsis, and then harmless characters. -/
theorem isGap_of {c : CodePoint} {rest : Text} (hs : isSurrogate c = false) (hc : isTokenChar c = false)
    (hrest : ∀ d ∈ rest, NeverOpens unmeasurable d) : IsGap unmeasurable (c :: rest) :=
  ⟨c, rest, rfl, separates_of hs hc, hrest⟩

theorem isGap_captureMarker (stream : Stream) (n : ℕ) : IsGap unmeasurable (captureMarker stream n) := by
  have hdecimal := inStrings_unmeasurable.neverOpens (decimal_json n)
  have hfront : ∀ c ∈ txt "... [", NeverOpens unmeasurable c := neverOpens_of_isBenign (by decide)
  have hname : ∀ c ∈ stream.name, NeverOpens unmeasurable c :=
    neverOpens_of_isBenign (by cases stream <;> decide)
  have hcolon : ∀ c ∈ txt ": ", NeverOpens unmeasurable c := neverOpens_of_isBenign (by decide)
  have hback : ∀ c ∈ txt " bytes omitted by capture limit] ...\n", NeverOpens unmeasurable c :=
    neverOpens_of_isBenign (by decide)
  refine isGap_of (c := lineFeed) (by decide) (by decide) ?_
  exact List.forall_mem_append.mpr ⟨hfront, List.forall_mem_append.mpr ⟨hname, List.forall_mem_append.mpr
    ⟨hcolon, List.forall_mem_append.mpr ⟨hdecimal, hback⟩⟩⟩⟩

theorem isGap_omissionMarkers : ∀ m ∈ omissionMarkers, IsGap unmeasurable m := by
  intro m hm
  simp only [omissionMarkers, List.mem_cons, List.not_mem_nil, or_false] at hm
  rcases hm with rfl | rfl | rfl
  · exact isGap_of (c := lineFeed) (by decide) (by decide) (neverOpens_of_isBenign
      (t := txt "... [output omitted to fit run token budget] ...\n") (by decide))
  · exact isGap_of (c := lineFeed) (by decide) (by decide) (neverOpens_of_isBenign (t := txt "...\n") (by decide))
  · exact isGap_of (c := 0x2026) (by decide) (by decide) (neverOpens_of_isBenign (t := []) (by decide))

/-- Both captured texts in a row are measurable exactly when no run of octets shown in one
piece spells a special token. -/
theorem measurable_captured_iff (captures : Stream → StreamCapture) :
    Measurable (captureText (captures .stdout) .stdout ++ captureText (captures .stderr) .stderr) ↔
      ∀ run ∈ shownRuns captures, SpellsNoToken run := by
  have hone := fun raw => measurable_decodeReplace_iff raw
  have htwo : ∀ a b : Bytes, Measurable (decodeReplace a ++ decodeReplace b) ↔ SpellsNoToken (a ++ b) := by
    intro a b
    refine measurable_iff_spellsNoToken ((spellsAs_decodeReplace a).append (spellsAs_decodeReplace b)) ?_
    rw [isEncodable_append, isEncodable_decodeReplace, isEncodable_decodeReplace]
    rfl
  have hgap : ∀ (s : Stream) n (a b : Text), Measurable (a ++ captureMarker s n ++ b) ↔
      Measurable a ∧ Measurable b := fun s n a b => avoids_gap_iff nil_notMem_unmeasurable (isGap_captureMarker s n)
  simp only [captureText, shownRuns, pieces]
  by_cases ho : (captures .stdout).droppedBytes = 0
  · rw [if_pos ho, if_pos ho]
    by_cases he : (captures .stderr).droppedBytes = 0
    · rw [if_pos he, if_pos he, htwo]
      simp [adjoin]
    · rw [if_neg he, if_neg he, ← List.append_assoc, ← List.append_assoc, hgap, htwo, hone]
      simp [adjoin]
  · rw [if_neg ho, if_neg ho]
    by_cases he : (captures .stderr).droppedBytes = 0
    · rw [if_pos he, if_pos he, List.append_assoc, hgap, htwo, hone]
      simp [adjoin]
    · rw [if_neg he, if_neg he, List.append_assoc, hgap, ← List.append_assoc, ← List.append_assoc, hgap, htwo,
        hone, hone]
      simp [adjoin]

/-- What cutting may leave of a text: all of it, nothing, or two ends around a marker. -/
inductive Excerpt (text : Text) : Text → Prop
  | whole : Excerpt text text
  | empty : Excerpt text []
  | ends {head marker tail : Text} : marker ∈ omissionMarkers → head <+: text → tail <:+ text →
      Excerpt text (head ++ marker ++ tail)

/-- Something that ends in the text's own end, followed by an excerpt of the next text. -/
private theorem measurable_suffix_excerpt {out err a e : Text} (h : Measurable (out ++ err)) (ha : a <:+ out)
    (he : Excerpt err e) : Measurable (a ++ e) := by
  have hjoin : ∀ {p : Text}, p <+: err → Measurable (a ++ p) := by
    intro p hp
    obtain ⟨u, rfl⟩ := ha
    obtain ⟨v, rfl⟩ := hp
    exact h.piece ⟨u, v, by simp⟩
  cases he with
  | whole => exact hjoin (List.prefix_refl err)
  | empty => exact hjoin List.nil_prefix
  | @ends head marker tail hm hh ht =>
    rw [← List.append_assoc, ← List.append_assoc]
    refine (avoids_gap_iff nil_notMem_unmeasurable (isGap_omissionMarkers marker hm)).mpr ⟨hjoin hh, ?_⟩
    exact h.right.piece ht.isInfix

/-- Excerpts of both streams in a row are measurable when the full texts in a row are. -/
theorem measurable_excerpts {out err o e : Text} (h : Measurable (out ++ err)) (ho : Excerpt out o)
    (he : Excerpt err e) : Measurable (o ++ e) := by
  cases ho with
  | whole => exact measurable_suffix_excerpt h (List.suffix_refl out) he
  | empty => exact measurable_suffix_excerpt h List.nil_suffix he
  | @ends head marker tail hm hh ht =>
    rw [List.append_assoc]
    refine (avoids_gap_iff nil_notMem_unmeasurable (isGap_omissionMarkers marker hm)).mpr ⟨?_, ?_⟩
    · exact h.left.piece hh.isInfix
    · exact measurable_suffix_excerpt h ht he

theorem Excerpt.measurable {text r : Text} (h : Measurable text) (hr : Excerpt text r) : Measurable r := by
  have hjoined : Measurable ([] ++ text) := by rwa [List.nil_append]
  have h := measurable_excerpts hjoined .empty hr
  rwa [List.nil_append] at h

theorem countTokens_of_measurable {enc : TokenEncoding} {t : Text} (h : Measurable t) :
    Returns (countTokens enc t) fun _ => True := ⟨_, countTokens_returns h, trivial⟩

theorem measurable_omissionMarker {m : Text} (hm : m ∈ omissionMarkers) : Measurable m := by
  have h := (avoids_gap_iff (a := []) (b := []) nil_notMem_unmeasurable (isGap_omissionMarkers m hm)).mpr
    ⟨avoids_nil nil_notMem_unmeasurable, avoids_nil nil_notMem_unmeasurable⟩
  rwa [List.nil_append, List.append_nil] at h

/-- Some marker always fits: the ellipsis is one token. -/
theorem tokenOmissionMarker_returns (enc : TokenEncoding) {n : ℕ} (hn : 0 < n) :
    Returns (tokenOmissionMarker enc n) fun m => m ∈ omissionMarkers := by
  have hcount : ∀ m ∈ omissionMarkers, countTokens enc m = .ok (enc.tokensOf m) := fun m hm =>
    countTokens_returns (measurable_omissionMarker hm)
  have h1 := hcount (txt "\n... [output omitted to fit run token budget] ...\n") (by simp [omissionMarkers])
  have h2 := hcount (txt "\n...\n") (by simp [omissionMarkers])
  have h3 := hcount (txt "…") (by simp [omissionMarkers])
  rw [enc.ellipsis] at h3
  have hstep : ∀ {m ms k}, countTokens enc m = .ok k → firstFitting enc n (m :: ms) =
      if k ≤ n then .ok m else firstFitting enc n ms := by
    intro m ms k hk
    simp only [firstFitting, hk, bind, Except.bind]
    rfl
  rw [tokenOmissionMarker, omissionMarkers, hstep h1, hstep h2, hstep h3, if_pos (Nat.succ_le_of_lt hn)]
  split_ifs
  · exact ⟨_, rfl, by simp⟩
  · exact ⟨_, rfl, by simp⟩
  · exact ⟨_, rfl, by simp⟩

theorem candidate_excerpt {text marker : Text} (hm : marker ∈ omissionMarkers) (kept : ℕ) :
    Excerpt text (candidate text marker kept) :=
  .ends hm (List.take_prefix _ _) (List.drop_suffix _ _)

theorem searchKept_returns {enc : TokenEncoding} {budget : Budget} {text marker : Text} (h : Measurable text)
    (hm : marker ∈ omissionMarkers) (low high : ℕ) :
    Returns (searchKept enc budget text marker low high) fun _ => True := by
  induction hd : high - low using Nat.strong_induction_on generalizing low high with
  | _ d ih =>
    rw [searchKept]
    split_ifs with hlt
    · apply (measure_returns ((candidate_excerpt hm _).measurable h)).bind
      intro m _
      split_ifs
      · exact ih _ (by omega) _ _ rfl
      · exact ih _ (by omega) _ _ rfl
    · exact returns_pure trivial

theorem truncateTextToTokens_returns {enc : TokenEncoding} {text : Text} (h : Measurable text) (maxTokens : ℕ) :
    Returns (truncateTextToTokens enc text maxTokens) fun cut => Excerpt text cut.text := by
  rw [truncateTextToTokens]
  split_ifs with htext hmax
  · exact returns_pure .empty
  · apply (measure_returns h).bind
    intro whole _
    split_ifs
    · exact returns_pure .whole
    · apply (tokenOmissionMarker_returns enc hmax).bind
      intro marker hm
      apply (searchKept_returns h hm 0 (text.length - 1)).bind
      intro kept _
      apply (measure_returns ((candidate_excerpt hm kept).measurable h)).bind
      intro rendered _
      split_ifs
      · exact returns_pure (candidate_excerpt hm kept)
      · apply (measure_returns (measurable_omissionMarker hm)).bind
        intro bare _
        refine returns_pure ?_
        split_ifs
        · have hends := Excerpt.ends hm (List.nil_prefix (l := text)) (List.nil_suffix (l := text))
          rwa [List.nil_append, List.append_nil] at hends
        · exact .empty
  · exact returns_pure .empty

/-- Both streams show excerpts of what was captured. -/
def Excerpted (initial : Stream → Text) (r : Rendering) : Prop := ∀ s, Excerpt (initial s) (r.rendered s)

theorem Excerpted.set {initial : Stream → Text} {r : Rendering} (h : Excerpted initial r) (stream : Stream)
    (allocation : ℕ) {cut : Cut} (hcut : Excerpt (initial stream) cut.text) :
    Excerpted initial (r.set stream allocation cut) := by
  intro s
  by_cases hs : s = stream
  · subst hs
    simpa [Rendering.set] using hcut
  · simpa [Rendering.set, hs] using h s

section
variable {enc : TokenEncoding} {budget : Budget} {initial : Stream → Text}
  (hinit : Measurable (initial .stdout ++ initial .stderr))

include hinit

theorem initial_measurable (s : Stream) : Measurable (initial s) := by
  cases s with
  | stdout => exact hinit.left
  | stderr => exact hinit.right

theorem Excerpted.measurable {r : Rendering} (h : Excerpted initial r) : Measurable r.combined :=
  measurable_excerpts hinit (h .stdout) (h .stderr)

theorem largerStream_returns {r : Rendering} (h : Excerpted initial r) :
    Returns (largerStream enc r) fun _ => True := by
  apply (countTokens_of_measurable (h.measurable hinit).left).bind
  intro out _
  apply (countTokens_of_measurable (h.measurable hinit).right).bind
  intro err _
  exact returns_pure trivial

theorem tighten_returns (rounds : ℕ) {r : Rendering} (h : Excerpted initial r) :
    Returns (tighten enc budget initial rounds r) (Excerpted initial) := by
  induction rounds generalizing r with
  | zero =>
    apply (largerStream_returns hinit h).bind
    intro stream _
    exact returns_pure (h.set stream 0 .empty)
  | succ rounds ih =>
    apply (measure_returns (h.measurable hinit)).bind
    intro combined _
    split_ifs
    · exact returns_pure h
    · apply (largerStream_returns hinit h).bind
      intro stream _
      apply (truncateTextToTokens_returns (initial_measurable hinit stream) _).bind
      intro cut hcut
      exact ih (h.set stream _ hcut)

theorem fitStreams_returns : Returns (fitStreams enc budget initial) (Excerpted initial) := by
  apply (countTokens_of_measurable hinit.left).bind
  intro needsOut _
  apply (countTokens_of_measurable hinit.right).bind
  intro needsErr _
  apply (truncateTextToTokens_returns hinit.left _).bind
  intro out hout
  apply (truncateTextToTokens_returns hinit.right _).bind
  intro err herr
  refine tighten_returns hinit 8 (Excerpted.set (Excerpted.set ?_ .stdout _ hout) .stderr _ herr)
  exact fun s => .whole

theorem shownStreams_returns {whole : Rendering} (hwhole : whole.rendered = initial) (fits : Bool)
    (oversized : Option Stream) : Returns (shownStreams enc budget whole fits oversized) (Excerpted initial) := by
  subst hwhole
  rw [shownStreams]
  split_ifs
  · exact returns_pure fun s => .whole
  · exact fitStreams_returns hinit

end

/-- The output is rendered exactly when no run of octets shown in one piece spells a
special token, whatever the budgets. -/
theorem renderCapturedOutput_returns_iff (enc : TokenEncoding) (captures : Stream → StreamCapture) (maxTokens : ℕ+)
    (captureMaxBytes : ℕ) : (∃ r, renderCapturedOutput enc captures maxTokens captureMaxBytes = .ok r) ↔
      ∀ run ∈ shownRuns captures, SpellsNoToken run := by
  rw [← measurable_captured_iff]
  constructor
  · intro h
    obtain ⟨r, hr⟩ := h
    obtain ⟨m, hm, -⟩ := bind_eq_ok.mp hr
    exact (measure_returns_iff enc _ _).mp ⟨m, hm⟩
  · intro hinit
    have hwhole : Excerpted (fun s => captureText (captures s) s)
        ⟨fun s => captureText (captures s) s, fun _ => maxTokens, fun _ => false⟩ := fun s => .whole
    suffices h : Returns (renderCapturedOutput enc captures maxTokens captureMaxBytes) fun _ => True from h.isOk
    apply (measure_returns (hwhole.measurable hinit)).bind
    intro combined _
    apply (shownStreams_returns hinit rfl _ _).bind
    intro r hr
    apply (measure_returns (hr.measurable hinit).left).bind
    intro out _
    apply (measure_returns (hr.measurable hinit).right).bind
    intro err _
    apply (measure_returns (hr.measurable hinit)).bind
    intro displayed _
    exact returns_pure trivial

end WebOauthMcp.CapturedOutput
