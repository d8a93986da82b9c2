import WebOauthMcp.ContentIo
import WebOauthMcp.ReadPaging
import WebOauthMcp.ReplyFields

/-!
# The unified reader

One tool reads a file by lines or by octets. Lines are taken while the reply fits; how many
octets fit is found by halving.
-/

namespace WebOauthMcp.UnifiedReader
open CodePoints LineSplitting ContentIo JsonText ExceptSteps ResponseBudget BudgetMetadata FileReplies OffsetPaging ReplyOffsets
open ReadPaging ReplyFields

/-! ## The file -/

/-- A file, how it is to be read, and what is known of it. What Pillow and pypdf make of it and
the texts of decoding errors are parameters. -/
structure Reader where
  path : Text
  raw : Bytes
  mimeType : Text
  suffix : Text
  sha256 : Text
  registry : CodecRegistry
  encoding : Option Text
  includeLineNumbers : Bool
  maxTokens : ℕ+
  complaint : DecodingError → Text
  rendered : Text → Except Raised Dict

inductive ReadFailure
  | codec
  | measuring (r : Raised)

variable (enc : TokenEncoding) (x : Reader)

def Reader.budget : Budget := { maxTokens := x.maxTokens }

/-- `_base_metadata`. -/
def Reader.baseMetadata : Dict :=
  [(txt "path", .str x.path), (txt "size", natJson x.raw.length), (txt "mime_type", .str x.mimeType),
    (txt "suffix", .str x.suffix), (txt "sha256", .str x.sha256)]

def byteOrderMarks : List Bytes := [bomUtf8, bomUtf16 .little, bomUtf16 .big, bomUtf32 .little, bomUtf32 .big]

/-- `_auto_mode`. -/
def Reader.autoMode : Text :=
  if x.mimeType = txt "application/pdf" ∨ x.suffix = txt ".pdf" then txt "pdf"
  else if (txt "image/").isPrefixOf x.mimeType then txt "image"
  else if (x.raw.take 4096).contains 0 ∧ ¬byteOrderMarks.any fun m => m.isPrefixOf (x.raw.take 4096) then txt "hex"
  else txt "text"

def Reader.effectiveMode (mode : Text) : Text := if mode = txt "auto" then x.autoMode else mode

def errorReply (code message : Text) (extra : Dict) : Dict :=
  [(txt "success", .bool false), (txt "error", .obj [(txt "code", .str code), (txt "message", .str message)])] ++ extra

/-! ## Lines -/

def newlineName : NewlineStyle → Text
  | .none => txt "none"
  | .lf => txt "lf"
  | .crlf => txt "crlf"
  | .cr => txt "cr"
  | .mixed => txt "mixed"

def optionalText : Option Text → Json
  | none => .null
  | some t => .str t

def Reader.textFile (decoded : DecodedText) : Dict :=
  x.baseMetadata ++ [(txt "encoding", .str decoded.encoding), (txt "bom", optionalText decoded.bom),
    (txt "newline", .str (newlineName decoded.newline)), (txt "file_type", .str (txt "text"))]

/-- A page with some lines, before it is measured. -/
def Reader.textPage (decoded : DecodedText) (start : ℕ) (lines : List Text) (next : Option ℕ) : Dict :=
  [(txt "success", .bool true), (txt "mode", .str (txt "text")), (txt "file", .obj (x.textFile decoded)),
    (txt "content", .str (joinLines lines)), (txt "offset_unit", .str (txt "lines")), (txt "start_line", natJson start),
    (txt "end_line", natJson (start + lines.length - 1)), (txt "next_offset", optionalCount next)]

/-- The loop over the requested lines, with the reason why it stops. -/
def takeRendered (decoded : DecodedText) (start : ℕ) : List Text → List Text → Except Raised (List Text × Text)
  | rendered, [] => pure (rendered, txt "end_of_file")
  | rendered, line :: lines => do
    let candidate := rendered ++ [renderLine x.includeLineNumbers (start + rendered.length) line]
    let r ← withBudgetMetadata enc (x.textPage decoded start candidate (some (start + candidate.length))) x.budget true
      (txt "token_budget")
    if r.2.fits then takeRendered decoded start candidate lines
    else pure (rendered, r.2.stopReason.getD (txt "token_budget"))

/-- `_read_text`, of a text that is decoded. -/
def readLines (decoded : DecodedText) (startLine lineLimit : ℤ) : Except Raised Dict := do
  let lines := splitlines decoded.text
  let start := (max startLine 1).toNat
  let requested := (lines.drop (start - 1)).take (max lineLimit 1).toNat
  let (rendered, reason) ← takeRendered enc x decoded start [] requested
  let hasMore := decide (start - 1 + rendered.length < lines.length)
  let reason := if hasMore && decide (rendered.length = requested.length) then txt "line_limit" else reason
  let r ← withBudgetMetadata enc
    (x.textPage decoded start rendered (if hasMore then some (start + rendered.length) else none)) x.budget hasMore
    (if hasMore then reason else txt "end_of_file")
  pure r.1

def encodingCandidates : DecodingError → List Text
  | .undetected => [txt "windows-1252", txt "latin-1", txt "shift_jis", txt "gbk"]
  | _ => []

/-- `_read_text`. -/
def readText (startLine lineLimit : ℤ) : Except ReadFailure Dict :=
  match decodeTextBytes x.registry x.raw x.encoding with
  | .ok decoded => (readLines enc x decoded startLine lineLimit).mapError .measuring
  | .error .raised => .error .codec
  | .error e => pure (errorReply (txt "encoding_error") (x.complaint e)
      [(txt "resolved_path", .str x.path), (txt "encoding_candidates", .arr ((encodingCandidates e).map .str))])

/-! ## Octets -/

/-- One octet of `bytes.hex(" ")`. -/
def hexPair (b : Byte) : Text := [hexDigit (b.val / 16), hexDigit (b.val % 16)]

def space : CodePoint := 0x20

def spacedHex (bytes : Bytes) : Text := List.intercalate [space] (bytes.map hexPair)

/-- A page with some octets, before it is measured. -/
def Reader.hexPage (start : ℕ) (bytes : Bytes) (next : Option ℕ) : Dict :=
  [(txt "success", .bool true), (txt "mode", .str (txt "hex")),
    (txt "file", .obj (x.baseMetadata ++ [(txt "file_type", .str (txt "binary"))])), (txt "content", .str (spacedHex bytes)),
    (txt "offset_unit", .str (txt "bytes")), (txt "start_offset", natJson start), (txt "end_offset", natJson (start + bytes.length)),
    (txt "next_offset", optionalCount next)]

/-- Halving: what is probed successfully is kept, and otherwise less is probed. -/
def halve (probe : ℕ → Except Raised Bool) (low high : ℕ) : Except Raised ℕ :=
  if low < high then do
    let midpoint := (low + high + 1) / 2
    let fits ← probe midpoint
    if fits then halve probe midpoint high else halve probe low (midpoint - 1)
  else pure low
termination_by high - low

def probeBytes (start : ℕ) (raw : Bytes) (midpoint : ℕ) : Except Raised Bool := do
  let r ← withBudgetMetadata enc (x.hexPage start (raw.take midpoint) (some (start + midpoint))) x.budget true (txt "token_budget")
  pure r.2.fits

/-- The octets that one call may ask for. -/
def byteCount (byteLimit : ℤ) : ℕ := (min (max byteLimit 1) (256 * 1024)).toNat

/-- `_read_hex`. -/
def readHex (byteOffset byteLimit : ℤ) : Except Raised Dict := do
  let start := (max byteOffset 0).toNat
  let raw := (x.raw.drop start).take (byteCount byteLimit)
  let returned ← halve (probeBytes enc x start raw) 0 raw.length
  let hasMore := decide (start + returned < x.raw.length)
  let reason := if returned < raw.length then txt "token_budget" else if hasMore then txt "byte_limit" else txt "end_of_file"
  let r ← withBudgetMetadata enc
    (x.hexPage start (raw.take returned) (if hasMore then some (start + returned) else none)) x.budget hasMore reason
  pure r.1

/-! ## The tool -/

def readModes : List Text := [txt "auto", txt "text", txt "image", txt "pdf", txt "hex"]

structure PathRequest where
  mode : Text
  startLine : ℤ
  lineLimit : ℤ
  byteOffset : ℤ
  byteLimit : ℤ

/-- `read_path`, of a file that exists. -/
def readPath (request : PathRequest) : Except ReadFailure Dict :=
  if request.mode ∉ readModes then
    pure (errorReply (txt "invalid_mode") (txt "mode must be one of: auto, hex, image, pdf, text.") [])
  else if x.effectiveMode request.mode = txt "text" then readText enc x request.startLine request.lineLimit
  else if x.effectiveMode request.mode = txt "hex" then (readHex enc x request.byteOffset request.byteLimit).mapError .measuring
  else (x.rendered (x.effectiveMode request.mode)).mapError .measuring

/-! ## What pages show -/

def textAt (key : Text) (d : Dict) : Text :=
  match dictGet key d with
  | some (.str t) => t
  | _ => []

def countAt (key : Text) (d : Dict) : ℕ := ((dictGet key d).bind countOf).getD 0

/-- The lines of a page, as its reader splits them. -/
def linesShown (d : Dict) : List Text :=
  if countAt (txt "end_line") d < countAt (txt "start_line") d then [] else (textAt (txt "content") d).splitOn lineFeed

def digitValue (c : CodePoint) : ℕ := if c.val < 0x3A then c.val - 0x30 else c.val - 0x57

def parsePair : Text → Byte
  | [high, low] => Fin.ofNat _ (digitValue high * 16 + digitValue low)
  | _ => 0

/-- The octets of a page. -/
def bytesShown (d : Dict) : Bytes :=
  if countAt (txt "end_offset") d ≤ countAt (txt "start_offset") d then [] else ((textAt (txt "content") d).splitOn space).map parsePair

theorem digitValue_hexDigit {n : ℕ} (h : n < 16) : digitValue (hexDigit n) = n := by
  have hall : ∀ n : Fin 16, digitValue (hexDigit n.val) = n.val := by decide
  exact hall ⟨n, h⟩

theorem parsePair_hexPair (b : Byte) : parsePair (hexPair b) = b := by
  have hbound := b.isLt
  rw [hexPair, parsePair, digitValue_hexDigit (by omega), digitValue_hexDigit (Nat.mod_lt _ (by decide)),
    Nat.div_add_mod' b.val 16]
  exact Fin.ext (Nat.mod_eq_of_lt b.isLt)

theorem hexPair_noSpace (b : Byte) : space ∉ hexPair b := by
  have hdigit : ∀ n, n < 16 → space ≠ hexDigit n := by
    intro n hn
    have hall : ∀ n : Fin 16, space ≠ hexDigit n.val := by decide
    exact hall ⟨n, hn⟩
  have hbound := b.isLt
  rw [hexPair, List.mem_cons, List.mem_singleton]
  exact fun h => h.elim (hdigit _ (by omega)) (hdigit _ (Nat.mod_lt _ (by decide)))

/-- Octets are read back as they were. -/
theorem parse_spacedHex {bytes : Bytes} (h : bytes ≠ []) : ((spacedHex bytes).splitOn space).map parsePair = bytes := by
  have hfree : ∀ l ∈ bytes.map hexPair, space ∉ l := by
    intro l hl
    obtain ⟨b, -, rfl⟩ := List.mem_map.mp hl
    exact hexPair_noSpace b
  rw [spacedHex, List.splitOn_intercalate space hfree fun hnil => h (List.map_eq_nil_iff.mp hnil), List.map_map]
  have hsame : parsePair ∘ hexPair = id := funext parsePair_hexPair
  rw [hsame, List.map_id]

/-- A truncated reply leads to a later offset, or says that its contract alone does not fit. -/
def Advancing (start : ℤ) (d : Dict) : Prop :=
  truncatedOf d = true → (∃ j, nextOffsetOf d = some j ∧ start < j) ∨ nextOffsetOf d = none ∧ stopReasonOf d = metadataExceeds

/-! ## Following the lines -/

/-- A call that reads lines. -/
structure LineCall (x : Reader) where
  mode : Text
  known : mode ∈ readModes
  reads : x.effectiveMode mode = txt "text"
  lineLimit : ℤ
  byteOffset : ℤ
  byteLimit : ℤ

def LineCall.request {x : Reader} (c : LineCall x) (startLine : ℤ) : PathRequest :=
  ⟨c.mode, startLine, c.lineLimit, c.byteOffset, c.byteLimit⟩

/-- Lines are counted from one. -/
def linesPager (c : LineCall x) (i : ℕ) : Option (Page Text) :=
  (readPath enc x (c.request (i + 1))).toOption.map fun d => ⟨linesShown d, (nextOffsetOf d).map fun n => n - 1⟩

def Reader.lines (decoded : DecodedText) : List Text := renderedFrom x.includeLineNumbers 1 (splitlines decoded.text)

/-- Every start is answered and leads on, and all lines are shown once and in order. A file that
cannot be decoded is refused. -/
structure LinesPaged : Prop where
  reply : ∀ decoded, decodeTextBytes x.registry x.raw x.encoding = .ok decoded → ∀ (c : LineCall x) start,
    ∃ d, readPath enc x (c.request start) = .ok d ∧ Advancing start d
  walk : ∀ decoded, decodeTextBytes x.registry x.raw x.encoding = .ok decoded → Enumerates (linesPager enc x) (x.lines decoded)
  refused : ∀ e, decodeTextBytes x.registry x.raw x.encoding = .error e → ∀ (c : LineCall x) start d,
    readPath enc x (c.request start) = .ok d → truncatedOf d = false

/-- The page with these lines fits. -/
def LinesFit (decoded : DecodedText) (start : ℕ) (lines : List Text) : Prop :=
  fitsReply enc x.budget (x.textPage decoded start lines (some (start + lines.length))) true (txt "token_budget") = true

/-- What is known of the file can be measured, and each line fits alone on its page. -/
structure LineRoomy (decoded : DecodedText) : Prop where
  file : CleanJson (.obj (x.textFile decoded))
  first : ∀ i line, (x.lines decoded)[i]? = some line → LinesFit enc x decoded (i + 1) [line]

variable {enc x} {decoded : DecodedText}

theorem textPage_clean_iff (start : ℕ) (lines : List Text) (next : Option ℕ) :
    CleanPayload (x.textPage decoded start lines next) ↔ CleanJson (.obj (x.textFile decoded)) ∧ ∀ l ∈ lines, Measurable l := by
  rw [← measurable_joinLines_iff]
  constructor
  · intro h
    have hkeys : txt "file" ∉ contractKeys ∧ txt "content" ∉ contractKeys := by decide
    exact ⟨(h (txt "file", _) (by simp [Reader.textPage]) hkeys.1).2,
      cleanJson_str.mp (h (txt "content", .str (joinLines lines)) (by simp [Reader.textPage]) hkeys.2).2⟩
  · intro h f hf _
    simp only [Reader.textPage, List.mem_cons, List.not_mem_nil, or_false] at hf
    obtain rfl | rfl | rfl | rfl | rfl | rfl | rfl | rfl := hf
    · exact cleanField_bool (by decide)
    · exact cleanField_benign (by decide) (by decide)
    · exact cleanField_of (by decide) h.1
    · exact cleanField_of (by decide) (cleanJson_str.mpr h.2)
    · exact cleanField_benign (by decide) (by decide)
    · exact cleanField_nat (by decide)
    · exact cleanField_nat (by decide)
    · exact cleanField_of_strings_nil (by decide) (strings_optionalCount next)

theorem linesShown_reply {start : ℕ} (hstart : 0 < start) {lines : List Text} (hlines : ∀ l ∈ lines, lineFeed ∉ l) {next : Option ℕ}
    {truncated : Bool} {reason : Text} {r : Dict × BudgetMeasurement}
    (h : withBudgetMetadata enc (x.textPage decoded start lines next) x.budget truncated reason = .ok r) :
    linesShown r.1 = lines ∧ nextOffsetOf r.1 = next := by
  refine ⟨?_, (nextOffsetOf_reply h).trans (countOf_optionalCount next)⟩
  have hend : countAt (txt "end_line") r.1 = start + lines.length - 1 := by
    rw [countAt, withBudgetMetadata_get (by decide) h]
    rfl
  have hfirst : countAt (txt "start_line") r.1 = start := by
    rw [countAt, withBudgetMetadata_get (by decide) h]
    rfl
  have hcontent : textAt (txt "content") r.1 = joinLines lines := by
    rw [textAt, withBudgetMetadata_get (by decide) h]
    rfl
  rw [linesShown, hend, hfirst, hcontent]
  split
  · next hnone => exact (List.length_eq_zero_iff.mp (by omega)).symm
  · next hsome => exact List.splitOn_intercalate lineFeed hlines fun hnil => hsome (by rw [hnil]; exact Nat.sub_lt hstart Nat.one_pos)

theorem takeRendered_spec {start : ℕ} {rendered lines ls : List Text} {reason : Text}
    (h : takeRendered enc x decoded start rendered lines = .ok (ls, reason)) : ∃ k,
      Filled (LinesFit enc x decoded start) rendered (renderedFrom x.includeLineNumbers (start + rendered.length) lines) k ∧
        ls = rendered ++ (renderedFrom x.includeLineNumbers (start + rendered.length) lines).take k := by
  induction lines generalizing rendered with
  | nil =>
    cases Except.ok.inj h
    exact ⟨0, filled_nil, (List.append_nil _).symm⟩
  | cons line lines ih =>
    obtain ⟨r, hr, h⟩ := bind_eq_ok.mp h
    have hfit : LinesFit enc x decoded start (rendered ++ [renderLine x.includeLineNumbers (start + rendered.length) line]) ↔
        r.2.fits = true := by rw [LinesFit, fitsReply_of_ok hr]
    split at h
    · next hfits =>
      obtain ⟨k, hfilled, hls⟩ := ih h
      rw [List.length_append, List.length_singleton, ← Nat.add_assoc] at hfilled hls
      refine ⟨k + 1, hfilled.cons (hfit.mpr hfits), ?_⟩
      rw [hls, renderedFrom, List.take_succ_cons]
      exact List.append_assoc _ _ _
    · next hfits =>
      cases Except.ok.inj h
      exact ⟨0, filled_stop fun hsome => hfits (hfit.mp hsome), (List.append_nil _).symm⟩

theorem stopReason_getD_benign (m : BudgetMeasurement) : isBenign (m.stopReason.getD (txt "token_budget")) = true := by
  cases hreason : m.stopReason with
  | some reason => exact stopReason_benign hreason
  | none => decide

theorem takeRendered_returns (hfile : CleanJson (.obj (x.textFile decoded))) {start : ℕ} {rendered lines : List Text}
    (hrendered : ∀ l ∈ rendered, Measurable l) (hlines : ∀ l ∈ lines, Measurable l) :
    ∃ p, takeRendered enc x decoded start rendered lines = .ok p ∧ isBenign p.2 = true := by
  induction lines generalizing rendered with
  | nil =>
    have hend : isBenign (txt "end_of_file") = true := by decide
    exact ⟨_, rfl, hend⟩
  | cons line lines ih =>
    rw [List.forall_mem_cons] at hlines
    have hcandidate : ∀ l ∈ rendered ++ [renderLine x.includeLineNumbers (start + rendered.length) line], Measurable l := by
      rw [List.forall_mem_append, List.forall_mem_singleton]
      exact ⟨hrendered, (measurable_renderLine_iff _ _ _).mpr hlines.1⟩
    obtain ⟨r, hr⟩ := (withBudgetMetadata_returns_iff enc
      (x.textPage decoded start (rendered ++ [renderLine x.includeLineNumbers (start + rendered.length) line])
        (some (start + (rendered ++ [renderLine x.includeLineNumbers (start + rendered.length) line]).length))) x.budget true
      (txt "token_budget")).mpr ⟨(textPage_clean_iff _ _ _).mpr ⟨hfile, hcandidate⟩, measurable_of_isBenign (by decide)⟩
    by_cases hfits : r.2.fits = true
    · obtain ⟨p, hp, hbenign⟩ := ih hcandidate hlines.2
      exact ⟨p, bind_eq_ok.mpr ⟨r, hr, (if_pos hfits).trans hp⟩, hbenign⟩
    · exact ⟨_, bind_eq_ok.mpr ⟨r, hr, if_neg hfits⟩, stopReason_getD_benign _⟩

theorem length_lines : (x.lines decoded).length = (splitlines decoded.text).length := length_renderedFrom _ _ _

theorem lines_noFeed : ∀ l ∈ x.lines decoded, lineFeed ∉ l := renderedFrom_noFeed (splitlines_noFeed decoded.text)

/-- The requested lines as pages show them. -/
theorem requested_eq (i limit : ℕ) : renderedFrom x.includeLineNumbers (i + 1) (((splitlines decoded.text).drop i).take limit) =
    ((x.lines decoded).drop i).take limit := by
  rw [Reader.lines, drop_renderedFrom, take_renderedFrom, Nat.add_comm 1 i]

/-- What is read from the line at index `i` on. -/
theorem readLines_spec {startLine lineLimit : ℤ} {i : ℕ} (hi : (max startLine 1).toNat = i + 1) {d : Dict}
    (h : readLines enc x decoded startLine lineLimit = .ok d) : ∃ k,
      Filled (LinesFit enc x decoded (i + 1)) [] (((x.lines decoded).drop i).take (max lineLimit 1).toNat) k ∧
        linesShown d = ((x.lines decoded).drop i).take k ∧
        nextOffsetOf d = (if i + k < (x.lines decoded).length then some (i + 1 + k) else none) ∧
        (i + k < (x.lines decoded).length ∧ truncatedOf d = true ∨
          ¬i + k < (x.lines decoded).length ∧ (truncatedOf d = true → stopReasonOf d = metadataExceeds)) := by
  rw [readLines] at h
  simp only [hi, Nat.add_sub_cancel] at h
  obtain ⟨⟨ls, reason⟩, htaken, h⟩ := bind_eq_ok.mp h
  obtain ⟨r, hr, h⟩ := bind_eq_ok.mp h
  cases Except.ok.inj h
  obtain ⟨k, hfilled, hls⟩ := takeRendered_spec htaken
  rw [List.length_nil, Nat.add_zero, requested_eq] at hfilled hls
  have hle := hfilled.le
  rw [List.length_take, List.length_drop] at hle
  have hshown : ls = ((x.lines decoded).drop i).take k := by
    rw [hls, List.nil_append, List.take_take, Nat.min_eq_left (by omega)]
  have hlength : ls.length = k := by
    rw [hshown, List.length_take, List.length_drop]
    omega
  have hfree : ∀ l ∈ ls, lineFeed ∉ l := fun l hl =>
    lines_noFeed l (List.mem_of_mem_drop (List.mem_of_mem_take (hshown ▸ hl)))
  obtain ⟨hlines, hnext⟩ := linesShown_reply (Nat.succ_pos i) hfree hr
  rw [hlength, ← length_lines (x := x)] at hnext
  refine ⟨k, hfilled, hlines.trans hshown, ?_, ?_⟩
  · rw [hnext]
    simp only [decide_eq_true_eq]
  · rw [hlength, ← length_lines (x := x)] at hr
    by_cases hmore : i + k < (x.lines decoded).length
    · rw [decide_eq_true hmore] at hr
      exact .inl ⟨hmore, (reply_flags hr).elim (fun hflags => hflags.1) fun hflags => hflags.1⟩
    · rw [decide_eq_false hmore] at hr
      refine .inr ⟨hmore, fun htruncated => ?_⟩
      cases reply_flags hr with
      | inl hflags => exact absurd (htruncated.symm.trans hflags.1) (by decide)
      | inr hflags => exact hflags.2

theorem readLines_returns (hfile : CleanJson (.obj (x.textFile decoded))) (hlines : ∀ l ∈ x.lines decoded, Measurable l)
    (startLine lineLimit : ℤ) : ∃ d, readLines enc x decoded startLine lineLimit = .ok d := by
  obtain ⟨i, hi⟩ : ∃ i, (max startLine 1).toNat = i + 1 := ⟨(max startLine 1).toNat - 1, by omega⟩
  have hplain : ∀ l ∈ splitlines decoded.text, Measurable l := by
    intro l hl
    obtain ⟨j, hj, rfl⟩ := List.getElem_of_mem hl
    have hshown : renderLine x.includeLineNumbers (1 + j) (splitlines decoded.text)[j] ∈ x.lines decoded := by
      have hdrop := drop_renderedFrom x.includeLineNumbers 1 j (splitlines decoded.text)
      rw [List.drop_eq_getElem_cons hj, renderedFrom] at hdrop
      exact List.mem_of_mem_drop (hdrop ▸ List.mem_cons_self)
    exact (measurable_renderLine_iff _ _ _).mp (hlines _ hshown)
  obtain ⟨⟨ls, reason⟩, htaken, hbenign⟩ : ∃ p, takeRendered enc x decoded (i + 1) []
      (((splitlines decoded.text).drop i).take (max lineLimit 1).toNat) = .ok p ∧ isBenign p.2 = true :=
    takeRendered_returns hfile (fun l hl => absurd hl List.not_mem_nil) fun l hl => hplain l (List.mem_of_mem_drop (List.mem_of_mem_take hl))
  obtain ⟨k, -, hls⟩ := takeRendered_spec htaken
  rw [List.length_nil, Nat.add_zero, requested_eq, List.nil_append] at hls
  have hmeasurable : ∀ l ∈ ls, Measurable l := fun l hl =>
    hlines l (List.mem_of_mem_drop (List.mem_of_mem_take (List.mem_of_mem_take (hls ▸ hl))))
  rw [readLines]
  simp only [hi, Nat.add_sub_cancel]
  have hreason : ∀ hasMore full : Bool,
      isBenign (if hasMore then if hasMore && full then txt "line_limit" else reason else txt "end_of_file") = true := by
    have hends : isBenign (txt "end_of_file") = true ∧ isBenign (txt "line_limit") = true := by decide
    intro hasMore full
    cases hasMore with
    | false => exact hends.1
    | true =>
      cases full with
      | false => exact hbenign
      | true => exact hends.2
  obtain ⟨r, hr⟩ := (withBudgetMetadata_returns_iff enc _ _ _ _).mpr
    ⟨(textPage_clean_iff _ _ _).mpr ⟨hfile, hmeasurable⟩, measurable_of_isBenign (hreason _ _)⟩
  exact ⟨r.1, bind_eq_ok.mpr ⟨(ls, reason), htaken, bind_eq_ok.mpr ⟨r, hr, rfl⟩⟩⟩

/-! ### When lines are paged -/

section
variable (htext : decodeTextBytes x.registry x.raw x.encoding = .ok decoded)
include htext

theorem readPath_lines (c : LineCall x) (start : ℤ) {d : Dict} :
    readPath enc x (c.request start) = .ok d ↔ readLines enc x decoded start c.lineLimit = .ok d := by
  have hread : readPath enc x (c.request start) = readText enc x start c.lineLimit :=
    (if_neg (not_not.mpr c.known)).trans (if_pos c.reads)
  rw [hread, readText, htext]
  dsimp only
  cases readLines enc x decoded start c.lineLimit with
  | ok d' => simp [Except.mapError]
  | error e => simp [Except.mapError]

theorem linesPaged_of_roomy (hroom : LineRoomy enc x decoded) (c : LineCall x) (start : ℤ) :
    ∃ d, readPath enc x (c.request start) = .ok d ∧ Advancing start d ∧ ∀ i : ℕ, start = i + 1 →
      Serves (x.lines decoded) i ⟨linesShown d, (nextOffsetOf d).map fun n => n - 1⟩ := by
  have hlines : ∀ l ∈ x.lines decoded, Measurable l := by
    intro l hl
    obtain ⟨i, hi⟩ := List.mem_iff_getElem?.mp hl
    have hfits : LinesFit enc x decoded (i + 1) [l] := hroom.first i l hi
    rw [LinesFit, fitsReply] at hfits
    split at hfits
    · next r hr =>
      have hclean := ((withBudgetMetadata_returns_iff enc _ _ _ _).mp ⟨r, hr⟩).1
      exact ((textPage_clean_iff _ _ _).mp hclean).2 l List.mem_cons_self
    · exact absurd hfits Bool.false_ne_true
  obtain ⟨d, hd⟩ := readLines_returns hroom.file hlines start c.lineLimit
  obtain ⟨i, hi⟩ : ∃ i, (max start 1).toNat = i + 1 := ⟨(max start 1).toNat - 1, by omega⟩
  obtain ⟨k, hfilled, hshown, hnext, hflag⟩ := readLines_spec hi hd
  have hpos : i < (x.lines decoded).length → 0 < k := by
    intro hlt
    obtain ⟨n, hn⟩ : ∃ n, (max c.lineLimit 1).toNat = n + 1 := ⟨(max c.lineLimit 1).toNat - 1, by omega⟩
    rw [List.drop_eq_getElem_cons hlt, hn, List.take_succ_cons] at hfilled
    exact hfilled.pos (hroom.first i _ (List.getElem?_eq_getElem hlt))
  have hle := hfilled.le
  rw [List.length_take, List.length_drop] at hle
  refine ⟨d, (readPath_lines htext c start).mpr hd, fun htruncated => ?_, fun j hj => ?_⟩
  · cases hflag with
    | inl hmore =>
      have hless := hmore.1
      have hk := hpos (by omega)
      exact .inl ⟨i + 1 + k, hnext.trans (if_pos hless), by omega⟩
    | inr hend => exact .inr ⟨hnext.trans (if_neg hend.1), hend.2 htruncated⟩
  · have hsame : j = i := by omega
    subst hsame
    have hserves : Serves (x.lines decoded) j ⟨((x.lines decoded).drop j).take k,
        if j + k < (x.lines decoded).length then some (j + k) else none⟩ := serves_take (by omega) hpos
    have hshift : (nextOffsetOf d).map (fun n => n - 1) = if j + k < (x.lines decoded).length then some (j + k) else none := by
      rw [hnext]
      split
      · have hback : j + 1 + k - 1 = j + k := by omega
        exact congrArg some hback
      · rfl
    rw [hshown, hshift]
    exact hserves

theorem lineRoomy_of_paged (h : LinesPaged enc x) : LineRoomy enc x decoded := by
  -- a call for one line at a time
  have hcall : x.effectiveMode (txt "text") = txt "text" := if_neg (by decide)
  obtain ⟨c, hc⟩ : ∃ c : LineCall x, c.lineLimit = 1 := ⟨⟨txt "text", by decide, hcall, 1, 0, 1⟩, rfl⟩
  refine ⟨?_, fun i line hline => ?_⟩
  · obtain ⟨d, hd, -⟩ := h.reply decoded htext c 1
    obtain ⟨⟨ls, reason⟩, -, hd⟩ := bind_eq_ok.mp ((readPath_lines htext c 1).mp hd)
    obtain ⟨r, hr, -⟩ := bind_eq_ok.mp hd
    exact ((textPage_clean_iff _ _ _).mp ((withBudgetMetadata_returns_iff enc _ _ _ _).mp ⟨r, hr⟩).1).1
  · obtain ⟨hlt, hget⟩ := List.getElem?_eq_some_iff.mp hline
    obtain ⟨d, hd, hadvances⟩ := h.reply decoded htext c (i + 1)
    have hstart : (max ((i : ℤ) + 1) 1).toNat = i + 1 := by omega
    obtain ⟨k, hfilled, -, hnext, hflag⟩ := readLines_spec hstart ((readPath_lines htext c _).mp hd)
    rw [hc, List.drop_eq_getElem_cons hlt, hget] at hfilled
    by_cases hzero : k = 0
    · rw [hzero, Nat.add_zero, Nat.add_zero, if_pos hlt] at hnext
      rw [hzero, Nat.add_zero] at hflag
      have htruncated : truncatedOf d = true := hflag.elim (fun hmore => hmore.2) fun hend => absurd hlt hend.1
      cases hadvances htruncated with
      | inl hsome =>
        obtain ⟨j, hj, hless⟩ := hsome
        have hsame : i + 1 = j := Option.some.inj (hnext.symm.trans hj)
        omega
      | inr hnone => exact absurd (hnext.symm.trans hnone.1) (Option.some_ne_none _)
    · have hfit := hfilled.fitted 0 (Nat.pos_of_ne_zero hzero)
      exact hfit

end

theorem linesPaged_iff : LinesPaged enc x ↔ ∀ decoded, decodeTextBytes x.registry x.raw x.encoding = .ok decoded → LineRoomy enc x decoded := by
  refine ⟨fun h decoded htext => lineRoomy_of_paged htext h, fun h => ⟨fun decoded htext c start => ?_, fun decoded htext => ?_,
    fun e he c start d hd => ?_⟩⟩
  · obtain ⟨d, hd, hadvances, -⟩ := linesPaged_of_roomy htext (h decoded htext) c start
    exact ⟨d, hd, hadvances⟩
  · refine enumerates_of_serves fun c i _ => ?_
    obtain ⟨d, hd, -, hserves⟩ := linesPaged_of_roomy htext (h decoded htext) c (i + 1)
    refine ⟨_, ?_, hserves i rfl⟩
    rw [linesPager, hd]
    rfl
  · have hread : readPath enc x (c.request start) = readText enc x start c.lineLimit :=
      (if_neg (not_not.mpr c.known)).trans (if_pos c.reads)
    rw [hread, readText, he] at hd
    cases e with
    | raised => exact absurd hd (by simp)
    | unknownEncoding _ =>
      cases Except.ok.inj hd
      rfl
    | conflictsWithBom _ _ =>
      cases Except.ok.inj hd
      rfl
    | undetected =>
      cases Except.ok.inj hd
      rfl
    | invalid _ =>
      cases Except.ok.inj hd
      rfl
    | nulBytes =>
      cases Except.ok.inj hd
      rfl

/-! ## Following the octets -/

/-- A call that reads octets. -/
structure ByteCall (x : Reader) where
  mode : Text
  known : mode ∈ readModes
  reads : x.effectiveMode mode = txt "hex"
  byteLimit : ℤ
  startLine : ℤ
  lineLimit : ℤ

def ByteCall.request {x : Reader} (c : ByteCall x) (byteOffset : ℤ) : PathRequest :=
  ⟨c.mode, c.startLine, c.lineLimit, byteOffset, c.byteLimit⟩

section
variable (enc : TokenEncoding) (x : Reader)

def bytesPager (c : ByteCall x) (i : ℕ) : Option (Page Byte) :=
  (readPath enc x (c.request i)).toOption.map fun d => ⟨bytesShown d, nextOffsetOf d⟩

/-- Every offset is answered and leads on, and all octets are shown once and in order. -/
structure BytesPaged : Prop where
  reply : ∀ (c : ByteCall x) start, ∃ d, readPath enc x (c.request start) = .ok d ∧ Advancing start d
  walk : Enumerates (bytesPager enc x) x.raw

/-- The page with these octets fits. -/
def BytesFit (start : ℕ) (bytes : Bytes) : Prop :=
  fitsReply enc x.budget (x.hexPage start bytes (some (start + bytes.length))) true (txt "token_budget") = true

/-- What is known of the file can be measured, and each octet fits alone on its page. -/
structure ByteRoomy : Prop where
  file : CleanJson (.obj (x.baseMetadata ++ [(txt "file_type", .str (txt "binary"))]))
  first : ∀ i b, x.raw[i]? = some b → BytesFit enc x i [b]

end

theorem measurable_spacedHex (bytes : Bytes) : Measurable (spacedHex bytes) := by
  have hdigit : ∀ n, n < 16 → isBenign [hexDigit n] = true := by
    intro n hn
    have hall : ∀ n : Fin 16, isBenign [hexDigit n.val] = true := by decide
    exact hall ⟨n, hn⟩
  refine (AvoidedWords.avoids_join_iff nil_notMem_unmeasurable (separates_of (by decide) (by decide))).mpr fun l hl => ?_
  obtain ⟨b, -, rfl⟩ := List.mem_map.mp hl
  have hbound := b.isLt
  refine measurable_of_isBenign (List.all_eq_true.mpr fun c hc => ?_)
  rw [hexPair, List.mem_cons, List.mem_singleton] at hc
  cases hc with
  | inl hc =>
    have hhigh := hdigit (b.val / 16) (by omega)
    exact List.all_eq_true.mp hhigh c (List.mem_singleton.mpr hc)
  | inr hc =>
    have hlow := hdigit (b.val % 16) (Nat.mod_lt _ (by decide))
    exact List.all_eq_true.mp hlow c (List.mem_singleton.mpr hc)

theorem hexPage_clean_iff (start : ℕ) (bytes : Bytes) (next : Option ℕ) : CleanPayload (x.hexPage start bytes next) ↔
    CleanJson (.obj (x.baseMetadata ++ [(txt "file_type", .str (txt "binary"))])) := by
  constructor
  · intro h
    have hkey : txt "file" ∉ contractKeys := by decide
    exact (h (txt "file", _) (by simp [Reader.hexPage]) hkey).2
  · intro h f hf _
    simp only [Reader.hexPage, List.mem_cons, List.not_mem_nil, or_false] at hf
    obtain rfl | rfl | rfl | rfl | rfl | rfl | rfl | rfl := hf
    · exact cleanField_bool (by decide)
    · exact cleanField_benign (by decide) (by decide)
    · exact cleanField_of (by decide) h
    · exact cleanField_of (by decide) (cleanJson_str.mpr (measurable_spacedHex bytes))
    · exact cleanField_benign (by decide) (by decide)
    · exact cleanField_nat (by decide)
    · exact cleanField_nat (by decide)
    · exact cleanField_of_strings_nil (by decide) (strings_optionalCount next)

theorem bytesShown_reply {start : ℕ} {bytes : Bytes} {next : Option ℕ} {truncated : Bool} {reason : Text} {r : Dict × BudgetMeasurement}
    (h : withBudgetMetadata enc (x.hexPage start bytes next) x.budget truncated reason = .ok r) :
    bytesShown r.1 = bytes ∧ nextOffsetOf r.1 = next := by
  refine ⟨?_, (nextOffsetOf_reply h).trans (countOf_optionalCount next)⟩
  have hend : countAt (txt "end_offset") r.1 = start + bytes.length := by
    rw [countAt, withBudgetMetadata_get (by decide) h]
    rfl
  have hfirst : countAt (txt "start_offset") r.1 = start := by
    rw [countAt, withBudgetMetadata_get (by decide) h]
    rfl
  have hcontent : textAt (txt "content") r.1 = spacedHex bytes := by
    rw [textAt, withBudgetMetadata_get (by decide) h]
    rfl
  rw [bytesShown, hend, hfirst, hcontent]
  split
  · next hnone => exact (List.length_eq_zero_iff.mp (by omega)).symm
  · next hsome => exact parse_spacedHex fun hnil => hsome (by rw [hnil]; exact Nat.le_refl _)

/-! ### Halving -/

section
variable {probe : ℕ → Except Raised Bool} {low high k : ℕ}

theorem halve_bounds (h : halve probe low high = .ok k) (hle : low ≤ high) : low ≤ k ∧ k ≤ high := by
  induction hn : high - low using Nat.strongRecOn generalizing low high with
  | ind n ih =>
    rw [halve] at h
    split at h
    · next hlt =>
      obtain ⟨fits, -, h⟩ := bind_eq_ok.mp h
      split at h
      · have hbounds := ih _ (by omega) h (by omega) rfl
        omega
      · have hbounds := ih _ (by omega) h (by omega) rfl
        omega
    · cases Except.ok.inj h
      exact ⟨Nat.le_refl _, hle⟩

/-- If the least probe succeeds, something is found. -/
theorem halve_pos (h : halve probe low high = .ok k) (hlt : low < high) (hleast : probe (low + 1) = .ok true) : low < k := by
  induction hn : high - low using Nat.strongRecOn generalizing low high with
  | ind n ih =>
    rw [halve, if_pos hlt] at h
    obtain ⟨fits, hfits, h⟩ := bind_eq_ok.mp h
    cases fits with
    | true =>
      have hbounds := halve_bounds h (by omega)
      omega
    | false =>
      by_cases hlast : low < (low + high + 1) / 2 - 1
      · exact ih _ (by omega) h hlast hleast rfl
      · have hone : (low + high + 1) / 2 = low + 1 := by omega
        rw [hone, hleast] at hfits
        exact absurd (Except.ok.inj hfits) (by decide)

/-- What is found was probed. -/
theorem halve_probed (h : halve probe low high = .ok k) : k = low ∨ probe k = .ok true := by
  induction hn : high - low using Nat.strongRecOn generalizing low high with
  | ind n ih =>
    rw [halve] at h
    split at h
    · obtain ⟨fits, hfits, h⟩ := bind_eq_ok.mp h
      cases fits with
      | true =>
        cases ih _ (by omega) h rfl with
        | inl heq => exact .inr (heq ▸ hfits)
        | inr hprobed => exact .inr hprobed
      | false => exact ih _ (by omega) h rfl
    · exact .inl (Except.ok.inj h).symm

theorem halve_returns (h : ∀ n, ∃ b, probe n = .ok b) (low high : ℕ) : ∃ k, halve probe low high = .ok k := by
  induction hn : high - low using Nat.strongRecOn generalizing low high with
  | ind n ih =>
    rw [halve]
    split
    · obtain ⟨fits, hfits⟩ := h ((low + high + 1) / 2)
      cases fits with
      | true =>
        obtain ⟨k, hk⟩ := ih _ (by omega) ((low + high + 1) / 2) high rfl
        exact ⟨k, bind_eq_ok.mpr ⟨true, hfits, hk⟩⟩
      | false =>
        obtain ⟨k, hk⟩ := ih _ (by omega) low ((low + high + 1) / 2 - 1) rfl
        exact ⟨k, bind_eq_ok.mpr ⟨false, hfits, hk⟩⟩
    · exact ⟨low, rfl⟩

end

/-! ### When octets are paged -/

theorem probeBytes_fits {start : ℕ} {raw : Bytes} {m : ℕ} (hm : m ≤ raw.length) :
    probeBytes enc x start raw m = .ok true ↔ BytesFit enc x start (raw.take m) := by
  rw [BytesFit, List.length_take, Nat.min_eq_left hm, probeBytes, fitsReply]
  cases withBudgetMetadata enc (x.hexPage start (raw.take m) (some (start + m))) x.budget true (txt "token_budget") with
  | ok r => exact ⟨fun h => Except.ok.inj h, fun h => congrArg Except.ok h⟩
  | error e => exact iff_of_false (fun h => by cases h) Bool.false_ne_true

/-- What is read from the octet at index `i` on. -/
theorem readHex_spec {byteOffset byteLimit : ℤ} {i : ℕ} (hi : (max byteOffset 0).toNat = i) {d : Dict}
    (h : readHex enc x byteOffset byteLimit = .ok d) : ∃ k,
      halve (probeBytes enc x i ((x.raw.drop i).take (byteCount byteLimit))) 0
        ((x.raw.drop i).take (byteCount byteLimit)).length = .ok k ∧
      bytesShown d = (x.raw.drop i).take k ∧ nextOffsetOf d = (if i + k < x.raw.length then some (i + k) else none) ∧
      (i + k < x.raw.length ∧ truncatedOf d = true ∨
        ¬i + k < x.raw.length ∧ (truncatedOf d = true → stopReasonOf d = metadataExceeds)) := by
  rw [readHex] at h
  simp only [hi] at h
  obtain ⟨k, hk, h⟩ := bind_eq_ok.mp h
  obtain ⟨r, hr, h⟩ := bind_eq_ok.mp h
  cases Except.ok.inj h
  have hle := (halve_bounds hk (Nat.zero_le _)).2
  rw [List.length_take] at hle
  obtain ⟨hshown, hnext⟩ := bytesShown_reply hr
  rw [List.take_take, Nat.min_eq_left (by omega)] at hshown
  refine ⟨k, hk, hshown, ?_, ?_⟩
  · rw [hnext]
    simp only [decide_eq_true_eq]
  · by_cases hmore : i + k < x.raw.length
    · rw [decide_eq_true hmore] at hr
      exact .inl ⟨hmore, (reply_flags hr).elim (fun hflags => hflags.1) fun hflags => hflags.1⟩
    · have hall : ¬k < ((x.raw.drop i).take (byteCount byteLimit)).length := by
        rw [List.length_take, List.length_drop]
        omega
      rw [decide_eq_false hmore] at hr
      refine .inr ⟨hmore, fun htruncated => ?_⟩
      cases reply_flags hr with
      | inl hflags => exact absurd (htruncated.symm.trans hflags.1) (by decide)
      | inr hflags => exact hflags.2

theorem readHex_returns (hfile : CleanJson (.obj (x.baseMetadata ++ [(txt "file_type", .str (txt "binary"))]))) (byteOffset byteLimit : ℤ) :
    ∃ d, readHex enc x byteOffset byteLimit = .ok d := by
  have hends : isBenign (txt "token_budget") = true ∧ isBenign (txt "byte_limit") = true ∧ isBenign (txt "end_of_file") = true := by decide
  have hprobe : ∀ start raw n, ∃ b, probeBytes enc x start raw n = .ok b := by
    intro start raw n
    obtain ⟨r, hr⟩ := (withBudgetMetadata_returns_iff enc (x.hexPage start (raw.take n) (some (start + n))) x.budget true
      (txt "token_budget")).mpr ⟨(hexPage_clean_iff _ _ _).mpr hfile, measurable_of_isBenign hends.1⟩
    exact ⟨r.2.fits, bind_eq_ok.mpr ⟨r, hr, rfl⟩⟩
  obtain ⟨k, hk⟩ := halve_returns (hprobe (max byteOffset 0).toNat
    ((x.raw.drop (max byteOffset 0).toNat).take (byteCount byteLimit))) 0
    ((x.raw.drop (max byteOffset 0).toNat).take (byteCount byteLimit)).length
  have hreason : ∀ (n m : ℕ) (hasMore : Bool),
      Measurable (if n < m then txt "token_budget" else if hasMore then txt "byte_limit" else txt "end_of_file") := by
    intro n m hasMore
    split
    · exact measurable_of_isBenign hends.1
    · split
      · exact measurable_of_isBenign hends.2.1
      · exact measurable_of_isBenign hends.2.2
  obtain ⟨r, hr⟩ := (withBudgetMetadata_returns_iff enc _ _ _ _).mpr ⟨(hexPage_clean_iff _ _ _).mpr hfile, hreason _ _ _⟩
  exact ⟨r.1, bind_eq_ok.mpr ⟨k, hk, bind_eq_ok.mpr ⟨r, hr, rfl⟩⟩⟩

theorem readPath_bytes (c : ByteCall x) (start : ℤ) {d : Dict} :
    readPath enc x (c.request start) = .ok d ↔ readHex enc x start c.byteLimit = .ok d := by
  have hother : ¬x.effectiveMode c.mode = txt "text" := by
    rw [c.reads]
    decide
  have hread : readPath enc x (c.request start) = (readHex enc x start c.byteLimit).mapError .measuring :=
    (if_neg (not_not.mpr c.known)).trans ((if_neg hother).trans (if_pos c.reads))
  rw [hread]
  cases readHex enc x start c.byteLimit with
  | ok d' => simp [Except.mapError]
  | error e => simp [Except.mapError]

theorem byteRoomy_of_paged (h : BytesPaged enc x) : ByteRoomy enc x := by
  -- a call for one octet at a time
  have hcall : x.effectiveMode (txt "hex") = txt "hex" := if_neg (by decide)
  obtain ⟨c, hc⟩ : ∃ c : ByteCall x, c.byteLimit = 1 := ⟨⟨txt "hex", by decide, hcall, 1, 1, 1⟩, rfl⟩
  refine ⟨?_, fun i b hb => ?_⟩
  · obtain ⟨d, hd, -⟩ := h.reply c 0
    obtain ⟨k, -, hd⟩ := bind_eq_ok.mp ((readPath_bytes c 0).mp hd)
    obtain ⟨r, hr, -⟩ := bind_eq_ok.mp hd
    exact (hexPage_clean_iff _ _ _).mp ((withBudgetMetadata_returns_iff enc _ _ _ _).mp ⟨r, hr⟩).1
  · obtain ⟨hlt, hget⟩ := List.getElem?_eq_some_iff.mp hb
    obtain ⟨d, hd, hadvances⟩ := h.reply c i
    have hstart : (max (i : ℤ) 0).toNat = i := by omega
    obtain ⟨k, hhalve, -, hnext, hflag⟩ := readHex_spec hstart ((readPath_bytes c _).mp hd)
    have hone : byteCount c.byteLimit = 1 := by
      rw [hc, byteCount]
      omega
    rw [hone, List.drop_eq_getElem_cons hlt, hget, List.take_succ_cons, List.take_zero] at hhalve
    have hbounds := (halve_bounds hhalve (Nat.zero_le _)).2
    by_cases hzero : k = 0
    · rw [hzero, Nat.add_zero, if_pos hlt] at hnext
      rw [hzero, Nat.add_zero] at hflag
      have htruncated : truncatedOf d = true := hflag.elim (fun hmore => hmore.2) fun hend => absurd hlt hend.1
      cases hadvances htruncated with
      | inl hsome =>
        obtain ⟨j, hj, hless⟩ := hsome
        have hsame : i = j := Option.some.inj (hnext.symm.trans hj)
        omega
      | inr hnone => exact absurd (hnext.symm.trans hnone.1) (Option.some_ne_none _)
    · have hlast : k = 1 := Nat.le_antisymm hbounds (Nat.pos_of_ne_zero hzero)
      have hprobed := (halve_probed hhalve).resolve_left hzero
      rw [hlast] at hprobed
      have hfit : BytesFit enc x i ([b].take 1) := (probeBytes_fits (Nat.le_refl [b].length)).mp hprobed
      exact hfit

theorem bytesPaged_of_roomy (hroom : ByteRoomy enc x) : BytesPaged enc x := by
  have hserves : ∀ (c : ByteCall x) (start : ℤ), ∃ d, readPath enc x (c.request start) = .ok d ∧ Advancing start d ∧
      ∀ i : ℕ, start = i → Serves x.raw i ⟨bytesShown d, nextOffsetOf d⟩ := by
    intro c start
    obtain ⟨d, hd⟩ : ∃ d, readHex enc x start c.byteLimit = .ok d := readHex_returns hroom.file start c.byteLimit
    obtain ⟨i, hi⟩ : ∃ i, (max start 0).toNat = i := ⟨_, rfl⟩
    obtain ⟨k, hhalve, hshown, hnext, hflag⟩ := readHex_spec hi hd
    have hlimit : 1 ≤ byteCount c.byteLimit := by
      rw [byteCount]
      omega
    have hpos : i < x.raw.length → 0 < k := by
      intro hlt
      obtain ⟨n, hn⟩ := Nat.exists_eq_add_of_le hlimit
      have hcons : (x.raw.drop i).take (byteCount c.byteLimit) = x.raw[i] :: (x.raw.drop (i + 1)).take n := by
        rw [hn, Nat.add_comm 1 n, List.drop_eq_getElem_cons hlt, List.take_succ_cons]
      rw [hcons] at hhalve
      refine halve_pos hhalve (Nat.succ_pos _) ((probeBytes_fits (Nat.succ_le_succ (Nat.zero_le _))).mpr ?_)
      exact hroom.first i _ (List.getElem?_eq_getElem hlt)
    have hle := (halve_bounds hhalve (Nat.zero_le _)).2
    rw [List.length_take, List.length_drop] at hle
    refine ⟨d, (readPath_bytes c start).mpr hd, fun htruncated => ?_, fun j hj => ?_⟩
    · cases hflag with
      | inl hmore =>
        have hless := hmore.1
        have hk := hpos (by omega)
        exact .inl ⟨i + k, hnext.trans (if_pos hless), by omega⟩
      | inr hend => exact .inr ⟨hnext.trans (if_neg hend.1), hend.2 htruncated⟩
    · have hsame : i = j := by omega
      subst hsame
      rw [hshown, hnext]
      exact serves_take (by omega) hpos
  refine ⟨fun c start => ?_, enumerates_of_serves fun c i _ => ?_⟩
  · obtain ⟨d, hd, hadvances, -⟩ := hserves c start
    exact ⟨d, hd, hadvances⟩
  · obtain ⟨d, hd, -, hserved⟩ := hserves c i
    refine ⟨_, ?_, hserved i rfl⟩
    rw [bytesPager, hd]
    rfl

/-- A file is read to its end by lines and by octets, each exactly when every single one fits. -/
theorem lines_and_bytes_paged_iff (enc : TokenEncoding) (x : Reader) :
    (LinesPaged enc x ↔ ∀ decoded, decodeTextBytes x.registry x.raw x.encoding = .ok decoded → LineRoomy enc x decoded) ∧
      (BytesPaged enc x ↔ ByteRoomy enc x) :=
  ⟨linesPaged_iff, ⟨byteRoomy_of_paged, bytesPaged_of_roomy⟩⟩

/-- A file of one line and one octet, read under a budget of one token. -/
def oneLine : Reader where
  path := txt "/srv/a.txt"
  raw := txt "a" |>.flatMap utf8Bytes
  mimeType := txt "text/plain"
  suffix := txt ".txt"
  sha256 := txt "ca978112ca1bbdcafac231b39a23dc4da786eff8147c4e72b9807785afee48bb"
  registry := ⟨.little, some, fun _ => utf8Codec⟩
  encoding := none
  includeLineNumbers := false
  maxTokens := ⟨1, Nat.one_pos⟩
  complaint := fun _ => []
  rendered := fun _ => .ok []

/-- Neither the line nor the octet is ever shown. -/
theorem first_line_repeats : ¬LinesPaged perCharacter oneLine ∧ ¬BytesPaged perCharacter oneLine := by
  refine ⟨fun h => ?_, fun h => ?_⟩
  · have htext : decodeTextBytes oneLine.registry oneLine.raw oneLine.encoding = .ok ⟨txt "a", txt "utf-8", none, [], .none⟩ := rfl
    have hfit := (lineRoomy_of_paged htext h).first 0 (txt "a") (by decide)
    exact Bool.false_ne_true (not_fits_oneToken.symm.trans hfit)
  · have hfit := (byteRoomy_of_paged h).first 0 0x61 (by decide)
    exact Bool.false_ne_true (not_fits_oneToken.symm.trans hfit)

end WebOauthMcp.UnifiedReader
