import WebOauthMcp.ReadPaging
import WebOauthMcp.ReplyFields

/-!
# Batches of reads

Files are read one after the other into one reply while it fits. The page of the first file that
does not fit is cut line by line, and left out if even that does not help.
-/

namespace WebOauthMcp.BatchReading
open CodePoints LineSplitting JsonText ExceptSteps ResponseBudget BudgetMetadata FileReplies OffsetPaging ReplyOffsets
open ReadPaging ReplyFields

/-! ## The model -/

/-- A file of the batch; its language is guessed from its name. -/
structure SourceFile where
  path : Text
  language : Text
  entry : FileEntry

structure BatchRead where
  files : List SourceFile
  maxBytes : ℕ+
  includeLineNumbers : Bool
  maxTokens : ℕ+

/-- Which lines a call asks for, of every file. -/
structure BatchCall where
  offset : Option ℤ
  limit : Option ℤ
  maxLines : ℤ

/-- An entry of the reply. -/
structure Child where
  file : SourceFile
  outcome : ReadOutcome

def Child.succeeded (child : Child) : Bool :=
  match child.outcome with
  | .reply _ => true
  | .error _ _ => false

def Child.truncated (child : Child) : Bool :=
  match child.outcome with
  | .reply r => r.truncated
  | .error _ _ => false

def Child.lineCount (child : Child) : ℕ :=
  match child.outcome with
  | .reply r => r.returnedLineCount
  | .error _ _ => 0

variable (enc : TokenEncoding) (x : BatchRead)

/-- The budget of the whole reply has no octets; that of a page has. -/
def BatchRead.budget : Budget := { maxTokens := x.maxTokens }
def BatchRead.pageBudget : Budget := { maxTokens := x.maxTokens, maxBytes := some x.maxBytes }

def BatchRead.request (c : BatchCall) (f : SourceFile) : ReadRequest :=
  ⟨f.path, c.offset, c.limit, c.maxLines, x.maxBytes, x.includeLineNumbers, x.maxTokens⟩

def BatchRead.pageFields (r : ReadReply) : Dict :=
  [(txt "state", .str r.pageState), (txt "stop_reason", .str r.stopReason), (txt "returned_line_count", natJson r.returnedLineCount),
    (txt "rendered_bytes", natJson r.renderedBytes), (txt "estimated_tokens", natJson r.estimatedTokens),
    (txt "token_encoding", .str encodingName),
    (txt "effective_budgets", .obj [(txt "bytes", natJson x.maxBytes), (txt "tokens", natJson x.maxTokens)]),
    (txt "budget_exceeded", .obj [(txt "bytes", .bool r.bytesExceeded), (txt "tokens", .bool r.tokensExceeded)]),
    (txt "continuation", .obj [(txt "has_more", .bool r.truncated), (txt "next_offset", optionalCount r.nextOffset)])]

/-- What `read_file` returns. -/
def BatchRead.childFields (child : Child) : Dict :=
  match child.outcome with
  | .error code message =>
    [(txt "success", .bool false), (txt "error", .obj [(txt "code", .str code), (txt "message", .str message)]),
      (txt "resolved_path", .str child.file.path)]
  | .reply r =>
    [(txt "success", .bool true), (txt "path", .str r.path), (txt "content", .str r.content), (txt "truncated", .bool r.truncated),
      (txt "next_offset", optionalCount r.nextOffset), (txt "offset_unit", .str (txt "lines")), (txt "start_line", natJson r.startLine),
      (txt "end_line", natJson r.endLine), (txt "oversized_line", .bool r.oversizedLine), (txt "language", .str child.file.language),
      (txt "include_line_numbers", .bool r.includeLineNumbers), (txt "page", .obj (x.pageFields r))]

def BatchRead.payload (children : List Child) (next : Option ℕ) : Dict :=
  [(txt "success", .bool (children.all Child.succeeded)), (txt "mode", .str (txt "batch")),
    (txt "results", .arr (children.map fun child => .obj (x.childFields child))), (txt "offset_unit", .str (txt "paths")),
    (txt "next_offset", optionalCount next)]

/-- The reply with these entries, measured as one that stops behind them. -/
def candidate (start : ℕ) (children : List Child) : Except Raised (Dict × BudgetMeasurement) :=
  withBudgetMetadata enc (x.payload children (some (start + children.length))) x.budget true (txt "token_budget")

/-- The page with its first `returned` lines only. -/
def cutReply (r : ReadReply) (returned : ℕ) (content : Text) (m : BudgetMeasurement) : ReadReply :=
  { r with
    content := content
    endLine := r.startLine + returned - 1
    truncated := true
    nextOffset := some (r.startLine + returned)
    oversizedLine := false
    pageState := txt "truncated"
    stopReason := txt "batch_token_budget"
    returnedLineCount := returned
    renderedBytes := m.renderedBytes
    estimatedTokens := m.estimatedTokens
    bytesExceeded := m.exceedsByteBudget
    tokensExceeded := m.exceedsTokenBudget }

/-- While the reply does not fit, its last page is cut by a line. -/
def shrink (start : ℕ) (results : List Child) (f : SourceFile) : ReadReply → ℕ → Except Raised (Option ReadReply)
  | _, 0 => pure none
  | r, returned + 1 => do
    let content := joinLines ((r.content.splitOn lineFeed).take returned)
    let m ← measure enc x.pageBudget content
    let shorter := cutReply r returned content m
    let rendered ← candidate enc x start (results ++ [⟨f, .reply shorter⟩])
    if rendered.2.fits then pure (some shorter) else shrink start results f shorter returned

/-- The loop over the files, and whether the budget stops it. -/
def gather (c : BatchCall) (start : ℕ) : List Child → List SourceFile → Except Raised (List Child × Bool)
  | results, [] => pure (results, false)
  | results, f :: files => do
    let outcome ← readFile enc f.entry (x.request c f)
    let rendered ← candidate enc x start (results ++ [⟨f, outcome⟩])
    if rendered.2.fits then gather c start (results ++ [⟨f, outcome⟩]) files
    else
      match outcome with
      | .error _ _ => pure (results, true)
      | .reply r => do
        let kept ← shrink enc x start results f r r.returnedLineCount
        match kept with
        | none => pure (results, true)
        | some shorter => pure (results ++ [⟨f, .reply shorter⟩], true)

/-- `read_files`. -/
def readFiles (c : BatchCall) (batchOffset : ℤ) : Except Raised Dict := do
  let start := batchOffset.toNat
  let gathered ← gather enc x c start [] (x.files.drop start)
  let pathHasMore := decide (start + gathered.1.length < x.files.length)
  let childPartial := gathered.1.any Child.truncated
  let reason := if gathered.2 then txt "token_budget" else if pathHasMore then txt "path_limit"
    else if childPartial then txt "child_partial" else txt "end_of_results"
  let r ← withBudgetMetadata enc (x.payload gathered.1 (if pathHasMore then some (start + gathered.1.length) else none)) x.budget
    (gathered.2 || pathHasMore || childPartial) reason
  pure r.1

/-! ## What is promised -/

def BatchRead.reading (raw : Bytes) : Reading := ⟨raw, x.maxBytes, x.includeLineNumbers, x.maxTokens⟩

/-- The page holds the lines of the file from its start, as many as it says, and names the line
behind them if there are more. -/
structure WellPaged (lines : List Text) (r : ReadReply) : Prop where
  start : 0 < r.startLine
  count : r.returnedLineCount ≤ lines.length - (r.startLine - 1)
  shown : shownLines r = (lines.drop (r.startLine - 1)).take r.returnedLineCount
  truncated : r.truncated = decide (r.startLine - 1 + r.returnedLineCount < lines.length)
  next : r.nextOffset = if r.startLine - 1 + r.returnedLineCount < lines.length then some (r.startLine + r.returnedLineCount) else none

/-- An entry is a refusal or a page of the file's text. -/
def Child.Sound (child : Child) : Prop := ∀ r, child.outcome = .reply r →
  ∃ raw text, child.file.entry = .file raw ∧ readText raw = some text ∧ WellPaged ((x.reading raw).lines text) r

/-- What a reply is, and that it leads on or shows a line if there is more to give. -/
structure SoundReply (start : ℤ) (d : Dict) (children : List Child) : Prop where
  results : shownItems (txt "results") d = children.map fun child => .obj (x.childFields child)
  files : children.map Child.file <+: x.files.drop start.toNat
  pages : ∀ child ∈ children, child.Sound x
  next : nextOffsetOf d = if start.toNat + children.length < x.files.length then some (start.toNat + children.length) else none
  progress : (∃ j, nextOffsetOf d = some j) ∨ (∃ child ∈ children, child.truncated = true) →
    (∃ j, nextOffsetOf d = some j ∧ start < j) ∨ ∃ child ∈ children, 0 < child.lineCount

/-- Reading the file alone from where the page ends shows the lines that are left. -/
def Child.Continues (child : Child) : Prop := ∀ r raw text j, child.outcome = .reply r → child.file.entry = .file raw →
  readText raw = some text → r.nextOffset = some j →
    ∀ calls, Walk (readPager enc (x.reading raw)) calls (j - 1) (((x.reading raw).lines text).drop (j - 1))

def batchPager (c : BatchCall) (i : ℕ) : Option (Page Json) :=
  (readFiles enc x c i).toOption.map fun d => ⟨shownItems (txt "results") d, nextOffsetOf d⟩

/-- Every reply is sound. Following the batch shows an entry of every file, and following the
entries shows the rest of each. -/
structure LosesNothing : Prop where
  reply : ∀ c (start : ℤ), ∃ d gathered, gather enc x c start.toNat [] (x.files.drop start.toNat) = .ok gathered ∧
    readFiles enc x c start = .ok d ∧ SoundReply x start d gathered.1
  covers : ∀ c, ∃ children : List Child,
    Walk (batchPager enc x) (fun _ => c) 0 (children.map fun child => .obj (x.childFields child)) ∧
    children.map Child.file = x.files ∧ ∀ child ∈ children, child.Continues enc x

/-! ## When it is kept -/

/-- The file as it is read when nothing else is in the way. -/
def whole (c : BatchCall) (f : SourceFile) : Child :=
  match readFile enc f.entry (x.request c f) with
  | .ok outcome => ⟨f, outcome⟩
  | .error _ => ⟨f, .error [] []⟩

def measured (content : Text) : BudgetMeasurement :=
  match measure enc x.pageBudget content with
  | .ok m => m
  | .error _ => ⟨0, 0, false, false⟩

def cutTo (r : ReadReply) (returned : ℕ) : ReadReply :=
  cutReply r returned (joinLines ((shownLines r).take returned)) (measured enc x (joinLines ((shownLines r).take returned)))

/-- Its page cut to some lines. -/
def cut (child : Child) (returned : ℕ) : Child :=
  match child.outcome with
  | .error _ _ => child
  | .reply r => ⟨child.file, .reply (cutTo enc x r returned)⟩

/-- A reply with these entries fits. -/
def Fits (start : ℕ) (children : List Child) : Prop :=
  fitsReply enc x.budget (x.payload children (some (start + children.length))) true (txt "token_budget") = true

/-- The path, and of a text file its language and its text, can be measured. -/
structure SourceFile.Clean (f : SourceFile) : Prop where
  path : Measurable f.path
  text : ∀ raw text, f.entry = .file raw → readText raw = some text → Measurable f.language ∧ Measurable text

/-- The reply shows something of the file at which it stops, unless other files come first. If
that file is the last one, some line is shown. -/
def Progresses (start : ℕ) (front : List Child) (child : Child) : Prop :=
  (front ≠ [] ∨ ∃ k < child.lineCount, Fits enc x start (front ++ [cut enc x child k])) ∧
    (start + front.length + 1 = x.files.length → (∃ k < child.lineCount, Fits enc x start (front ++ [cut enc x child k])) →
      (∃ earlier ∈ front, 0 < earlier.lineCount) ∨ ∃ k < child.lineCount, 0 < k ∧ Fits enc x start (front ++ [cut enc x child k]))

structure BatchRoomy : Prop where
  clean : ∀ f ∈ x.files, f.Clean
  room : ∀ c start n f, Filled (Fits enc x start) [] ((x.files.drop start).map (whole enc x c)) n → x.files[start + n]? = some f →
    Progresses enc x start (((x.files.drop start).map (whole enc x c)).take n) (whole enc x c f)

/-! ## Pages -/

variable {enc x}

theorem startLine_pos (offset : Option ℤ) : 0 < startLine offset := by
  rw [startLine]
  omega

/-- A request counts only by the line that it starts with. -/
theorem readFile_offset {entry : FileEntry} {request : ReadRequest} {offset : Option ℤ} (h : startLine offset = startLine request.offset) :
    readFile enc entry { request with offset := offset } = readFile enc entry request := by
  cases entry with
  | missing => rfl
  | notFile => rfl
  | file raw => simp only [readFile, readReply, h]

theorem lines_noFeed {raw : Bytes} {text : Text} : ∀ l ∈ (x.reading raw).lines text, lineFeed ∉ l :=
  renderedFrom_noFeed (splitlines_noFeed text)

/-- A file is read as the pager of its lines reads it. -/
theorem readFile_request (c : BatchCall) (f : SourceFile) (raw : Bytes) : readFile enc (.file raw) (x.request c f) =
    readFile enc (.file (x.reading raw).raw) (requestAt (x.reading raw) ⟨f.path, c.limit, c.maxLines⟩ (startLine c.offset - 1)) := by
  have hstart : startLine (some (((startLine c.offset - 1 : ℕ) : ℤ) + 1)) = startLine (x.request c f).offset := by
    rw [startLine_succ]
    exact Nat.sub_add_cancel (startLine_pos c.offset)
  exact (readFile_offset hstart).symm

theorem replyAt_of_readFile {c : BatchCall} {f : SourceFile} {raw : Bytes} (hf : f.entry = .file raw) {r : ReadReply}
    (h : readFile enc f.entry (x.request c f) = .ok (.reply r)) :
    replyAt enc (x.reading raw) ⟨f.path, c.limit, c.maxLines⟩ (startLine c.offset - 1) = some r := by
  rw [hf, readFile_request] at h
  rw [replyAt, h]

theorem readFile_text_of_reply {f : SourceFile} {request : ReadRequest} {r : ReadReply} (h : readFile enc f.entry request = .ok (.reply r)) :
    ∃ raw text, f.entry = .file raw ∧ readText raw = some text := by
  cases hentry : f.entry with
  | missing =>
    rw [hentry] at h
    exact absurd (Except.ok.inj h) (by simp)
  | notFile =>
    rw [hentry] at h
    exact absurd (Except.ok.inj h) (by simp)
  | file raw =>
    rw [hentry, readFile] at h
    cases htext : readText raw with
    | none =>
      rw [htext] at h
      exact absurd (Except.ok.inj h) (by simp)
    | some text => exact ⟨raw, text, rfl, htext⟩

/-- What is read is a sound page, and one that leaves lines has some. -/
theorem readFile_sound {c : BatchCall} {f : SourceFile} {r : ReadReply} (h : readFile enc f.entry (x.request c f) = .ok (.reply r)) :
    Child.Sound x ⟨f, .reply r⟩ ∧ (r.truncated = true → 0 < r.returnedLineCount) := by
  obtain ⟨raw, text, hraw, htext⟩ := readFile_text_of_reply h
  have hreply := replyAt_of_readFile hraw h
  obtain ⟨p, -, hr, hshown⟩ := replyAt_spec htext hreply
  have hserves := replyAt_serves htext hreply
  have hpos := startLine_pos c.offset
  have hstart : r.startLine = startLine c.offset := by
    have hfirst : r.startLine = startLine (some (((startLine c.offset - 1 : ℕ) : ℤ) + 1)) := hr ▸ rfl
    rw [hfirst, startLine_succ]
    exact Nat.sub_add_cancel hpos
  have hcount : r.returnedLineCount = (shownLines r).length := by
    have hreturned : r.returnedLineCount = p.renderedLines.length := hr ▸ rfl
    rw [hreturned, hshown]
  have htruncated : r.truncated = decide (r.startLine - 1 + r.returnedLineCount < ((x.reading raw).lines text).length) := hr ▸ rfl
  have hnext : r.nextOffset = if r.truncated && decide (0 < r.returnedLineCount) then some (r.startLine + r.returnedLineCount) else none :=
    hr ▸ rfl
  have hsome : r.truncated = true → 0 < r.returnedLineCount := by
    intro htrue
    rw [htruncated, decide_eq_true_eq, hstart] at htrue
    rw [hcount]
    exact List.length_pos_iff.mpr (hserves.progress (by omega))
  refine ⟨fun r' hr' => ?_, hsome⟩
  cases hr'
  refine ⟨raw, text, hraw, htext, hstart ▸ hpos, ?_, ?_, htruncated, ?_⟩
  · have hle := hserves.items.length_le
    rw [List.length_drop] at hle
    rw [hcount, hstart]
    exact hle
  · rw [hcount, hstart]
    exact List.prefix_iff_eq_take.mp hserves.items
  · rw [hnext, htruncated]
    by_cases hmore : r.startLine - 1 + r.returnedLineCount < ((x.reading raw).lines text).length
    · have hlines := hsome (htruncated.trans (decide_eq_true hmore))
      rw [if_pos hmore, if_pos (Bool.and_eq_true_iff.mpr ⟨decide_eq_true hmore, decide_eq_true hlines⟩)]
    · rw [if_neg hmore, decide_eq_false hmore, Bool.false_and]
      rfl

/-! ### Cutting them -/

theorem shownLines_cutTo {r : ReadReply} (hfree : ∀ l ∈ shownLines r, lineFeed ∉ l) {k : ℕ} (hk : k ≤ (shownLines r).length) :
    shownLines (cutTo enc x r k) = (shownLines r).take k := by
  have hcount : (cutTo enc x r k).returnedLineCount = k := rfl
  have hcontent : (cutTo enc x r k).content = joinLines ((shownLines r).take k) := rfl
  rw [shownLines, hcount, hcontent]
  split
  · next hzero => rw [hzero, List.take_zero]
  · next hsome =>
    refine List.splitOn_intercalate lineFeed (fun l hl => hfree l (List.mem_of_mem_take hl)) fun hnil => hsome ?_
    have hlength := congrArg List.length hnil
    rw [List.length_take, List.length_nil] at hlength
    omega

theorem cutTo_cutTo {r : ReadReply} (hfree : ∀ l ∈ shownLines r, lineFeed ∉ l) {j k : ℕ} (hj : j ≤ (shownLines r).length) (hk : k ≤ j) :
    cutTo enc x (cutTo enc x r j) k = cutTo enc x r k := by
  rw [cutTo, shownLines_cutTo hfree hj, List.take_take, Nat.min_eq_left hk]
  rfl

theorem WellPaged.length {lines : List Text} {r : ReadReply} (h : WellPaged lines r) : (shownLines r).length = r.returnedLineCount := by
  rw [h.shown, List.length_take, List.length_drop]
  exact Nat.min_eq_left h.count

theorem WellPaged.noFeed {lines : List Text} {r : ReadReply} (h : WellPaged lines r) (hlines : ∀ l ∈ lines, lineFeed ∉ l) :
    ∀ l ∈ shownLines r, lineFeed ∉ l :=
  fun l hl => hlines l (List.mem_of_mem_drop (List.mem_of_mem_take (h.shown ▸ hl)))

theorem WellPaged.cut {lines : List Text} {r : ReadReply} (h : WellPaged lines r) (hlines : ∀ l ∈ lines, lineFeed ∉ l) {k : ℕ}
    (hk : k < r.returnedLineCount) : WellPaged lines (cutTo enc x r k) := by
  have hcount := h.count
  have hmore : r.startLine - 1 + k < lines.length := by omega
  refine ⟨h.start, Nat.le_trans (Nat.le_of_lt hk) hcount, ?_, (decide_eq_true hmore).symm, (if_pos hmore).symm⟩
  rw [shownLines_cutTo (h.noFeed hlines) (h.length ▸ Nat.le_of_lt hk), h.shown, List.take_take, Nat.min_eq_left (Nat.le_of_lt hk)]
  rfl

theorem Child.Sound.cut {f : SourceFile} {r : ReadReply} (h : Child.Sound x ⟨f, .reply r⟩) {k : ℕ} (hk : k < r.returnedLineCount) :
    (BatchReading.cut enc x ⟨f, .reply r⟩ k).Sound x := by
  obtain ⟨raw, text, hraw, htext, hpaged⟩ := h r rfl
  intro r' hr'
  cases hr'
  exact ⟨raw, text, hraw, htext, hpaged.cut lines_noFeed hk⟩

/-! ## The loops -/

theorem fits_candidate {start : ℕ} {children : List Child} {rendered : Dict × BudgetMeasurement}
    (h : candidate enc x start children = .ok rendered) : Fits enc x start children ↔ rendered.2.fits = true := by
  rw [Fits, fitsReply_of_ok h]

/-- The page is cut to the greatest number of lines with which the reply fits. -/
theorem shrink_spec {start : ℕ} {front : List Child} {f : SourceFile} {r : ReadReply} (hfree : ∀ l ∈ shownLines r, lineFeed ∉ l) {n : ℕ}
    (hcount : r.returnedLineCount = n) (hlength : (shownLines r).length = n) {kept : Option ReadReply}
    (h : shrink enc x start front f r n = .ok kept) :
    (kept = none ∧ ∀ k < n, ¬Fits enc x start (front ++ [⟨f, .reply (cutTo enc x r k)⟩])) ∨
      ∃ k < n, kept = some (cutTo enc x r k) ∧ Fits enc x start (front ++ [⟨f, .reply (cutTo enc x r k)⟩]) ∧
        ∀ j < n, k < j → ¬Fits enc x start (front ++ [⟨f, .reply (cutTo enc x r j)⟩]) := by
  induction n generalizing r with
  | zero =>
    cases Except.ok.inj h
    exact .inl ⟨rfl, fun k hk => absurd hk (Nat.not_lt_zero k)⟩
  | succ n ih =>
    obtain ⟨m, hm, h⟩ := bind_eq_ok.mp h
    obtain ⟨rendered, hrendered, h⟩ := bind_eq_ok.mp h
    have hcontent : r.content.splitOn lineFeed = shownLines r := by
      rw [shownLines, if_neg (hcount ▸ Nat.succ_ne_zero n)]
    rw [hcontent] at hm hrendered h
    have hcut : cutReply r n (joinLines ((shownLines r).take n)) m = cutTo enc x r n := by
      rw [cutTo, measured, hm]
    rw [hcut] at hrendered h
    split at h
    · next hfits =>
      cases Except.ok.inj h
      exact .inr ⟨n, Nat.lt_succ_self n, rfl, (fits_candidate hrendered).mpr hfits, fun j hj hlt => absurd hj (Nat.not_lt.mpr hlt)⟩
    · next hfits =>
      have hle : n ≤ (shownLines r).length := hlength ▸ Nat.le_succ n
      have hshown : shownLines (cutTo enc x r n) = (shownLines r).take n := shownLines_cutTo hfree hle
      have hshort : ∀ k < n, cutTo enc x (cutTo enc x r n) k = cutTo enc x r k := fun k hk => cutTo_cutTo hfree hle (Nat.le_of_lt hk)
      have hnot : ¬Fits enc x start (front ++ [⟨f, .reply (cutTo enc x r n)⟩]) := fun hsome => hfits ((fits_candidate hrendered).mp hsome)
      have hlast : ∀ j < n + 1, ¬j < n → ¬Fits enc x start (front ++ [⟨f, .reply (cutTo enc x r j)⟩]) := by
        intro j hj hjn
        have heq : j = n := by omega
        exact heq ▸ hnot
      cases ih (fun l hl => hfree l (List.mem_of_mem_take (hshown ▸ hl))) rfl
        (by rw [hshown, List.length_take]; exact Nat.min_eq_left hle) h with
      | inl hnone =>
        refine .inl ⟨hnone.1, fun k hk => ?_⟩
        by_cases hkn : k < n
        · exact hshort k hkn ▸ hnone.2 k hkn
        · exact hlast k hk hkn
      | inr hsome =>
        obtain ⟨k, hk, hkept, hfit, hmost⟩ := hsome
        rw [hshort k hk] at hkept hfit
        refine .inr ⟨k, Nat.lt_succ_of_lt hk, hkept, hfit, fun j hj hkj => ?_⟩
        by_cases hjn : j < n
        · exact hshort j hjn ▸ hmost j hjn hkj
        · exact hlast j hj hjn

/-- What is shown of the file at which the loop stops. -/
def Kept (enc : TokenEncoding) (x : BatchRead) (start : ℕ) (front : List Child) (child : Child) (last : List Child) : Prop :=
  (last = [] ∧ ∀ k < child.lineCount, ¬Fits enc x start (front ++ [cut enc x child k])) ∨
    ∃ k < child.lineCount, last = [cut enc x child k] ∧ Fits enc x start (front ++ [cut enc x child k]) ∧
      ∀ j < child.lineCount, k < j → ¬Fits enc x start (front ++ [cut enc x child j])

theorem whole_of_readFile {c : BatchCall} {f : SourceFile} {outcome : ReadOutcome} (h : readFile enc f.entry (x.request c f) = .ok outcome) :
    whole enc x c f = ⟨f, outcome⟩ := by rw [whole, h]

/-- Files are shown whole while the reply fits, and of the next one what fits. -/
theorem gather_spec {c : BatchCall} {start : ℕ} {results : List Child} {files : List SourceFile} {gathered : List Child × Bool}
    (h : gather enc x c start results files = .ok gathered) : ∃ n,
      Filled (Fits enc x start) results (files.map (whole enc x c)) n ∧
      ((n = files.length ∧ gathered = (results ++ (files.map (whole enc x c)).take n, false)) ∨
        ∃ f last, files[n]? = some f ∧
          Kept enc x start (results ++ (files.map (whole enc x c)).take n) (whole enc x c f) last ∧
          gathered = (results ++ (files.map (whole enc x c)).take n ++ last, true)) := by
  induction files generalizing results with
  | nil =>
    cases Except.ok.inj h
    exact ⟨0, filled_nil, .inl ⟨rfl, by rw [List.map_nil, List.take_nil, List.append_nil]⟩⟩
  | cons f files ih =>
    obtain ⟨outcome, houtcome, h⟩ := bind_eq_ok.mp h
    obtain ⟨rendered, hrendered, h⟩ := bind_eq_ok.mp h
    have hwhole := whole_of_readFile houtcome
    rw [← hwhole] at hrendered
    split at h
    · next hfits =>
      rw [← hwhole] at h
      obtain ⟨n, hfilled, hends⟩ := ih h
      have hshift : results ++ ((f :: files).map (whole enc x c)).take (n + 1) =
          results ++ [whole enc x c f] ++ (files.map (whole enc x c)).take n := by
        rw [List.map_cons, List.take_succ_cons, List.append_cons]
      refine ⟨n + 1, hfilled.cons ((fits_candidate hrendered).mpr hfits), ?_⟩
      rw [hshift]
      cases hends with
      | inl hall => exact .inl ⟨congrArg Nat.succ hall.1, hall.2⟩
      | inr hstop =>
        obtain ⟨g, last, hg, hkept, hgathered⟩ := hstop
        exact .inr ⟨g, last, hg, hkept, hgathered⟩
    · next hfits =>
      have hnot : ¬Fits enc x start (results ++ [whole enc x c f]) := fun hsome => hfits ((fits_candidate hrendered).mp hsome)
      refine ⟨0, filled_stop hnot, .inr ?_⟩
      rw [List.take_zero, List.append_nil]
      suffices hlast : ∃ last, Kept enc x start results (whole enc x c f) last ∧ gathered = (results ++ last, true) by
        obtain ⟨last, hkept, hgathered⟩ := hlast
        exact ⟨f, last, rfl, hkept, hgathered⟩
      cases houtcome' : outcome with
      | error code message =>
        rw [houtcome'] at h
        cases Except.ok.inj h
        refine ⟨[], .inl ⟨rfl, fun k hk => ?_⟩, by rw [List.append_nil]⟩
        rw [hwhole, houtcome'] at hk
        exact absurd hk (Nat.not_lt_zero k)
      | reply r =>
        rw [houtcome'] at h houtcome hwhole
        obtain ⟨kept, hkept, h⟩ := bind_eq_ok.mp h
        obtain ⟨raw, text, -, -, hpaged⟩ := (readFile_sound houtcome).1 r rfl
        have hshrunk := shrink_spec (hpaged.noFeed lines_noFeed) rfl hpaged.length hkept
        rw [hwhole]
        cases hshrunk with
        | inl hnone =>
          rw [hnone.1] at h
          cases Except.ok.inj h
          exact ⟨[], .inl ⟨rfl, hnone.2⟩, by rw [List.append_nil]⟩
        | inr hsome =>
          obtain ⟨k, hk, hshort, hfit, hmost⟩ := hsome
          rw [hshort] at h
          cases Except.ok.inj h
          exact ⟨_, .inr ⟨k, hk, rfl, hfit, hmost⟩, rfl⟩

/-! ## Replies -/

theorem whole_file (c : BatchCall) (f : SourceFile) : (whole enc x c f).file = f := by
  rw [whole]
  split
  · rfl
  · rfl

/-- Entries that are shown whole are sound, and one that leaves lines has some. -/
theorem whole_sound (c : BatchCall) (f : SourceFile) :
    (whole enc x c f).Sound x ∧ ((whole enc x c f).truncated = true → 0 < (whole enc x c f).lineCount) := by
  rw [whole]
  split
  · next outcome houtcome =>
    cases outcome with
    | error code message => exact ⟨fun r hr => absurd hr (by simp), fun h => absurd h Bool.false_ne_true⟩
    | reply r => exact readFile_sound houtcome
  · exact ⟨fun r hr => absurd hr (by simp), fun h => absurd h Bool.false_ne_true⟩

theorem cut_file (child : Child) (k : ℕ) : (cut enc x child k).file = child.file := by
  rw [cut]
  split
  · rfl
  · rfl

theorem cut_facts {child : Child} (h : child.Sound x) {k : ℕ} (hk : k < child.lineCount) :
    (cut enc x child k).Sound x ∧ (cut enc x child k).truncated = true ∧ (cut enc x child k).lineCount = k := by
  obtain ⟨f, outcome⟩ := child
  cases outcome with
  | error code message => exact absurd hk (Nat.not_lt_zero k)
  | reply r => exact ⟨h.cut hk, rfl, rfl⟩

/-- The entries lead on: to a later file, or behind the last one by a line that is shown. -/
def Leads (x : BatchRead) (start : ℕ) (children : List Child) : Prop :=
  (start + children.length < x.files.length → children ≠ []) ∧
    (x.files.length ≤ start + children.length → (∃ child ∈ children, child.truncated = true) → ∃ child ∈ children, 0 < child.lineCount)

theorem leads_iff {start : ℕ} {front last : List Child} {child : Child} (hsound : child.Sound x)
    (hlt : start + front.length < x.files.length) (hkept : Kept enc x start front child last) :
    Leads x start (front ++ last) ↔ Progresses enc x start front child := by
  cases hkept with
  | inl hnone =>
    obtain ⟨rfl, hnone⟩ := hnone
    rw [List.append_nil]
    constructor
    · exact fun h => ⟨.inl (h.1 hlt), fun _ hsome => absurd hsome fun ⟨k, hk, hfit⟩ => hnone k hk hfit⟩
    · exact fun h => ⟨fun _ => h.1.resolve_right fun ⟨k, hk, hfit⟩ => hnone k hk hfit, fun hle => absurd hlt (Nat.not_lt.mpr hle)⟩
  | inr hsome =>
    obtain ⟨k, hk, rfl, hfit, hmost⟩ := hsome
    obtain ⟨-, htruncated, hcount⟩ := cut_facts hsound hk
    constructor
    · refine fun h => ⟨.inr ⟨k, hk, hfit⟩, fun hend _ => ?_⟩
      obtain ⟨shown, hmem, hpos⟩ := h.2 (by rw [List.length_append, List.length_singleton]; omega)
        ⟨_, List.mem_append_right _ (List.mem_singleton_self _), htruncated⟩
      cases List.mem_append.mp hmem with
      | inl hmem => exact .inl ⟨shown, hmem, hpos⟩
      | inr hmem =>
        cases List.mem_singleton.mp hmem
        exact .inr ⟨k, hk, hcount ▸ hpos, hfit⟩
    · refine fun h => ⟨fun _ => List.append_ne_nil_of_right_ne_nil _ (List.cons_ne_nil _ _), fun hle _ => ?_⟩
      rw [List.length_append, List.length_singleton] at hle
      cases h.2 (by omega) ⟨k, hk, hfit⟩ with
      | inl hfront =>
        obtain ⟨earlier, hmem, hpos⟩ := hfront
        exact ⟨earlier, List.mem_append_left _ hmem, hpos⟩
      | inr hlines =>
        obtain ⟨j, hj, hpos, hfits⟩ := hlines
        have hle : j ≤ k := Nat.not_lt.mp fun hlt => hmost j hj hlt hfits
        refine ⟨_, List.mem_append_right _ (List.mem_singleton_self _), ?_⟩
        rw [hcount]
        exact Nat.lt_of_lt_of_le hpos hle

theorem leads_whole {c : BatchCall} {start : ℕ} : Leads x start ((x.files.drop start).map (whole enc x c)) := by
  refine ⟨fun hlt => ?_, fun _ hsome => ?_⟩
  · rw [List.length_map, List.length_drop] at hlt
    omega
  · obtain ⟨child, hmem, htruncated⟩ := hsome
    obtain ⟨f, -, rfl⟩ := List.mem_map.mp hmem
    exact ⟨_, hmem, (whole_sound c f).2 htruncated⟩

/-- What is gathered from an offset on. -/
structure Gathered (enc : TokenEncoding) (x : BatchRead) (c : BatchCall) (start : ℕ) (children : List Child) : Prop where
  files : children.map Child.file <+: x.files.drop start
  sound : ∀ child ∈ children, child.Sound x
  leads : Leads x start children ↔ ∀ n f, Filled (Fits enc x start) [] ((x.files.drop start).map (whole enc x c)) n →
    x.files[start + n]? = some f → Progresses enc x start (((x.files.drop start).map (whole enc x c)).take n) (whole enc x c f)

theorem gathered_of_gather {c : BatchCall} {start : ℕ} {gathered : List Child × Bool}
    (h : gather enc x c start [] (x.files.drop start) = .ok gathered) : Gathered enc x c start gathered.1 := by
  obtain ⟨n, hfilled, hends⟩ := gather_spec h
  rw [List.nil_append] at hends
  have hfront : ∀ child ∈ ((x.files.drop start).map (whole enc x c)).take n, child.Sound x := by
    intro child hmem
    obtain ⟨f, -, rfl⟩ := List.mem_map.mp (List.mem_of_mem_take hmem)
    exact (whole_sound c f).1
  have hnames : (((x.files.drop start).map (whole enc x c)).take n).map Child.file = (x.files.drop start).take n := by
    have hid : Child.file ∘ whole enc x c = id := funext fun f => whole_file c f
    rw [← List.map_take, List.map_map, hid, List.map_id]
  have hle := hfilled.le
  rw [List.length_map, List.length_drop] at hle
  cases hends with
  | inl hall =>
    obtain ⟨hn, rfl⟩ := hall
    rw [List.length_drop] at hn
    have htake : ((x.files.drop start).map (whole enc x c)).take n = (x.files.drop start).map (whole enc x c) :=
      List.take_of_length_le (by rw [List.length_map, List.length_drop]; omega)
    have hleads : Leads x start (((x.files.drop start).map (whole enc x c)).take n) := by
      rw [htake]
      exact leads_whole
    refine ⟨hnames ▸ List.take_prefix _ _, hfront, iff_of_true hleads fun m f hm hf => ?_⟩
    cases hm.unique hfilled
    obtain ⟨hlt, -⟩ := List.getElem?_eq_some_iff.mp hf
    omega
  | inr hstop =>
    obtain ⟨f, last, hf, hkept, rfl⟩ := hstop
    rw [List.getElem?_drop] at hf
    obtain ⟨hlt, hget⟩ := List.getElem?_eq_some_iff.mp hf
    have hlength : (((x.files.drop start).map (whole enc x c)).take n).length = n := by
      rw [List.length_take, List.length_map, List.length_drop]
      exact Nat.min_eq_left hle
    refine ⟨?_, fun child hmem => ?_, ?_⟩
    · have hnext : (x.files.drop start).take (n + 1) = (x.files.drop start).take n ++ [f] := by
        rw [List.take_add_one, List.getElem?_drop, hf]
        rfl
      rw [List.map_append, hnames]
      cases hkept with
      | inl hnone =>
        rw [hnone.1, List.map_nil, List.append_nil]
        exact List.take_prefix _ _
      | inr hsome =>
        obtain ⟨k, -, rfl, -⟩ := hsome
        rw [List.map_singleton, cut_file, whole_file, ← hnext]
        exact List.take_prefix _ _
    · cases List.mem_append.mp hmem with
      | inl hmem => exact hfront child hmem
      | inr hmem =>
        cases hkept with
        | inl hnone =>
          rw [hnone.1] at hmem
          exact absurd hmem List.not_mem_nil
        | inr hsome =>
          obtain ⟨k, hk, rfl, -⟩ := hsome
          cases List.mem_singleton.mp hmem
          exact (cut_facts (whole_sound c f).1 hk).1
    · refine (leads_iff (whole_sound c f).1 (hlength.symm ▸ hlt) hkept).trans ⟨fun h m g hm hg => ?_, fun h => h n f hfilled hf⟩
      cases hm.unique hfilled
      cases Option.some.inj (hf.symm.trans hg)
      exact h

theorem readFiles_steps {c : BatchCall} {start : ℤ} {d : Dict} (h : readFiles enc x c start = .ok d) : ∃ gathered,
    gather enc x c start.toNat [] (x.files.drop start.toNat) = .ok gathered ∧
      shownItems (txt "results") d = gathered.1.map (fun child => .obj (x.childFields child)) ∧
      nextOffsetOf d = if start.toNat + gathered.1.length < x.files.length then some (start.toNat + gathered.1.length) else none := by
  obtain ⟨gathered, hgathered, h⟩ := bind_eq_ok.mp h
  obtain ⟨r, hr, h⟩ := bind_eq_ok.mp h
  cases Except.ok.inj h
  refine ⟨gathered, hgathered, (shownItems_reply (by decide) hr).trans rfl, (nextOffsetOf_reply hr).trans ?_⟩
  refine (countOf_optionalCount _).trans ?_
  simp only [decide_eq_true_eq]

section
variable {c : BatchCall} {start : ℤ} {d : Dict} {gathered : List Child × Bool}
  (hgathered : gather enc x c start.toNat [] (x.files.drop start.toNat) = .ok gathered) (h : readFiles enc x c start = .ok d)
include hgathered h

theorem soundReply_of_leads (hleads : Leads x start.toNat gathered.1) : SoundReply x start d gathered.1 := by
  obtain ⟨gathered', hsame, hshown, hnext⟩ := readFiles_steps h
  cases Except.ok.inj (hgathered.symm.trans hsame)
  have hsound := gathered_of_gather hgathered
  refine ⟨hshown, hsound.files, hsound.sound, hnext, fun hmore => ?_⟩
  by_cases hlt : start.toNat + gathered.1.length < x.files.length
  · have hpos := List.length_pos_iff.mpr (hleads.1 hlt)
    exact .inl ⟨_, hnext.trans (if_pos hlt), by omega⟩
  · refine .inr (hleads.2 (Nat.le_of_not_lt hlt) (hmore.resolve_left fun hsome => ?_))
    obtain ⟨j, hj⟩ := hsome
    exact absurd (hj.symm.trans (hnext.trans (if_neg hlt))) (Option.some_ne_none j)

end

theorem SoundReply.leads {start : ℕ} {d : Dict} {children : List Child} (h : SoundReply x start d children) : Leads x start children := by
  have hnext := h.next
  rw [Int.toNat_natCast] at hnext
  refine ⟨fun hlt hnil => ?_, fun hle hsome => ?_⟩
  · rw [if_pos hlt] at hnext
    cases h.progress (.inl ⟨_, hnext⟩) with
    | inl hlater =>
      obtain ⟨j, hj, hless⟩ := hlater
      have hsame := Option.some.inj (hnext.symm.trans hj)
      rw [hnil, List.length_nil] at hsame
      omega
    | inr hlines =>
      obtain ⟨child, hmem, -⟩ := hlines
      exact absurd (hnil ▸ hmem) List.not_mem_nil
  · rw [if_neg (Nat.not_lt.mpr hle)] at hnext
    refine (h.progress (.inr hsome)).resolve_left fun hlater => ?_
    obtain ⟨j, hj, -⟩ := hlater
    exact absurd (hnext.symm.trans hj) (Option.some_ne_none j).symm

/-! ## Texts that can be measured -/

theorem cleanJson_pair {f g : Text × Json} (hf : CleanField f) (hg : CleanField g) : CleanJson (.obj [f, g]) := by
  refine cleanJson_obj.mpr ?_
  rw [List.forall_mem_cons, List.forall_mem_singleton]
  exact ⟨hf, hg⟩

theorem childFields_clean {child : Child} (hpath : Measurable child.file.path) (herror : ∀ code message, child.outcome = .error code message →
    Measurable code ∧ Measurable message) (hreply : ∀ r, child.outcome = .reply r → Measurable r.path ∧ Measurable child.file.language ∧
      Measurable r.content ∧ Measurable r.pageState ∧ Measurable r.stopReason) : CleanJson (.obj (x.childFields child)) := by
  refine cleanJson_obj.mpr fun f hf => ?_
  cases houtcome : child.outcome with
  | error code message =>
    obtain ⟨hcode, hmessage⟩ := herror code message houtcome
    simp only [BatchRead.childFields, houtcome, List.mem_cons, List.not_mem_nil, or_false] at hf
    obtain rfl | rfl | rfl := hf
    · exact cleanField_bool (by decide)
    · exact cleanField_of (by decide)
        (cleanJson_pair ((cleanField_str_iff (by decide)).mpr hcode) ((cleanField_str_iff (by decide)).mpr hmessage))
    · exact (cleanField_str_iff (by decide)).mpr hpath
  | reply r =>
    obtain ⟨hname, hlanguage, hcontent, hstate, hreason⟩ := hreply r houtcome
    have hpage : CleanJson (.obj (x.pageFields r)) := by
      refine cleanJson_obj.mpr fun f hf => ?_
      simp only [BatchRead.pageFields, List.mem_cons, List.not_mem_nil, or_false] at hf
      obtain rfl | rfl | rfl | rfl | rfl | rfl | rfl | rfl | rfl := hf
      · exact (cleanField_str_iff (by decide)).mpr hstate
      · exact (cleanField_str_iff (by decide)).mpr hreason
      · exact cleanField_nat (by decide)
      · exact cleanField_nat (by decide)
      · exact cleanField_nat (by decide)
      · exact cleanField_benign (by decide) (by decide)
      · exact cleanField_of (by decide) (cleanJson_pair (cleanField_nat (by decide)) (cleanField_nat (by decide)))
      · exact cleanField_of (by decide) (cleanJson_pair (cleanField_bool (by decide)) (cleanField_bool (by decide)))
      · exact cleanField_of (by decide) (cleanJson_pair (cleanField_bool (by decide))
          (cleanField_of_strings_nil (by decide) (strings_optionalCount _)))
    simp only [BatchRead.childFields, houtcome, List.mem_cons, List.not_mem_nil, or_false] at hf
    obtain rfl | rfl | rfl | rfl | rfl | rfl | rfl | rfl | rfl | rfl | rfl | rfl := hf
    · exact cleanField_bool (by decide)
    · exact (cleanField_str_iff (by decide)).mpr hname
    · exact (cleanField_str_iff (by decide)).mpr hcontent
    · exact cleanField_bool (by decide)
    · exact cleanField_of_strings_nil (by decide) (strings_optionalCount _)
    · exact cleanField_benign (by decide) (by decide)
    · exact cleanField_nat (by decide)
    · exact cleanField_nat (by decide)
    · exact cleanField_bool (by decide)
    · exact (cleanField_str_iff (by decide)).mpr hlanguage
    · exact cleanField_bool (by decide)
    · exact cleanField_of (by decide) hpage

theorem payload_clean_iff (children : List Child) (next : Option ℕ) :
    CleanPayload (x.payload children next) ↔ ∀ child ∈ children, CleanJson (.obj (x.childFields child)) := by
  have hresults : (∀ child ∈ children, CleanJson (.obj (x.childFields child))) ↔
      CleanJson (.arr (children.map fun child => .obj (x.childFields child))) := by
    rw [cleanJson_arr, List.forall_mem_map]
  rw [hresults]
  constructor
  · intro h
    have hkey : txt "results" ∉ contractKeys := by decide
    exact (h (txt "results", _) (by simp [BatchRead.payload]) hkey).2
  · intro h f hf _
    simp only [BatchRead.payload, List.mem_cons, List.not_mem_nil, or_false] at hf
    obtain rfl | rfl | rfl | rfl | rfl := hf
    · exact cleanField_bool (by decide)
    · exact cleanField_benign (by decide) (by decide)
    · exact cleanField_of (by decide) h
    · exact cleanField_benign (by decide) (by decide)
    · exact cleanField_of_strings_nil (by decide) (strings_optionalCount next)

theorem takeLines_stopReason {budget : Budget} {b : Bool} {number : ℕ} {lines : List Text} {page p : ReadPage}
    (h : takeLines enc budget b number lines page = .ok p) (hpage : page.stopReason = none) {t : Text} (ht : p.stopReason = some t) :
    isBenign t = true := by
  induction lines generalizing number page with
  | nil =>
    cases Except.ok.inj h
    exact absurd (ht.symm.trans hpage) (Option.some_ne_none t)
  | cons line lines ih =>
    obtain ⟨m, -, h⟩ := bind_eq_ok.mp h
    split at h
    · exact ih h hpage
    · split at h
      · cases Except.ok.inj h
        exact stopReason_benign ht
      · cases Except.ok.inj h
        exact stopReason_benign ht

theorem pageState_benign (request : ReadRequest) (count : ℕ) (p : ReadPage) : isBenign (readReply request count p).pageState = true := by
  have hall : isBenign (txt "oversized_line") = true ∧ isBenign (txt "truncated") = true ∧ isBenign (txt "complete") = true := by decide
  simp only [readReply]
  split
  · exact hall.1
  · split
    · exact hall.2.1
    · exact hall.2.2

theorem replyReason_benign {request : ReadRequest} {count : ℕ} {p : ReadPage} (h : ∀ t, p.stopReason = some t → isBenign t = true) :
    isBenign (readReply request count p).stopReason = true := by
  have hall : isBenign (txt "line_limit") = true ∧ isBenign (txt "end_of_file") = true := by decide
  simp only [readReply]
  cases hreason : p.stopReason with
  | some t => exact h t hreason
  | none =>
    rw [Option.getD_none]
    split
    · exact hall.1
    · exact hall.2

/-- An entry whose texts can all be measured, cut or not. -/
structure Child.Clean (child : Child) : Prop where
  path : Measurable child.file.path
  error : ∀ code message, child.outcome = .error code message → Measurable code ∧ Measurable message
  reply : ∀ r, child.outcome = .reply r → Measurable r.path ∧ Measurable child.file.language ∧ Measurable r.content ∧
    Measurable r.pageState ∧ Measurable r.stopReason ∧ ∀ l ∈ shownLines r, Measurable l

theorem Child.Clean.json {child : Child} (h : child.Clean) : CleanJson (.obj (x.childFields child)) :=
  childFields_clean h.path h.error fun r hr => ⟨(h.reply r hr).1, (h.reply r hr).2.1, (h.reply r hr).2.2.1, (h.reply r hr).2.2.2.1,
    (h.reply r hr).2.2.2.2.1⟩

theorem Child.Clean.cutTo {f : SourceFile} {r : ReadReply} (h : Child.Clean ⟨f, .reply r⟩) (hfree : ∀ l ∈ shownLines r, lineFeed ∉ l) {k : ℕ}
    (hk : k ≤ (shownLines r).length) : Child.Clean ⟨f, .reply (BatchReading.cutTo enc x r k)⟩ := by
  obtain ⟨hname, hlanguage, -, -, -, hlines⟩ := h.reply r rfl
  have hcut : ∀ l ∈ (shownLines r).take k, Measurable l := fun l hl => hlines l (List.mem_of_mem_take hl)
  refine ⟨h.path, fun code message hnone => absurd hnone (by simp), fun r' hr' => ?_⟩
  cases hr'
  have hbenign : isBenign (txt "truncated") = true ∧ isBenign (txt "batch_token_budget") = true := by decide
  exact ⟨hname, hlanguage, measurable_joinLines_iff.mpr hcut, measurable_of_isBenign hbenign.1, measurable_of_isBenign hbenign.2,
    by rw [shownLines_cutTo hfree hk]; exact hcut⟩

/-- A file with measurable texts is read. -/
theorem readFile_returns {f : SourceFile} (hf : f.Clean) (c : BatchCall) :
    ∃ outcome, readFile enc f.entry (x.request c f) = .ok outcome ∧ Child.Clean ⟨f, outcome⟩ := by
  have herror : ∀ code message : Text, isBenign code = true → Measurable message → Child.Clean ⟨f, .error code message⟩ := by
    intro code message hcode hmessage
    refine ⟨hf.path, fun code' message' h => ?_, fun r h => absurd h (by simp)⟩
    cases h
    exact ⟨measurable_of_isBenign hcode, hmessage⟩
  have hpath : ∀ t : Text, isBenign t = true → Measurable (t ++ f.path) := fun t ht =>
    (AvoidedWords.avoids_append_iff_of_neverOpens nil_notMem_unmeasurable (neverOpens_of_isBenign ht)).mpr hf.path
  cases hentry : f.entry with
  | missing => exact ⟨_, rfl, herror _ _ (by decide) (hpath _ (by decide))⟩
  | notFile => exact ⟨_, rfl, herror _ _ (by decide) (hpath _ (by decide))⟩
  | file raw =>
    cases htext : readText raw with
    | none =>
      refine ⟨.error (txt "not_text_file") (txt "Binary files are not supported."), ?_, herror _ _ (by decide)
        (measurable_of_isBenign (by decide))⟩
      simp only [readFile, htext]
      rfl
    | some text =>
      obtain ⟨hlanguage, hmeasurable⟩ := hf.text raw text hentry htext
      have hlines := (measurable_splitlines_iff text).mp hmeasurable
      obtain ⟨r, hr⟩ : ∃ r, replyAt enc (x.reading raw) ⟨f.path, c.limit, c.maxLines⟩ (startLine c.offset - 1) = some r :=
        replyAt_returns htext hmeasurable _ _
      have hread : readFile enc (.file (x.reading raw).raw)
          (requestAt (x.reading raw) ⟨f.path, c.limit, c.maxLines⟩ (startLine c.offset - 1)) = .ok (.reply r) := by
        rw [replyAt] at hr
        split at hr
        · next r' hr' => exact Option.some.inj hr ▸ hr'
        · exact absurd hr.symm (Option.some_ne_none r)
      refine ⟨.reply r, (readFile_request c f raw).trans hread, ⟨hf.path, fun code message hnone => absurd hnone (by simp), ?_⟩⟩
      intro r' hr'
      cases hr'
      have hshown : ∀ l ∈ shownLines r, Measurable l := fun l hl =>
        measurable_renderedFrom hlines l (List.mem_of_mem_drop ((replyAt_serves htext hr).items.subset hl))
      obtain ⟨p, -, hp, hsplit⟩ := replyAt_spec htext hr
      have hcontent : r.content = joinLines (shownLines r) := by
        rw [hsplit, hp]
        rfl
      rw [readFile_text htext] at hread
      obtain ⟨empty, -, hread⟩ := bind_eq_ok.mp hread
      obtain ⟨page, hpage, hread⟩ := bind_eq_ok.mp hread
      have hreply := ReadOutcome.reply.inj (Except.ok.inj hread)
      have hstate : isBenign r.pageState = true := by
        rw [← hreply]
        exact pageState_benign _ _ _
      have hreason : isBenign r.stopReason = true := by
        rw [← hreply]
        exact replyReason_benign fun t ht => takeLines_stopReason hpage rfl ht
      have hname : r.path = f.path := hreply ▸ rfl
      exact ⟨hname ▸ hf.path, hlanguage, hcontent ▸ measurable_joinLines_iff.mpr hshown, measurable_of_isBenign hstate,
        measurable_of_isBenign hreason, hshown⟩

variable (enc x) in
theorem candidate_returns (start : ℕ) {children : List Child} (h : ∀ child ∈ children, child.Clean) :
    ∃ rendered, candidate enc x start children = .ok rendered :=
  (withBudgetMetadata_returns_iff enc _ _ _ _).mpr
    ⟨(payload_clean_iff _ _).mpr fun child hmem => (h child hmem).json, measurable_of_isBenign (by decide)⟩

theorem clean_append {children : List Child} {child : Child} (h : ∀ c ∈ children, c.Clean) (hchild : child.Clean) :
    ∀ c ∈ children ++ [child], c.Clean := by
  rw [List.forall_mem_append, List.forall_mem_singleton]
  exact ⟨h, hchild⟩

theorem shrink_returns {start : ℕ} {front : List Child} {f : SourceFile} {r : ReadReply} (hfront : ∀ child ∈ front, child.Clean)
    (hr : Child.Clean ⟨f, .reply r⟩) (hfree : ∀ l ∈ shownLines r, lineFeed ∉ l) {n : ℕ} (hcount : r.returnedLineCount = n)
    (hlength : (shownLines r).length = n) :
    ∃ kept, shrink enc x start front f r n = .ok kept ∧ ∀ shorter, kept = some shorter → Child.Clean ⟨f, .reply shorter⟩ := by
  induction n generalizing r with
  | zero => exact ⟨none, rfl, fun shorter h => absurd h.symm (Option.some_ne_none shorter)⟩
  | succ n ih =>
    have hle : n ≤ (shownLines r).length := hlength ▸ Nat.le_succ n
    have hcut : Child.Clean ⟨f, .reply (cutTo enc x r n)⟩ := hr.cutTo hfree hle
    have hcontent : r.content.splitOn lineFeed = shownLines r := by
      rw [shownLines, if_neg (hcount ▸ Nat.succ_ne_zero n)]
    obtain ⟨m, hm⟩ := (measure_returns_iff enc x.pageBudget _).mpr (hcut.reply _ rfl).2.2.1
    have hm : measure enc x.pageBudget (joinLines ((shownLines r).take n)) = .ok m := hm
    have hreply : cutReply r n (joinLines ((shownLines r).take n)) m = cutTo enc x r n := by
      rw [cutTo, measured, hm]
    obtain ⟨rendered, hrendered⟩ := candidate_returns enc x start (clean_append hfront hcut)
    have hstep : shrink enc x start front f r (n + 1) =
        if rendered.2.fits then pure (some (cutTo enc x r n)) else shrink enc x start front f (cutTo enc x r n) n := by
      rw [shrink, hcontent]
      simp only [hm, bind, Except.bind, hreply, hrendered]
    rw [hstep]
    split
    · exact ⟨_, rfl, fun shorter h => Option.some.inj h ▸ hcut⟩
    · have hshown : shownLines (cutTo enc x r n) = (shownLines r).take n := shownLines_cutTo hfree hle
      exact ih hcut (fun l hl => hfree l (List.mem_of_mem_take (hshown ▸ hl))) rfl
        (by rw [hshown, List.length_take]; exact Nat.min_eq_left hle)

theorem gather_returns {c : BatchCall} {start : ℕ} {results : List Child} {files : List SourceFile} (hresults : ∀ child ∈ results, child.Clean)
    (hfiles : ∀ f ∈ files, f.Clean) :
    ∃ gathered, gather enc x c start results files = .ok gathered ∧ ∀ child ∈ gathered.1, child.Clean := by
  induction files generalizing results with
  | nil => exact ⟨_, rfl, hresults⟩
  | cons f files ih =>
    rw [List.forall_mem_cons] at hfiles
    obtain ⟨outcome, houtcome, hclean⟩ : ∃ outcome, readFile enc f.entry (x.request c f) = .ok outcome ∧ Child.Clean ⟨f, outcome⟩ :=
      readFile_returns hfiles.1 c
    have hnext := clean_append hresults hclean
    obtain ⟨rendered, hrendered⟩ := candidate_returns enc x start hnext
    by_cases hfits : rendered.2.fits = true
    · obtain ⟨gathered, hgathered, hall⟩ := ih hnext hfiles.2
      exact ⟨gathered, bind_eq_ok.mpr ⟨outcome, houtcome, bind_eq_ok.mpr ⟨rendered, hrendered, (if_pos hfits).trans hgathered⟩⟩, hall⟩
    · cases outcome with
      | error code message =>
        exact ⟨(results, true), bind_eq_ok.mpr ⟨_, houtcome, bind_eq_ok.mpr ⟨rendered, hrendered, if_neg hfits⟩⟩, hresults⟩
      | reply r =>
        obtain ⟨raw, text, -, -, hpaged⟩ := (readFile_sound houtcome).1 r rfl
        obtain ⟨kept, hkept, hshort⟩ : ∃ kept, shrink enc x start results f r r.returnedLineCount = .ok kept ∧
            ∀ shorter, kept = some shorter → Child.Clean ⟨f, .reply shorter⟩ :=
          shrink_returns hresults hclean (hpaged.noFeed lines_noFeed) rfl hpaged.length
        cases kept with
        | none =>
          exact ⟨(results, true), bind_eq_ok.mpr ⟨_, houtcome, bind_eq_ok.mpr ⟨rendered, hrendered,
            (if_neg hfits).trans (bind_eq_ok.mpr ⟨none, hkept, rfl⟩)⟩⟩, hresults⟩
        | some shorter =>
          exact ⟨(results ++ [⟨f, .reply shorter⟩], true), bind_eq_ok.mpr ⟨_, houtcome, bind_eq_ok.mpr ⟨rendered, hrendered,
            (if_neg hfits).trans (bind_eq_ok.mpr ⟨some shorter, hkept, rfl⟩)⟩⟩, clean_append hresults (hshort shorter rfl)⟩

theorem readFiles_returns (hclean : ∀ f ∈ x.files, f.Clean) (c : BatchCall) (start : ℤ) : ∃ gathered d,
    gather enc x c start.toNat [] (x.files.drop start.toNat) = .ok gathered ∧ readFiles enc x c start = .ok d := by
  obtain ⟨gathered, hgathered, hall⟩ : ∃ gathered, gather enc x c start.toNat [] (x.files.drop start.toNat) = .ok gathered ∧
      ∀ child ∈ gathered.1, child.Clean :=
    gather_returns (fun child h => absurd h List.not_mem_nil) fun f hf => hclean f (List.mem_of_mem_drop hf)
  have hreasons : isBenign (txt "token_budget") = true ∧ isBenign (txt "path_limit") = true ∧ isBenign (txt "child_partial") = true ∧
      isBenign (txt "end_of_results") = true := by decide
  have hreason : ∀ stopped more children : Bool, isBenign (if stopped then txt "token_budget" else if more then txt "path_limit"
      else if children then txt "child_partial" else txt "end_of_results") = true := by
    intro stopped more children
    split
    · exact hreasons.1
    · split
      · exact hreasons.2.1
      · split
        · exact hreasons.2.2.1
        · exact hreasons.2.2.2
  obtain ⟨r, hr⟩ := (withBudgetMetadata_returns_iff enc _ _ _ _).mpr
    ⟨(payload_clean_iff gathered.1 _).mpr fun child hmem => (hall child hmem).json, measurable_of_isBenign (hreason _ _ _)⟩
  exact ⟨gathered, r.1, hgathered, bind_eq_ok.mpr ⟨gathered, hgathered, bind_eq_ok.mpr ⟨r, hr, rfl⟩⟩⟩

/-! ## Following a batch -/

theorem Child.Sound.continues {child : Child} (h : child.Sound x) (hclean : child.file.Clean) : child.Continues enc x := by
  intro r raw text j hr hraw htext hj calls
  obtain ⟨raw', text', hraw', htext', hpaged⟩ := h r hr
  cases hraw.symm.trans hraw'
  cases htext.symm.trans htext'
  have hnext := hpaged.next.symm.trans hj
  have hmore : r.startLine - 1 + r.returnedLineCount < ((x.reading raw).lines text).length := by
    by_contra hnot
    rw [if_neg hnot] at hnext
    exact absurd hnext.symm (Option.some_ne_none j)
  rw [if_pos hmore] at hnext
  have hplace := Option.some.inj hnext
  refine walk_of_serves (fun call i _ => ?_) calls (by omega)
  obtain ⟨reply, hreply⟩ : ∃ reply, replyAt enc (x.reading raw) call i = some reply :=
    replyAt_returns htext (hclean.text raw text hraw htext).2 call i
  exact ⟨_, by rw [readPager, hreply]; rfl, replyAt_serves htext hreply⟩

theorem walk_children (hclean : ∀ f ∈ x.files, f.Clean) (c : BatchCall)
    (hreply : ∀ i : ℕ, ∃ d gathered, readFiles enc x c (i : ℕ) = .ok d ∧ SoundReply x i d gathered) {i : ℕ} (hi : i ≤ x.files.length) :
    ∃ children : List Child,
      Walk (batchPager enc x) (fun _ => c) i (children.map fun child => .obj (x.childFields child)) ∧
      children.map Child.file = x.files.drop i ∧ ∀ child ∈ children, child.Continues enc x := by
  induction hn : x.files.length - i using Nat.strongRecOn generalizing i with
  | ind n ih =>
    obtain ⟨d, gathered, hd, hsound⟩ := hreply i
    have hfiles := hsound.files
    have hnext := hsound.next
    rw [Int.toNat_natCast] at hfiles hnext
    have hlength := hfiles.length_le
    rw [List.length_map, List.length_drop] at hlength
    obtain ⟨p, hp, hitems, hgoes⟩ : ∃ p, batchPager enc x c i = some p ∧
        p.items = gathered.map (fun child => .obj (x.childFields child)) ∧ p.next = nextOffsetOf d :=
      ⟨⟨shownItems (txt "results") d, nextOffsetOf d⟩, by rw [batchPager, hd]; rfl, hsound.results, rfl⟩
    have hcontinues : ∀ child ∈ gathered, child.Continues enc x := fun child hmem =>
      (hsound.pages child hmem).continues (hclean _ (List.mem_of_mem_drop (hfiles.subset (List.mem_map_of_mem hmem))))
    by_cases hmore : i + gathered.length < x.files.length
    · rw [if_pos hmore] at hnext
      have hpos := List.length_pos_iff.mpr (hsound.leads.1 hmore)
      obtain ⟨rest, hwalk, hrest, hall⟩ := ih (x.files.length - (i + gathered.length)) (by omega) (Nat.le_of_lt hmore) rfl
      refine ⟨gathered ++ rest, ?_, ?_, ?_⟩
      · rw [List.map_append, ← hitems]
        exact .more hp (hgoes.trans hnext) hwalk
      · rw [List.map_append, hrest, ← List.drop_drop]
        have hfront := List.prefix_iff_eq_append.mp hfiles
        rwa [List.length_map] at hfront
      · rw [List.forall_mem_append]
        exact ⟨hcontinues, hall⟩
    · rw [if_neg hmore] at hnext
      refine ⟨gathered, ?_, hfiles.eq_of_length_le (by rw [List.length_map, List.length_drop]; omega), hcontinues⟩
      rw [← hitems]
      exact .last hp (hgoes.trans hnext)

theorem losesNothing_of_roomy (h : BatchRoomy enc x) : LosesNothing enc x := by
  have hreply : ∀ c (start : ℤ), ∃ d gathered, gather enc x c start.toNat [] (x.files.drop start.toNat) = .ok gathered ∧
      readFiles enc x c start = .ok d ∧ SoundReply x start d gathered.1 := by
    intro c start
    obtain ⟨gathered, d, hgathered, hd⟩ : ∃ gathered d, gather enc x c start.toNat [] (x.files.drop start.toNat) = .ok gathered ∧
        readFiles enc x c start = .ok d := readFiles_returns h.clean c start
    have hleads := (gathered_of_gather hgathered).leads.mpr fun n f => h.room c start.toNat n f
    exact ⟨d, gathered, hgathered, hd, soundReply_of_leads hgathered hd hleads⟩
  refine ⟨hreply, fun c => ?_⟩
  exact walk_children h.clean c (fun i => by
    obtain ⟨d, gathered, -, hd, hsound⟩ := hreply c i
    exact ⟨d, gathered.1, hd, hsound⟩) (Nat.zero_le _)

/-- A call for a file alone reads it first. -/
theorem first_read {c : BatchCall} {i : ℕ} {f : SourceFile} (hf : x.files[i]? = some f) {gathered : List Child × Bool}
    (h : gather enc x c i [] (x.files.drop i) = .ok gathered) :
    ∃ outcome, readFile enc f.entry (x.request c f) = .ok outcome ∧ CleanJson (.obj (x.childFields ⟨f, outcome⟩)) := by
  obtain ⟨hlt, hget⟩ := List.getElem?_eq_some_iff.mp hf
  rw [List.drop_eq_getElem_cons hlt, hget] at h
  obtain ⟨outcome, houtcome, h⟩ := bind_eq_ok.mp h
  obtain ⟨rendered, hrendered, -⟩ := bind_eq_ok.mp h
  have hclean := ((withBudgetMetadata_returns_iff enc _ _ _ _).mp ⟨rendered, hrendered⟩).1
  exact ⟨outcome, houtcome, (payload_clean_iff _ _).mp hclean _ (List.mem_append_right _ (List.mem_singleton_self _))⟩

theorem roomy_of_losesNothing (h : LosesNothing enc x) : BatchRoomy enc x := by
  have hread : ∀ (c : BatchCall) (i : ℕ) f, x.files[i]? = some f →
      ∃ outcome, readFile enc f.entry (x.request c f) = .ok outcome ∧ CleanJson (.obj (x.childFields ⟨f, outcome⟩)) := by
    intro c i f hf
    obtain ⟨d, gathered, hgathered, -⟩ := h.reply c i
    exact first_read hf hgathered
  refine ⟨fun f hf => ?_, fun c start n f hn hf => ?_⟩
  · obtain ⟨i, hi⟩ := List.mem_iff_getElem?.mp hf
    obtain ⟨outcome, houtcome, hclean⟩ := hread ⟨none, none, 1⟩ i f hi
    rw [cleanJson_obj] at hclean
    refine ⟨?_, fun raw text hraw htext => ?_⟩
    · cases outcome with
      | error code message => exact cleanJson_str.mp (hclean (txt "resolved_path", .str f.path) (by simp [BatchRead.childFields])).2
      | reply r =>
        obtain ⟨raw, text, hraw, htext⟩ := readFile_text_of_reply houtcome
        obtain ⟨p, -, hr, -⟩ := replyAt_spec htext (replyAt_of_readFile hraw houtcome)
        have hname : r.path = f.path := hr ▸ rfl
        exact hname ▸ cleanJson_str.mp (hclean (txt "path", .str r.path) (by simp [BatchRead.childFields])).2
    · have hreply : ∀ c, ∃ r, readFile enc f.entry (x.request c f) = .ok (.reply r) ∧
          CleanJson (.obj (x.childFields ⟨f, .reply r⟩)) := by
        intro c
        obtain ⟨outcome, houtcome, hclean⟩ := hread c i f hi
        cases outcome with
        | reply r => exact ⟨r, houtcome, hclean⟩
        | error code message =>
          rw [hraw] at houtcome
          simp only [readFile, htext] at houtcome
          obtain ⟨empty, -, houtcome⟩ := bind_eq_ok.mp houtcome
          obtain ⟨page, -, houtcome⟩ := bind_eq_ok.mp houtcome
          exact absurd (Except.ok.inj houtcome) (by simp)
      refine ⟨?_, (measurable_splitlines_iff text).mpr fun line hline => ?_⟩
      · obtain ⟨r, -, hfields⟩ := hreply ⟨none, none, 1⟩
        exact cleanJson_str.mp (cleanJson_obj.mp hfields (txt "language", .str f.language) (by simp [BatchRead.childFields])).2
      · obtain ⟨j, hj⟩ := List.mem_iff_getElem?.mp hline
        obtain ⟨r, hr, -⟩ := hreply ⟨some (j + 1), none, 1⟩
        have hat := replyAt_of_readFile hraw hr
        have hstart : startLine (some ((j : ℤ) + 1)) - 1 = j := by rw [startLine_succ, Nat.add_sub_cancel]
        dsimp only at hat
        rw [hstart] at hat
        exact line_measured htext hat hj
  · obtain ⟨d, gathered, hgathered, hd, hsound⟩ := h.reply c start
    rw [Int.toNat_natCast] at hgathered
    exact (gathered_of_gather hgathered).leads.mp hsound.leads n f hn hf

/-- A batch of reads loses nothing exactly when its texts can be measured and there is room, at each
offset, for something of the file at which the reply stops. -/
theorem losesNothing_iff (enc : TokenEncoding) (x : BatchRead) : LosesNothing enc x ↔ BatchRoomy enc x :=
  ⟨roomy_of_losesNothing, losesNothing_of_roomy⟩

/-- One file of one line, under a budget of one token. -/
def oneFile : BatchRead where
  files := [⟨txt "/srv/a.txt", txt "plain", .file ((txt "a").flatMap utf8Bytes)⟩]
  maxBytes := ⟨32768, by decide⟩
  includeLineNumbers := false
  maxTokens := ⟨1, Nat.one_pos⟩

/-- The file does not fit, nor does its name alone: its offset is returned for ever. -/
theorem batch_shows_nothing : ¬LosesNothing perCharacter oneFile := by
  intro h
  have hnone : ∀ children, ¬Fits perCharacter oneFile 0 children := fun children hfit =>
    Bool.false_ne_true (not_fits_oneToken.symm.trans hfit)
  have hfilled : Filled (Fits perCharacter oneFile 0) [] ((oneFile.files.drop 0).map (whole perCharacter oneFile ⟨none, none, 200⟩)) 0 :=
    filled_stop (hnone _)
  have hprogress := (roomy_of_losesNothing h).room ⟨none, none, 200⟩ 0 0 _ hfilled rfl
  cases hprogress.1 with
  | inl hfront => exact hfront rfl
  | inr hcut =>
    obtain ⟨k, -, hfit⟩ := hcut
    exact hnone _ hfit

end WebOauthMcp.BatchReading
