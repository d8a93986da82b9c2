import WebOauthMcp.BytePages
import WebOauthMcp.LineSplitting
import WebOauthMcp.ReplyFields
import Mathlib.Data.List.DropRight

/-!
# Pages of a diff

A diff is shown twice: a page of its octets, and file by file. A reply that does not fit is cut
in stages: the bodies to a share of the tokens each, then the files to nothing and the page by
halves, then whole files.
-/

namespace WebOauthMcp.DiffPaging
open CodePoints Words Utf8Units LineSplitting JsonText ExceptSteps ResponseBudget BudgetMetadata FileReplies OffsetPaging ReplyOffsets
open ReplyFields BytePages

/-! ## The files of a diff -/

def diffFileHeader : Text := txt "diff --git "

/-- `text.rstrip("\n")`. -/
def stripFeeds (t : Text) : Text := t.rdropWhile fun c => decide (c = lineFeed)

/-- The path that a header names last. -/
def headerPath (line : Text) : Text :=
  let candidate := ((stripFeeds (line.drop diffFileHeader.length)).splitOn space).getLastD []
  if txt "b/" <+: candidate then candidate.drop 2 else candidate

/-- The path of a `+++` line, unless the file is deleted. -/
def markerPath (currentPath line : Text) : Text :=
  let marker := stripFeeds (line.drop 4)
  if txt "b/" <+: marker then marker.drop 2
  else if marker = txt "/dev/null" then currentPath
  else marker

/-- The files so far, and the lines of the next one. -/
structure Splitting where
  chunks : List (Text × Text) := []
  buffer : List Text := []
  currentPath : Text := []

def Splitting.flush (s : Splitting) : Splitting :=
  if s.buffer = [] then s
  else { s with chunks := s.chunks ++ [(if s.currentPath = [] then txt "(unknown)" else s.currentPath, s.buffer.flatten)], buffer := [] }

def Splitting.add (s : Splitting) (line : Text) : Splitting :=
  if diffFileHeader <+: line then { s.flush with currentPath := headerPath line, buffer := s.flush.buffer ++ [line] }
  else if txt "+++ " <+: line ∧ s.buffer ≠ [] then { s with currentPath := markerPath s.currentPath line, buffer := s.buffer ++ [line] }
  else { s with buffer := s.buffer ++ [line] }

/-- `_split_diff_by_file`. -/
def splitDiffByFile (diffText : Text) : List (Text × Text) := ((splitlinesKeepends diffText).foldl Splitting.add {}).flush.chunks

def Splitting.text (s : Splitting) : Text := s.chunks.flatMap Prod.snd ++ s.buffer.flatten

theorem Splitting.flush_text (s : Splitting) : s.flush.text = s.text ∧ s.flush.buffer = [] := by
  rw [flush]
  split
  · next hnone => exact ⟨rfl, hnone⟩
  · simp [text]

theorem Splitting.add_text (s : Splitting) (line : Text) : (s.add line).text = s.text ++ line := by
  have hflush := s.flush_text
  rw [add]
  split
  · rw [← hflush.1]
    simp [text]
  · split
    · simp [text]
    · simp [text]

/-- The files together are the diff. -/
theorem splitDiffByFile_join (diffText : Text) : (splitDiffByFile diffText).flatMap Prod.snd = diffText := by
  have hfold : ∀ (lines : List Text) (s : Splitting), (lines.foldl Splitting.add s).text = s.text ++ lines.flatten := by
    intro lines s
    induction lines generalizing s with
    | nil => exact (List.append_nil _).symm
    | cons line lines ih => rw [List.foldl_cons, ih, Splitting.add_text, List.flatten_cons, List.append_assoc]
  obtain ⟨htext, hbuffer⟩ := ((splitlinesKeepends diffText).foldl Splitting.add {}).flush_text
  have hlines : (splitlinesKeepends diffText).flatten = diffText := flatMap_linesOf id diffText
  rw [hfold, hlines, Splitting.text, hbuffer] at htext
  simpa [splitDiffByFile, Splitting.text] using htext

structure FileStat where
  added : Option ℕ
  removed : Option ℕ
  binary : Bool

/-- An entry of `file_diffs`. -/
structure FileDiff where
  path : Text
  diff : Text
  truncated : Bool
  bytes : ℕ
  stat : Option FileStat
  tokenTruncated : Bool := false

def flag (k : Text) (b : Bool) : Dict := if b then [(k, .bool true)] else []

def FileStat.fields (s : FileStat) : Dict := [(txt "added", optionalCount s.added), (txt "removed", optionalCount s.removed), (txt "binary", .bool s.binary)]

def FileDiff.json (f : FileDiff) : Json :=
  .obj ([(txt "path", .str f.path), (txt "diff", .str f.diff), (txt "truncated", .bool f.truncated), (txt "bytes", natJson f.bytes)] ++
    ((f.stat.map FileStat.fields).getD [] ++ flag (txt "token_truncated") f.tokenTruncated))

/-- A file, cut to `per_file_max_bytes`. -/
def fileDiffOf (perFileMaxBytes : ℕ+) (stat : Text → Option FileStat) (chunk : Text × Text) : FileDiff :=
  let encodedChunk := encoded chunk.2
  let chunkTruncated := decide ((perFileMaxBytes : ℕ) < encodedChunk.length)
  { path := chunk.1
    diff := if chunkTruncated then decodeIgnore (encodedChunk.take perFileMaxBytes) else chunk.2
    truncated := chunkTruncated
    bytes := encodedChunk.length
    stat := stat chunk.1 }

/-! ## Calls -/

/-- What is shown: the changes in the working tree, with the counts that `git diff --numstat`
gives, or a commit. -/
inductive Shown
  | changes (staged : Bool) (stats : Text → Option FileStat)
  | commit (ref hash shortCommit summary author committedAt : Text) (parents : List Text) (body : Text)

/-- `git_diff` or `git_show` on a repository in which nothing changes. -/
structure GitCall where
  cwd : Text
  repoRoot : Text
  shown : Shown
  text : Text
  encodable : isEncodable text = true
  perFileMaxBytes : ℕ+
  maxTokens : ℕ+

def Shown.stat : Shown → Text → Option FileStat
  | .changes _ stats, path => some ((stats path).getD ⟨none, none, false⟩)
  | .commit .., _ => none

def Shown.body : Shown → Option Text
  | .changes .. => none
  | .commit _ _ _ _ _ _ _ body => some body

/-- The fields that no stage changes. -/
def Shown.own (cwd repoRoot : Text) : Shown → Dict
  | .changes staged _ => [(txt "success", .bool true), (txt "cwd", .str cwd), (txt "repo_root", .str repoRoot), (txt "staged", .bool staged)]
  | .commit ref hash shortCommit summary author committedAt parents _ =>
    [(txt "success", .bool true), (txt "cwd", .str cwd), (txt "repo_root", .str repoRoot), (txt "ref", .str ref), (txt "commit", .str hash),
      (txt "short_commit", .str shortCommit), (txt "summary", .str summary), (txt "author", .str author), (txt "committed_at", .str committedAt),
      (txt "parents", .arr (parents.map .str))]

/-- A reply before the contract is added to it. The contract overwrites its own fields, so those
of an earlier stage are gone from the next. -/
structure GitPayload where
  own : Dict
  body : Option Text
  files : List Text
  fileDiffs : List FileDiff
  diff : Text
  totalBytes : ℕ
  nextOffset : Option ℕ := none
  fileDiffsTruncated : Bool := false
  bodyTruncated : Bool := false
  continuationBlocked : Bool := false

def GitPayload.payload (p : GitPayload) : Dict :=
  [(txt "files", .arr (p.files.map .str)), (txt "file_diffs", .arr (p.fileDiffs.map FileDiff.json)), (txt "diff", .str p.diff),
    (txt "total_bytes", natJson p.totalBytes), (txt "next_offset", optionalCount p.nextOffset)] ++
    (p.own ++ ((p.body.map fun body => (txt "body", Json.str body)).toList ++ (flag (txt "file_diffs_truncated") p.fileDiffsTruncated ++
      (flag (txt "body_truncated") p.bodyTruncated ++ flag (txt "continuation_blocked") p.continuationBlocked))))

/-! ## Cutting to tokens -/

variable (enc : TokenEncoding)

/-- A reply with its measurement. -/
abbrev Measured := Dict × BudgetMeasurement

/-- The largest length the search finds at which the text fits. -/
def longestFitting (maxTokens : ℕ+) (text : Text) (low high : ℕ) : Except Raised ℕ :=
  if low < high then do
    let midpoint := (low + high + 1) / 2
    let m ← ResponseBudget.measure enc { maxTokens := maxTokens } (text.take midpoint)
    if m.fits then longestFitting maxTokens text midpoint high else longestFitting maxTokens text low (midpoint - 1)
  else pure low
termination_by high - low
decreasing_by all_goals omega

/-- `_truncate_to_tokens`. -/
def truncateToTokens (text : Text) (maxTokens : ℕ+) : Except Raised Text :=
  if text = [] then pure []
  else do
    let m ← ResponseBudget.measure enc { maxTokens := maxTokens } text
    if m.fits then pure text
    else do
      let low ← longestFitting enc maxTokens text 0 text.length
      pure (text.take low)

/-- `max(1, n)`. -/
def atLeastOne (n : ℕ) : ℕ+ := ⟨max 1 n, Nat.lt_of_lt_of_le Nat.one_pos (Nat.le_max_left 1 n)⟩

def perFieldTokens (maxTokens : ℕ+) (files : ℕ) : ℕ+ := atLeastOne (maxTokens / max (2 * (files + 1)) 1)

def FileDiff.shrink (maxTokens : ℕ+) (f : FileDiff) : Except Raised FileDiff := do
  let diff ← truncateToTokens enc f.diff maxTokens
  pure (if diff = f.diff then f else { f with diff := diff, truncated := true, tokenTruncated := true })

/-- The bodies, each cut to its share. -/
def shrinkBodies (maxTokens : ℕ+) (byteOffset : ℕ) (p : GitPayload) : Except Raised GitPayload := do
  let fileDiffs ← p.fileDiffs.mapM (FileDiff.shrink enc (perFieldTokens maxTokens p.fileDiffs.length))
  let diff ← truncateToTokens enc p.diff (atLeastOne (maxTokens / 2))
  let reached := byteOffset + (encoded diff).length
  pure { p with fileDiffs := fileDiffs, diff := diff, nextOffset := if reached < p.totalBytes then some reached else none }

def FileDiff.blank (f : FileDiff) : FileDiff := if f.diff = [] then f else { f with diff := [], truncated := true, tokenTruncated := true }

def GitPayload.blankFiles (p : GitPayload) : GitPayload := { p with fileDiffs := p.fileDiffs.map FileDiff.blank }

def tokenBudgetReason : Text := txt "token_budget"

/-- A reply that is flagged as cut. -/
def cutReply (maxTokens : ℕ+) (p : GitPayload) : Except Raised Measured :=
  withBudgetMetadata enc p.payload { maxTokens := maxTokens } true tokenBudgetReason

/-- The page with its first half only. -/
def GitPayload.half (byteOffset : ℕ) (p : GitPayload) : GitPayload :=
  { p with diff := p.diff.take (p.diff.length / 2), nextOffset := some (byteOffset + (encoded (p.diff.take (p.diff.length / 2))).length) }

theorem GitPayload.length_half_lt (byteOffset : ℕ) {p : GitPayload} (h : p.diff ≠ []) : (p.half byteOffset).diff.length < p.diff.length := by
  have hpos := List.length_pos_iff.mpr h
  rw [half, List.length_take]
  omega

/-- While the reply does not fit, the page is halved. -/
def halveDiff (maxTokens : ℕ+) (byteOffset : ℕ) (p : GitPayload) (r : Measured) : Except Raised (GitPayload × Measured) :=
  if r.2.fits = false ∧ p.diff ≠ [] then do
    let r ← cutReply enc maxTokens (p.half byteOffset)
    halveDiff maxTokens byteOffset (p.half byteOffset) r
  else pure (p, r)
termination_by p.diff.length
decreasing_by exact GitPayload.length_half_lt _ (And.right ‹_ ∧ _›)

/-- One file less. -/
def GitPayload.dropFile (p : GitPayload) : GitPayload :=
  { p with
    fileDiffs := p.fileDiffs.dropLast
    files := if p.fileDiffs.dropLast.length < p.files.length then p.files.dropLast else p.files
    fileDiffsTruncated := true }

theorem GitPayload.length_dropFile_lt {p : GitPayload} (h : p.fileDiffs ≠ []) : p.dropFile.fileDiffs.length < p.fileDiffs.length := by
  have hpos := List.length_pos_iff.mpr h
  rw [dropFile, List.length_dropLast]
  omega

def dropFiles (maxTokens : ℕ+) (p : GitPayload) (r : Measured) : Except Raised (GitPayload × Measured) :=
  if r.2.fits = false ∧ p.fileDiffs ≠ [] then do
    let r ← cutReply enc maxTokens p.dropFile
    dropFiles maxTokens p.dropFile r
  else pure (p, r)
termination_by p.fileDiffs.length
decreasing_by exact GitPayload.length_dropFile_lt (And.right ‹_ ∧ _›)

def dropBody (maxTokens : ℕ+) (p : GitPayload) (r : Measured) : Except Raised (GitPayload × Measured) :=
  if r.2.fits = false ∧ p.body.getD [] ≠ [] then do
    let p := { p with body := some [], bodyTruncated := true }
    let r ← cutReply enc maxTokens p
    pure (p, r)
  else pure (p, r)

def markBlocked (maxTokens : ℕ+) (byteOffset totalBytes : ℕ) (p : GitPayload) (r : Measured) : Except Raised (GitPayload × Measured) :=
  if p.nextOffset = some byteOffset ∧ byteOffset < totalBytes then do
    let p := { p with continuationBlocked := true }
    let r ← cutReply enc maxTokens p
    pure (p, r)
  else pure (p, r)

/-- The stages that give up the bodies of the files. -/
def giveUpFiles (maxTokens : ℕ+) (byteOffset totalBytes : ℕ) (p : GitPayload) : Except Raised (GitPayload × Measured) := do
  let r ← cutReply enc maxTokens p.blankFiles
  let (p, r) ← halveDiff enc maxTokens byteOffset p.blankFiles r
  let (p, r) ← dropFiles enc maxTokens p r
  let (p, r) ← dropBody enc maxTokens p r
  markBlocked enc maxTokens byteOffset totalBytes p r

def firstOffset (byteOffset : ℕ) (byteTruncated : Bool) (p : GitPayload) : GitPayload :=
  { p with nextOffset := if byteTruncated then some (byteOffset + (encoded p.diff).length) else none }

def firstReply (maxTokens : ℕ+) (byteTruncated : Bool) (p : GitPayload) : Except Raised Measured :=
  withBudgetMetadata enc p.payload { maxTokens := maxTokens } byteTruncated (if byteTruncated then txt "byte_budget" else txt "end_of_diff")

def shrunkReply (maxTokens : ℕ+) (byteTruncated tokenTruncated : Bool) (p : GitPayload) : Except Raised Measured :=
  withBudgetMetadata enc p.payload { maxTokens := maxTokens } (byteTruncated || tokenTruncated)
    (if tokenTruncated then tokenBudgetReason else txt "byte_budget")

/-- `_fit_git_payload`. -/
def fitGitPayload (maxTokens : ℕ+) (byteOffset totalBytes : ℕ) (byteTruncated : Bool) (p : GitPayload) : Except Raised Dict := do
  let p := firstOffset byteOffset byteTruncated p
  let r ← firstReply enc maxTokens byteTruncated p
  if r.2.fits then pure r.1
  else do
    let q ← shrinkBodies enc maxTokens byteOffset p
    let r ← shrunkReply enc maxTokens byteTruncated (decide (q.diff ≠ p.diff)) q
    if r.2.fits then pure r.1
    else do
      let (_, r) ← giveUpFiles enc maxTokens byteOffset totalBytes q
      pure r.1

variable (x : GitCall)

def GitCall.chunks : List (Text × Text) := splitDiffByFile x.text

def GitCall.fileDiffs : List FileDiff := x.chunks.map (fileDiffOf x.perFileMaxBytes x.shown.stat)

def GitCall.page (maxBytes : ℕ+) (offset : ℕ) : Text × ℕ × ℕ := utf8BytePage (encoded x.text) offset maxBytes

def GitCall.totalBytes : ℕ := (encoded x.text).length

def GitCall.payload (maxBytes : ℕ+) (offset : ℕ) : GitPayload where
  own := x.shown.own x.cwd x.repoRoot
  body := x.shown.body
  files := x.fileDiffs.map FileDiff.path
  fileDiffs := x.fileDiffs
  diff := (x.page maxBytes offset).1
  totalBytes := x.totalBytes

/-- `git_diff` and `git_show`, once the repository has answered. -/
def gitReply (maxBytes : ℕ+) (offset : ℕ) : Except Raised Dict :=
  let (_, start, consumedEnd) := x.page maxBytes offset
  fitGitPayload enc x.maxTokens start x.totalBytes (decide (consumedEnd < x.totalBytes)) (x.payload maxBytes offset)

/-! ## What the search finds -/

def fitsText (maxTokens : ℕ+) (text : Text) : Bool :=
  match ResponseBudget.measure enc { maxTokens := maxTokens } text with
  | .ok m => m.fits
  | .error _ => false

/-- The lengths that the search tries as long as none fits. -/
def probes (n : ℕ) : List ℕ := if n = 0 then [] else (n + 1) / 2 :: probes ((n + 1) / 2 - 1)
termination_by n
decreasing_by omega

/-- Something of the text is kept when it is cut to the tokens. -/
def KeepsSome (maxTokens : ℕ+) (text : Text) : Prop :=
  text ≠ [] ∧ (fitsText enc maxTokens text = true ∨ ∃ n ∈ probes text.length, fitsText enc maxTokens (text.take n) = true)

variable {enc} {maxTokens : ℕ+} {text : Text}

theorem measurable_take (h : Measurable text) (n : ℕ) : Measurable (text.take n) := h.piece (List.take_prefix n text).isInfix

variable (enc maxTokens) in
theorem measure_text (h : Measurable text) :
    ∃ m, ResponseBudget.measure enc { maxTokens := maxTokens } text = .ok m ∧ m.fits = fitsText enc maxTokens text := by
  obtain ⟨m, hm⟩ := (measure_returns_iff enc { maxTokens := maxTokens } text).mpr h
  refine ⟨m, hm, ?_⟩
  rw [fitsText, hm]

variable (enc maxTokens) in
/-- The search returns a length at which the text fits, or the one it came from. -/
theorem longestFitting_spec (h : Measurable text) {low high : ℕ} (hle : low ≤ high) : ∃ n, longestFitting enc maxTokens text low high = .ok n ∧
    low ≤ n ∧ n ≤ high ∧ (n = low ∨ fitsText enc maxTokens (text.take n) = true) := by
  induction hn : high - low using Nat.strongRecOn generalizing low high with
  | ind d ih =>
    rw [longestFitting]
    split
    · next hlt =>
      obtain ⟨m, hm, hfits⟩ := measure_text enc maxTokens (measurable_take h ((low + high + 1) / 2))
      dsimp only
      rw [hm]
      by_cases hmid : m.fits = true
      · obtain ⟨n, hok, hlow, hhigh, hfound⟩ := ih (high - (low + high + 1) / 2) (by omega) (by omega) rfl
        refine ⟨n, (if_pos hmid).trans hok, by omega, hhigh, .inr ?_⟩
        cases hfound with
        | inl heq => rw [heq, ← hfits, hmid]
        | inr hfound => exact hfound
      · obtain ⟨n, hok, hlow, hhigh, hfound⟩ := ih ((low + high + 1) / 2 - 1 - low) (by omega) (by omega) rfl
        exact ⟨n, (if_neg hmid).trans hok, hlow, by omega, hfound⟩
    · exact ⟨low, rfl, Nat.le_refl low, hle, .inl rfl⟩

/-- The search finds a length above nothing when one of the lengths it tries fits. -/
theorem longestFitting_pos_iff (h : Measurable text) {high n : ℕ} (hn : longestFitting enc maxTokens text 0 high = .ok n) :
    0 < n ↔ ∃ k ∈ probes high, fitsText enc maxTokens (text.take k) = true := by
  induction high using Nat.strongRecOn with
  | ind high ih =>
    rw [longestFitting, Nat.zero_add] at hn
    rw [probes]
    split at hn
    · next hlt =>
      obtain ⟨m, hm, hfits⟩ := measure_text enc maxTokens (measurable_take h ((high + 1) / 2))
      dsimp only at hn
      rw [hm] at hn
      rw [if_neg (Nat.ne_of_gt hlt)]
      simp only [List.mem_cons, exists_eq_or_imp, ← hfits]
      by_cases hmid : m.fits = true
      · have hmidpoint : (high + 1) / 2 ≤ high := by omega
        obtain ⟨n', hok, hlow, -⟩ := longestFitting_spec enc maxTokens h hmidpoint
        cases (hn.symm.trans (if_pos hmid)).trans hok
        exact iff_of_true (by omega) (.inl hmid)
      · have hrest : longestFitting enc maxTokens text 0 ((high + 1) / 2 - 1) = .ok n := (if_neg hmid).symm.trans hn
        rw [ih _ (by omega) hrest]
        exact (or_iff_right hmid).symm
    · next hzero =>
      cases Except.ok.inj hn
      rw [if_pos (by omega)]
      simp

variable (enc maxTokens) in
/-- A text that is cut to the tokens is cut at its end, unless it fits. -/
theorem truncateToTokens_spec (h : Measurable text) : ∃ s, truncateToTokens enc text maxTokens = .ok s ∧ s <+: text ∧
    (s = text ↔ text = [] ∨ fitsText enc maxTokens text = true) ∧ (s ≠ [] ↔ KeepsSome enc maxTokens text) := by
  rw [truncateToTokens]
  split
  · next hnil => exact ⟨[], rfl, List.nil_prefix, iff_of_true hnil.symm (.inl hnil), iff_of_false (fun h => h rfl) fun hsome => hsome.1 hnil⟩
  · next hnil =>
    obtain ⟨m, hm, hfits⟩ := measure_text enc maxTokens h
    rw [hm]
    by_cases hall : m.fits = true
    · exact ⟨text, if_pos hall, List.prefix_refl _, iff_of_true rfl (.inr (hfits ▸ hall)), iff_of_true hnil ⟨hnil, .inl (hfits ▸ hall)⟩⟩
    · obtain ⟨n, hn, -, hle, hfound⟩ := longestFitting_spec enc maxTokens h (Nat.zero_le text.length)
      have hnot : ¬fitsText enc maxTokens text = true := fun heq => hall (hfits.trans heq)
      refine ⟨text.take n, (if_neg hall).trans (bind_eq_ok.mpr ⟨n, hn, rfl⟩), List.take_prefix n text, ?_, ?_⟩
      · refine iff_of_false (fun hwhole => ?_) fun hor => hor.elim hnil hnot
        have hlength := congrArg List.length hwhole
        rw [List.length_take] at hlength
        cases hfound with
        | inl hzero => exact hnil (List.length_eq_zero_iff.mp (by omega))
        | inr hfound => exact hnot (hwhole ▸ hfound)
      · have hpos := longestFitting_pos_iff h hn
        have hnonempty : text.take n ≠ [] ↔ 0 < n := by
          rw [Ne, List.take_eq_nil_iff, not_or]
          exact (and_iff_left hnil).trans Nat.pos_iff_ne_zero.symm
        rw [hnonempty, hpos, KeepsSome]
        exact ⟨fun hprobe => ⟨hnil, .inr hprobe⟩, fun hsome => hsome.2.resolve_left hnot⟩

/-! ## Which payloads can be rendered -/

theorem cleanExcept_append {ks : List Text} {a b : Dict} : CleanExcept ks (a ++ b) ↔ CleanExcept ks a ∧ CleanExcept ks b := List.forall_mem_append

theorem cleanExcept_cons {k : Text} {j : Json} {d : Dict} (hkey : isBenign k = true ∧ k ∉ contractKeys) :
    CleanExcept contractKeys ((k, j) :: d) ↔ CleanJson j ∧ CleanExcept contractKeys d := by
  refine List.forall_mem_cons.trans (and_congr_left fun _ => ?_)
  exact ⟨fun h => (h hkey.2).2, fun h _ => cleanField_of hkey.1 h⟩

theorem cleanExcept_flag {k : Text} (hk : isBenign k = true) (b : Bool) : CleanExcept contractKeys (flag k b) := by
  intro f hf _
  cases b with
  | false => exact absurd hf List.not_mem_nil
  | true =>
    cases List.mem_singleton.mp hf
    exact cleanField_bool hk

structure GitPayload.Clean (p : GitPayload) : Prop where
  own : CleanExcept contractKeys p.own
  body : ∀ t ∈ p.body, Measurable t
  files : ∀ t ∈ p.files, Measurable t
  fileDiffs : ∀ f ∈ p.fileDiffs, Measurable f.path ∧ Measurable f.diff
  diff : Measurable p.diff

theorem cleanJson_fileDiff (f : FileDiff) : CleanJson f.json ↔ Measurable f.path ∧ Measurable f.diff := by
  have hflag : ∀ g ∈ flag (txt "token_truncated") f.tokenTruncated, CleanField g := by
    intro g hg
    cases htoken : f.tokenTruncated with
    | false =>
      rw [htoken] at hg
      exact absurd hg List.not_mem_nil
    | true =>
      rw [htoken] at hg
      cases List.mem_singleton.mp hg
      exact cleanField_bool (by decide)
  have hstat : ∀ g ∈ (f.stat.map FileStat.fields).getD [], CleanField g := by
    intro g hg
    cases hs : f.stat with
    | none =>
      rw [hs] at hg
      exact absurd hg List.not_mem_nil
    | some s =>
      rw [hs] at hg
      have hcount : ∀ o : Option ℕ, strings (optionalCount o) = [] := fun o => by cases o <;> rfl
      have hg : g ∈ [(txt "added", optionalCount s.added), (txt "removed", optionalCount s.removed), (txt "binary", .bool s.binary)] := hg
      simp only [List.mem_cons, List.not_mem_nil, or_false] at hg
      obtain rfl | rfl | rfl := hg
      · exact cleanField_of_strings_nil (by decide) (hcount _)
      · exact cleanField_of_strings_nil (by decide) (hcount _)
      · exact cleanField_bool (by decide)
  rw [FileDiff.json, cleanJson_obj, List.forall_mem_append, List.forall_mem_append, and_iff_left ⟨hstat, hflag⟩]
  simp only [List.forall_mem_cons, List.not_mem_nil, false_implies, implies_true, and_true]
  have hcounts : CleanField (txt "truncated", .bool f.truncated) ∧ CleanField (txt "bytes", natJson f.bytes) :=
    ⟨cleanField_bool (by decide), cleanField_nat (by decide)⟩
  rw [cleanField_str_iff (by decide), cleanField_str_iff (by decide), and_iff_left hcounts]

theorem clean_iff (p : GitPayload) : CleanPayload p.payload ↔ p.Clean := by
  have hcount : ∀ o : Option ℕ, CleanJson (optionalCount o) := fun o => cleanJson_of_strings_nil (by cases o <;> rfl)
  have hnat : ∀ n : ℕ, CleanJson (natJson n) := fun n => cleanJson_of_strings_nil rfl
  have hbody : CleanExcept contractKeys (p.body.map fun body => (txt "body", Json.str body)).toList ↔ ∀ t ∈ p.body, Measurable t := by
    cases p.body with
    | none => exact iff_of_true (fun f hf => absurd hf List.not_mem_nil) fun t ht => absurd ht (by simp)
    | some body =>
      refine (cleanExcept_cons (by decide)).trans ?_
      rw [cleanJson_str]
      simp [CleanExcept]
  rw [CleanPayload, GitPayload.payload, cleanExcept_append, cleanExcept_append, cleanExcept_append, cleanExcept_append, cleanExcept_append,
    cleanExcept_cons (by decide), cleanExcept_cons (by decide), cleanExcept_cons (by decide), cleanExcept_cons (by decide),
    cleanExcept_cons (by decide), cleanJson_arr, cleanJson_arr, cleanJson_str, List.forall_mem_map, List.forall_mem_map]
  simp only [cleanJson_str, cleanJson_fileDiff, hbody]
  constructor
  · intro h
    exact ⟨h.2.1, h.2.2.1, h.1.1, h.1.2.1, h.1.2.2.1⟩
  · intro h
    exact ⟨⟨h.files, h.fileDiffs, h.diff, hnat _, hcount _, fun f hf => absurd hf List.not_mem_nil⟩, h.own, h.body,
      cleanExcept_flag (by decide) _, cleanExcept_flag (by decide) _, cleanExcept_flag (by decide) _⟩

/-- A payload with less in it. -/
structure Trims (p q : GitPayload) : Prop where
  own : q.own = p.own
  body : ∀ t ∈ q.body, t = [] ∨ t ∈ p.body
  files : ∀ t ∈ q.files, t ∈ p.files
  fileDiffs : ∀ g ∈ q.fileDiffs, ∃ f ∈ p.fileDiffs, g.path = f.path ∧ g.diff <+: f.diff
  diff : q.diff <+: p.diff
  totalBytes : q.totalBytes = p.totalBytes

variable {p q q' : GitPayload} {byteOffset : ℕ}

theorem Trims.trans (h : Trims p q) (h' : Trims q q') : Trims p q' where
  own := h'.own.trans h.own
  body := fun t ht => (h'.body t ht).elim .inl (h.body t)
  files := fun t ht => h.files t (h'.files t ht)
  fileDiffs := fun g hg => by
    obtain ⟨f, hf, hpath, hdiff⟩ := h'.fileDiffs g hg
    obtain ⟨e, he, hpath', hdiff'⟩ := h.fileDiffs f hf
    exact ⟨e, he, hpath.trans hpath', hdiff.trans hdiff'⟩
  diff := h'.diff.trans h.diff
  totalBytes := h'.totalBytes.trans h.totalBytes

theorem measurable_nil : Measurable [] := measurable_of_isBenign rfl

theorem Trims.clean (h : Trims p q) (hp : p.Clean) : q.Clean where
  own := h.own ▸ hp.own
  body := fun t ht => (h.body t ht).elim (fun hnil => hnil ▸ measurable_nil) (hp.body t)
  files := fun t ht => hp.files t (h.files t ht)
  fileDiffs := fun g hg => by
    obtain ⟨f, hf, hpath, hdiff⟩ := h.fileDiffs g hg
    obtain ⟨hfpath, hfdiff⟩ := hp.fileDiffs f hf
    exact ⟨hpath ▸ hfpath, hfdiff.piece hdiff.isInfix⟩
  diff := hp.diff.piece h.diff.isInfix

theorem trims_half (byteOffset : ℕ) (p : GitPayload) : Trims p (p.half byteOffset) :=
  ⟨rfl, fun _ ht => .inr ht, fun _ ht => ht, fun g hg => ⟨g, hg, rfl, List.prefix_refl _⟩, List.take_prefix _ _, rfl⟩

theorem trims_blankFiles (p : GitPayload) : Trims p p.blankFiles := by
  refine ⟨rfl, fun _ ht => .inr ht, fun _ ht => ht, fun g hg => ?_, List.prefix_refl _, rfl⟩
  obtain ⟨f, hf, rfl⟩ := List.mem_map.mp hg
  refine ⟨f, hf, ?_⟩
  rw [FileDiff.blank]
  split
  · exact ⟨rfl, List.prefix_refl _⟩
  · exact ⟨rfl, List.nil_prefix⟩

theorem trims_dropFile (p : GitPayload) : Trims p p.dropFile := by
  refine ⟨rfl, fun _ ht => .inr ht, fun t ht => ?_, fun g hg => ⟨g, List.mem_of_mem_dropLast hg, rfl, List.prefix_refl _⟩,
    List.prefix_refl _, rfl⟩
  rw [GitPayload.dropFile] at ht
  dsimp only at ht
  split at ht
  · exact List.mem_of_mem_dropLast ht
  · exact ht

/-! ## The stages -/

/-- The offset to go on at is behind the page, unless that ends the diff. -/
def GitPayload.Positioned (byteOffset : ℕ) (p : GitPayload) : Prop :=
  p.nextOffset = if byteOffset + (encoded p.diff).length < p.totalBytes then some (byteOffset + (encoded p.diff).length) else none

variable (enc maxTokens) in
theorem cutReply_returns (hp : p.Clean) : ∃ r, cutReply enc maxTokens p = .ok r :=
  (withBudgetMetadata_returns_iff enc p.payload _ true tokenBudgetReason).mpr ⟨(clean_iff p).mpr hp, measurable_of_isBenign (by decide)⟩

variable (enc maxTokens) in
theorem shrink_spec {f : FileDiff} (h : Measurable f.diff) : Returns (FileDiff.shrink enc maxTokens f) fun g =>
    g.path = f.path ∧ g.diff <+: f.diff ∧ (g.diff = f.diff ↔ f.diff = [] ∨ fitsText enc maxTokens f.diff = true) := by
  obtain ⟨s, hs, hfront, hwhole, -⟩ := truncateToTokens_spec enc maxTokens h
  refine ⟨_, bind_eq_ok.mpr ⟨s, hs, rfl⟩, ?_⟩
  split
  · next heq => exact ⟨rfl, List.prefix_refl _, iff_of_true rfl (hwhole.mp heq)⟩
  · exact ⟨rfl, hfront, hwhole⟩

/-- What the first cut keeps. -/
structure Shrunk (enc : TokenEncoding) (maxTokens : ℕ+) (byteOffset : ℕ) (p q : GitPayload) : Prop where
  trims : Trims p q
  fronts : List.Forall₂ (fun f g => g.diff <+: f.diff) p.fileDiffs q.fileDiffs
  positioned : q.Positioned byteOffset
  unblocked : q.continuationBlocked = p.continuationBlocked
  whole : q.diff = p.diff ↔ p.diff = [] ∨ fitsText enc (atLeastOne (maxTokens / 2)) p.diff = true
  nonempty : q.diff ≠ [] ↔ KeepsSome enc (atLeastOne (maxTokens / 2)) p.diff
  bodies : q.fileDiffs.map FileDiff.diff = p.fileDiffs.map FileDiff.diff ↔
    ∀ f ∈ p.fileDiffs, f.diff = [] ∨ fitsText enc (perFieldTokens maxTokens p.fileDiffs.length) f.diff = true

theorem map_diff_iff {P : FileDiff → Prop} {fs gs : List FileDiff}
    (h : List.Forall₂ (fun f g => g.path = f.path ∧ g.diff <+: f.diff ∧ (g.diff = f.diff ↔ P f)) fs gs) :
    gs.map FileDiff.diff = fs.map FileDiff.diff ↔ ∀ f ∈ fs, P f := by
  induction h with
  | nil => simp
  | cons hfg _ ih => rw [List.map_cons, List.map_cons, List.cons.injEq, ih, hfg.2.2, List.forall_mem_cons]

variable (enc maxTokens byteOffset) in
theorem shrinkBodies_spec (hp : p.Clean) : Returns (shrinkBodies enc maxTokens byteOffset p) (Shrunk enc maxTokens byteOffset p) := by
  obtain ⟨fileDiffs, hfiles, hall⟩ := mapM_returns fun f (hf : f ∈ p.fileDiffs) =>
    (shrink_spec enc (perFieldTokens maxTokens p.fileDiffs.length) (hp.fileDiffs f hf).2).mono fun g hg => And.intro hf hg
  obtain ⟨diff, hdiff, hfront, hwhole, hsome⟩ := truncateToTokens_spec enc (atLeastOne (maxTokens / 2)) hp.diff
  have hcut : ∀ g ∈ fileDiffs, ∃ f ∈ p.fileDiffs, g.path = f.path ∧ g.diff <+: f.diff :=
    forall₂_right hall fun f _ h => ⟨f, h.1, h.2.1, h.2.2.1⟩
  exact ⟨_, bind_eq_ok.mpr ⟨fileDiffs, hfiles, bind_eq_ok.mpr ⟨diff, hdiff, rfl⟩⟩,
    ⟨rfl, fun _ ht => .inr ht, fun _ ht => ht, hcut, hfront, rfl⟩, hall.imp fun _ _ h => h.2.2.1, rfl, rfl, hwhole, hsome, map_diff_iff (hall.imp fun _ _ h => h.2)⟩

/-- Some half of the page, or half of a half, fits, if not the page itself. -/
def SomeHalfFits (enc : TokenEncoding) (maxTokens : ℕ+) (byteOffset : ℕ) (p : GitPayload) : Prop :=
  ∃ k, ((GitPayload.half byteOffset)^[k] p).diff ≠ [] ∧
    fitsReply enc { maxTokens := maxTokens } ((GitPayload.half byteOffset)^[k] p).payload true tokenBudgetReason = true

theorem half_nil (h : p.diff = []) (k : ℕ) : ((GitPayload.half byteOffset)^[k] p).diff = [] := by
  induction k generalizing p with
  | zero => exact h
  | succ k ih =>
    rw [Function.iterate_succ_apply]
    refine ih ?_
    rw [GitPayload.half, h]
    rfl

theorem someHalfFits_iff : SomeHalfFits enc maxTokens byteOffset p ↔
    p.diff ≠ [] ∧ (fitsReply enc { maxTokens := maxTokens } p.payload true tokenBudgetReason = true ∨
      SomeHalfFits enc maxTokens byteOffset (p.half byteOffset)) := by
  constructor
  · intro h
    obtain ⟨k, hsome, hfits⟩ := h
    refine ⟨fun hnil => hsome (half_nil hnil k), ?_⟩
    cases k with
    | zero => exact .inl hfits
    | succ k => exact .inr ⟨k, hsome, hfits⟩
  · intro h
    obtain ⟨hsome, hfits | ⟨k, hhalf, hfits⟩⟩ := h
    · exact ⟨0, hsome, hfits⟩
    · exact ⟨k + 1, hhalf, hfits⟩

/-- What a stage that gives up something keeps. -/
structure Kept (enc : TokenEncoding) (maxTokens : ℕ+) (p : GitPayload) (s : GitPayload × Measured) : Prop where
  reply : cutReply enc maxTokens s.1 = .ok s.2
  trims : Trims p s.1
  unblocked : s.1.continuationBlocked = p.continuationBlocked

theorem trims_refl (p : GitPayload) : Trims p p :=
  ⟨rfl, fun _ ht => .inr ht, fun _ ht => ht, fun g hg => ⟨g, hg, rfl, List.prefix_refl _⟩, List.prefix_refl _, rfl⟩

theorem Kept.start {r : Measured} (hr : cutReply enc maxTokens p = .ok r) : Kept enc maxTokens p (p, r) := ⟨hr, trims_refl p, rfl⟩

theorem Kept.after {s : GitPayload × Measured} (h : Kept enc maxTokens q s) (htrims : Trims p q)
    (hsame : q.continuationBlocked = p.continuationBlocked) : Kept enc maxTokens p s :=
  ⟨h.reply, htrims.trans h.trims, h.unblocked.trans hsame⟩

theorem fits_cutReply {r : Measured} (hr : cutReply enc maxTokens p = .ok r) :
    fitsReply enc { maxTokens := maxTokens } p.payload true tokenBudgetReason = r.2.fits := fitsReply_of_ok hr

theorem positioned_half (h : p.diff ≠ []) (hroom : byteOffset + (encoded p.diff).length ≤ p.totalBytes) :
    (p.half byteOffset).Positioned byteOffset := by
  have hlength : (encoded (p.half byteOffset).diff).length < (encoded p.diff).length := by
    obtain ⟨rest, hrest⟩ := List.take_prefix (p.diff.length / 2) p.diff
    have hshorter := GitPayload.length_half_lt byteOffset h
    have hsplit := congrArg (fun t => (encoded t).length) hrest
    have hne : rest ≠ [] := fun hnil => by
      rw [hnil, List.append_nil] at hrest
      rw [GitPayload.half, hrest] at hshorter
      exact Nat.lt_irrefl _ hshorter
    have hpos := List.length_pos_iff.mpr (mt encoded_eq_nil.mp hne)
    simp only [encoded_append, List.length_append] at hsplit
    rw [GitPayload.half]
    dsimp only
    omega
  have hmore : byteOffset + (encoded (p.half byteOffset).diff).length < (p.half byteOffset).totalBytes := by
    have htotal : (p.half byteOffset).totalBytes = p.totalBytes := rfl
    omega
  rw [GitPayload.Positioned, if_pos hmore]
  rfl

theorem halveDiff_spec (hp : p.Clean) (hroom : byteOffset + (encoded p.diff).length ≤ p.totalBytes) (hpositioned : p.Positioned byteOffset)
    {r : Measured} (hr : cutReply enc maxTokens p = .ok r) : Returns (halveDiff enc maxTokens byteOffset p r) fun s =>
      Kept enc maxTokens p s ∧ s.1.Positioned byteOffset ∧ (s.1.diff ≠ [] ↔ SomeHalfFits enc maxTokens byteOffset p) := by
  induction hn : p.diff.length using Nat.strongRecOn generalizing p r with
  | ind n ih =>
    have hfits := fits_cutReply hr
    rw [halveDiff, someHalfFits_iff, hfits]
    split
    · next hlong =>
      obtain ⟨r', hr'⟩ := cutReply_returns enc maxTokens ((trims_half byteOffset p).clean hp)
      have hshorter := GitPayload.length_half_lt byteOffset hlong.2
      have hfront := (trims_half byteOffset p).diff
      have hroom' : byteOffset + (encoded (p.half byteOffset).diff).length ≤ (p.half byteOffset).totalBytes := by
        obtain ⟨rest, hrest⟩ := hfront
        have hsplit := congrArg (fun t => (encoded t).length) hrest
        simp only [encoded_append, List.length_append] at hsplit
        have htotal : (p.half byteOffset).totalBytes = p.totalBytes := rfl
        omega
      obtain ⟨s, hs, hkept, hpos, hsome⟩ := ih _ (hn ▸ hshorter) ((trims_half byteOffset p).clean hp) hroom'
        (positioned_half hlong.2 hroom) hr' rfl
      refine ⟨s, bind_eq_ok.mpr ⟨r', hr', hs⟩, hkept.after (trims_half byteOffset p) rfl, hpos, ?_⟩
      rw [hsome, hlong.1]
      exact ⟨fun h => ⟨hlong.2, .inr h⟩, fun h => h.2.resolve_left Bool.false_ne_true⟩
    · next hdone =>
      refine ⟨(p, r), rfl, .start hr, hpositioned, fun hsome => ⟨hsome, .inl ?_⟩, fun h => h.1⟩
      exact Bool.not_eq_false _ ▸ fun hlong => hdone ⟨hlong, hsome⟩

theorem dropFiles_spec (hp : p.Clean) {r : Measured} (hr : cutReply enc maxTokens p = .ok r) :
    Returns (dropFiles enc maxTokens p r) fun s => Kept enc maxTokens p s ∧ s.1.diff = p.diff ∧ s.1.nextOffset = p.nextOffset := by
  induction hn : p.fileDiffs.length using Nat.strongRecOn generalizing p r with
  | ind n ih =>
    rw [dropFiles]
    split
    · next hlong =>
      have hclean := (trims_dropFile p).clean hp
      obtain ⟨r', hr'⟩ := cutReply_returns enc maxTokens hclean
      obtain ⟨s, hs, hkept, hdiff, hnext⟩ := ih _ (hn ▸ GitPayload.length_dropFile_lt hlong.2) hclean hr' rfl
      exact ⟨s, bind_eq_ok.mpr ⟨r', hr', hs⟩, hkept.after (trims_dropFile p) rfl, hdiff, hnext⟩
    · exact ⟨(p, r), rfl, .start hr, rfl, rfl⟩

theorem dropBody_spec (hp : p.Clean) {r : Measured} (hr : cutReply enc maxTokens p = .ok r) :
    Returns (dropBody enc maxTokens p r) fun s => Kept enc maxTokens p s ∧ s.1.diff = p.diff ∧ s.1.nextOffset = p.nextOffset := by
  rw [dropBody]
  split
  · have htrims : Trims p { p with body := some [], bodyTruncated := true } :=
      ⟨rfl, fun t ht => .inl (Option.some.inj ht).symm, fun _ ht => ht, fun g hg => ⟨g, hg, rfl, List.prefix_refl _⟩, List.prefix_refl _, rfl⟩
    obtain ⟨r', hr'⟩ := cutReply_returns enc maxTokens (htrims.clean hp)
    exact ⟨_, bind_eq_ok.mpr ⟨r', hr', rfl⟩, ⟨hr', htrims, rfl⟩, rfl, rfl⟩
  · exact ⟨(p, r), rfl, .start hr, rfl, rfl⟩

variable (byteOffset) in
theorem markBlocked_spec (totalBytes : ℕ) (hp : p.Clean) (hunblocked : p.continuationBlocked = false) {r : Measured}
    (hr : cutReply enc maxTokens p = .ok r) : Returns (markBlocked enc maxTokens byteOffset totalBytes p r) fun s =>
      cutReply enc maxTokens s.1 = .ok s.2 ∧ s.1.own = p.own ∧ s.1.diff = p.diff ∧ s.1.nextOffset = p.nextOffset ∧
        (s.1.continuationBlocked = true ↔ p.nextOffset = some byteOffset ∧ byteOffset < totalBytes) := by
  rw [markBlocked]
  split
  · next hstuck =>
    have htrims : Trims p { p with continuationBlocked := true } :=
      ⟨rfl, fun _ ht => .inr ht, fun _ ht => ht, fun g hg => ⟨g, hg, rfl, List.prefix_refl _⟩, List.prefix_refl _, rfl⟩
    obtain ⟨r', hr'⟩ := cutReply_returns enc maxTokens (htrims.clean hp)
    exact ⟨_, bind_eq_ok.mpr ⟨r', hr', rfl⟩, hr', rfl, rfl, rfl, iff_of_true rfl hstuck⟩
  · next hon => exact ⟨(p, r), rfl, hr, rfl, rfl, rfl, iff_of_false (by rw [hunblocked]; exact Bool.false_ne_true) hon⟩

/-- What the last stages leave. -/
structure GivenUp (enc : TokenEncoding) (maxTokens : ℕ+) (byteOffset : ℕ) (p : GitPayload) (s : GitPayload × Measured) : Prop where
  own : s.1.own = p.own
  reply : cutReply enc maxTokens s.1 = .ok s.2
  diff : s.1.diff <+: p.diff
  next : s.1.nextOffset = if byteOffset + (encoded s.1.diff).length < p.totalBytes then some (byteOffset + (encoded s.1.diff).length) else none
  nonempty : s.1.diff ≠ [] ↔ SomeHalfFits enc maxTokens byteOffset p.blankFiles
  blocked : s.1.continuationBlocked = true ↔ s.1.nextOffset = some byteOffset ∧ byteOffset < p.totalBytes

variable (enc maxTokens) in
theorem giveUpFiles_spec (hp : p.Clean) (hroom : byteOffset + (encoded p.diff).length ≤ p.totalBytes) (hpositioned : p.Positioned byteOffset)
    (hunblocked : p.continuationBlocked = false) :
    Returns (giveUpFiles enc maxTokens byteOffset p.totalBytes p) (GivenUp enc maxTokens byteOffset p) := by
  have hblank := (trims_blankFiles p).clean hp
  obtain ⟨r, hr⟩ := cutReply_returns enc maxTokens hblank
  obtain ⟨s, hs, hhalved, hposition, hsome⟩ := halveDiff_spec hblank hroom hpositioned hr
  obtain ⟨s', hs', hdropped, hdiff', hnext'⟩ := dropFiles_spec (hhalved.trims.clean hblank) hhalved.reply
  obtain ⟨s'', hs'', hbody, hdiff'', hnext''⟩ := dropBody_spec (hdropped.trims.clean (hhalved.trims.clean hblank)) hdropped.reply
  have hclean := hbody.trims.clean (hdropped.trims.clean (hhalved.trims.clean hblank))
  have hstill : s''.1.continuationBlocked = false := hbody.unblocked.trans (hdropped.unblocked.trans (hhalved.unblocked.trans hunblocked))
  obtain ⟨t, ht, hreply, hown, hdiff, hnext, hblocked⟩ := markBlocked_spec byteOffset p.totalBytes hclean hstill hbody.reply
  have hpage : t.1.diff = s.1.diff := hdiff.trans (hdiff''.trans hdiff')
  have hoffset : t.1.nextOffset = s.1.nextOffset := hnext.trans (hnext''.trans hnext')
  refine ⟨t, bind_eq_ok.mpr ⟨r, hr, bind_eq_ok.mpr ⟨s, hs, bind_eq_ok.mpr ⟨s', hs', bind_eq_ok.mpr ⟨s'', hs'', ht⟩⟩⟩⟩, ?_, hreply, ?_, ?_, ?_, ?_⟩
  · exact hown.trans (hbody.trims.own.trans (hdropped.trims.own.trans hhalved.trims.own))
  · rw [hpage]
    exact hhalved.trims.diff
  · have htotal : s.1.totalBytes = p.totalBytes := hhalved.trims.totalBytes
    rw [hoffset, hpage, hposition, htotal]
  · rw [hpage]
    exact hsome
  · rw [hblocked, hnext]

/-! ## What a reply says -/

def textOf : Json → Text
  | .str t => t
  | _ => []

def shownDiff (d : Dict) : Text := ((dictGet (txt "diff") d).map textOf).getD []

def fileDiffText : Json → Text
  | .obj f => shownDiff f
  | _ => []

def shownFileDiffs (d : Dict) : List Text := (shownItems (txt "file_diffs") d).map fileDiffText

def flagOf (k : Text) (d : Dict) : Bool :=
  match dictGet k d with
  | some (.bool b) => b
  | _ => false

def completeOf (d : Dict) : Bool := flagOf (txt "complete") d

def blockedOf (d : Dict) : Bool := flagOf (txt "continuation_blocked") d

/-- A reply that is flagged as cut is not complete. -/
theorem not_truncated_of_complete {d : Dict} {truncated : Bool} {reason : Text} {budget : Budget} {r : Measured}
    (hr : withBudgetMetadata enc d budget truncated reason = .ok r) (hcomplete : completeOf r.1 = true) : truncated = false := by
  obtain ⟨m, -, hr⟩ := bind_eq_ok.mp hr
  obtain ⟨s, hs, hr⟩ := bind_eq_ok.mp hr
  have hsettled : dictGet (txt "complete") s.result = some (.bool (!truncated)) := by
    rw [settleEstimate_flag (by decide) hs, withContract, dictGet_dictSet_of_ne (by decide), dictGet_dictSet_of_ne (by decide),
      dictGet_dictSet_of_ne (by decide), dictGet_dictSet_of_ne (by decide), dictGet_dictSet_of_ne (by decide), dictGet_dictSet_self]
  split at hr
  · cases Except.ok.inj hr
    rw [completeOf, flagOf, hsettled] at hcomplete
    exact (Bool.not_eq_true' truncated).mp hcomplete
  · have hexceeded : dictGet (txt "complete") r.1 = some (.bool false) := by
      rw [resettleEstimate_flag (by decide) hr, withBudgetExceeded]
      cases truncated with
      | true =>
        rw [if_pos rfl, dictGet_dictSet_of_ne (by decide), dictGet_dictSet_of_ne (by decide), dictGet_dictSet_of_ne (by decide),
          dictGet_dictSet_self]
      | false =>
        rw [if_neg Bool.false_ne_true, dictGet_dictSet_of_ne (by decide), dictGet_dictSet_of_ne (by decide),
          dictGet_dictSet_of_ne (by decide), dictGet_dictSet_of_ne (by decide), dictGet_dictSet_self]
    rw [completeOf, flagOf, hexceeded] at hcomplete
    exact absurd hcomplete Bool.false_ne_true

theorem dictGet_append_of_none {k : Text} {a b : Dict} (h : dictGet k a = none) : dictGet k (a ++ b) = dictGet k b := by
  rw [dictGet, Option.map_eq_none_iff] at h
  rw [dictGet, dictGet, List.find?_append, h, Option.none_or]

theorem dictGet_flag_of_ne {k k' : Text} (hk : k' ≠ k) (b : Bool) : dictGet k (flag k' b) = none := by
  cases b with
  | false => rfl
  | true => simp [flag, dictGet, hk]

/-- What a reply shows of its payload. -/
structure Shows (p : GitPayload) (d : Dict) : Prop where
  diff : shownDiff d = p.diff
  next : nextOffsetOf d = p.nextOffset
  files : shownFileDiffs d = p.fileDiffs.map FileDiff.diff
  blocked : blockedOf d = p.continuationBlocked

theorem blockedOf_payload (hown : dictGet (txt "continuation_blocked") p.own = none) : blockedOf p.payload = p.continuationBlocked := by
  have hbody : dictGet (txt "continuation_blocked") (p.body.map fun body => (txt "body", Json.str body)).toList = none := by
    cases p.body with
    | none => rfl
    | some body => rfl
  have hfields : ∀ d : Dict, dictGet (txt "continuation_blocked") ([(txt "files", .arr (p.files.map .str)),
      (txt "file_diffs", .arr (p.fileDiffs.map FileDiff.json)), (txt "diff", .str p.diff), (txt "total_bytes", natJson p.totalBytes),
      (txt "next_offset", optionalCount p.nextOffset)] ++ d) = dictGet (txt "continuation_blocked") d := fun d => dictGet_append_of_none rfl
  rw [blockedOf, flagOf, GitPayload.payload, hfields, dictGet_append_of_none hown, dictGet_append_of_none hbody,
    dictGet_append_of_none (dictGet_flag_of_ne (by decide) _), dictGet_append_of_none (dictGet_flag_of_ne (by decide) _)]
  cases p.continuationBlocked with
  | false => rfl
  | true => rfl

theorem shows_reply (hown : dictGet (txt "continuation_blocked") p.own = none) {truncated : Bool} {reason : Text} {budget : Budget} {r : Measured}
    (hr : withBudgetMetadata enc p.payload budget truncated reason = .ok r) : Shows p r.1 := by
  refine ⟨?_, ?_, ?_, ?_⟩
  · rw [shownDiff, withBudgetMetadata_get (by decide) hr]
    rfl
  · rw [nextOffsetOf_reply hr]
    exact countOf_optionalCount p.nextOffset
  · have hitems : shownItems (txt "file_diffs") p.payload = p.fileDiffs.map FileDiff.json := rfl
    rw [shownFileDiffs, shownItems_reply (by decide) hr, hitems, List.map_map]
    rfl
  · rw [blockedOf, flagOf, withBudgetMetadata_get (by decide) hr]
    exact blockedOf_payload hown

/-! ## Calls and their replies -/

variable (enc) (maxBytes : ℕ+) (offset : ℕ)

/-- Whether the page stops before the end of the diff. -/
def GitCall.byteTruncated : Bool := decide ((x.page maxBytes offset).2.2 < x.totalBytes)

/-- The payload of the first stage. -/
def GitCall.first : GitPayload := firstOffset (x.page maxBytes offset).2.1 (x.byteTruncated maxBytes offset) (x.payload maxBytes offset)

/-- The reply as first built fits. -/
def FitsFirst : Prop :=
  fitsReply enc { maxTokens := x.maxTokens } (x.first maxBytes offset).payload (x.byteTruncated maxBytes offset)
    (if x.byteTruncated maxBytes offset then txt "byte_budget" else txt "end_of_diff") = true

/-- The reply with its bodies cut to their shares fits. -/
def FitsShrunk (q : GitPayload) : Prop :=
  fitsReply enc { maxTokens := x.maxTokens } q.payload (x.byteTruncated maxBytes offset || decide (q.diff ≠ (x.first maxBytes offset).diff))
    (if decide (q.diff ≠ (x.first maxBytes offset).diff) then tokenBudgetReason else txt "byte_budget") = true

/-- Something of the diff is shown. The character at the offset is no longer than `max_bytes`, and
the reply fits at once, or with a page cut to half the tokens, or with a half of that. -/
def Progress : Prop :=
  (x.page maxBytes offset).1 ≠ [] ∧ (FitsFirst enc x maxBytes offset ∨
    KeepsSome enc (atLeastOne (x.maxTokens / 2)) (x.page maxBytes offset).1 ∧
      ∃ q, shrinkBodies enc x.maxTokens (x.page maxBytes offset).2.1 (x.first maxBytes offset) = .ok q ∧
        (FitsShrunk enc x maxBytes offset q ∨ SomeHalfFits enc x.maxTokens (x.page maxBytes offset).2.1 q.blankFiles))

/-- A reply that is returned before the files are given up, with its payload. -/
inductive Early : GitPayload → Measured → Prop
  | first {r : Measured} : firstReply enc x.maxTokens (x.byteTruncated maxBytes offset) (x.first maxBytes offset) = .ok r → r.2.fits = true →
      Early (x.first maxBytes offset) r
  | shrunk {r r' : Measured} {q : GitPayload} :
      firstReply enc x.maxTokens (x.byteTruncated maxBytes offset) (x.first maxBytes offset) = .ok r → r.2.fits = false →
      shrinkBodies enc x.maxTokens (x.page maxBytes offset).2.1 (x.first maxBytes offset) = .ok q →
      shrunkReply enc x.maxTokens (x.byteTruncated maxBytes offset) (decide (q.diff ≠ (x.first maxBytes offset).diff)) q = .ok r' →
      r'.2.fits = true → Early q r'

/-- A reply at an offset, and the payload it is built from. -/
structure Outcome (p : GitPayload) (d : Dict) : Prop where
  shows : Shows p d
  diff : p.diff <+: (x.page maxBytes offset).1
  next : p.nextOffset = if (x.page maxBytes offset).2.1 + (encoded p.diff).length < x.totalBytes then
    some ((x.page maxBytes offset).2.1 + (encoded p.diff).length) else none
  progress : p.diff ≠ [] ↔ Progress enc x maxBytes offset
  early : (∃ r, Early enc x maxBytes offset p r ∧ d = r.1) ∨ completeOf d = false ∧
    (blockedOf d = true ↔ p.nextOffset = some (x.page maxBytes offset).2.1 ∧ (x.page maxBytes offset).2.1 < x.totalBytes)

variable {enc x maxBytes offset}

theorem own_unblocked : dictGet (txt "continuation_blocked") (x.first maxBytes offset).own = none := by
  have hown : (x.first maxBytes offset).own = x.shown.own x.cwd x.repoRoot := rfl
  rw [hown]
  cases x.shown with
  | changes => rfl
  | commit => rfl

/-- The page of a call lies in the diff. -/
theorem page_split (x : GitCall) (maxBytes : ℕ+) (offset : ℕ) : ∃ before rest,
    x.text = before ++ ((x.page maxBytes offset).1 ++ rest) ∧ (x.page maxBytes offset).2.1 = (encoded before).length ∧
      (x.page maxBytes offset).2.2 = (encoded before).length + (encoded (x.page maxBytes offset).1).length := by
  obtain ⟨before, page, rest, htext, -, hpage⟩ := utf8BytePage_split x.encodable offset maxBytes
  have hpage : x.page maxBytes offset = (page, (encoded before).length, (encoded before).length + (encoded page).length) := hpage
  refine ⟨before, rest, ?_, ?_, ?_⟩
  · rw [hpage]
    exact htext
  · rw [hpage]
  · rw [hpage]

theorem page_room (x : GitCall) (maxBytes : ℕ+) (offset : ℕ) :
    (x.page maxBytes offset).2.1 + (encoded (x.page maxBytes offset).1).length ≤ x.totalBytes := by
  obtain ⟨before, rest, htext, hstart, -⟩ := page_split x maxBytes offset
  rw [GitCall.totalBytes, htext, hstart, encoded_append, encoded_append, List.length_append, List.length_append]
  omega

theorem first_positioned : (x.first maxBytes offset).Positioned (x.page maxBytes offset).2.1 := by
  obtain ⟨before, rest, -, hstart, hstop⟩ := page_split x maxBytes offset
  have hsame : (x.page maxBytes offset).2.2 = (x.page maxBytes offset).2.1 + (encoded (x.page maxBytes offset).1).length := by
    rw [hstop, hstart]
  have hcut : x.byteTruncated maxBytes offset =
      decide ((x.page maxBytes offset).2.1 + (encoded (x.page maxBytes offset).1).length < x.totalBytes) := by
    rw [GitCall.byteTruncated, hsame]
  have hnext : (x.first maxBytes offset).nextOffset = if x.byteTruncated maxBytes offset then
      some ((x.page maxBytes offset).2.1 + (encoded (x.page maxBytes offset).1).length) else none := rfl
  have hdiff : (x.first maxBytes offset).diff = (x.page maxBytes offset).1 := rfl
  have htotal : (x.first maxBytes offset).totalBytes = x.totalBytes := rfl
  rw [GitPayload.Positioned, hnext, hcut, hdiff, htotal]
  simp only [decide_eq_true_eq]

theorem gitReply_eq : gitReply enc x maxBytes offset = (do
    let r ← firstReply enc x.maxTokens (x.byteTruncated maxBytes offset) (x.first maxBytes offset)
    if r.2.fits then pure r.1
    else do
      let q ← shrinkBodies enc x.maxTokens (x.page maxBytes offset).2.1 (x.first maxBytes offset)
      let r ← shrunkReply enc x.maxTokens (x.byteTruncated maxBytes offset) (decide (q.diff ≠ (x.first maxBytes offset).diff)) q
      if r.2.fits then pure r.1
      else do
        let (_, r) ← giveUpFiles enc x.maxTokens (x.page maxBytes offset).2.1 x.totalBytes q
        pure r.1) := rfl

theorem clean_of_returns {d : Dict} (h : gitReply enc x maxBytes offset = .ok d) : (x.first maxBytes offset).Clean := by
  rw [gitReply_eq] at h
  obtain ⟨r, hr, -⟩ := bind_eq_ok.mp h
  exact (clean_iff _).mp ((withBudgetMetadata_returns_iff _ _ _ _ _).mp ⟨r, hr⟩).1

theorem Early.returns {p : GitPayload} {r : Measured} (h : Early enc x maxBytes offset p r) : gitReply enc x maxBytes offset = .ok r.1 := by
  rw [gitReply_eq]
  cases h with
  | first hr hfits => exact bind_eq_ok.mpr ⟨r, hr, if_pos hfits⟩
  | shrunk hr hlong hq hr' hfits =>
    refine bind_eq_ok.mpr ⟨_, hr, ?_⟩
    rw [hlong, if_neg Bool.false_ne_true]
    exact bind_eq_ok.mpr ⟨_, hq, bind_eq_ok.mpr ⟨_, hr', if_pos hfits⟩⟩

/-- Every payload that can be rendered gets a reply, with a front of the page. -/
theorem gitReply_outcome (hclean : (x.first maxBytes offset).Clean) :
    ∃ p d, gitReply enc x maxBytes offset = .ok d ∧ Outcome enc x maxBytes offset p d := by
  have hroom := page_room x maxBytes offset
  have hreason : ∀ b : Bool, Measurable (if b then txt "byte_budget" else txt "end_of_diff") := fun b => by
    cases b with
    | false => exact measurable_of_isBenign (by decide)
    | true => exact measurable_of_isBenign (by decide)
  have hreason' : ∀ b : Bool, Measurable (if b then tokenBudgetReason else txt "byte_budget") := fun b => by
    cases b with
    | false => exact measurable_of_isBenign (by decide)
    | true => exact measurable_of_isBenign (by decide)
  obtain ⟨r, hr⟩ := (withBudgetMetadata_returns_iff enc _ { maxTokens := x.maxTokens } (x.byteTruncated maxBytes offset) _).mpr
    ⟨(clean_iff (x.first maxBytes offset)).mpr hclean, hreason (x.byteTruncated maxBytes offset)⟩
  have hfirst : FitsFirst enc x maxBytes offset ↔ r.2.fits = true := by rw [FitsFirst, fitsReply_of_ok hr]
  by_cases hfits : r.2.fits = true
  · refine ⟨x.first maxBytes offset, r.1, (Early.first hr hfits).returns, shows_reply own_unblocked hr, List.prefix_refl _,
      first_positioned, ?_, .inl ⟨r, .first hr hfits, rfl⟩⟩
    exact (and_iff_left (.inl (hfirst.mpr hfits))).symm
  · obtain ⟨q, hq, hshrunk⟩ := shrinkBodies_spec enc x.maxTokens (x.page maxBytes offset).2.1 hclean
    have hqclean := hshrunk.trims.clean hclean
    have hqown : dictGet (txt "continuation_blocked") q.own = none := hshrunk.trims.own ▸ own_unblocked
    obtain ⟨r', hr'⟩ := (withBudgetMetadata_returns_iff enc q.payload { maxTokens := x.maxTokens }
      (x.byteTruncated maxBytes offset || decide (q.diff ≠ (x.first maxBytes offset).diff)) _).mpr ⟨(clean_iff q).mpr hqclean, hreason' _⟩
    have hsecond : FitsShrunk enc x maxBytes offset q ↔ r'.2.fits = true := by rw [FitsShrunk, fitsReply_of_ok hr']
    have hsome : q.diff ≠ [] → (x.page maxBytes offset).1 ≠ [] ∧ KeepsSome enc (atLeastOne (x.maxTokens / 2)) (x.page maxBytes offset).1 :=
      fun hne => ⟨fun hnil => (hshrunk.nonempty.mp hne).1 hnil, hshrunk.nonempty.mp hne⟩
    have htotal : q.totalBytes = x.totalBytes := hshrunk.trims.totalBytes
    have hposition := hshrunk.positioned
    rw [GitPayload.Positioned, htotal] at hposition
    by_cases hfits' : r'.2.fits = true
    · have hearly : Early enc x maxBytes offset q r' := .shrunk hr (Bool.not_eq_true _ ▸ hfits) hq hr' hfits'
      refine ⟨q, r'.1, hearly.returns, shows_reply hqown hr', hshrunk.trims.diff, hposition, ?_, .inl ⟨r', hearly, rfl⟩⟩
      constructor
      · intro hne
        exact ⟨(hsome hne).1, .inr ⟨(hsome hne).2, q, hq, .inl (hsecond.mpr hfits')⟩⟩
      · intro hprogress
        exact hshrunk.nonempty.mpr (hprogress.2.resolve_left (mt hfirst.mp hfits)).1
    · have hlength : (x.page maxBytes offset).2.1 + (encoded q.diff).length ≤ q.totalBytes := by
        obtain ⟨rest, hrest⟩ := hshrunk.trims.diff
        have hsplit := congrArg (fun t => (encoded t).length) hrest
        have hpage : (x.first maxBytes offset).diff = (x.page maxBytes offset).1 := rfl
        simp only [encoded_append, List.length_append, hpage] at hsplit
        omega
      obtain ⟨s, hs, hgiven⟩ := giveUpFiles_spec enc x.maxTokens hqclean hlength hshrunk.positioned hshrunk.unblocked
      have hpage : s.1.diff <+: (x.page maxBytes offset).1 := hgiven.diff.trans hshrunk.trims.diff
      have hown : dictGet (txt "continuation_blocked") s.1.own = none := hgiven.own ▸ hqown
      have hreply : gitReply enc x maxBytes offset = .ok s.2.1 := by
        rw [gitReply_eq]
        refine bind_eq_ok.mpr ⟨r, hr, (if_neg hfits).trans (bind_eq_ok.mpr ⟨q, hq, bind_eq_ok.mpr ⟨r', hr', (if_neg hfits').trans ?_⟩⟩)⟩
        rw [htotal] at hs
        exact bind_eq_ok.mpr ⟨s, hs, rfl⟩
      have hshows := shows_reply hown hgiven.reply
      have hblocked := hgiven.blocked
      have hnext := hgiven.next
      rw [htotal] at hblocked hnext
      refine ⟨s.1, s.2.1, hreply, hshows, hpage, hnext, ?_, .inr ⟨?_, ?_⟩⟩
      · rw [hgiven.nonempty]
        constructor
        · intro hhalf
          have hne : q.diff ≠ [] := (someHalfFits_iff.mp hhalf).1
          exact ⟨(hsome hne).1, .inr ⟨(hsome hne).2, q, hq, .inr hhalf⟩⟩
        · intro hprogress
          obtain ⟨-, q', hq', hstage⟩ := hprogress.2.resolve_left (mt hfirst.mp hfits)
          cases Except.ok.inj (hq.symm.trans hq')
          exact hstage.resolve_left (mt hsecond.mp hfits')
      · exact Bool.eq_false_iff.mpr fun hcomplete => absurd (not_truncated_of_complete hgiven.reply hcomplete) (by simp)
      · rw [hshows.blocked, hblocked]

/-! ## Walks -/

variable (enc x) in
/-- The pages that a caller of `git_diff` or `git_show` gets. -/
def diffPager (maxBytes : ℕ+) (offset : ℕ) : Option (Page CodePoint) :=
  match gitReply enc x maxBytes offset with
  | .ok d => some ⟨shownDiff d, nextOffsetOf d⟩
  | .error _ => none

theorem diffPager_some {p : Page CodePoint} (h : diffPager enc x maxBytes offset = some p) :
    ∃ d, gitReply enc x maxBytes offset = .ok d ∧ p = ⟨shownDiff d, nextOffsetOf d⟩ := by
  rw [diffPager] at h
  split at h
  · next d hd => exact ⟨d, hd, (Option.some.inj h).symm⟩
  · exact absurd h.symm (Option.some_ne_none _)

/-- The octets of a character begin there. -/
def Boundary (x : GitCall) (i : ℕ) (after : Text) : Prop := ∃ before, x.text = before ++ after ∧ i = (encoded before).length

theorem Boundary.page {i : ℕ} {after : Text} (h : Boundary x i after) (maxBytes : ℕ+) :
    (x.page maxBytes i).1 <+: after ∧ (x.page maxBytes i).2.1 = i ∧ x.totalBytes = i + (encoded after).length := by
  obtain ⟨before, htext, rfl⟩ := h
  have hencodable : isEncodable (before ++ after) = true := htext ▸ x.encodable
  have hpage := utf8BytePage_boundary hencodable maxBytes
  rw [GitCall.page, GitCall.totalBytes, htext, hpage, encoded_append, List.length_append]
  exact ⟨charsWithin_front _ _, rfl, rfl⟩

/-- Where the page ends, a character begins. -/
theorem Boundary.behind {i : ℕ} {shown after : Text} (h : Boundary x i (shown ++ after)) : Boundary x (i + (encoded shown).length) after := by
  obtain ⟨before, htext, rfl⟩ := h
  refine ⟨before ++ shown, ?_, ?_⟩
  · rw [htext, List.append_assoc]
  · rw [encoded_append, List.length_append]

theorem boundary_start (x : GitCall) : Boundary x 0 x.text := ⟨[], rfl, rfl⟩

/-- At a boundary, the reply shows what comes next and leads behind it. -/
theorem Outcome.serves {i : ℕ} {after : Text} {p : GitPayload} {d : Dict} (h : Outcome enc x maxBytes i p d) (hi : Boundary x i after) :
    ∃ rest, after = shownDiff d ++ rest ∧ nextOffsetOf d = if rest = [] then none else some (i + (encoded (shownDiff d)).length) := by
  obtain ⟨hpage, hstart, htotal⟩ := hi.page maxBytes
  obtain ⟨rest, hrest⟩ := h.diff.trans hpage
  refine ⟨rest, by rw [h.shows.diff, hrest], ?_⟩
  rw [h.shows.next, h.next, h.shows.diff, hstart, htotal, ← hrest, encoded_append, List.length_append]
  by_cases hnil : rest = []
  · rw [if_pos hnil, hnil, encoded_nil, List.length_nil, if_neg (by omega)]
  · have hpos := List.length_pos_iff.mpr (mt encoded_eq_nil.mp hnil)
    rw [if_neg hnil, if_pos (by omega)]

theorem boundary_of_reached {sizes : Set ℕ+} {i : ℕ} (h : Reached (diffPager enc x) sizes i) : ∃ after, Boundary x i after := by
  induction h with
  | start => exact ⟨x.text, boundary_start x⟩
  | next _ _ hp hnext ih =>
    obtain ⟨after, hi⟩ := ih
    obtain ⟨d, hd, rfl⟩ := diffPager_some hp
    obtain ⟨p, d', hd', houtcome⟩ := gitReply_outcome (clean_of_returns hd)
    cases Except.ok.inj (hd.symm.trans hd')
    obtain ⟨rest, hafter, hoffset⟩ := houtcome.serves hi
    rw [hafter] at hi
    have hnext : nextOffsetOf d = some _ := hnext
    rw [hoffset] at hnext
    split at hnext
    · exact absurd hnext.symm (Option.some_ne_none _)
    · exact ⟨rest, Option.some.inj hnext ▸ hi.behind⟩

/-! ## What is promised, and when it holds -/

variable (enc x) (sizes : Set ℕ+)

/-- The pages are the diff, in whatever sizes a caller asks for them; a reply that stops short leads
on or says that it cannot; and none calls itself complete in which something is cut. -/
structure DiffPaged : Prop where
  pages : ∀ reqs : ℕ → ℕ+, (∀ n, reqs n ∈ sizes) → Walk (diffPager enc x) reqs 0 x.text
  moves : ∀ maxBytes ∈ sizes, ∀ offset d, gitReply enc x maxBytes offset = .ok d →
    (x.page maxBytes offset).2.1 + (encoded (shownDiff d)).length < x.totalBytes →
      (∃ j, nextOffsetOf d = some j ∧ offset < j) ∨ blockedOf d = true
  honest : ∀ maxBytes ∈ sizes, ∀ offset d, gitReply enc x maxBytes offset = .ok d → completeOf d = true →
    (x.page maxBytes offset).2.1 + (encoded (shownDiff d)).length = x.totalBytes ∧ shownFileDiffs d = x.chunks.map Prod.snd

/-- No file is longer than `per_file_max_bytes`. -/
def FilesWhole : Prop := ∀ c ∈ x.chunks, (encoded c.2).length ≤ x.perFileMaxBytes

/-- Each file is within its share of the tokens. -/
def FilesFit : Prop := ∀ c ∈ x.chunks, c.2 = [] ∨ fitsText enc (perFieldTokens x.maxTokens x.chunks.length) c.2 = true

/-- Where a walk comes, what is built can be rendered and shows something; a reply that is returned
early shows something unless the diff is at its end; and one that calls itself complete has all
files whole. -/
structure Roomy : Prop where
  advances : ∀ i, Reached (diffPager enc x) sizes i → ∀ maxBytes ∈ sizes,
    (x.first maxBytes i).Clean ∧ (i < x.totalBytes → Progress enc x maxBytes i)
  flagged : ∀ maxBytes ∈ sizes, ∀ i < x.totalBytes, (x.page maxBytes i).2.1 = i → ∀ p r, Early enc x maxBytes i p r → Progress enc x maxBytes i
  whole : ∀ maxBytes ∈ sizes, ∀ i p r, Early enc x maxBytes i p r → completeOf r.1 = true →
    FilesWhole x ∧ (FitsFirst enc x maxBytes i ∨ FilesFit enc x)

variable {enc x sizes}

theorem progress_nonempty {p : GitPayload} {d : Dict} (h : Outcome enc x maxBytes offset p d) : shownDiff d ≠ [] ↔ Progress enc x maxBytes offset := by
  rw [h.shows.diff]
  exact h.progress

/-- The pages of a walk are what is left of the diff. -/
theorem walk_of_roomy (hroom : Roomy enc x sizes) {i : ℕ} {after : Text} (hi : Boundary x i after) (hreached : Reached (diffPager enc x) sizes i)
    {reqs : ℕ → ℕ+} (hreqs : ∀ n, reqs n ∈ sizes) : Walk (diffPager enc x) reqs i after := by
  induction hn : after.length using Nat.strongRecOn generalizing i after reqs with
  | ind n ih =>
    obtain ⟨hclean, hprogress⟩ := hroom.advances i hreached (reqs 0) (hreqs 0)
    obtain ⟨p, d, hd, houtcome⟩ := gitReply_outcome hclean
    obtain ⟨rest, hafter, hoffset⟩ := houtcome.serves hi
    have hpage : diffPager enc x (reqs 0) i = some ⟨shownDiff d, nextOffsetOf d⟩ := by rw [diffPager, hd]
    by_cases hrest : rest = []
    · rw [if_pos hrest] at hoffset
      rw [hrest, List.append_nil] at hafter
      rw [hafter]
      exact .last hpage hoffset
    · rw [if_neg hrest] at hoffset
      have hmore : i < x.totalBytes := by
        have htotal := (hi.page (reqs 0)).2.2
        have hpos := List.length_pos_iff.mpr (mt encoded_eq_nil.mp hrest)
        rw [hafter, encoded_append, List.length_append] at htotal
        omega
      have hpos := List.length_pos_iff.mpr ((progress_nonempty houtcome).mpr (hprogress hmore))
      rw [hafter] at hi hn ⊢
      rw [List.length_append] at hn
      exact .more hpage hoffset (ih rest.length (by omega) hi.behind (.next hreached (hreqs 0) hpage hoffset) (fun n => hreqs (n + 1)) rfl)

/-- A call that gets no reply, or shows nothing before the end, strands the walk. -/
theorem advances_of_pages (h : ∀ reqs : ℕ → ℕ+, (∀ n, reqs n ∈ sizes) → Walk (diffPager enc x) reqs 0 x.text) {i : ℕ}
    (hreached : Reached (diffPager enc x) sizes i) (hsize : maxBytes ∈ sizes) :
    (x.first maxBytes i).Clean ∧ (i < x.totalBytes → Progress enc x maxBytes i) := by
  have hends : ∃ ys, Walk (diffPager enc x) (fun _ => maxBytes) i ys := by
    by_contra hnone
    obtain ⟨reqs, hreqs, hstranded⟩ := hreached.strand (fun _ => hsize) fun ys hwalk => hnone ⟨ys, hwalk⟩
    exact hstranded _ (h reqs hreqs)
  obtain ⟨ys, hwalk⟩ := hends
  obtain ⟨page, hpage⟩ := hwalk.reply
  obtain ⟨d, hd, rfl⟩ := diffPager_some hpage
  have hclean := clean_of_returns hd
  refine ⟨hclean, fun hmore => ?_⟩
  obtain ⟨p, d', hd', houtcome⟩ := gitReply_outcome hclean
  cases Except.ok.inj (hd.symm.trans hd')
  refine (progress_nonempty houtcome).mp fun hnil => ?_
  obtain ⟨after, hi⟩ := boundary_of_reached hreached
  obtain ⟨rest, hafter, hoffset⟩ := houtcome.serves hi
  have hrest : rest ≠ [] := fun hrest => by
    rw [hnil, hrest] at hafter
    have htotal := (hi.page maxBytes).2.2
    rw [hafter, List.append_nil, encoded_nil, List.length_nil] at htotal
    omega
  rw [if_neg hrest, hnil, encoded_nil, List.length_nil, Nat.add_zero] at hoffset
  exact not_walk_of_same hpage hoffset hwalk

/-- What an early reply is built from, by the stage that returns it. -/
theorem Early.stage {p : GitPayload} {r : Measured} (h : Early enc x maxBytes offset p r) :
    (p = x.first maxBytes offset ∧ FitsFirst enc x maxBytes offset ∧ (completeOf r.1 = true → x.byteTruncated maxBytes offset = false)) ∨
      (Shrunk enc x.maxTokens (x.page maxBytes offset).2.1 (x.first maxBytes offset) p ∧ ¬FitsFirst enc x maxBytes offset ∧
        (completeOf r.1 = true → x.byteTruncated maxBytes offset = false ∧ p.diff = (x.first maxBytes offset).diff)) := by
  have hclean := clean_of_returns h.returns
  cases h with
  | first hr hfits =>
    have hfirst : FitsFirst enc x maxBytes offset := by rw [FitsFirst, fitsReply_of_ok hr, hfits]
    exact .inl ⟨rfl, hfirst, not_truncated_of_complete hr⟩
  | shrunk hr hlong hq hr' hfits =>
    obtain ⟨q, hq', hshrunk⟩ := shrinkBodies_spec enc x.maxTokens (x.page maxBytes offset).2.1 hclean
    cases Except.ok.inj (hq.symm.trans hq')
    refine .inr ⟨hshrunk, ?_, fun hcomplete => ?_⟩
    · rw [FitsFirst, fitsReply_of_ok hr, hlong]
      exact Bool.false_ne_true
    · have hflags := not_truncated_of_complete hr' hcomplete
      rw [Bool.or_eq_false_iff, decide_eq_false_iff_not, not_not] at hflags
      exact hflags

theorem Early.shows {p : GitPayload} {r : Measured} (h : Early enc x maxBytes offset p r) : Shows p r.1 := by
  have hown : dictGet (txt "continuation_blocked") p.own = none := by
    cases h.stage with
    | inl hfirst => exact hfirst.1 ▸ own_unblocked
    | inr hshrunk => exact hshrunk.1.trims.own ▸ own_unblocked
  cases h with
  | first hr _ => exact shows_reply hown hr
  | shrunk _ _ _ hr' _ => exact shows_reply hown hr'

theorem Early.unblocked {p : GitPayload} {r : Measured} (h : Early enc x maxBytes offset p r) : blockedOf r.1 = false := by
  rw [h.shows.blocked]
  cases h.stage with
  | inl hfirst =>
    rw [hfirst.1]
    rfl
  | inr hshrunk => exact hshrunk.1.unblocked

/-- A reply before the end moves on or says that it cannot, unless it is returned early with
nothing in it. -/
theorem moves_iff {d : Dict} (hd : gitReply enc x maxBytes offset = .ok d) :
    ((x.page maxBytes offset).2.1 + (encoded (shownDiff d)).length < x.totalBytes →
      (∃ j, nextOffsetOf d = some j ∧ offset < j) ∨ blockedOf d = true) ↔
    ((x.page maxBytes offset).2.1 = offset → offset < x.totalBytes → ∀ p r, Early enc x maxBytes offset p r → Progress enc x maxBytes offset) := by
  obtain ⟨p, d', hd', houtcome⟩ := gitReply_outcome (clean_of_returns hd)
  cases Except.ok.inj (hd.symm.trans hd')
  have hnext := houtcome.next
  rw [← houtcome.shows.diff] at hnext
  constructor
  · intro h hstart hmore p' r hearly
    cases Except.ok.inj (hd.symm.trans hearly.returns)
    refine (progress_nonempty houtcome).mp fun hnil => ?_
    rw [hnil, encoded_nil, List.length_nil, Nat.add_zero, hstart, if_pos hmore] at hnext
    have hstuck := h (by rw [hnil, encoded_nil, List.length_nil, Nat.add_zero, hstart]; exact hmore)
    rw [houtcome.shows.next, hnext] at hstuck
    cases hstuck with
    | inl hmoves =>
      obtain ⟨j, hj, hlt⟩ := hmoves
      exact absurd (Option.some.inj hj) (Nat.ne_of_lt hlt)
    | inr hblocked => exact absurd (hearly.unblocked.symm.trans hblocked) Bool.false_ne_true
  · intro h hshort
    rw [if_pos hshort] at hnext
    rw [houtcome.shows.next, hnext]
    by_cases hlt : offset < (x.page maxBytes offset).2.1 + (encoded (shownDiff d)).length
    · exact .inl ⟨_, rfl, hlt⟩
    · have hle := min_le_pageStart (encoded x.text) offset
      have hstart : (x.page maxBytes offset).2.1 = pageStart (encoded x.text) offset := rfl
      have htotal : x.totalBytes = (encoded x.text).length := rfl
      have hnone : shownDiff d = [] := encoded_eq_nil.mp (List.length_eq_zero_iff.mp (by omega))
      have hstays : (x.page maxBytes offset).2.1 = offset := by omega
      refine .inr ?_
      cases houtcome.early with
      | inl hearly =>
        obtain ⟨r, hearly, -⟩ := hearly
        exact absurd hnone ((progress_nonempty houtcome).mpr (h hstays (by omega) p r hearly))
      | inr hlate =>
        refine hlate.2.mpr ⟨?_, by omega⟩
        rw [hnext, hnone, encoded_nil, List.length_nil, Nat.add_zero]

/-- A file is shown whole when it is no longer than `per_file_max_bytes`. -/
theorem fileDiffOf_diff (perFileMaxBytes : ℕ+) (stat : Text → Option FileStat) (c : Text × Text) :
    c.2 <+: (fileDiffOf perFileMaxBytes stat c).diff ↔ (encoded c.2).length ≤ perFileMaxBytes := by
  by_cases hcut : (perFileMaxBytes : ℕ) < (encoded c.2).length
  · refine iff_of_false (fun hfront => ?_) (by omega)
    have hdiff : (fileDiffOf perFileMaxBytes stat c).diff = decodeIgnore ((encoded c.2).take perFileMaxBytes) := if_pos (decide_eq_true hcut)
    have hshort := length_decodeIgnore_le ((encoded c.2).take perFileMaxBytes)
    obtain ⟨rest, hrest⟩ := hfront
    rw [hdiff] at hrest
    rw [← hrest, encoded_append, List.length_append, List.length_take] at hshort
    omega
  · have hdiff : (fileDiffOf perFileMaxBytes stat c).diff = c.2 := if_neg (by simpa using hcut)
    rw [hdiff]
    exact iff_of_true (List.prefix_refl _) (by omega)

/-- The files of an early reply are whole when none is too long, and each is within its share of the
tokens if the reply was cut to them. -/
theorem Early.files_iff {p : GitPayload} {r : Measured} (h : Early enc x maxBytes offset p r) :
    p.fileDiffs.map FileDiff.diff = x.chunks.map Prod.snd ↔ FilesWhole x ∧ (FitsFirst enc x maxBytes offset ∨ FilesFit enc x) := by
  have hfiles : (x.first maxBytes offset).fileDiffs = x.chunks.map (fileDiffOf x.perFileMaxBytes x.shown.stat) := rfl
  have hwhole : FilesWhole x → (x.first maxBytes offset).fileDiffs.map FileDiff.diff = x.chunks.map Prod.snd := by
    intro hall
    rw [hfiles, List.map_map]
    exact List.map_congr_left fun c hc => if_neg (by simpa using hall c hc)
  have hfronts : List.Forall₂ (fun f g => g.diff <+: f.diff) (x.first maxBytes offset).fileDiffs p.fileDiffs →
      p.fileDiffs.map FileDiff.diff = x.chunks.map Prod.snd → FilesWhole x := by
    intro hcut hsame
    have htexts : List.Forall₂ (fun f t => t <+: f.diff) (x.first maxBytes offset).fileDiffs (p.fileDiffs.map FileDiff.diff) :=
      List.forall₂_map_right_iff.mpr hcut
    rw [hsame, hfiles, List.forall₂_map_left_iff, List.forall₂_map_right_iff, List.forall₂_same] at htexts
    exact fun c hc => (fileDiffOf_diff _ _ c).mp (htexts c hc)
  cases h.stage with
  | inl hfirst =>
    obtain ⟨hp, hfits, -⟩ := hfirst
    have hsame : List.Forall₂ (fun f g => g.diff <+: f.diff) (x.first maxBytes offset).fileDiffs p.fileDiffs := by
      rw [hp]
      exact List.forall₂_same.mpr fun f _ => List.prefix_refl _
    exact ⟨fun heq => ⟨hfronts hsame heq, .inl hfits⟩, fun hall => hp ▸ hwhole hall.1⟩
  | inr hshrunk =>
    obtain ⟨hshrunk, hlong, -⟩ := hshrunk
    have hlength : (x.first maxBytes offset).fileDiffs.length = x.chunks.length := by rw [hfiles, List.length_map]
    have hbodies : FilesWhole x → (p.fileDiffs.map FileDiff.diff = x.chunks.map Prod.snd ↔ FilesFit enc x) := by
      intro hall
      rw [← hwhole hall, hshrunk.bodies, hlength, hfiles, List.forall_mem_map]
      refine forall₂_congr fun c hc => ?_
      have hdiff : (fileDiffOf x.perFileMaxBytes x.shown.stat c).diff = c.2 := if_neg (by simpa using hall c hc)
      rw [hdiff]
    constructor
    · intro heq
      have hall := hfronts hshrunk.fronts heq
      exact ⟨hall, .inr ((hbodies hall).mp heq)⟩
    · intro hall
      exact (hbodies hall.1).mpr (hall.2.resolve_left hlong)

/-- A reply that calls itself complete is, when an early one with that flag has whole files. -/
theorem honest_iff {d : Dict} (hd : gitReply enc x maxBytes offset = .ok d) :
    (completeOf d = true → (x.page maxBytes offset).2.1 + (encoded (shownDiff d)).length = x.totalBytes ∧
      shownFileDiffs d = x.chunks.map Prod.snd) ↔
    ∀ p r, Early enc x maxBytes offset p r → completeOf r.1 = true → FilesWhole x ∧ (FitsFirst enc x maxBytes offset ∨ FilesFit enc x) := by
  constructor
  · intro h p r hearly hcomplete
    cases Except.ok.inj (hd.symm.trans hearly.returns)
    rw [← hearly.files_iff, ← hearly.shows.files]
    exact (h hcomplete).2
  · intro h hcomplete
    obtain ⟨p, d', hd', houtcome⟩ := gitReply_outcome (clean_of_returns hd)
    cases Except.ok.inj (hd.symm.trans hd')
    cases houtcome.early with
    | inr hlate => exact absurd (hlate.1.symm.trans hcomplete) Bool.false_ne_true
    | inl hearly =>
      obtain ⟨r, hearly, rfl⟩ := hearly
      have hends : x.byteTruncated maxBytes offset = false ∧ p.diff = (x.first maxBytes offset).diff := by
        cases hearly.stage with
        | inl hfirst => exact ⟨hfirst.2.2 hcomplete, hfirst.1 ▸ rfl⟩
        | inr hshrunk => exact hshrunk.2.2 hcomplete
      refine ⟨?_, ?_⟩
      · obtain ⟨before, rest, htext, hstart, hstop⟩ := page_split x maxBytes offset
        have hpage : (x.first maxBytes offset).diff = (x.page maxBytes offset).1 := rfl
        have hend := hends.1
        rw [GitCall.byteTruncated, decide_eq_false_iff_not, hstop] at hend
        have hroom := page_room x maxBytes offset
        rw [houtcome.shows.diff, hends.2, hpage, hstart]
        rw [hstart] at hroom
        omega
      · rw [hearly.shows.files]
        exact hearly.files_iff.mpr (h p r hearly hcomplete)

theorem cleanPayload_of_isBenign {d : Dict} (h : (strings (.obj d)).all isBenign = true) : CleanPayload d := by
  have hclean : CleanJson (.obj d) := fun t ht => measurable_of_isBenign (List.all_eq_true.mp h t ht)
  exact fun f hf _ => cleanJson_obj.mp hclean f hf

/-- A tokenizer to which every text is one token. -/
def singleToken : TokenEncoding := ⟨fun _ => 1, rfl⟩

/-- A diff of one letter with two octets. -/
def oneLetter : GitCall where
  cwd := txt "/srv"
  repoRoot := txt "/srv"
  shown := .changes false fun _ => none
  text := [0xE9]
  encodable := by decide
  perFileMaxBytes := ⟨16384, by decide⟩
  maxTokens := ⟨8500, by decide⟩

end WebOauthMcp.DiffPaging
