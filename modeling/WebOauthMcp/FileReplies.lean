import WebOauthMcp.LineSplitting
import WebOauthMcp.BudgetMetadata
import WebOauthMcp.TokenOctets

/-!
# Reading and listing files

A read takes lines onto its page while the page fits; a listing takes entries onto its
page while the whole reply fits. Both measure every candidate page before they accept it.
-/

namespace WebOauthMcp.FileReplies
open CodePoints LineSplitting AvoidedWords JsonText ExceptSteps ResponseBudget BudgetMetadata TokenOctets

/-! ## Reading -/

structure ReadRequest where
  path : Text
  offset : Option ℤ := none
  limit : Option ℤ := none
  maxLines : ℤ
  maxBytes : ℕ+
  includeLineNumbers : Bool := false
  maxTokens : ℕ+

/-- What the path leads to. -/
inductive FileEntry
  | missing
  | notFile
  | file (raw : Bytes)

/-- `_read_text`; `none` is a binary file. -/
def readText (raw : Bytes) : Option Text :=
  if (raw.take 1024).contains 0 then none else some (Utf8Units.decodeReplace raw)


/-- `max(offset or 1, 1)`. -/
def startLine (offset : Option ℤ) : ℕ := (max ((offset.filter fun n => decide (n ≠ 0)).getD 1) 1).toNat

/-- `max(limit or max_lines, 1)`. -/
def lineLimit (limit : Option ℤ) (maxLines : ℤ) : ℕ :=
  (max ((limit.filter fun n => decide (n ≠ 0)).getD maxLines) 1).toNat

/-- One line of `_render_lines`. -/
def renderLine (includeLineNumbers : Bool) (number : ℕ) (line : Text) : Text :=
  if includeLineNumbers then decimal number ++ (txt ": " ++ line) else line

structure ReadPage where
  renderedLines : List Text
  measurement : BudgetMeasurement
  stopReason : Option Text
  oversizedLine : Bool

/-- The loop of `read_file` over the selected lines. -/
def takeLines (enc : TokenEncoding) (budget : Budget) (includeLineNumbers : Bool) :
    ℕ → List Text → ReadPage → Except Raised ReadPage
  | _, [], page => pure page
  | number, line :: lines, page => do
    let rendered := renderLine includeLineNumbers number line
    let measurement ← measure enc budget (joinLines (page.renderedLines ++ [rendered]))
    if measurement.fits then
      takeLines enc budget includeLineNumbers (number + 1) lines
        { page with renderedLines := page.renderedLines ++ [rendered], measurement := measurement }
    else if page.renderedLines = [] then pure ⟨[rendered], measurement, measurement.stopReason, true⟩
    else pure { page with stopReason := measurement.stopReason }

structure ReadReply where
  path : Text
  content : Text
  truncated : Bool
  nextOffset : Option ℕ
  startLine : ℕ
  endLine : ℕ
  oversizedLine : Bool
  includeLineNumbers : Bool
  pageState : Text
  stopReason : Text
  returnedLineCount : ℕ
  renderedBytes : ℕ
  estimatedTokens : ℕ
  bytesExceeded : Bool
  tokensExceeded : Bool

inductive ReadOutcome
  | reply (r : ReadReply)
  | error (code message : Text)

def readReply (request : ReadRequest) (lineCount : ℕ) (page : ReadPage) : ReadReply :=
  let start := FileReplies.startLine request.offset
  let returned := page.renderedLines.length
  let truncated := decide (start - 1 + returned < lineCount)
  { path := request.path
    content := joinLines page.renderedLines
    truncated := truncated
    nextOffset := if truncated && decide (0 < returned) then some (start + returned) else none
    startLine := start
    endLine := start + returned - 1
    oversizedLine := page.oversizedLine
    includeLineNumbers := request.includeLineNumbers
    pageState := if page.oversizedLine then txt "oversized_line"
      else if truncated then txt "truncated" else txt "complete"
    stopReason := page.stopReason.getD (if truncated then txt "line_limit" else txt "end_of_file")
    returnedLineCount := returned
    renderedBytes := page.measurement.renderedBytes
    estimatedTokens := page.measurement.estimatedTokens
    bytesExceeded := page.measurement.exceedsByteBudget
    tokensExceeded := page.measurement.exceedsTokenBudget }

/-- `read_file`. -/
def readFile (enc : TokenEncoding) (entry : FileEntry) (request : ReadRequest) : Except Raised ReadOutcome :=
  match entry with
  | .missing => pure (.error (txt "file_not_found") (txt "File not found: " ++ request.path))
  | .notFile => pure (.error (txt "not_a_file") (txt "Path is not a file: " ++ request.path))
  | .file raw =>
    match readText raw with
    | none => pure (.error (txt "not_text_file") (txt "Binary files are not supported."))
    | some text => do
      let lines := splitlines text
      let start := startLine request.offset
      let selected := (lines.drop (start - 1)).take (lineLimit request.limit request.maxLines)
      let budget : Budget := { maxTokens := request.maxTokens, maxBytes := some request.maxBytes }
      let empty ← measure enc budget []
      let page ← takeLines enc budget request.includeLineNumbers start selected ⟨[], empty, none, false⟩
      pure (.reply (readReply request lines.length page))

theorem measurable_joinLines_iff {lines : List Text} : Measurable (joinLines lines) ↔ ∀ l ∈ lines, Measurable l :=
  avoids_join_iff nil_notMem_unmeasurable (separates_of (by decide) (by decide))

theorem measurable_renderLine_iff (b : Bool) (n : ℕ) (line : Text) :
    Measurable (renderLine b n line) ↔ Measurable line := by
  rw [renderLine]
  split_ifs
  · have hcolon : ∀ c ∈ txt ": ", NeverOpens unmeasurable c := neverOpens_of_isBenign (by decide)
    rw [ResponseBudget.Measurable, avoids_append_iff_of_neverOpens nil_notMem_unmeasurable
      (inStrings_unmeasurable.neverOpens (decimal_json n)),
      avoids_append_iff_of_neverOpens nil_notMem_unmeasurable hcolon]
    exact Iff.rfl
  · exact Iff.rfl

theorem takeLines_returns {enc : TokenEncoding} {budget : Budget} {b : Bool} {number : ℕ} {lines : List Text}
    {page : ReadPage} (hlines : ∀ l ∈ lines, Measurable l) (hpage : ∀ l ∈ page.renderedLines, Measurable l) :
    Returns (takeLines enc budget b number lines page) fun _ => True := by
  induction lines generalizing number page with
  | nil => exact returns_pure trivial
  | cons line lines ih =>
    rw [List.forall_mem_cons] at hlines
    have hnext : ∀ l ∈ page.renderedLines ++ [renderLine b number line], Measurable l := by
      rw [List.forall_mem_append, List.forall_mem_singleton]
      exact ⟨hpage, (measurable_renderLine_iff b number line).mpr hlines.1⟩
    apply (measure_returns (measurable_joinLines_iff.mpr hnext)).bind
    intro m _
    split_ifs
    · exact ih hlines.2 hnext
    · exact returns_pure trivial
    · exact returns_pure trivial

/-! ### Lines and the text -/

private theorem separates_lineBreak {c : CodePoint} (h : isLineBreak c = true) : Separates unmeasurable c := by
  have hall : (lineBreaks.all fun d => !isTokenChar d) = true := by decide
  have hmem : c ∈ lineBreaks := by simpa [isLineBreak] using h
  have htoken := List.all_eq_true.mp hall c hmem
  exact separates_of (isSurrogate_of_isLineBreak h) (by simpa using htoken)

private theorem measurable_ending_iff {a e b : Text} (he : IsEnding id e) :
    Measurable (a ++ (e ++ b)) ↔ Measurable a ∧ Measurable b := by
  cases he with
  | inl he =>
    obtain ⟨c, rfl, hc⟩ := he
    exact avoids_append_cons_iff (separates_lineBreak hc)
  | inr he =>
    obtain ⟨c, d, rfl, hc, hd⟩ := he
    have hcr : isLineBreak c = true := by
      have h : isLineBreak carriageReturn = true := by decide
      rwa [← hc] at h
    have hlf : isLineBreak d = true := by
      have h : isLineBreak lineFeed = true := by decide
      rwa [← hd] at h
    have hinner := avoids_append_cons_iff (a := []) (b := b) (separates_lineBreak hlf)
    rw [List.nil_append] at hinner
    rw [ResponseBudget.Measurable, List.cons_append, List.singleton_append, avoids_append_cons_iff (separates_lineBreak hcr), hinner]
    exact and_congr_right fun _ => and_iff_right (avoids_nil nil_notMem_unmeasurable)

private theorem measurable_items_iff {ls : List (Line CodePoint)} (h : Ended id ls) :
    Measurable (ls.flatMap Line.items) ↔ ∀ l ∈ ls, Measurable l.content := by
  induction ls with
  | nil =>
    rw [List.flatMap_nil]
    exact iff_of_true (avoids_nil nil_notMem_unmeasurable) (by simp)
  | cons l ls ih =>
    have hnil : Measurable [] := avoids_nil nil_notMem_unmeasurable
    cases ls with
    | nil =>
      rw [List.flatMap_singleton, List.forall_mem_singleton, Line.items]
      cases h with
      | inl h => rw [h.1, List.append_nil]
      | inr h =>
        have hsplit := measurable_ending_iff (a := l.content) (b := []) h
        rw [List.append_nil] at hsplit
        exact hsplit.trans (and_iff_left hnil)
    | cons m ms =>
      rw [List.flatMap_cons, Line.items, List.append_assoc, measurable_ending_iff h.1, ih h.2]
      simp only [List.forall_mem_cons]

/-- A text is measurable exactly when each of its lines is. -/
theorem measurable_splitlines_iff (text : Text) : Measurable text ↔ ∀ l ∈ splitlines text, Measurable l := by
  have h := measurable_items_iff (linesOf_ended id text)
  rw [flatMap_linesOf] at h
  rw [h, splitlines]
  simp only [List.forall_mem_map]

/-- Every read of a file returns exactly when the file is binary or spells no special token. -/
theorem readFile_returns_iff (enc : TokenEncoding) (raw : Bytes) :
    (∀ request, ∃ r, readFile enc (.file raw) request = .ok r) ↔ readText raw = none ∨ SpellsNoToken raw := by
  rw [← measurable_decodeReplace_iff]
  constructor
  · intro h
    cases htext : readText raw with
    | none => exact Or.inl rfl
    | some text =>
      refine Or.inr ?_
      have hdec : text = Utf8Units.decodeReplace raw := by
        simp only [readText] at htext
        split_ifs at htext
        exact (Option.some.inj htext).symm
      rw [← hdec, measurable_splitlines_iff]
      intro line hline
      obtain ⟨i, hi, rfl⟩ := List.getElem_of_mem hline
      -- a request for that line alone
      obtain ⟨r, hr⟩ := h ⟨[], some (i + 1), some 1, 1, ⟨1, Nat.one_pos⟩, false, ⟨1, Nat.one_pos⟩⟩
      simp only [readFile, htext] at hr
      obtain ⟨empty, -, hr⟩ := bind_eq_ok.mp hr
      obtain ⟨page, hpage, -⟩ := bind_eq_ok.mp hr
      have hstart : startLine (some ((i : ℤ) + 1)) = i + 1 := by
        simp only [startLine, Option.filter_some]
        rw [if_pos (by simp; omega), Option.getD_some]
        omega
      have hlimit : lineLimit (some 1) 1 = 1 := by decide
      have hselected : (((splitlines text).drop (startLine (some ((i : ℤ) + 1)) - 1)).take (lineLimit (some 1) 1)) =
          [(splitlines text)[i]] := by
        rw [hstart, hlimit, Nat.add_sub_cancel, List.drop_eq_getElem_cons hi]
        rfl
      rw [hselected] at hpage
      obtain ⟨m, hm, -⟩ := bind_eq_ok.mp hpage
      have hclean := measurable_joinLines_iff.mp ((measure_returns_iff enc _ _).mp ⟨m, hm⟩)
      exact hclean _ (by simp [renderLine])
  · intro h request
    cases htext : readText raw with
    | none => exact ⟨_, by simp only [readFile, htext]; rfl⟩
    | some text =>
      have hdec : text = Utf8Units.decodeReplace raw := by
        simp only [readText] at htext
        split_ifs at htext
        exact (Option.some.inj htext).symm
      have hclean : Measurable text := by
        rw [hdec]
        exact h.resolve_left (by simp [htext])
      have hlines := (measurable_splitlines_iff text).mp hclean
      suffices hret : Returns (readFile enc (.file raw) request) fun _ => True from hret.isOk
      simp only [readFile, htext]
      apply (measure_returns (avoids_nil nil_notMem_unmeasurable)).bind
      intro empty _
      apply Returns.bind (takeLines_returns ?_ (by simp))
      · intro page _
        exact returns_pure trivial
      · exact fun l hl => hlines l (List.mem_of_mem_drop (List.mem_of_mem_take hl))

/-! ## Listing -/

structure ListedEntry where
  name : Text
  path : Text
  isDir : Bool
  size : Option ℕ
  mtime : Option FloatText

inductive SortKey
  | path
  | modified
  | size

def SortKey.name : SortKey → Text
  | .path => txt "path"
  | .modified => txt "modified"
  | .size => txt "size"

inductive FilterMode
  | project
  | all

def FilterMode.name : FilterMode → Text
  | .project => txt "project"
  | .all => txt "all"

/-- A directory walk that has been filtered and sorted, with the arguments that are echoed. -/
structure Listing where
  basePath : Text
  records : List ListedEntry
  sort : SortKey
  filterMode : FilterMode
  filesOnly : Bool
  dirsOnly : Bool
  includeHidden : Bool
  respectGitignore : Bool
  gitignoreApplied : Bool
  patterns : List Text

def optionalCount : Option ℕ → Json
  | none => .null
  | some n => natJson n

def optionalFloat : Option FloatText → Json
  | none => .null
  | some r => .float r

theorem strings_optionalCount (n : Option ℕ) : strings (optionalCount n) = [] := by cases n <;> rfl

theorem strings_optionalFloat (r : Option FloatText) : strings (optionalFloat r) = [] := by cases r <;> rfl

def entryPayload (e : ListedEntry) : Json :=
  .obj [(txt "name", .str e.name), (txt "path", .str e.path), (txt "is_dir", .bool e.isDir),
    (txt "size", optionalCount e.size), (txt "mtime", optionalFloat e.mtime)]

def listFilters (l : Listing) : Json :=
  .obj [(txt "filter", .str l.filterMode.name), (txt "files_only", .bool l.filesOnly),
    (txt "dirs_only", .bool l.dirsOnly), (txt "include_hidden", .bool l.includeHidden),
    (txt "respect_gitignore", .bool l.respectGitignore), (txt "gitignore_applied", .bool l.gitignoreApplied),
    (txt "exclude_patterns", .arr (l.patterns.map .str))]

def listPayload (l : Listing) (entries : List ListedEntry) (nextOffset : Option ℕ) : Dict :=
  [(txt "success", .bool true), (txt "base_path", .str l.basePath), (txt "entries", .arr (entries.map entryPayload)),
    (txt "next_offset", optionalCount nextOffset),
    (txt "sort", .str l.sort.name), (txt "filters", listFilters l)]

structure ListPage where
  entries : List ListedEntry
  truncated : Bool

/-- The loop of `list_files` over the records from `start` on. -/
def takeEntries (enc : TokenEncoding) (budget : Budget) (l : Listing) (start limit : ℕ) :
    ℕ → List ListedEntry → List ListedEntry → Except Raised ListPage
  | _, [], entries => pure ⟨entries, false⟩
  | index, e :: records, entries =>
    if limit ≠ 0 ∧ limit ≤ index then pure ⟨entries, true⟩
    else do
      let candidate ← withBudgetMetadata enc
        (listPayload l (entries ++ [e]) (some (start + entries.length + 1))) budget true (txt "token_budget")
      if candidate.2.fits then takeEntries enc budget l start limit (index + 1) records (entries ++ [e])
      else pure ⟨entries, true⟩

/-- `list_files`, once its arguments are accepted and the directory is walked. -/
def listFiles (enc : TokenEncoding) (l : Listing) (offset limit : ℕ) (maxTokens : ℕ+) : Except Raised Dict := do
  let budget : Budget := { maxTokens }
  let page ← takeEntries enc budget l offset limit 0 (l.records.drop offset) []
  let truncated := page.truncated || decide (offset + page.entries.length < l.records.length)
  let stopReason := if truncated then
      if limit = 0 ∨ page.entries.length < limit then txt "token_budget" else txt "limit"
    else txt "end_of_results"
  let nextOffset := if truncated then some (offset + page.entries.length) else none
  let rendered ← withBudgetMetadata enc (listPayload l page.entries nextOffset) budget truncated stopReason
  pure rendered.1

/-- The texts of an entry that a listing shows. -/
def ListedEntry.Clean (e : ListedEntry) : Prop := Measurable e.name ∧ Measurable e.path

/-- The texts that a listing echoes. -/
def Listing.CleanBase (l : Listing) : Prop := Measurable l.basePath ∧ ∀ p ∈ l.patterns, Measurable p

theorem entryPayload_clean_iff (e : ListedEntry) : CleanJson (entryPayload e) ↔ e.Clean := by
  have hdir : CleanField (txt "is_dir", .bool e.isDir) := cleanField_bool (by decide)
  have hsize : CleanField (txt "size", optionalCount e.size) :=
    cleanField_of_strings_nil (by decide) (strings_optionalCount e.size)
  have hmtime : CleanField (txt "mtime", optionalFloat e.mtime) :=
    cleanField_of_strings_nil (by decide) (strings_optionalFloat e.mtime)
  have hname : CleanField (txt "name", .str e.name) ↔ Measurable e.name :=
    (cleanField_iff (by decide)).trans cleanJson_str
  have hpath : CleanField (txt "path", .str e.path) ↔ Measurable e.path :=
    (cleanField_iff (by decide)).trans cleanJson_str
  rw [entryPayload, cleanJson_obj]
  simp only [List.forall_mem_cons, List.not_mem_nil, false_implies, implies_true, and_true]
  exact and_congr hname ((and_iff_left ⟨hdir, hsize, hmtime⟩).trans hpath)

theorem listFilters_clean_iff (l : Listing) : CleanJson (listFilters l) ↔ ∀ p ∈ l.patterns, Measurable p := by
  have hmode : CleanField (txt "filter", .str l.filterMode.name) :=
    cleanField_benign (by decide) (by cases l.filterMode <;> decide)
  have hpatterns : CleanField (txt "exclude_patterns", .arr (l.patterns.map .str)) ↔
      ∀ p ∈ l.patterns, Measurable p := by
    rw [cleanField_iff (by decide), cleanJson_arr]
    simp only [List.forall_mem_map, cleanJson_str]
  rw [listFilters, cleanJson_obj]
  simp only [List.forall_mem_cons, List.not_mem_nil, false_implies, implies_true, and_true]
  rw [and_iff_right hmode, and_iff_right (cleanField_bool (by decide)), and_iff_right (cleanField_bool (by decide)),
    and_iff_right (cleanField_bool (by decide)), and_iff_right (cleanField_bool (by decide)),
    and_iff_right (cleanField_bool (by decide)), hpatterns]

/-- A page of a listing can be rendered exactly when its texts are measurable. -/
theorem listPayload_clean_iff (l : Listing) (entries : List ListedEntry) (nextOffset : Option ℕ) :
    CleanPayload (listPayload l entries nextOffset) ↔ l.CleanBase ∧ ∀ e ∈ entries, e.Clean := by
  have hnext : CleanField (txt "next_offset", optionalCount nextOffset) :=
    cleanField_of_strings_nil (by decide) (strings_optionalCount nextOffset)
  have hsort : CleanField (txt "sort", .str l.sort.name) :=
    cleanField_benign (by decide) (by cases l.sort <;> decide)
  have hbase : CleanField (txt "base_path", .str l.basePath) ↔ Measurable l.basePath :=
    (cleanField_iff (by decide)).trans cleanJson_str
  have hentries : CleanField (txt "entries", .arr (entries.map entryPayload)) ↔ ∀ e ∈ entries, e.Clean := by
    rw [cleanField_iff (by decide), cleanJson_arr]
    simp only [List.forall_mem_map, entryPayload_clean_iff]
  have hfilters : CleanField (txt "filters", listFilters l) ↔ ∀ p ∈ l.patterns, Measurable p :=
    (cleanField_iff (by decide)).trans (listFilters_clean_iff l)
  have hkeys : ∀ f ∈ listPayload l entries nextOffset, f.1 ∉ contractKeys := by
    simp only [listPayload, List.forall_mem_cons, List.not_mem_nil, false_implies, implies_true, and_true]
    decide
  have hall : CleanPayload (listPayload l entries nextOffset) ↔
      ∀ f ∈ listPayload l entries nextOffset, CleanField f :=
    forall₂_congr fun f hf => ⟨fun h => h (hkeys f hf), fun h _ => h⟩
  rw [hall]
  simp only [listPayload, List.forall_mem_cons, List.not_mem_nil, false_implies, implies_true, and_true]
  rw [and_iff_right (cleanField_bool (by decide)), and_iff_right hnext, and_iff_right hsort, hbase, hentries,
    hfilters, Listing.CleanBase, and_assoc]
  exact and_congr_right fun _ => and_comm

theorem takeEntries_returns {enc : TokenEncoding} {budget : Budget} {l : Listing} {start limit index : ℕ}
    {records entries : List ListedEntry} (hbase : l.CleanBase) (hrecords : ∀ e ∈ records, e.Clean)
    (hentries : ∀ e ∈ entries, e.Clean) :
    Returns (takeEntries enc budget l start limit index records entries) fun page => ∀ e ∈ page.entries, e.Clean := by
  induction records generalizing index entries with
  | nil => exact returns_pure hentries
  | cons e records ih =>
    rw [List.forall_mem_cons] at hrecords
    rw [takeEntries]
    split_ifs
    · exact returns_pure hentries
    · have hnext : ∀ f ∈ entries ++ [e], f.Clean := by
        rw [List.forall_mem_append, List.forall_mem_singleton]
        exact ⟨hentries, hrecords.1⟩
      apply (withBudgetMetadata_returns ((listPayload_clean_iff l _ _).mpr ⟨hbase, hnext⟩)
        (measurable_of_isBenign (by decide))).bind
      intro candidate _
      split_ifs
      · exact ih hrecords.2 hnext
      · exact returns_pure hentries

theorem isBenign_listStopReason (truncated : Bool) (p : Prop) [Decidable p] :
    isBenign (if truncated then if p then txt "token_budget" else txt "limit" else txt "end_of_results") = true := by
  split_ifs
  · decide
  · decide
  · decide

/-- Every page of a listing is rendered exactly when all names, paths and echoed arguments
are measurable. -/
theorem listFiles_returns_iff (enc : TokenEncoding) (l : Listing) :
    (∀ offset limit maxTokens, ∃ r, listFiles enc l offset limit maxTokens = .ok r) ↔
      l.CleanBase ∧ ∀ e ∈ l.records, e.Clean := by
  constructor
  · intro h
    refine ⟨?_, fun e he => ?_⟩
    · obtain ⟨r, hr⟩ := h 0 0 ⟨1, Nat.one_pos⟩
      obtain ⟨page, -, hr⟩ := bind_eq_ok.mp hr
      obtain ⟨rendered, hrendered, -⟩ := bind_eq_ok.mp hr
      have hclean := (withBudgetMetadata_returns_iff enc _ _ _ _).mp ⟨rendered, hrendered⟩
      exact ((listPayload_clean_iff l _ _).mp hclean.1).1
    · obtain ⟨i, hi, rfl⟩ := List.getElem_of_mem he
      -- the page that starts at this entry measures it first
      obtain ⟨r, hr⟩ := h i 0 ⟨1, Nat.one_pos⟩
      obtain ⟨page, hpage, -⟩ := bind_eq_ok.mp hr
      rw [List.drop_eq_getElem_cons hi, takeEntries, if_neg (by simp)] at hpage
      obtain ⟨candidate, hcandidate, -⟩ := bind_eq_ok.mp hpage
      have hclean := (withBudgetMetadata_returns_iff enc _ _ _ _).mp ⟨candidate, hcandidate⟩
      exact ((listPayload_clean_iff l _ _).mp hclean.1).2 _ (by simp)
  · intro h offset limit maxTokens
    suffices hret : Returns (listFiles enc l offset limit maxTokens) fun _ => True from hret.isOk
    apply Returns.bind (takeEntries_returns h.1 (fun e he => h.2 e (List.mem_of_mem_drop he)) (by simp))
    intro page hpage
    apply (withBudgetMetadata_returns ((listPayload_clean_iff l _ _).mpr ⟨h.1, hpage⟩)
      (measurable_of_isBenign (isBenign_listStopReason _ _))).bind
    intro rendered _
    exact returns_pure trivial

end WebOauthMcp.FileReplies
