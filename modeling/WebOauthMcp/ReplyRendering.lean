import WebOauthMcp.CommandReplies
import WebOauthMcp.JobPaging
import WebOauthMcp.FileReplies
import WebOauthMcp.SearchPages

/-!
# Replies that can be rendered

Every tool funnels its reply through one measurement, which refuses special-token
literals and lone surrogates. For each tool, exactly the texts that spell neither are
rendered, whatever the tokenizer counts and whatever the budgets are.
-/

namespace WebOauthMcp.ReplyRendering
open CodePoints ResponseBudget BudgetMetadata TokenOctets CapturedOutput CommandReplies JobOutput JobPaging
  FileReplies SearchPages

/-- The tools return their replies exactly on content without special-token literals and
on names, paths and patterns that can be measured. -/
theorem replies_rendered_iff (enc : TokenEncoding) :
    (∀ call command run, (∃ r, runCommand enc call command run = .ok r ∧ r.outcome = run.outcome) ↔
      run.Showable call) ∧
    (∀ call runs, (∃ d, runCommands enc call runs = .ok d ∧ Reports (executed call runs) d) ↔
      ∀ x ∈ executed call runs, x.Showable call.shared) ∧
    (∀ log, (∀ requests : ℕ → PageRequest, (∀ n, Progressive (requests n)) →
      ∃ pages, Paging enc log requests 0 pages) ↔ SpellsNoToken log) ∧
    (∀ raw, (∀ request, ∃ r, readFile enc (.file raw) request = .ok r) ↔
      readText raw = none ∨ SpellsNoToken raw) ∧
    (∀ l, (∀ offset limit maxTokens, ∃ r, listFiles enc l offset limit maxTokens = .ok r) ↔
      l.CleanBase ∧ ∀ e ∈ l.records, e.Clean) ∧
    (∀ c found, (∀ offset limit maxTokens, ∃ d, globFiles enc c found offset limit maxTokens = .ok d) ↔
      c.Clean ∧ ∀ m ∈ found, Measurable m.path) ∧
    (∀ c run, (∀ offset limit maxTokens, ∃ d, grepFiles enc c run offset limit maxTokens = .ok (.page d)) ↔
      c.Clean ∧ ∀ j ∈ run.handed, CleanJson j) := by
  refine ⟨runCommand_reports_iff enc, runCommands_reports_iff enc, fun log => ?_, readFile_returns_iff enc,
    listFiles_returns_iff enc, globFiles_returns_iff enc, grepFiles_returns_iff enc⟩
  constructor
  · intro h
    by_contra hdirty
    obtain ⟨requests, hprog, hno⟩ := paging_cut_off enc hdirty
    obtain ⟨pages, hpages⟩ := h requests hprog
    exact hno pages hpages
  · intro hclean requests hprog
    obtain ⟨pages, hpages, -⟩ := paging_lossless enc hclean hprog
    exact ⟨pages, hpages⟩

/-- The arguments of a command in the workspace root. -/
def sampleCall : CommandCall where
  cwd := txt "/srv"
  timeout := 60
  force := false
  maxTokens := ⟨2000, by decide⟩
  captureMaxBytes := ⟨65536, by decide⟩

/-- A directory with one file, whose name is an octet that is not text. -/
def sampleListing : Listing where
  basePath := txt "/srv"
  records := [⟨[0xDCFF], txt "/srv/" ++ [0xDCFF], false, some 0, none⟩]
  sort := .path
  filterMode := .all
  filesOnly := false
  dirsOnly := false
  includeHidden := false
  respectGitignore := false
  gitignoreApplied := false
  patterns := []

/-- The outcome of a command that prints an end-of-text literal is lost, and so is the
listing of a directory with an undecodable name. -/
theorem endoftext_output_and_surrogate_name_lost :
    (¬∃ r, runCommand perCharacter sampleCall (txt "cat notes")
      (.ran [(txt "<|endoftext|>").flatMap utf8Bytes] [] false (some 0)) = .ok r ∧ r.outcome = ⟨true, 0, false⟩) ∧
    ¬∀ offset limit maxTokens, ∃ r, listFiles perCharacter sampleListing offset limit maxTokens = .ok r := by
  constructor
  · intro h
    have hshown := (runCommand_reports_iff perCharacter sampleCall (txt "cat notes")
      (.ran [(txt "<|endoftext|>").flatMap utf8Bytes] [] false (some 0))).mp h
    have hdirty : ¬∀ piece ∈ shownRuns (captures sampleCall [(txt "<|endoftext|>").flatMap utf8Bytes] []),
        SpellsNoToken piece := by decide +kernel
    exact hdirty hshown
  · intro h
    have hclean := ((listFiles_returns_iff perCharacter sampleListing).mp h).2 _ List.mem_cons_self
    have hdirty : ¬isEncodable ([0xDCFF] : Text) = true := by decide
    exact hdirty ((measurable_iff _).mp hclean.1).1

end WebOauthMcp.ReplyRendering
