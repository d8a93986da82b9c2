import WebOauthMcp.CommandReplies
import WebOauthMcp.ReplyFields

/-!
# What a batch keeps of its results

A batch is fitted into its budget in three steps: streams are cut, metadata is compacted,
and at last everything but the outcomes goes. No step drops a result, and a result that
lost some of its output is marked as cut, in a reply that calls itself partial.
-/

namespace WebOauthMcp.BatchOutcomes
open CodePoints JsonText ExceptSteps ResponseBudget BudgetMetadata ReplyFields CapturedOutput CommandReplies

/-- Every text but the empty one has tokens. -/
def CountsText (enc : TokenEncoding) : Prop := ∀ t, t ≠ [] → 0 < enc.tokensOf t

variable {enc : TokenEncoding}

/-! ## One stream -/

theorem contentNeed_eq {text : Text} {need : ℕ} (h : contentNeed enc text = .ok need) :
    need = if text = [] then 0 else enc.tokensOf text := by
  rw [contentNeed] at h
  split at h
  · next hempty =>
    rw [if_pos hempty]
    exact (Except.ok.inj h).symm
  · next hfull =>
    rw [if_neg hfull]
    rw [countTokens] at h
    split at h
    · exact absurd h (by simp)
    · exact (Except.ok.inj h).symm

/-- A stream that gets what it needs is shown as it is. -/
theorem truncateTextToTokens_whole (hcounts : CountsText enc) {text : Text} {need allocation : ℕ} {cut : Cut}
    (hneed : contentNeed enc text = .ok need) (hle : need ≤ allocation) (h : truncateTextToTokens enc text allocation = .ok cut) :
    cut.text = text := by
  have hneed := contentNeed_eq hneed
  rw [truncateTextToTokens] at h
  split at h
  · next hempty =>
    cases Except.ok.inj h
    exact hempty.symm
  · next hfull =>
    rw [if_neg hfull] at hneed
    have hpos := hcounts text hfull
    rw [dif_pos (by omega)] at h
    obtain ⟨whole, hwhole, h⟩ := bind_eq_ok.mp h
    rw [if_pos ((measure_fits_iff rfl hwhole).mpr (hneed ▸ hle))] at h
    cases Except.ok.inj h
    rfl

/-- A stream that gets less than it needs is cut. -/
theorem truncateTextToTokens_short {text : Text} {need allocation : ℕ} {cut : Cut} (hneed : contentNeed enc text = .ok need)
    (hlt : allocation < need) (h : truncateTextToTokens enc text allocation = .ok cut) : cut.truncated = true := by
  have hneed := contentNeed_eq hneed
  rw [truncateTextToTokens] at h
  split at h
  · next hempty =>
    rw [if_pos hempty] at hneed
    omega
  · next hfull =>
    rw [if_neg hfull] at hneed
    split at h
    · obtain ⟨whole, hwhole, h⟩ := bind_eq_ok.mp h
      have hlarge : ¬whole.fits = true := fun hfits => Nat.not_lt.mpr ((measure_fits_iff rfl hwhole).mp hfits) (hneed ▸ hlt)
      rw [if_neg hlarge] at h
      obtain ⟨marker, -, h⟩ := bind_eq_ok.mp h
      obtain ⟨kept, -, h⟩ := bind_eq_ok.mp h
      obtain ⟨rendered, -, h⟩ := bind_eq_ok.mp h
      split at h
      · cases Except.ok.inj h
        rfl
      · obtain ⟨bare, -, h⟩ := bind_eq_ok.mp h
        cases Except.ok.inj h
        rfl
    · cases Except.ok.inj h
      rfl

/-! ## One result -/

/-- The needs of the streams of each entry are found under its index. -/
theorem needOf_own {entries : List BatchEntry} {needs : List EntryNeeds} (h : entries.mapM (entryNeeds enc) = .ok needs)
    (hindices : (entries.map BatchEntry.index).Nodup) {e : BatchEntry} (he : e ∈ entries) (s : Stream) :
    contentNeed enc (streamText e.result s) = .ok (needOf needs ⟨e.index, s⟩) := by
  have hall := mapM_eq_ok.mp h
  clear h
  induction hall with
  | nil => exact absurd he List.not_mem_nil
  | @cons e' n entries needs hn hrest ih =>
    obtain ⟨hnew, hindices⟩ := List.nodup_cons.mp hindices
    obtain ⟨out, hout, hn⟩ := bind_eq_ok.mp hn
    obtain ⟨err, herr, hn⟩ := bind_eq_ok.mp hn
    cases Except.ok.inj hn
    cases List.mem_cons.mp he with
    | inl heq =>
      subst heq
      rw [needOf, List.find?_cons_of_pos (by simp)]
      cases s with
      | stdout => exact hout
      | stderr => exact herr
    | inr hmem =>
      have hother : e'.index ≠ e.index := fun heq => hnew (heq ▸ List.mem_map_of_mem hmem)
      rw [needOf, List.find?_cons_of_neg (by simp [hother])]
      exact ih hindices hmem

/-- What cutting an entry leaves: its outcome, and both streams unless it is marked. -/
structure CutOf (e : BatchEntry) (c : CutEntry) : Prop where
  index : c.entry.index = e.index
  outcome : c.entry.result.outcome = e.result.outcome
  streams : c.entry.result.stdout = e.result.stdout ∧ c.entry.result.stderr = e.result.stderr ∨ c.entry.truncated = true ∧ c.cut = true

theorem cutEntry_cutOf (hcounts : CountsText enc) {needs allocations : StreamKey → ℕ} {e : BatchEntry} {c : CutEntry}
    (hneeds : ∀ s, contentNeed enc (streamText e.result s) = .ok (needs ⟨e.index, s⟩))
    (h : cutEntry enc needs allocations e = .ok c) : CutOf e c := by
  obtain ⟨out, hout, h⟩ := bind_eq_ok.mp h
  obtain ⟨err, herr, h⟩ := bind_eq_ok.mp h
  cases Except.ok.inj h
  refine ⟨rfl, rfl, ?_⟩
  by_cases hshortOut : allocations ⟨e.index, .stdout⟩ < needs ⟨e.index, .stdout⟩
  · right
    have hcut := truncateTextToTokens_short (hneeds .stdout) hshortOut hout
    simp [hshortOut, hcut]
  · by_cases hshortErr : allocations ⟨e.index, .stderr⟩ < needs ⟨e.index, .stderr⟩
    · right
      have hcut := truncateTextToTokens_short (hneeds .stderr) hshortErr herr
      simp [hshortErr, hcut]
    · left
      exact ⟨truncateTextToTokens_whole hcounts (hneeds .stdout) (Nat.le_of_not_lt hshortOut) hout,
        truncateTextToTokens_whole hcounts (hneeds .stderr) (Nat.le_of_not_lt hshortErr) herr⟩

/-! ## The batch -/

/-- The results of a batch, in the order of its commands. -/
def numbered (results : List CommandResult) : List BatchEntry := results.zipIdx.map fun r => { index := r.2, result := r.1 }

/-- A shown result says that some of its output is missing. -/
def Marked (d : Dict) : Prop :=
  dictGet (txt "batch_budget_truncated") d = some (.bool true) ∨ dictGet (txt "output_omitted_by_batch_budget") d = some (.bool true)

/-- A shown result tells how its command ended. Its output is that of the command, or it is
marked, and the reply is called partial. -/
structure KeepsOutcome (reply : Dict) (e : BatchEntry) (d : Dict) : Prop where
  index : dictGet (txt "index") d = some (natJson e.index)
  success : dictGet (txt "success") d = some (.bool e.result.success)
  exitCode : dictGet (txt "exit_code") d = some (.int e.result.exitCode)
  timedOut : dictGet (txt "timed_out") d = some (.bool e.result.timedOut)
  streams : dictGet (txt "stdout") d = some (.str e.result.stdout) ∧ dictGet (txt "stderr") d = some (.str e.result.stderr) ∨
    Marked d ∧ dictGet (txt "partial") reply = some (.bool true)

def KeepsOutcomes (entries : List BatchEntry) (reply : Dict) : Prop :=
  ∃ ds : List Dict, dictGet (txt "results") reply = some (.arr (ds.map .obj)) ∧ List.Forall₂ (KeepsOutcome reply) entries ds

theorem dictGet_optionalField_append {k k' : Text} (hk : k' ≠ k) (o : Option Json) (d : Dict) :
    dictGet k (optionalField k' o ++ d) = dictGet k d := by
  cases o with
  | none => rfl
  | some v => simp [optionalField, dictGet, hk]

theorem resultPayload_marked {e : BatchEntry} (h : e.truncated = true) : Marked (resultPayload e) := by
  left
  have hfixed : dictGet (txt "batch_budget_truncated") (resultPayload e) = dictGet (txt "batch_budget_truncated")
      (optionalField (txt "force") (e.result.force.map .bool) ++
        (optionalField (txt "output_metadata")
            (e.result.outputMetadata.map (if e.compacted then compactMetadataJson else outputMetadataJson)) ++
          (optionalField (txt "error") (e.result.error.map errorJson) ++
            (optionalField (txt "hint") (e.result.hint.map .str) ++
              if e.truncated then [(txt "batch_budget_truncated", .bool true)] else [])))) := rfl
  rw [hfixed, dictGet_optionalField_append (by decide), dictGet_optionalField_append (by decide),
    dictGet_optionalField_append (by decide), dictGet_optionalField_append (by decide), if_pos h]
  rfl

variable {reply : Dict} {e : BatchEntry} {c : CutEntry}

theorem CutOf.fields (h : CutOf e c) : natJson c.entry.index = natJson e.index ∧ c.entry.result.success = e.result.success ∧
    c.entry.result.exitCode = e.result.exitCode ∧ c.entry.result.timedOut = e.result.timedOut := by
  have houtcome := h.outcome
  simp only [CommandResult.outcome, Outcome.mk.injEq] at houtcome
  exact ⟨congrArg natJson h.index, houtcome⟩

/-- A result that is shown in full, with its metadata or without. -/
theorem CutOf.keeps_shown (h : CutOf e c) (compacted : Bool) (hmark : c.cut = true → dictGet (txt "partial") reply = some (.bool true)) :
    KeepsOutcome reply e (resultPayload { c.entry with compacted := compacted }) := by
  obtain ⟨hindex, hsuccess, hcode, htimed⟩ := h.fields
  refine ⟨?_, ?_, ?_, ?_, ?_⟩
  · rw [← hindex]
    rfl
  · rw [← hsuccess]
    rfl
  · rw [← hcode]
    rfl
  · rw [← htimed]
    rfl
  · cases h.streams with
    | inl hwhole =>
      left
      rw [← hwhole.1, ← hwhole.2]
      exact ⟨rfl, rfl⟩
    | inr hcut => exact .inr ⟨resultPayload_marked hcut.1, hmark hcut.2⟩

/-- A result of which only the outcome is shown. -/
theorem CutOf.keeps_summary (h : CutOf e c) (hmark : dictGet (txt "partial") reply = some (.bool true)) :
    KeepsOutcome reply e (summaryPayload c.entry) := by
  obtain ⟨hindex, hsuccess, hcode, htimed⟩ := h.fields
  refine ⟨?_, ?_, ?_, ?_, .inr ⟨.inr rfl, hmark⟩⟩
  · rw [← hindex]
    rfl
  · rw [← hsuccess]
    rfl
  · rw [← hcode]
    rfl
  · rw [← htimed]
    rfl

theorem keepsOutcomes_of_results {entries : List BatchEntry} {cuts : List CutEntry} {payload : CutEntry → Dict}
    (hget : dictGet (txt "results") reply = some (.arr ((cuts.map payload).map .obj)))
    (h : List.Forall₂ (fun e c => KeepsOutcome reply e (payload c)) entries cuts) : KeepsOutcomes entries reply := by
  refine ⟨cuts.map payload, hget, ?_⟩
  rw [List.forall₂_map_right_iff]
  exact h

theorem resultsJson_map {α : Type} (payload : BatchEntry → Dict) (f : α → BatchEntry) (xs : List α) :
    resultsJson payload (xs.map f) = .arr ((xs.map fun x => payload (f x)).map .obj) := by
  rw [resultsJson, List.map_map, List.map_map]
  rfl

/-- What is called truncated is called partial. -/
theorem reply_marked {budget : Budget} {payload : Dict} {reason : Text} {r : Dict × BudgetMeasurement}
    (h : withBudgetMetadata enc payload budget true reason = .ok r) : dictGet (txt "partial") r.1 = some (.bool true) := by
  obtain ⟨m, -, h⟩ := bind_eq_ok.mp h
  obtain ⟨s, hs, h⟩ := bind_eq_ok.mp h
  have hsettled : dictGet (txt "partial") s.result = some (.bool true) := by
    rw [settleEstimate_flag (by decide) hs, withContract, dictGet_dictSet_of_ne (by decide), dictGet_dictSet_of_ne (by decide),
      dictGet_dictSet_of_ne (by decide), dictGet_dictSet_of_ne (by decide), dictGet_dictSet_self]
  split at h
  · cases Except.ok.inj h
    exact hsettled
  · rw [resettleEstimate_flag (by decide) h, withBudgetExceeded, if_pos rfl, dictGet_dictSet_of_ne (by decide),
      dictGet_dictSet_of_ne (by decide), dictGet_dictSet_self]

/-- The results of a payload are those of its reply. -/
theorem results_of_reply {budget : Budget} {payload : Dict} {truncated : Bool} {reason : Text} {r : Dict × BudgetMeasurement}
    (h : withBudgetMetadata enc payload budget truncated reason = .ok r) :
    dictGet (txt "results") r.1 = dictGet (txt "results") payload := withBudgetMetadata_get results_notMem_contractKeys h

theorem compactBatch_keeps {budget : Budget} {rendered : Dict} {entries : List BatchEntry} {cuts : List CutEntry}
    (hcuts : List.Forall₂ CutOf entries cuts) (h : compactBatch enc budget rendered (cuts.map CutEntry.entry) = .ok reply) :
    KeepsOutcomes entries reply := by
  obtain ⟨compact, hcompact, h⟩ := bind_eq_ok.mp h
  split at h
  · cases Except.ok.inj h
    have hget := (results_of_reply hcompact).trans (dictGet_dictSet_self _ _ _)
    rw [List.map_map, resultsJson_map] at hget
    exact keepsOutcomes_of_results hget (hcuts.imp fun e c hc => hc.keeps_shown true fun _ => reply_marked hcompact)
  · obtain ⟨bare, hbare, h⟩ := bind_eq_ok.mp h
    cases Except.ok.inj h
    have hget := (results_of_reply hbare).trans (dictGet_dictSet_self _ _ _)
    rw [resultsJson_map] at hget
    exact keepsOutcomes_of_results hget (hcuts.imp fun e c hc => hc.keeps_summary (reply_marked hbare))

theorem cuts_of_entries (hcounts : CountsText enc) {entries : List BatchEntry} {needs : List EntryNeeds} {cuts : List CutEntry}
    {allocations : StreamKey → ℕ} (hindices : (entries.map BatchEntry.index).Nodup)
    (hneeds : entries.mapM (entryNeeds enc) = .ok needs)
    (hcuts : entries.mapM (cutEntry enc (needOf needs) allocations) = .ok cuts) : List.Forall₂ CutOf entries cuts := by
  refine forall₂_imp_mem (mapM_eq_ok.mp hcuts) fun e he c _ hc => ?_
  exact cutEntry_cutOf hcounts (needOf_own hneeds hindices he) hc

/-- Whatever is returned keeps all outcomes. -/
theorem fitCommandBatchToBudget_keeps (hcounts : CountsText enc) {base : Dict} {entries : List BatchEntry} {maxTokens : ℕ+}
    (hindices : (entries.map BatchEntry.index).Nodup)
    (h : fitCommandBatchToBudget enc base entries maxTokens = .ok reply) : KeepsOutcomes entries reply := by
  obtain ⟨needs, hneeds, h⟩ := bind_eq_ok.mp h
  obtain ⟨cuts, hcuts, h⟩ := bind_eq_ok.mp h
  obtain ⟨rendered, hrendered, h⟩ := bind_eq_ok.mp h
  have hall := cuts_of_entries hcounts hindices hneeds hcuts
  split at h
  · cases Except.ok.inj h
    have hget := (results_of_reply hrendered).trans ((dictGet_dictSet_of_ne (by decide) _ _).trans (dictGet_dictSet_self _ _ _))
    rw [resultsJson_map] at hget
    refine keepsOutcomes_of_results hget (forall₂_imp_mem hall fun e _ c hc hcut => ?_)
    refine hcut.keeps_shown c.entry.compacted fun hmarked => ?_
    have hany : cuts.any CutEntry.cut = true := List.any_eq_true.mpr ⟨c, hc, hmarked⟩
    rw [hany] at hrendered
    exact reply_marked hrendered
  · exact compactBatch_keeps hall h

theorem index_numbered (results : List CommandResult) : (numbered results).map BatchEntry.index = List.range results.length := by
  rw [numbered, List.map_map, List.range_eq_range']
  exact List.zipIdx_map_snd 0 results

theorem mem_numbered {results : List CommandResult} {e : BatchEntry} (h : e ∈ numbered results) : e.result ∈ results := by
  obtain ⟨r, hr, rfl⟩ := List.mem_map.mp h
  exact List.fst_mem_of_mem_zipIdx hr

theorem exists_numbered {results : List CommandResult} {r : CommandResult} (h : r ∈ results) : ∃ e ∈ numbered results, e.result = r := by
  obtain ⟨i, hi, rfl⟩ := List.getElem_of_mem h
  have hmem : (results[i], i) ∈ results.zipIdx := List.mem_zipIdx_iff_getElem?.mpr (List.getElem?_eq_getElem hi)
  exact ⟨_, List.mem_map_of_mem hmem, rfl⟩

theorem measurable_of_contentNeed {text : Text} {need : ℕ} (hencodable : isEncodable text = true)
    (h : contentNeed enc text = .ok need) : Measurable text := by
  refine (measurable_iff text).mpr ⟨hencodable, fun w hw hi => ?_⟩
  have hspells : (specialTokens.any fun w => decide (w <:+: text)) = true := List.any_eq_true.mpr ⟨w, hw, decide_eq_true hi⟩
  rw [contentNeed] at h
  split at h
  · next hempty =>
    rw [hempty, List.infix_nil] at hi
    exact nil_notMem_unmeasurable (.inl (hi ▸ hw))
  · rw [countTokens, if_pos hspells] at h
    cases h

/-- All outcomes are kept exactly when all results can be rendered. -/
theorem batch_keeps_outcomes_iff (hcounts : CountsText enc) (call : BatchCall) {results : List CommandResult}
    (hdecoded : ∀ r ∈ results, isEncodable r.stdout = true ∧ isEncodable r.stderr = true) (maxTokens : ℕ+) :
    (∃ reply, fitCommandBatchToBudget enc (batchPayload call (numbered results)) (numbered results) maxTokens = .ok reply ∧
      KeepsOutcomes (numbered results) reply) ↔ ∀ r ∈ results, r.Clean := by
  constructor
  · intro h r hr
    obtain ⟨reply, hreply, -⟩ := h
    obtain ⟨e, he, rfl⟩ := exists_numbered hr
    obtain ⟨needs, hneeds, -⟩ := bind_eq_ok.mp hreply
    obtain ⟨n, -, hn⟩ := mapM_mem hneeds he
    obtain ⟨out, hout, hn⟩ := bind_eq_ok.mp hn
    obtain ⟨err, herr, -⟩ := bind_eq_ok.mp hn
    exact fitCommandBatchToBudget_clean hreply he
      ⟨measurable_of_contentNeed (hdecoded _ hr).1 hout, measurable_of_contentNeed (hdecoded _ hr).2 herr⟩
  · intro h
    have hclean : ∀ e ∈ numbered results, e.result.Clean := fun e he => h _ (mem_numbered he)
    have hreturns : Returns (fitCommandBatchToBudget enc (batchPayload call (numbered results)) (numbered results) maxTokens)
        (Shows (numbered results)) := fitCommandBatchToBudget_returns hclean maxTokens
    obtain ⟨reply, hreply, -⟩ := hreturns
    have hindices : ((numbered results).map BatchEntry.index).Nodup := by
      rw [index_numbered]
      exact List.nodup_range
    exact ⟨reply, hreply, fitCommandBatchToBudget_keeps hcounts hindices hreply⟩

theorem countsText_perCharacter : CountsText perCharacter := fun _ ht => List.length_pos_iff.mpr ht

def successfulResult (command stdout : Text) : CommandResult where
  success := true
  command := command
  cwd := txt "/root"
  exitCode := 0
  stdout := stdout
  stderr := []
  timedOut := false
  timeout := 30
  force := some false

def pairCall : BatchCall where
  commands := [txt "date", txt "cat notes"]
  mode := .sequential
  maxConcurrency := 1
  shared := { cwd := txt "/root", timeout := 30, force := false, maxTokens := oneToken.maxTokens, captureMaxBytes := oneToken.maxTokens }

/-- A command that printed something, and one that timed out, under a budget of one token. -/
def pairResults : List CommandResult :=
  [successfulResult (txt "date") (txt "Monday\n"),
    { failedBefore pairCall.shared (txt "cat notes") (txt "timed_out") (txt "Too slow.") with timedOut := true }]

theorem batch_keeps_outcomes_pair : ∃ reply,
    fitCommandBatchToBudget perCharacter (batchPayload pairCall (numbered pairResults)) (numbered pairResults) oneToken.maxTokens = .ok reply ∧
      KeepsOutcomes (numbered pairResults) reply := by
  have hdecoded : ∀ r ∈ pairResults, isEncodable r.stdout = true ∧ isEncodable r.stderr = true := by
    simp only [pairResults, List.forall_mem_cons, List.not_mem_nil, false_implies, implies_true, and_true]
    exact ⟨⟨by decide, by decide⟩, by decide, by decide⟩
  refine (batch_keeps_outcomes_iff countsText_perCharacter pairCall hdecoded _).mpr ?_
  simp only [pairResults, List.forall_mem_cons, List.not_mem_nil, false_implies, implies_true, and_true]
  have hbenign : ∀ t, isBenign t = true → Measurable t := fun t ht => measurable_of_isBenign ht
  refine ⟨⟨hbenign _ (by decide), hbenign _ (by decide), hbenign _ (by decide), hbenign _ (by decide), ?_, ?_⟩,
    ⟨hbenign _ (by decide), hbenign _ (by decide), hbenign _ (by decide), hbenign _ (by decide), ?_, ?_⟩⟩
  · intro e he
    cases he
  · intro t ht
    cases ht
  · intro e he
    cases he
    exact ⟨hbenign _ (by decide), hbenign _ (by decide)⟩
  · intro t ht
    cases ht

/-- The second command printed the spelling of a special token. -/
def spellingResults : List CommandResult :=
  [successfulResult (txt "date") (txt "Monday\n"), successfulResult (txt "cat notes") (txt "<|endoftext|>")]

/-- The outcomes of both commands are lost. -/
theorem spelled_token_loses_batch : ¬∃ reply,
    fitCommandBatchToBudget perCharacter (batchPayload pairCall (numbered spellingResults)) (numbered spellingResults) oneToken.maxTokens = .ok reply ∧
      KeepsOutcomes (numbered spellingResults) reply := by
  rintro ⟨reply, hreply, -⟩
  obtain ⟨needs, hneeds, -⟩ := bind_eq_ok.mp hreply
  have hmem : { index := 1, result := successfulResult (txt "cat notes") (txt "<|endoftext|>") } ∈ numbered spellingResults :=
    List.mem_cons_of_mem _ List.mem_cons_self
  obtain ⟨n, -, hn⟩ := mapM_mem hneeds hmem
  obtain ⟨out, hout, -⟩ := bind_eq_ok.mp hn
  have hmeasurable := measurable_of_contentNeed (by decide) hout
  exact ((measurable_iff _).mp hmeasurable).2 _ List.mem_cons_self (List.infix_refl _)

end WebOauthMcp.BatchOutcomes
