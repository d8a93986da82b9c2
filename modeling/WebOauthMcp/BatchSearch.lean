import WebOauthMcp.SearchPaging

/-!
# Batches of searches

Every query of a batch is answered by a reply of its own, within the budget of the whole
reply. The replies are then put into one, which sheds them from the end until it fits.
-/

namespace WebOauthMcp.BatchSearch
open CodePoints JsonText ExceptSteps ResponseBudget BudgetMetadata FileReplies OffsetPaging ReplyOffsets ReplyFields SearchPaging

/-! ## One query -/

/-- Why no search is started. -/
inductive Refusal
  | globWithoutPattern
  | textWithoutQuery
  | regexWithoutPattern
  | unknownMode

def errorReply (code message : Text) : Dict :=
  [(txt "success", .bool false), (txt "error", .obj [(txt "code", .str code), (txt "message", .str message)])]

def Refusal.reply : Refusal → Dict
  | .globWithoutPattern => errorReply (txt "missing_pattern") (txt "mode=glob requires `pattern`.")
  | .textWithoutQuery => errorReply (txt "missing_query") (txt "mode=text requires `query`.")
  | .regexWithoutPattern => errorReply (txt "missing_pattern") (txt "mode=regex requires `pattern`.")
  | .unknownMode => errorReply (txt "invalid_mode") (txt "mode must be one of: glob, regex, text.")

/-- What becomes of a query. The complaint is the text of the exception, if one is raised. -/
inductive Query
  | notAnObject
  | invalid (complaint : Text)
  | refused (why : Refusal)
  | failed (reply : Dict)
  | search (x : Search) (offset limit : ℕ) (complaint : Text)

def invalidQuery (complaint : Text) : Dict :=
  errorReply (txt "invalid_arguments") (txt "Invalid batch search query: " ++ complaint)

/-- Whatever measuring raises is a `ValueError`, and is caught. -/
def queryReply (enc : TokenEncoding) (maxTokens : ℕ+) : Query → Dict
  | .notAnObject => errorReply (txt "invalid_arguments") (txt "Each search query must be an object.")
  | .invalid complaint => invalidQuery complaint
  | .refused why => why.reply
  | .failed reply => reply
  | .search x offset limit complaint =>
    match searchPage enc { x with maxTokens } offset limit with
    | .ok d => d
    | .error _ => invalidQuery complaint

def withBatchIndex (index : ℕ) (result : Dict) : Dict := dictSet (txt "index") (natJson index) result

/-- `_search_batch_item`. -/
def searchBatchItem (enc : TokenEncoding) (maxTokens : ℕ+) (index : ℕ) (query : Query) : Dict :=
  withBatchIndex index (queryReply enc maxTokens query)

/-! ## The batch -/

structure Batch where
  queries : List Query
  mode : Text
  maxConcurrency : ℕ
  maxTokens : ℕ+

def searchModes : List Text := [txt "glob", txt "regex", txt "text"]
def executionModes : List Text := [txt "sequential", txt "parallel"]
def maxSearchBatchSize : ℕ := 20
def maxSearchBatchConcurrency : ℕ := 3

def Batch.budget (b : Batch) : Budget := { maxTokens := b.maxTokens }
def Batch.executionMode (b : Batch) : Text := if b.mode ∈ executionModes then b.mode else txt "sequential"
def Batch.sharedSearchMode (b : Batch) : Text := if b.mode ∈ executionModes then txt "regex" else b.mode

def refusedBatch (code message : Text) : Dict :=
  [(txt "success", .bool false), (txt "mode", .str (txt "batch")),
    (txt "error", .obj [(txt "code", .str code), (txt "message", .str message)]), (txt "results", .arr [])]

def invalidSearchArguments (message : Text) : Dict := refusedBatch (txt "invalid_arguments") message

/-- The checks of the arguments. -/
def Batch.refusal (b : Batch) : Option Dict :=
  if b.queries.isEmpty then some (invalidSearchArguments (txt "Provide at least one search query."))
  else if maxSearchBatchSize < b.queries.length then
    some (invalidSearchArguments (txt "At most 20 searches may be executed in one batch."))
  else if b.maxConcurrency < 1 ∨ maxSearchBatchConcurrency < b.maxConcurrency then
    some (invalidSearchArguments (txt "max_concurrency must be between 1 and 3."))
  else if b.sharedSearchMode ∉ searchModes then
    some (refusedBatch (txt "invalid_mode") (txt "mode must be one of: glob, regex, text, sequential, parallel."))
  else none

/-- In which order the searches of a parallel batch are done. -/
def Schedule : Type := (n : ℕ) → {order : List ℕ // order.Perm (List.range n)}

/-- Each result is put into its slot when its search is done. -/
def orderedResults (order : List ℕ) (results : List Dict) : List Dict :=
  (order.foldl (fun slots k => slots.set k results[k]?) (List.replicate results.length none)).filterMap id

section
variable (enc : TokenEncoding) (b : Batch)

/-- The results from an offset on. -/
def Batch.resultsFrom (offset : ℕ) : List Dict :=
  (b.queries.drop offset).mapIdx fun k query => searchBatchItem enc b.maxTokens (offset + k) query

/-- The results as they were gathered, and how many searches ran at a time. -/
def Batch.run (s : Schedule) (offset : ℕ) : List Dict × ℕ :=
  let results := b.resultsFrom enc offset
  if results.isEmpty then ([], 0)
  else if b.executionMode = txt "sequential" then (results, 1)
  else (orderedResults (s results.length).1 results, min b.maxConcurrency results.length)

def Batch.payload (ran : List Dict × ℕ) : Dict :=
  let failedCount := ran.1.countP fun d => !succeeded d
  [(txt "success", .bool (decide (failedCount = 0))), (txt "mode", .str (txt "batch")),
    (txt "execution_mode", .str b.executionMode), (txt "query_count", natJson b.queries.length),
    (txt "completed_count", natJson ran.1.length), (txt "failed_count", natJson failedCount),
    (txt "max_concurrency", natJson ran.2), (txt "results", .arr (ran.1.map .obj)), (txt "next_offset", .null)]

/-- The `search` tool with a list of queries. -/
def searchBatch (s : Schedule) (batchOffset : ℤ) : Except Raised Dict :=
  match b.refusal with
  | some d => pure d
  | none => do
    let offset := batchOffset.toNat
    let rendered ← withBudgetMetadata enc (b.payload (b.run enc s offset)) b.budget false (txt "end_of_results")
    let results := shownItems (txt "results") rendered.1
    shedItems enc b.budget (txt "results") offset results results.length rendered

end

/-! ## What is gathered -/

theorem getElem?_gathered {results : List Dict} (order : List ℕ) (slots : List (Option Dict)) (hlength : slots.length = results.length)
    {k : ℕ} (hk : k < results.length) : (order.foldl (fun slots k => slots.set k results[k]?) slots)[k]? =
      if k ∈ order then some results[k]? else slots[k]? := by
  induction order generalizing slots with
  | nil => simp
  | cons j order ih =>
    rw [List.foldl_cons, ih _ (by rw [List.length_set, hlength])]
    by_cases hmem : k ∈ order
    · rw [if_pos hmem, if_pos (List.mem_cons_of_mem j hmem)]
    · rw [if_neg hmem]
      by_cases hj : j = k
      · rw [if_pos (List.mem_cons.mpr (.inl hj.symm)), hj, List.getElem?_set_self (hlength ▸ hk)]
      · rw [if_neg (fun h => (List.mem_cons.mp h).elim (fun heq => hj heq.symm) hmem), List.getElem?_set_ne hj]

theorem length_gathered (results : List Dict) (order : List ℕ) (slots : List (Option Dict)) :
    (order.foldl (fun slots k => slots.set k results[k]?) slots).length = slots.length := by
  induction order generalizing slots with
  | nil => rfl
  | cons j order ih => rw [List.foldl_cons, ih, List.length_set]

/-- In whichever order the searches are done, the results stand in the order of the queries. -/
theorem orderedResults_eq {order : List ℕ} {results : List Dict} (h : order.Perm (List.range results.length)) :
    orderedResults order results = results := by
  have hslots : order.foldl (fun slots k => slots.set k results[k]?) (List.replicate results.length none) = results.map some := by
    refine List.ext_getElem? fun k => ?_
    by_cases hk : k < results.length
    · have hmem : k ∈ order := h.mem_iff.mpr (List.mem_range.mpr hk)
      rw [getElem?_gathered order _ List.length_replicate hk, if_pos hmem, List.getElem?_map, List.getElem?_eq_getElem hk]
      rfl
    · have hle := Nat.not_lt.mp hk
      rw [List.getElem?_eq_none (by rwa [length_gathered, List.length_replicate]),
        List.getElem?_eq_none (by rwa [List.length_map])]
  rw [orderedResults, hslots, List.filterMap_map]
  exact List.filterMap_some

section
variable {enc : TokenEncoding} {b : Batch}

theorem length_resultsFrom (offset : ℕ) : (b.resultsFrom enc offset).length = b.queries.length - offset := by
  rw [Batch.resultsFrom, List.length_mapIdx, List.length_drop]

/-- A query has the same result in every call that reaches it. -/
theorem resultsFrom_eq_drop (offset : ℕ) : b.resultsFrom enc offset = (b.resultsFrom enc 0).drop offset := by
  refine List.ext_getElem (by rw [List.length_drop, length_resultsFrom, length_resultsFrom, Nat.sub_zero]) fun k hk hk' => ?_
  rw [List.getElem_drop]
  simp only [Batch.resultsFrom, List.getElem_mapIdx, List.getElem_drop, Nat.zero_add]

theorem run_results (s : Schedule) (offset : ℕ) : (b.run enc s offset).1 = b.resultsFrom enc offset := by
  rw [Batch.run]
  split
  · next hnone => exact (List.isEmpty_iff.mp hnone).symm
  · split
    · rfl
    · exact orderedResults_eq (s _).2

/-- How many searches run at a time. -/
def Batch.concurrency (b : Batch) (n : ℕ) : ℕ :=
  if n = 0 then 0 else if b.executionMode = txt "sequential" then 1 else min b.maxConcurrency n

/-- The reply with all results from an offset on, before it is measured. -/
def Batch.page (enc : TokenEncoding) (b : Batch) (offset : ℕ) : Dict :=
  b.payload (b.resultsFrom enc offset, b.concurrency (b.queries.length - offset))

theorem run_payload (s : Schedule) (offset : ℕ) : b.payload (b.run enc s offset) = b.page enc offset := by
  have hpair : b.run enc s offset = (b.resultsFrom enc offset, b.concurrency (b.queries.length - offset)) := by
    refine Prod.ext (run_results s offset) ?_
    have hcount : (b.resultsFrom enc offset).length = b.queries.length - offset := length_resultsFrom offset
    rw [Batch.run, Batch.concurrency, ← hcount]
    by_cases hnone : b.resultsFrom enc offset = []
    · rw [hnone]
      rfl
    · by_cases hmode : b.executionMode = txt "sequential"
      · simp [hnone, hmode]
      · simp [hnone, hmode]
  rw [hpair, Batch.page]

end

/-! ## What is delivered -/

section
variable (enc : TokenEncoding) (b : Batch)

/-- The results of all queries, as replies show them. -/
def Batch.results : List Json := (b.resultsFrom enc 0).map .obj

/-- All results from an offset on fit into one reply. -/
def RestFits (i : ℕ) : Prop := fitsReply enc b.budget (b.page enc i) false (txt "end_of_results") = true

/-- The first `k` of them do. -/
def PartFits (i k : ℕ) : Prop := fitsReply enc b.budget
  (pageOf (txt "results") (b.page enc i) (((b.results enc).drop i).take k) (natJson (i + k))) true (txt "token_budget") = true

/-- The reply at an offset shows `k` results. -/
structure ReplyAt (i k : ℕ) (d : Dict) : Prop where
  shed : Shed (RestFits enc b i) (PartFits enc b i) (b.queries.length - i) k
  items : shownItems (txt "results") d = ((b.results enc).drop i).take k
  rest : k = b.queries.length - i → nextOffsetOf d = none
  cut : k < b.queries.length - i → nextOffsetOf d = some (i + k)

/-- Each reply begins with the result of the query it was asked for, or refuses the batch, and
leads, if anywhere, to a later query. From every query on, each result is shown once. -/
structure Delivers : Prop where
  reply : ∀ (s : Schedule) (i : ℤ), i < b.queries.length → ∃ d, searchBatch enc b s i = .ok d ∧
    (b.refusal = some d ∨ (shownItems (txt "results") d).head? = (b.results enc)[i.toNat]?) ∧
      ∀ j, nextOffsetOf d = some j → i < j
  walk : b.refusal = none → ∀ start < b.queries.length, ∀ schedules,
    Walk (fun s i => (searchBatch enc b s (i : ℕ)).toOption.map fun d => ⟨shownItems (txt "results") d, nextOffsetOf d⟩)
      schedules start ((b.results enc).drop start)

/-- All results can be rendered, and at each query all that remain fit, or some of the first do. -/
structure BatchRoomy : Prop where
  results : ∀ j ∈ b.results enc, CleanJson j
  kept : ∀ i < b.queries.length, RestFits enc b i ∨ ∃ k, 0 < k ∧ k < b.queries.length - i ∧ PartFits enc b i k

end

variable {enc : TokenEncoding} {b : Batch}

theorem results_reserved : txt "results" ∉ txt "next_offset" :: contractKeys := by decide

theorem length_results : (b.results enc).length = b.queries.length := by
  rw [Batch.results, List.length_map, length_resultsFrom, Nat.sub_zero]

theorem shown_page (i : ℕ) : shownItems (txt "results") (b.page enc i) = (b.results enc).drop i := by
  rw [Batch.results, ← List.map_drop, ← resultsFrom_eq_drop]
  rfl

theorem distinct_page (i : ℕ) : (keys (b.page enc i)).Nodup := by
  have hkeys : keys (b.page enc i) = [txt "success", txt "mode", txt "execution_mode", txt "query_count", txt "completed_count",
    txt "failed_count", txt "max_concurrency", txt "results", txt "next_offset"] := rfl
  rw [hkeys]
  decide

theorem executionMode_benign : isBenign b.executionMode = true := by
  have hall : ∀ m ∈ executionModes, isBenign m = true := by decide
  rw [Batch.executionMode]
  split
  · next hmode => exact hall _ hmode
  · decide

theorem page_clean_iff (i : ℕ) : CleanPayload (b.page enc i) ↔ ∀ j ∈ (b.results enc).drop i, CleanJson j := by
  have hresults : (b.results enc).drop i = (b.resultsFrom enc i).map .obj := by
    rw [Batch.results, ← List.map_drop, ← resultsFrom_eq_drop]
  rw [hresults, ← cleanJson_arr]
  constructor
  · intro h
    have hkey : txt "results" ∉ contractKeys := by decide
    exact (h (txt "results", .arr ((b.resultsFrom enc i).map .obj)) (by simp [Batch.page, Batch.payload]) hkey).2
  · intro h f hf _
    simp only [Batch.page, Batch.payload, List.mem_cons, List.not_mem_nil, or_false] at hf
    obtain rfl | rfl | rfl | rfl | rfl | rfl | rfl | rfl | rfl := hf
    · exact cleanField_bool (by decide)
    · exact cleanField_benign (by decide) (by decide)
    · exact cleanField_benign (by decide) executionMode_benign
    · exact cleanField_nat (by decide)
    · exact cleanField_nat (by decide)
    · exact cleanField_nat (by decide)
    · exact cleanField_nat (by decide)
    · exact cleanField_of (by decide) h
    · exact cleanField_of_strings_nil (by decide) rfl

section
variable (haccepted : b.refusal = none)
include haccepted

theorem searchBatch_eq (s : Schedule) (i : ℤ) : searchBatch enc b s i = (do
    let rendered ← withBudgetMetadata enc (b.page enc i.toNat) b.budget false (txt "end_of_results")
    shedItems enc b.budget (txt "results") i.toNat (shownItems (txt "results") rendered.1) (shownItems (txt "results") rendered.1).length
      rendered) := by
  rw [searchBatch, haccepted]
  dsimp only
  rw [run_payload]

theorem searchBatch_spec {s : Schedule} {i : ℤ} {d : Dict} (h : searchBatch enc b s i = .ok d) : ∃ k, ReplyAt enc b i.toNat k d := by
  rw [searchBatch_eq haccepted] at h
  obtain ⟨rendered, hrendered, h⟩ := bind_eq_ok.mp h
  have hshown : shownItems (txt "results") rendered.1 = (b.results enc).drop i.toNat :=
    (shownItems_reply (by decide) hrendered).trans (shown_page _)
  have hlength : ((b.results enc).drop i.toNat).length = b.queries.length - i.toNat := by rw [List.length_drop, length_results]
  have hbase : SameOutside (txt "results" :: txt "next_offset" :: contractKeys) rendered.1 (b.page enc i.toNat) :=
    (reply_same (distinct_page _) hrendered).mono fun k hk => List.mem_cons_of_mem _ (List.mem_cons_of_mem _ hk)
  rw [hshown, hlength] at h
  obtain ⟨k, hshed, hitems, hrest, hcut⟩ := shedItems_spec results_reserved (Nat.le_of_eq hlength.symm) hbase
    (hshown.trans (List.take_of_length_le (Nat.le_of_eq hlength)).symm) h
  have hwhole : (rendered.2.fits = true) = RestFits enc b i.toNat := by rw [RestFits, fitsReply_of_ok hrendered]
  rw [hwhole] at hshed
  refine ⟨k, hshed, hitems, fun hk => ?_, fun hk => (hcut hk).1⟩
  rw [hrest hk, nextOffsetOf_reply hrendered]
  rfl

theorem searchBatch_returns (hroom : BatchRoomy enc b) (s : Schedule) (i : ℤ) : ∃ d, searchBatch enc b s i = .ok d := by
  have hclean : ∀ j ∈ (b.results enc).drop i.toNat, CleanJson j := fun j hj => hroom.results j (List.mem_of_mem_drop hj)
  have hreply : Returns (withBudgetMetadata enc (b.page enc i.toNat) b.budget false (txt "end_of_results"))
      fun r => CleanExcept [] r.1 := withBudgetMetadata_returns ((page_clean_iff _).mpr hclean) (measurable_of_isBenign (by decide))
  obtain ⟨rendered, hrendered, hcleaned⟩ := hreply
  have hshown : shownItems (txt "results") rendered.1 = (b.results enc).drop i.toNat :=
    (shownItems_reply (by decide) hrendered).trans (shown_page _)
  obtain ⟨d, hd⟩ : ∃ d, shedItems enc b.budget (txt "results") i.toNat (shownItems (txt "results") rendered.1)
      (shownItems (txt "results") rendered.1).length rendered = .ok d := shedItems_returns (by decide) hcleaned (hshown ▸ hclean)
  exact ⟨d, (searchBatch_eq haccepted s i).trans (bind_eq_ok.mpr ⟨rendered, hrendered, hd⟩)⟩

end

section
variable {i k : ℕ} {d : Dict} (h : ReplyAt enc b i k d)
include h

theorem ReplyAt.pos (hroom : BatchRoomy enc b) (hi : i < b.queries.length) : 0 < k :=
  (h.shed.pos_iff (Nat.sub_pos_of_lt hi)).mpr (hroom.kept i hi)

theorem ReplyAt.head (hroom : BatchRoomy enc b) (hi : i < b.queries.length) :
    (shownItems (txt "results") d).head? = (b.results enc)[i]? := by
  rw [h.items, List.head?_take, if_neg (Nat.pos_iff_ne_zero.mp (h.pos hroom hi)), List.head?_drop]

theorem ReplyAt.serves (hroom : BatchRoomy enc b) (hi : i ≤ b.queries.length) :
    Serves (b.results enc) i ⟨shownItems (txt "results") d, nextOffsetOf d⟩ := by
  have hle := h.shed.le
  have hlength : (shownItems (txt "results") d).length = k := by
    rw [h.items, List.length_take, List.length_drop, length_results]
    exact Nat.min_eq_left hle
  refine ⟨?_, ?_, fun hlt hnil => ?_⟩
  · rw [h.items]
    exact List.take_prefix _ _
  · rw [hlength, length_results]
    by_cases hk : k < b.queries.length - i
    · rw [h.cut hk, if_pos (by omega)]
    · rw [h.rest (by omega), if_neg (by omega)]
  · have hcount : (b.results enc).length = b.queries.length := length_results
    have hpos := h.pos hroom (hcount ▸ hlt)
    have hnone : shownItems (txt "results") d = [] := hnil
    rw [hnone] at hlength
    exact absurd hlength (Nat.ne_of_lt hpos)

end

/-- A refusal leads nowhere. -/
theorem refusal_ends {d : Dict} (h : b.refusal = some d) : nextOffsetOf d = none := by
  have hrefused : ∀ code message, nextOffsetOf (refusedBatch code message) = none := fun _ _ => rfl
  rw [Batch.refusal] at h
  split at h
  · exact Option.some.inj h ▸ hrefused _ _
  · split at h
    · exact Option.some.inj h ▸ hrefused _ _
    · split at h
      · exact Option.some.inj h ▸ hrefused _ _
      · split at h
        · exact Option.some.inj h ▸ hrefused _ _
        · exact absurd h.symm (Option.some_ne_none d)

theorem delivers_of_roomy (haccepted : b.refusal = none) (hroom : BatchRoomy enc b) : Delivers enc b := by
  have hcount : (b.results enc).length = b.queries.length := length_results
  refine ⟨fun s i hi => ?_, fun _ start hstart schedules => ?_⟩
  · obtain ⟨d, hd⟩ := searchBatch_returns haccepted hroom s i
    obtain ⟨k, hreply⟩ := searchBatch_spec haccepted hd
    by_cases hlt : i.toNat < b.queries.length
    · refine ⟨d, hd, .inr (hreply.head hroom hlt), fun j hj => ?_⟩
      have hadvances := (hreply.serves hroom (Nat.le_of_lt hlt)).advances hj
      omega
    · -- the batch is not empty
      have hnonempty : b.queries ≠ [] := by
        intro hnil
        rw [Batch.refusal, hnil] at haccepted
        exact absurd haccepted (by simp)
      have hpos := List.length_pos_iff.mpr hnonempty
      omega
  · refine walk_of_serves (fun s i hi => ?_) schedules (Nat.le_of_lt (hcount ▸ hstart))
    obtain ⟨d, hd⟩ := searchBatch_returns haccepted hroom s i
    obtain ⟨k, hreply⟩ := searchBatch_spec haccepted hd
    refine ⟨_, ?_, hreply.serves hroom (hcount ▸ hi)⟩
    rw [hd]
    rfl

theorem roomy_of_delivers (haccepted : b.refusal = none) (h : Delivers enc b) (s : Schedule) : BatchRoomy enc b := by
  refine ⟨?_, fun i hi => ?_⟩
  · by_cases hsome : 0 < b.queries.length
    · obtain ⟨d, hd, -⟩ := h.reply s 0 (by exact_mod_cast hsome)
      rw [searchBatch_eq haccepted] at hd
      obtain ⟨rendered, hrendered, -⟩ := bind_eq_ok.mp hd
      exact (page_clean_iff 0).mp ((withBudgetMetadata_returns_iff enc _ _ _ _).mp ⟨rendered, hrendered⟩).1
    · intro j hj
      have hpos := List.length_pos_of_mem hj
      rw [length_results] at hpos
      exact absurd hpos hsome
  · obtain ⟨d, hd, -, hadvances⟩ := h.reply s i (by exact_mod_cast hi)
    obtain ⟨k, hreply⟩ := searchBatch_spec haccepted hd
    have hleft := Nat.sub_pos_of_lt hi
    refine (hreply.shed.pos_iff hleft).mp ?_
    by_contra hzero
    have hnone : k = 0 := Nat.le_zero.mp (Nat.not_lt.mp hzero)
    have hstuck := hadvances _ (hreply.cut (hnone ▸ hleft))
    simp only [Int.toNat_natCast] at hstuck
    omega

/-- A batch is delivered when it is refused, or when there is room at each query for its result. -/
theorem delivers_iff (enc : TokenEncoding) (b : Batch) : Delivers enc b ↔ b.refusal ≠ none ∨ BatchRoomy enc b := by
  by_cases haccepted : b.refusal = none
  · have hschedule : Nonempty Schedule := ⟨fun n => ⟨List.range n, List.Perm.refl _⟩⟩
    constructor
    · intro h
      exact .inr (roomy_of_delivers haccepted h hschedule.some)
    · intro h
      exact delivers_of_roomy haccepted (h.resolve_left fun hne => hne haccepted)
  · refine iff_of_true ⟨fun s i _ => ?_, fun hnone => absurd hnone haccepted⟩ (.inl haccepted)
    obtain ⟨d, hd⟩ := Option.ne_none_iff_exists'.mp haccepted
    have hreply : searchBatch enc b s i = .ok d := by
      rw [searchBatch, hd]
      rfl
    refine ⟨d, hreply, .inl hd, fun j hj => ?_⟩
    have hend : nextOffsetOf d = none := refusal_ends hd
    exact absurd (hend.symm.trans hj) (Option.some_ne_none j).symm

/-- A batch of one query, whose own reply is just as long as the budget. -/
def fullQuery : Batch where
  queries := [.refused .globWithoutPattern]
  mode := txt "glob"
  maxConcurrency := 1
  maxTokens := ⟨(render (.obj Refusal.globWithoutPattern.reply)).length, Nat.lt_of_lt_of_le Nat.zero_lt_two (length_render_obj _)⟩

/-- The reply of the query fits, but not as part of a batch: its offset is returned for ever. -/
theorem full_query_undelivered :
    (∀ q ∈ fullQuery.queries, ∃ m, measureJsonPayload perCharacter fullQuery.budget (queryReply perCharacter fullQuery.maxTokens q) = .ok m ∧
      m.fits = true) ∧ ¬Delivers perCharacter fullQuery := by
  refine ⟨fun q hq => ?_, fun h => ?_⟩
  · cases List.mem_singleton.mp hq
    have hclean : CleanExcept [] Refusal.globWithoutPattern.reply := by
      intro f hf _
      simp only [Refusal.reply, errorReply, List.mem_cons, List.not_mem_nil, or_false] at hf
      cases hf with
      | inl hf =>
        cases hf
        exact cleanField_bool (by decide)
      | inr hf =>
        cases hf
        refine cleanField_of (by decide) (cleanJson_obj.mpr fun f hf => ?_)
        simp only [List.mem_cons, List.not_mem_nil, or_false] at hf
        cases hf with
        | inl hf =>
          cases hf
          exact cleanField_benign (by decide) (by decide)
        | inr hf =>
          cases hf
          exact cleanField_benign (by decide) (by decide)
    obtain ⟨m, hm⟩ := (measureJsonPayload_returns_iff perCharacter fullQuery.budget _).mpr hclean
    exact ⟨m, hm, fits_of_length (Nat.le_refl _) rfl hm⟩
  · have hroom := roomy_of_delivers rfl h fun n => ⟨List.range n, List.Perm.refl _⟩
    have hlong : fitsReply perCharacter fullQuery.budget (fullQuery.page perCharacter 0) false (txt "end_of_results") = false := by
      refine not_fits_of_longer fun d hd => ?_
      have hresults : dictGet (txt "results") d = some (.arr (fullQuery.results perCharacter)) := hd _ (by decide)
      have hlonger := length_lt_render hresults (List.mem_cons_self ..)
      have hindexed := length_render_append Refusal.globWithoutPattern.reply (txt "index", natJson 0)
      exact Nat.lt_of_le_of_lt hindexed (Nat.lt_of_lt_of_le (Nat.lt_add_of_pos_right Nat.zero_lt_two) hlonger)
    cases hroom.kept 0 Nat.one_pos with
    | inl hrest => exact Bool.false_ne_true (hlong.symm.trans hrest)
    | inr hpart =>
      obtain ⟨k, hpos, hlt, -⟩ := hpart
      have hone : k < 1 := hlt
      omega

end WebOauthMcp.BatchSearch
