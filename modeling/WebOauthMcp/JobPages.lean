import Mathlib.Algebra.Order.Ring.Unbundled.Rat
import WebOauthMcp.JobListing
import WebOauthMcp.ReplyOffsets

/-!
# Following the offsets of the job list

The entries of the registry on disk are checked one by one; a check may raise instead of
giving a warning. Apart from that, and from names and summaries that cannot be rendered,
the pages hold all jobs.
-/

namespace WebOauthMcp.JobPages
open CodePoints Words JsonText ExceptSteps ResponseBudget BudgetMetadata FileReplies JobRecord JobListing OffsetPaging ReplyOffsets

/-! ## The registry on disk -/

/-- What escapes from the check of a record. -/
inductive Escape
  | typeError
  | overflowError

/-- The fields of a record that are checked, as they were read. A missing one is null. -/
structure RawMetadata where
  schemaVersion : Json
  status : Json
  startedAt : Json
  completedAt : Json
  command : Json
  cwd : Json
  name : Json

/-- `_metadata_float`: whether there is a number. Integers beyond the floats overflow. -/
def metadataFloat : Json → Except Escape Bool
  | .int n => if 2 ^ 1024 - 2 ^ 970 ≤ n.natAbs then throw .overflowError else pure true
  | .float _ => pure true
  | _ => pure false

def durableStatuses : List Text :=
  [txt "starting", txt "running", txt "succeeded", txt "failed", txt "killed", txt "interrupted"]

/-- Lists and objects have no hash. -/
def isDurableStatus : Json → Except Escape Bool
  | .str t => pure (durableStatuses.contains t)
  | .arr _ => throw .typeError
  | .obj _ => throw .typeError
  | _ => pure false

def isStr : Json → Bool
  | .str _ => true
  | _ => false

def isNull : Json → Bool
  | .null => true
  | _ => false

/-- The schema version is the number one, which the true value equals. -/
def isSchemaVersion : Json → Bool
  | .int n => n = 1
  | .bool b => b
  | .float r => r.val = txt "1.0"
  | _ => false

def invalidCompletedAt : Json → Except Escape Bool
  | .null => pure false
  | j => do
    let number ← metadataFloat j
    pure !number

/-- `_job_metadata_validation_error`. -/
def jobMetadataValidationError (m : RawMetadata) : Except Escape (Option Text) := do
  if !isSchemaVersion m.schemaVersion then return some (txt "Skipped durable job record with an unsupported metadata schema version.")
  let known ← isDurableStatus m.status
  if !known then return some (txt "Skipped durable job record with an invalid status.")
  let started ← metadataFloat m.startedAt
  if !started then return some (txt "Skipped durable job record without a valid started_at timestamp.")
  let wrong ← invalidCompletedAt m.completedAt
  if wrong then return some (txt "Skipped durable job record with an invalid completed_at timestamp.")
  if !isStr m.command || !isStr m.cwd then return some (txt "Skipped durable job record with invalid command or cwd fields.")
  if !isNull m.name && !isStr m.name then return some (txt "Skipped durable job record with an invalid name field.")
  return none

/-- An entry is refused, or it is a record and, if that is valid, the job it describes. -/
inductive DiskEntry
  | refused (name code message : Text)
  | record (name : Text) (m : RawMetadata) (j : Job)

def DiskEntry.scan : DiskEntry → Except Escape Entry
  | .refused name code message => pure (.skipped name code message)
  | .record name m j => do
    let error ← jobMetadataValidationError m
    pure (match error with
      | some message => .skipped name (txt "job_metadata_invalid") message
      | none => .job j)

/-- `list_jobs` on a registry directory. None if it raises. -/
def listDisk (disk : List DiskEntry) (req : JobListRequest) (enc : TokenEncoding) : Option JobListReply :=
  if req.status = some .starting ∨ ¬(1 ≤ req.limit ∧ req.limit ≤ maxJobListLimit) then (listJobs ⟨none, []⟩ req enc).toOption
  else match disk.mapM DiskEntry.scan with
    | .error _ => none
    | .ok entries => (listJobs ⟨none, entries⟩ req enc).toOption

/-! ## Pages of the registry -/

/-- The status that a caller may ask for, or all of them. -/
abbrev StatusFilter := {status : Option JobStatus // status ≠ some .starting}

/-- The arguments that may change from call to call. -/
structure ListCall where
  limit : {n : ℕ // 1 ≤ n ∧ n ≤ maxJobListLimit}
  maxTokens : ℕ+

variable (disk : List DiskEntry) (filter : StatusFilter) (enc : TokenEncoding)

def requestAt (c : ListCall) (offset : ℕ) : JobListRequest := ⟨filter.val, offset, c.limit.val, c.maxTokens⟩

def listPage : JobListReply → Option (Page Job)
  | .failed _ _ => none
  | .listed _ page payload => some ⟨page.jobs, nextOffsetOf payload⟩

def jobPager (c : ListCall) (offset : ℕ) : Option (Page Job) := (listDisk disk (requestAt filter c offset) enc).bind listPage

/-- The registry as far as its checks come to an end. -/
def readable : Registry := ⟨none, disk.filterMap fun e => e.scan.toOption⟩

def matchingJobs : List Job :=
  (readable disk).jobs.filter fun j => filter.val.all fun status => decide (durableStatus j.reconciled = status)

def NewerFirst (a b : Job) : Prop := b.startedAt < a.startedAt ∨ a.startedAt = b.startedAt ∧ textLe a.jobId b.jobId = true

def skippedCountOf (d : Dict) : Option ℕ :=
  match dictGet (txt "skipped") d with
  | some (.obj skipped) => (dictGet (txt "count") skipped).bind countOf
  | _ => none

/-- The walks cover the registry, and every page does its part. -/
def Covers : Prop := ∃ xs, xs.Perm (matchingJobs disk filter) ∧ xs.Pairwise NewerFirst ∧ Enumerates (jobPager disk filter enc) xs ∧
  ∀ c offset, ∃ page payload, listDisk disk (requestAt filter c offset) enc = some (.listed xs.length page payload) ∧
    (dictGet (txt "total") payload).bind countOf = some xs.length ∧ skippedCountOf payload = some (allWarnings (readable disk)).length ∧
    dictGet (txt "jobs") payload = some (.arr (page.jobs.map fun j => .obj j.summary)) ∧ (offset < xs.length → page.jobs ≠ [])

/-- No check raises, and what the pages show can be rendered. -/
structure Listable : Prop where
  checks : ∀ e ∈ disk, ∃ r, e.scan = .ok r
  summaries : ∀ j ∈ matchingJobs disk filter, CleanJson (.obj j.summary)
  warnings : ∀ w ∈ firstWarnings (readable disk), CleanJson w

variable {disk filter enc}

theorem requestAt_valid (c : ListCall) (offset : ℕ) : ¬((requestAt filter c offset).status = some .starting ∨
    ¬(1 ≤ (requestAt filter c offset).limit ∧ (requestAt filter c offset).limit ≤ maxJobListLimit)) :=
  not_or_intro filter.property (not_not_intro c.limit.property)

theorem scan_all {entries : List Entry} (h : disk.mapM DiskEntry.scan = .ok entries) : readable disk = ⟨none, entries⟩ := by
  have hall := mapM_eq_ok.mp h
  have hentries : disk.filterMap (fun e => e.scan.toOption) = entries := by
    clear h
    induction hall with
    | nil => rfl
    | cons he _ ih => rw [List.filterMap_cons, he, ih]; rfl
  rw [readable, hentries]

/-- The registry is listed once all checks come to an end. -/
theorem listDisk_eq (h : ∀ e ∈ disk, ∃ r, e.scan = .ok r) (c : ListCall) (offset : ℕ) :
    listDisk disk (requestAt filter c offset) enc = (listJobs (readable disk) (requestAt filter c offset) enc).toOption := by
  obtain ⟨entries, hentries⟩ : ∃ entries, disk.mapM DiskEntry.scan = .ok entries := by
    have hret := mapM_returns (P := fun _ _ => True) fun e he => ⟨_, (h e he).choose_spec, trivial⟩
    exact hret.isOk
  rw [listDisk, if_neg (requestAt_valid c offset), hentries, scan_all hentries]

theorem scan_of_listed {c : ListCall} {offset : ℕ} {r : JobListReply}
    (h : listDisk disk (requestAt filter c offset) enc = some r) : ∀ e ∈ disk, ∃ r, e.scan = .ok r := by
  rw [listDisk, if_neg (requestAt_valid c offset)] at h
  split at h
  · exact absurd h.symm (Option.some_ne_none r)
  · next entries hentries =>
    intro e he
    obtain ⟨r, -, hr⟩ := mapM_mem hentries he
    exact ⟨r, hr⟩

/-! ### The order -/

theorem listedBefore_iff (a b : Job) : listedBefore a b = true ↔ NewerFirst a b := by
  rw [listedBefore, Bool.or_eq_true, Bool.and_eq_true, decide_eq_true_eq, decide_eq_true_eq, NewerFirst]

theorem listedBefore_trans (a b c : Job) (hab : listedBefore a b = true) (hbc : listedBefore b c = true) : listedBefore a c = true := by
  rw [listedBefore_iff] at *
  cases hab with
  | inl hab =>
    cases hbc with
    | inl hbc => exact .inl (hbc.trans hab)
    | inr hbc => exact .inl (hbc.1 ▸ hab)
  | inr hab =>
    cases hbc with
    | inl hbc => exact .inl (hab.1 ▸ hbc)
    | inr hbc => exact .inr ⟨hab.1.trans hbc.1, textLe_trans _ _ _ hab.2 hbc.2⟩

theorem listedBefore_total (a b : Job) : (listedBefore a b || listedBefore b a) = true := by
  rw [Bool.or_eq_true, listedBefore_iff, listedBefore_iff]
  cases lt_trichotomy a.startedAt b.startedAt with
  | inl hlt => exact .inr (.inl hlt)
  | inr hge =>
    cases hge with
    | inl heq => exact (Bool.or_eq_true _ _ ▸ textLe_total a.jobId b.jobId).imp (fun h => .inr ⟨heq, h⟩) fun h => .inr ⟨heq.symm, h⟩
    | inr hgt => exact .inl (.inl hgt)

theorem discovered_newerFirst (g : Registry) (req : JobListRequest) : (discovered g req).Pairwise NewerFirst := by
  refine (List.pairwise_mergeSort listedBefore_trans listedBefore_total _).imp fun h => ?_
  exact (listedBefore_iff _ _).mp h

/-! ### The pages -/

def oneJob : ListCall := ⟨⟨1, by decide⟩, ⟨1, Nat.one_pos⟩⟩

variable (disk filter) in
/-- All matching jobs in their order. No page changes it. -/
def listedJobs : List Job := discovered (readable disk) (requestAt filter oneJob 0)

theorem listedJobs_perm : (listedJobs disk filter).Perm (matchingJobs disk filter) := List.mergeSort_perm _ _

theorem clean_whole_iff (c : ListCall) (offset : ℕ) :
    CleanPage (wholePage (readable disk) (requestAt filter c offset) (firstWarnings (readable disk)).length) ↔
      (∀ j ∈ ((listedJobs disk filter).drop offset).take c.limit.val, CleanJson (.obj j.summary)) ∧
        ∀ w ∈ firstWarnings (readable disk), CleanJson w := by
  rw [CleanPage, wholePage, List.take_length]
  exact Iff.rfl

variable (disk filter) in
/-- What a reply says about the whole registry. -/
structure Reports (c : ListCall) (offset : ℕ) (page : JobListPage) (payload : Dict) : Prop where
  total : (dictGet (txt "total") payload).bind countOf = some (listedJobs disk filter).length
  skipped : skippedCountOf payload = some (allWarnings (readable disk)).length
  jobs : dictGet (txt "jobs") payload = some (.arr (page.jobs.map fun j => .obj j.summary))
  next : nextOffsetOf payload = nextOffset (readable disk) (requestAt filter c offset) page

theorem reports_payload (c : ListCall) (offset : ℕ) (page : JobListPage) (m : BudgetMeasurement) :
    Reports disk filter c offset page (jobListPayload (readable disk) (requestAt filter c offset) page m) where
  total := rfl
  skipped := rfl
  jobs := rfl
  next := countOf_optionalCount _

/-- A call on a registry that can be listed shows the next jobs. -/
theorem listDisk_serves (h : Listable disk filter) (c : ListCall) (offset : ℕ) : ∃ page payload,
    listDisk disk (requestAt filter c offset) enc = some (.listed (listedJobs disk filter).length page payload) ∧
      Reports disk filter c offset page payload ∧
      Serves (listedJobs disk filter) offset ⟨page.jobs, nextOffsetOf payload⟩ := by
  have hclean : CleanPage (wholePage (readable disk) (requestAt filter c offset) (firstWarnings (readable disk)).length) := by
    refine (clean_whole_iff c offset).mpr ⟨fun j hj => ?_, h.warnings⟩
    exact h.summaries j (listedJobs_perm.mem_iff.mp (List.mem_of_mem_drop (List.mem_of_mem_take hj)))
  obtain ⟨r, hr⟩ : ∃ r, listJobs (readable disk) (requestAt filter c offset) enc = .ok r :=
    (listJobs_returns_iff filter.property c.limit.property rfl).mpr hclean
  obtain ⟨page, m, n, hreply, hjobs⟩ := listJobs_shown filter.property c.limit.property rfl hr
  have hshown : page.jobs = ((listedJobs disk filter).drop offset).take (min (n + 1) c.limit.val) := by
    rw [hjobs, ← List.take_take]
    rfl
  have hnext : nextOffsetOf (jobListPayload (readable disk) (requestAt filter c offset) page m) =
      if offset + page.jobs.length < (listedJobs disk filter).length ∧ page.jobs ≠ [] then some (offset + page.jobs.length) else none :=
    (reports_payload c offset page m).next
  have hprogress : offset < (listedJobs disk filter).length → page.jobs ≠ [] := by
    intro hmore
    have hlimit := c.limit.property.1
    rw [hshown, ← List.length_pos_iff, List.length_take, List.length_drop]
    omega
  refine ⟨page, jobListPayload (readable disk) (requestAt filter c offset) page m, ?_, reports_payload c offset page m, ?_, ?_, hprogress⟩
  · rw [listDisk_eq h.checks, hr, hreply]
    rfl
  · rw [hshown]
    exact List.take_prefix _ _
  · rw [hnext]
    refine if_congr ⟨fun hboth => hboth.1, fun hmore => ⟨hmore, hprogress ?_⟩⟩ rfl rfl
    have hmore : offset + page.jobs.length < (listedJobs disk filter).length := hmore
    omega

theorem listable_of_covers (h : Covers disk filter enc) : Listable disk filter := by
  obtain ⟨xs, -, -, -, hpages⟩ := h
  have hclean : ∀ offset, CleanPage (wholePage (readable disk) (requestAt filter oneJob offset)
      (firstWarnings (readable disk)).length) := by
    intro offset
    obtain ⟨page, payload, hreply, -⟩ := hpages oneJob offset
    have hlist := hreply
    rw [listDisk_eq (scan_of_listed hreply)] at hlist
    cases hr : listJobs (readable disk) (requestAt filter oneJob offset) enc with
    | error e =>
      rw [hr] at hlist
      exact absurd hlist.symm (Option.some_ne_none _)
    | ok r => exact (listJobs_returns_iff filter.property oneJob.limit.property rfl).mp ⟨r, hr⟩
  obtain ⟨page, payload, hreply, -⟩ := hpages oneJob 0
  refine ⟨scan_of_listed hreply, fun j hj => ?_, ((clean_whole_iff _ 0).mp (hclean 0)).2⟩
  obtain ⟨i, hi, rfl⟩ := List.getElem_of_mem (listedJobs_perm.mem_iff.mpr hj)
  refine ((clean_whole_iff _ i).mp (hclean i)).1 _ ?_
  rw [List.drop_eq_getElem_cons hi]
  exact List.mem_cons_self

def allStatuses : StatusFilter := ⟨none, (Option.some_ne_none _).symm⟩

/-- A foreign file whose name is one octet that is no UTF-8. -/
def foreignFile : DiskEntry :=
  .refused [0xDCFF] (txt "non_job_record") (txt "Skipped entry that is not a durable job directory.")

/-- A record whose status is a list. -/
def listStatusRecord (j : Job) : DiskEntry :=
  .record j.jobId ⟨.int 1, .arr [], .int 0, .null, .str (txt "ls"), .str j.cwd, .null⟩ j

end WebOauthMcp.JobPages
