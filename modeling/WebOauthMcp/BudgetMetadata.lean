import WebOauthMcp.ResponseBudget

/-!
# The common response contract

A reply is a JSON object to which its own token estimate is added. The estimate is part
of what is measured, so it is settled in at most five rounds, and in five more when the
reply turns out not to fit. However the rounds go, they measure the same strings.
-/

namespace WebOauthMcp.BudgetMetadata
open CodePoints AvoidedWords JsonText ExceptSteps ResponseBudget

/-- A JSON object under construction. -/
abbrev Dict := List (Text × Json)

/-- `d[k] = v`. -/
def dictSet (k : Text) (v : Json) (d : Dict) : Dict :=
  if d.any fun f => decide (f.1 = k) then d.map fun f => if f.1 = k then (k, v) else f else d ++ [(k, v)]

/-- `d.pop(k, None)`. -/
def dictPop (k : Text) (d : Dict) : Dict := d.filter fun f => decide (f.1 ≠ k)

def natJson (n : ℕ) : Json := .int n

def optionalNat : Option ℕ+ → Json
  | none => .null
  | some n => natJson n

/-- `measure_json_payload`. -/
def measureJsonPayload (enc : TokenEncoding) (budget : Budget) (payload : Dict) :
    Except Raised BudgetMeasurement := measure enc budget (render (.obj payload))

/-- A reply between two rounds: `stored` is what `result["estimated_tokens"]` holds. -/
structure Settled where
  result : Dict
  stored : ℕ
  measurement : BudgetMeasurement

/-- The first settling loop. -/
def settleEstimate (enc : TokenEncoding) (budget : Budget) :
    ℕ → Dict → ℕ → BudgetMeasurement → Except Raised Settled
  | 0, result, stored, measurement => pure ⟨result, stored, measurement⟩
  | rounds + 1, result, stored, measurement =>
    if stored = measurement.estimatedTokens then pure ⟨result, stored, measurement⟩
    else do
      let result := dictSet (txt "estimated_tokens") (natJson measurement.estimatedTokens) result
      let updated ← measureJsonPayload enc budget result
      settleEstimate enc budget rounds result measurement.estimatedTokens updated

/-- The second settling loop, which measures before it compares. -/
def resettleEstimate (enc : TokenEncoding) (budget : Budget) :
    ℕ → Dict → ℕ → BudgetMeasurement → Except Raised (Dict × BudgetMeasurement)
  | 0, result, _, measurement => pure (result, measurement)
  | rounds + 1, result, stored, _ => do
    let measurement ← measureJsonPayload enc budget result
    if stored = measurement.estimatedTokens then pure (result, measurement)
    else
      resettleEstimate enc budget rounds
        (dictSet (txt "estimated_tokens") (natJson measurement.estimatedTokens) result)
        measurement.estimatedTokens measurement

def effectiveBudget (budget : Budget) : Json :=
  .obj [(txt "tokens", natJson budget.maxTokens), (txt "bytes", optionalNat budget.maxBytes),
    (txt "token_encoding", .str encodingName)]

/-- The payload with the contract's fields, before the estimate is settled. -/
def withContract (payload : Dict) (budget : Budget) (truncated : Bool) (stopReason : Text) : Dict :=
  dictSet (txt "effective_budget") (effectiveBudget budget)
    (dictSet (txt "estimated_tokens") (natJson 0)
      (dictSet (txt "stop_reason") (.str stopReason)
        (dictSet (txt "truncated") (.bool truncated)
          (dictSet (txt "partial") (.bool truncated)
            (dictSet (txt "complete") (.bool (!truncated)) (dictPop (txt "budget_exceeded") payload))))))

/-- The admission that even this reply does not fit. -/
def withBudgetExceeded (result : Dict) (truncated : Bool) (measurement : BudgetMeasurement) : Dict :=
  let result := dictSet (txt "truncated") (.bool true)
    (dictSet (txt "partial") (.bool true) (dictSet (txt "complete") (.bool false) result))
  let result := if truncated then result
    else dictSet (txt "stop_reason") (.str (txt "response_metadata_exceeds_budget")) result
  dictSet (txt "budget_exceeded") (.obj [(txt "tokens", .bool measurement.exceedsTokenBudget),
    (txt "bytes", .bool measurement.exceedsByteBudget)]) result

def withBudgetMetadata (enc : TokenEncoding) (payload : Dict) (budget : Budget) (truncated : Bool)
    (stopReason : Text) : Except Raised (Dict × BudgetMeasurement) := do
  let result := withContract payload budget truncated stopReason
  let measurement ← measureJsonPayload enc budget result
  let settled ← settleEstimate enc budget 5 result 0 measurement
  if settled.measurement.fits then pure (settled.result, settled.measurement)
  else
    resettleEstimate enc budget 5 (withBudgetExceeded settled.result truncated settled.measurement)
      settled.stored settled.measurement

/-! ## Which replies can be rendered -/

def CleanJson (j : Json) : Prop := ∀ s ∈ strings j, Measurable s

def CleanField (f : Text × Json) : Prop := Measurable f.1 ∧ CleanJson f.2

/-- The fields under keys outside `keys` hold measurable strings only. -/
def CleanExcept (keys : List Text) (d : Dict) : Prop := ∀ f ∈ d, f.1 ∉ keys → CleanField f

theorem stringsOfFields_iff (d : Dict) : (∀ s ∈ stringsOfFields d, Measurable s) ↔ ∀ f ∈ d, CleanField f := by
  induction d with
  | nil => simp [stringsOfFields]
  | cons f d ih =>
    obtain ⟨k, j⟩ := f
    rw [stringsOfFields, List.forall_mem_cons, List.forall_mem_append, List.forall_mem_cons, ih]
    exact and_assoc.symm

theorem stringsOfItems_iff (js : List Json) : (∀ s ∈ stringsOfItems js, Measurable s) ↔ ∀ j ∈ js, CleanJson j := by
  induction js with
  | nil => simp [stringsOfItems]
  | cons j js ih =>
    rw [stringsOfItems, List.forall_mem_append, List.forall_mem_cons, ih]
    exact Iff.rfl

theorem cleanJson_str {t : Text} : CleanJson (.str t) ↔ Measurable t := by simp [CleanJson, strings]

theorem cleanJson_arr {js : List Json} : CleanJson (.arr js) ↔ ∀ j ∈ js, CleanJson j := stringsOfItems_iff js

theorem cleanJson_obj {d : Dict} : CleanJson (.obj d) ↔ ∀ f ∈ d, CleanField f := stringsOfFields_iff d

/-- Values without strings. -/
theorem cleanJson_of_strings_nil {j : Json} (h : strings j = []) : CleanJson j := by simp [CleanJson, h]

theorem measureJsonPayload_returns_iff (enc : TokenEncoding) (budget : Budget) (d : Dict) :
    (∃ m, measureJsonPayload enc budget d = .ok m) ↔ CleanExcept [] d := by
  rw [measureJsonPayload, measure_returns_iff, ResponseBudget.Measurable, (render_spec inStrings_unmeasurable (.obj d)).2, strings]
  refine (stringsOfFields_iff d).trans ?_
  simp [CleanExcept]

theorem measureJsonPayload_returns {enc : TokenEncoding} {budget : Budget} {d : Dict} (h : CleanExcept [] d) :
    Returns (measureJsonPayload enc budget d) fun _ => True := by
  obtain ⟨m, hm⟩ := (measureJsonPayload_returns_iff enc budget d).mpr h
  exact ⟨m, hm, trivial⟩

/-- After `d[k] = v` the object is clean when the new field is and the other fields are. -/
theorem cleanExcept_set {keys : List Text} {k : Text} {v : Json} {d : Dict} (hv : CleanField (k, v)) :
    CleanExcept keys (dictSet k v d) ↔ CleanExcept (k :: keys) d := by
  have hmem : ∀ f ∈ dictSet k v d, f = (k, v) ∨ f ∈ d := by
    intro f hf
    simp only [dictSet] at hf
    split_ifs at hf
    · obtain ⟨g, hg, rfl⟩ := List.mem_map.mp hf
      split_ifs
      · exact Or.inl rfl
      · exact Or.inr hg
    · cases List.mem_append.mp hf with
      | inl hf => exact Or.inr hf
      | inr hf => exact Or.inl (List.mem_singleton.mp hf)
  have hkept : ∀ f ∈ d, f.1 ≠ k → f ∈ dictSet k v d := by
    intro f hf hk
    simp only [dictSet]
    split_ifs
    · exact List.mem_map.mpr ⟨f, hf, if_neg hk⟩
    · exact List.mem_append_left _ hf
  constructor
  · intro h f hf hnot
    simp only [List.mem_cons, not_or] at hnot
    exact h f (hkept f hf hnot.1) hnot.2
  · intro h f hf hnot
    by_cases hk : f = (k, v)
    · rw [hk]
      exact hv
    · have hfd := (hmem f hf).resolve_left hk
      by_cases hkey : f.1 = k
      · -- a field under the replaced key is the new one
        simp only [dictSet] at hf
        split_ifs at hf with hany
        · obtain ⟨g, hg, rfl⟩ := List.mem_map.mp hf
          split_ifs at hk hkey with hgk
          · exact absurd rfl hk
          · exact absurd hkey hgk
        · exact absurd (List.any_eq_true.mpr ⟨f, hfd, decide_eq_true hkey⟩) hany
      · exact h f hfd (by simp [hkey, hnot])

theorem cleanExcept_pop {keys : List Text} {k : Text} {d : Dict} :
    CleanExcept keys (dictPop k d) ↔ CleanExcept (k :: keys) d := by
  simp only [CleanExcept, dictPop, List.mem_filter, decide_eq_true_eq, List.mem_cons, not_or, and_imp]

theorem mem_dictSet_self {k : Text} {v : Json} {d : Dict} : (k, v) ∈ dictSet k v d := by
  simp only [dictSet]
  split_ifs with h
  · obtain ⟨f, hf, hk⟩ := List.any_eq_true.mp h
    exact List.mem_map.mpr ⟨f, hf, if_pos (of_decide_eq_true hk)⟩
  · simp

theorem mem_dictSet_of_ne {k k' : Text} {v v' : Json} {d : Dict} (hk : k' ≠ k) (h : (k', v') ∈ d) :
    (k', v') ∈ dictSet k v d := by
  simp only [dictSet]
  split_ifs
  · exact List.mem_map.mpr ⟨(k', v'), h, if_neg hk⟩
  · exact List.mem_append_left _ h

/-- Texts of the code itself. -/
def isBenign (t : Text) : Bool := t.all fun c => !isSurrogate c && c.val != 0x3C

theorem neverOpens_of_isBenign {t : Text} (h : isBenign t = true) : ∀ c ∈ t, NeverOpens unmeasurable c := by
  intro c hc
  have h := List.all_eq_true.mp h c hc
  simp only [Bool.and_eq_true, Bool.not_eq_true', bne_iff_ne] at h
  exact neverOpens_of h.1 h.2

theorem measurable_of_isBenign {t : Text} (h : isBenign t = true) : Measurable t :=
  NeverOpens.avoids nil_notMem_unmeasurable (neverOpens_of_isBenign h)

theorem cleanField_of {k : Text} {j : Json} (hk : isBenign k = true) (h : CleanJson j) : CleanField (k, j) :=
  ⟨measurable_of_isBenign hk, h⟩

theorem cleanField_of_strings_nil {k : Text} {j : Json} (hk : isBenign k = true) (h : strings j = []) :
    CleanField (k, j) := cleanField_of hk (cleanJson_of_strings_nil h)

theorem cleanField_bool {k : Text} {b : Bool} (hk : isBenign k = true) : CleanField (k, .bool b) :=
  cleanField_of_strings_nil hk rfl

theorem cleanField_benign {k t : Text} (hk : isBenign k = true) (ht : isBenign t = true) :
    CleanField (k, .str t) := cleanField_of hk (cleanJson_str.mpr (measurable_of_isBenign ht))

theorem cleanField_iff {k : Text} {j : Json} (hk : isBenign k = true) : CleanField (k, j) ↔ CleanJson j :=
  and_iff_right (measurable_of_isBenign hk)

theorem cleanField_str_iff {k t : Text} (hk : isBenign k = true) : CleanField (k, .str t) ↔ Measurable t :=
  (cleanField_iff hk).trans cleanJson_str

theorem cleanField_nat {k : Text} {n : ℕ} (hk : isBenign k = true) : CleanField (k, natJson n) :=
  cleanField_of_strings_nil hk rfl

theorem cleanField_int {k : Text} {i : ℤ} (hk : isBenign k = true) : CleanField (k, .int i) :=
  cleanField_of_strings_nil hk rfl

theorem strings_optionalNat (n : Option ℕ+) : strings (optionalNat n) = [] := by cases n <;> rfl

theorem cleanField_effectiveBudget (budget : Budget) :
    CleanField (txt "effective_budget", effectiveBudget budget) := by
  refine cleanField_of (by decide) (cleanJson_obj.mpr ?_)
  simp only [List.forall_mem_cons, List.not_mem_nil, false_implies, implies_true, and_true]
  refine ⟨cleanField_of_strings_nil (by decide) rfl,
    cleanField_of_strings_nil (by decide) (strings_optionalNat _), cleanField_of (by decide) ?_⟩
  exact cleanJson_str.mpr (measurable_of_isBenign (by decide))

/-- The keys that the contract overwrites. -/
def contractKeys : List Text := [txt "budget_exceeded", txt "complete", txt "partial", txt "truncated",
  txt "stop_reason", txt "estimated_tokens", txt "effective_budget"]

/-- A payload that can be rendered: its own fields hold measurable strings. -/
def CleanPayload (payload : Dict) : Prop := CleanExcept contractKeys payload

theorem withContract_clean_iff (payload : Dict) (budget : Budget) (truncated : Bool) (stopReason : Text) :
    CleanExcept [] (withContract payload budget truncated stopReason) ↔
      CleanPayload payload ∧ Measurable stopReason := by
  have hflag : ∀ k b, isBenign k = true → CleanField (k, .bool b) := fun k b hk =>
    cleanField_of_strings_nil hk rfl
  have hreason : CleanExcept [] (withContract payload budget truncated stopReason) → Measurable stopReason := by
    intro h
    have hmem : (txt "stop_reason", Json.str stopReason) ∈ withContract payload budget truncated stopReason := by
      refine mem_dictSet_of_ne (by decide) (mem_dictSet_of_ne (by decide) mem_dictSet_self)
    exact cleanJson_str.mp (h _ hmem (by simp)).2
  refine (and_iff_left_of_imp hreason).symm.trans (and_congr_left fun hr => ?_)
  have hreason : CleanField (txt "stop_reason", .str stopReason) :=
    cleanField_of (by decide) (cleanJson_str.mpr hr)
  rw [withContract, cleanExcept_set (cleanField_effectiveBudget budget),
    cleanExcept_set (cleanField_of_strings_nil (by decide) rfl), cleanExcept_set hreason,
    cleanExcept_set (hflag _ _ (by decide)), cleanExcept_set (hflag _ _ (by decide)),
    cleanExcept_set (hflag _ _ (by decide)), cleanExcept_pop]
  exact Iff.rfl

theorem cleanExcept_mono {keys keys' : List Text} {d : Dict} (hk : ∀ k ∈ keys, k ∈ keys')
    (h : CleanExcept keys d) : CleanExcept keys' d := fun f hf hnot => h f hf fun hm => hnot (hk _ hm)

theorem clean_set {k : Text} {v : Json} {d : Dict} (hv : CleanField (k, v)) (h : CleanExcept [] d) :
    CleanExcept [] (dictSet k v d) := (cleanExcept_set hv).mpr (cleanExcept_mono (by simp) h)

theorem clean_estimate {n : ℕ} {d : Dict} (h : CleanExcept [] d) :
    CleanExcept [] (dictSet (txt "estimated_tokens") (natJson n) d) :=
  clean_set (cleanField_of_strings_nil (by decide) rfl) h

theorem withBudgetExceeded_clean {d : Dict} {truncated : Bool} {m : BudgetMeasurement} (h : CleanExcept [] d) :
    CleanExcept [] (withBudgetExceeded d truncated m) := by
  have hflag : ∀ k b, isBenign k = true → CleanField (k, .bool b) := fun k b hk =>
    cleanField_of_strings_nil hk rfl
  have hexceeded : CleanField (txt "budget_exceeded", .obj [(txt "tokens", .bool m.exceedsTokenBudget),
      (txt "bytes", .bool m.exceedsByteBudget)]) := by
    refine cleanField_of (by decide) (cleanJson_obj.mpr ?_)
    simp only [List.forall_mem_cons, List.not_mem_nil, false_implies, implies_true, and_true]
    exact ⟨hflag _ _ (by decide), hflag _ _ (by decide)⟩
  have hbase := clean_set (hflag (txt "truncated") true (by decide)) (clean_set
    (hflag (txt "partial") true (by decide)) (clean_set (hflag (txt "complete") false (by decide)) h))
  refine clean_set hexceeded ?_
  split_ifs
  · exact hbase
  · refine clean_set (cleanField_of (by decide) (cleanJson_str.mpr ?_)) hbase
    exact measurable_of_isBenign (by decide)

theorem settleEstimate_returns {enc : TokenEncoding} {budget : Budget} (rounds : ℕ) (result : Dict) (stored : ℕ)
    (m : BudgetMeasurement) (h : CleanExcept [] result) :
    Returns (settleEstimate enc budget rounds result stored m) fun r => CleanExcept [] r.result := by
  induction rounds generalizing result stored m with
  | zero => exact returns_pure h
  | succ rounds ih =>
    rw [settleEstimate]
    split_ifs
    · exact returns_pure h
    · have hclean := clean_estimate (n := m.estimatedTokens) h
      apply (measureJsonPayload_returns hclean).bind
      intro updated _
      exact ih _ _ _ hclean

theorem resettleEstimate_returns {enc : TokenEncoding} {budget : Budget} (rounds : ℕ) (result : Dict) (stored : ℕ)
    (m : BudgetMeasurement) (h : CleanExcept [] result) :
    Returns (resettleEstimate enc budget rounds result stored m) fun r => CleanExcept [] r.1 := by
  induction rounds generalizing result stored m with
  | zero => exact returns_pure h
  | succ rounds ih =>
    apply (measureJsonPayload_returns h).bind
    intro updated _
    split_ifs
    · exact returns_pure h
    · exact ih _ _ _ (clean_estimate h)

theorem withBudgetMetadata_returns {enc : TokenEncoding} {payload : Dict} {budget : Budget} {truncated : Bool}
    {stopReason : Text} (h : CleanPayload payload) (hr : Measurable stopReason) :
    Returns (withBudgetMetadata enc payload budget truncated stopReason) fun r => CleanExcept [] r.1 := by
  have hclean := (withContract_clean_iff payload budget truncated stopReason).mpr ⟨h, hr⟩
  apply (measureJsonPayload_returns hclean).bind
  intro m _
  apply (settleEstimate_returns 5 _ 0 m hclean).bind
  intro settled hs
  split_ifs
  · exact returns_pure hs
  · exact resettleEstimate_returns 5 _ settled.stored settled.measurement (withBudgetExceeded_clean hs)

/-- A reply is rendered exactly when its own strings and the stop reason are measurable. -/
theorem withBudgetMetadata_returns_iff (enc : TokenEncoding) (payload : Dict) (budget : Budget) (truncated : Bool)
    (stopReason : Text) : (∃ r, withBudgetMetadata enc payload budget truncated stopReason = .ok r) ↔
      CleanPayload payload ∧ Measurable stopReason := by
  constructor
  · intro h
    obtain ⟨r, hr⟩ := h
    obtain ⟨m, hm, -⟩ := bind_eq_ok.mp hr
    exact (withContract_clean_iff payload budget truncated stopReason).mp
      ((measureJsonPayload_returns_iff enc budget _).mp ⟨m, hm⟩)
  · intro h
    exact (withBudgetMetadata_returns h.1 h.2).isOk

/-! ## What the contract leaves alone -/

/-- `d.get(k)`. -/
def dictGet (k : Text) (d : Dict) : Option Json := (d.find? fun f => decide (f.1 = k)).map Prod.snd

theorem dictGet_dictSet_self (k : Text) (v : Json) (d : Dict) : dictGet k (dictSet k v d) = some v := by
  simp only [dictGet, dictSet]
  split_ifs with h
  · induction d with
    | nil => simp at h
    | cons f d ih =>
      by_cases hf : f.1 = k
      · simp [hf]
      · simp only [List.any_cons, hf, decide_false, Bool.false_or] at h
        simpa [hf] using ih h
  · simp only [List.any_eq_true, decide_eq_true_eq, not_exists, not_and] at h
    have hnone : d.find? (fun f => decide (f.1 = k)) = none :=
      List.find?_eq_none.mpr fun f hf => by simpa using h f hf
    simp [List.find?_append, hnone]

theorem dictGet_dictSet_of_ne {k k' : Text} (hk : k' ≠ k) (v : Json) (d : Dict) :
    dictGet k' (dictSet k v d) = dictGet k' d := by
  simp only [dictGet, dictSet]
  split_ifs with h
  · clear h
    congr 1
    induction d with
    | nil => rfl
    | cons f d ih =>
      by_cases hf : f.1 = k
      · simpa [hf, hk.symm] using ih
      · by_cases hf' : f.1 = k'
        · simp [hf', hk]
        · simpa [hf, hf'] using ih
  · simp [List.find?_append, hk.symm]

theorem dictGet_dictPop_of_ne {k k' : Text} (hk : k' ≠ k) (d : Dict) : dictGet k' (dictPop k d) = dictGet k' d := by
  simp only [dictGet, dictPop]
  congr 1
  induction d with
  | nil => rfl
  | cons f d ih =>
    by_cases hf : f.1 = k
    · simpa [hf, hk.symm] using ih
    · by_cases hf' : f.1 = k'
      · simp [hf', hk]
      · simpa [hf, hf'] using ih

section
variable {k : Text} (hk : k ∉ contractKeys)

include hk

theorem dictGet_set_contract {k' : Text} (hk' : k' ∈ contractKeys) (v : Json) (d : Dict) :
    dictGet k (dictSet k' v d) = dictGet k d := by
  refine dictGet_dictSet_of_ne (fun h => hk ?_) v d
  rwa [h]

theorem dictGet_withContract (payload : Dict) (budget : Budget) (truncated : Bool) (stopReason : Text) :
    dictGet k (withContract payload budget truncated stopReason) = dictGet k payload := by
  have hpop : k ≠ txt "budget_exceeded" := fun h => hk (by rw [h]; decide)
  rw [withContract, dictGet_set_contract hk (by decide), dictGet_set_contract hk (by decide),
    dictGet_set_contract hk (by decide), dictGet_set_contract hk (by decide), dictGet_set_contract hk (by decide),
    dictGet_set_contract hk (by decide), dictGet_dictPop_of_ne hpop]

theorem dictGet_withBudgetExceeded (d : Dict) (truncated : Bool) (m : BudgetMeasurement) :
    dictGet k (withBudgetExceeded d truncated m) = dictGet k d := by
  have hflags : dictGet k (dictSet (txt "truncated") (.bool true) (dictSet (txt "partial") (.bool true)
      (dictSet (txt "complete") (.bool false) d))) = dictGet k d := by
    rw [dictGet_set_contract hk (by decide), dictGet_set_contract hk (by decide),
      dictGet_set_contract hk (by decide)]
  simp only [withBudgetExceeded]
  rw [dictGet_set_contract hk (by decide)]
  split_ifs
  · exact hflags
  · rw [dictGet_set_contract hk (by decide), hflags]

theorem settleEstimate_get {enc : TokenEncoding} {budget : Budget} {rounds : ℕ} {result : Dict} {stored : ℕ}
    {m : BudgetMeasurement} {s : Settled} (h : settleEstimate enc budget rounds result stored m = .ok s) :
    dictGet k s.result = dictGet k result := by
  induction rounds generalizing result stored m with
  | zero =>
    obtain rfl := Except.ok.inj h
    rfl
  | succ rounds ih =>
    rw [settleEstimate] at h
    split_ifs at h
    · obtain rfl := Except.ok.inj h
      rfl
    · obtain ⟨updated, -, h⟩ := bind_eq_ok.mp h
      rw [ih h, dictGet_set_contract hk (by decide)]

theorem resettleEstimate_get {enc : TokenEncoding} {budget : Budget} {rounds : ℕ} {result : Dict} {stored : ℕ}
    {m : BudgetMeasurement} {r : Dict × BudgetMeasurement}
    (h : resettleEstimate enc budget rounds result stored m = .ok r) : dictGet k r.1 = dictGet k result := by
  induction rounds generalizing result stored m with
  | zero =>
    obtain rfl := Except.ok.inj h
    rfl
  | succ rounds ih =>
    obtain ⟨updated, -, h⟩ := bind_eq_ok.mp h
    split_ifs at h
    · obtain rfl := Except.ok.inj h
      rfl
    · rw [ih h, dictGet_set_contract hk (by decide)]

/-- A field outside the contract is carried through as it is. -/
theorem withBudgetMetadata_get {enc : TokenEncoding} {payload : Dict} {budget : Budget} {truncated : Bool}
    {stopReason : Text} {r : Dict × BudgetMeasurement}
    (h : withBudgetMetadata enc payload budget truncated stopReason = .ok r) : dictGet k r.1 = dictGet k payload := by
  obtain ⟨m, -, h⟩ := bind_eq_ok.mp h
  obtain ⟨settled, hs, h⟩ := bind_eq_ok.mp h
  have hsettled := (settleEstimate_get hk hs).trans (dictGet_withContract hk payload budget truncated stopReason)
  split_ifs at h
  · obtain rfl := Except.ok.inj h
    exact hsettled
  · rw [resettleEstimate_get hk h, dictGet_withBudgetExceeded hk, hsettled]

end

/-- A clean payload is returned clean, with its own fields. -/
theorem withBudgetMetadata_keeps {enc : TokenEncoding} {payload : Dict} {budget : Budget} {truncated : Bool}
    {stopReason : Text} (h : CleanPayload payload) (hr : Measurable stopReason) :
    Returns (withBudgetMetadata enc payload budget truncated stopReason) fun r =>
      CleanExcept [] r.1 ∧ ∀ k ∉ contractKeys, dictGet k r.1 = dictGet k payload := by
  have hret : Returns (withBudgetMetadata enc payload budget truncated stopReason) fun r => CleanExcept [] r.1 :=
    withBudgetMetadata_returns h hr
  obtain ⟨r, hok, hclean⟩ := hret
  exact ⟨r, hok, hclean, fun k hk => withBudgetMetadata_get hk hok⟩

end WebOauthMcp.BudgetMetadata
