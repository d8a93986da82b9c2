import WebOauthMcp.CapturedOutput

/-!
# The token ceiling of command output

The rendering of captured output for an arbitrary token counter, which may refuse a text. Nothing
is assumed of the counts but that the empty text has none: cutting a text may make its count
grow, and two texts in a row may count more than both alone.
-/

namespace WebOauthMcp.OutputCeiling
open CodePoints LineSplitting Utf8Units AvoidedWords ExceptSteps ResponseBudget CapturedOutput

abbrev TokenCounter := Text → Except Raised ℕ

/-! ## Rendering with a counter -/

def measureWith (count : TokenCounter) (budget : Budget) (text : Text) : Except Raised BudgetMeasurement :=
  match encodeUtf8 text with
  | none => .error .unicodeEncodeError
  | some bytes => do
    let estimatedTokens ← count text
    pure {
      renderedBytes := bytes.length
      estimatedTokens := estimatedTokens
      exceedsByteBudget := exceedsBytes budget.maxBytes bytes.length
      exceedsTokenBudget := decide ((budget.maxTokens : ℕ) < estimatedTokens) }

def firstFittingWith (count : TokenCounter) (maxTokens : ℕ) : List Text → Except Raised Text
  | [] => pure []
  | marker :: markers => do
    let tokens ← count marker
    if tokens ≤ maxTokens then pure marker else firstFittingWith count maxTokens markers

def searchKeptWith (count : TokenCounter) (budget : Budget) (text marker : Text) (low high : ℕ) : Except Raised ℕ :=
  if low < high then do
    let measurement ← measureWith count budget (candidate text marker ((low + high + 1) / 2))
    if measurement.fits then searchKeptWith count budget text marker ((low + high + 1) / 2) high
    else searchKeptWith count budget text marker low ((low + high + 1) / 2 - 1)
  else pure low
termination_by high - low

/-- `_truncate_text_to_tokens`. -/
def truncateWith (count : TokenCounter) (text : Text) (maxTokens : ℕ) : Except Raised Cut :=
  if text = [] then pure ⟨[], false⟩
  else if h : 0 < maxTokens then do
    let budget : Budget := { maxTokens := ⟨maxTokens, h⟩ }
    let whole ← measureWith count budget text
    if whole.fits then pure ⟨text, false⟩
    else do
      let marker ← firstFittingWith count maxTokens omissionMarkers
      let kept ← searchKeptWith count budget text marker 0 (text.length - 1)
      let rendered ← measureWith count budget (candidate text marker kept)
      if rendered.fits then pure ⟨candidate text marker kept, true⟩
      else do
        let bare ← measureWith count budget marker
        pure ⟨if bare.fits then marker else [], true⟩
  else pure ⟨[], true⟩

def largerStreamWith (count : TokenCounter) (r : Rendering) : Except Raised Stream := do
  let out ← count (r.rendered .stdout)
  let err ← count (r.rendered .stderr)
  pure (if out < err then .stderr else .stdout)

def tightenWith (count : TokenCounter) (budget : Budget) (initial : Stream → Text) : ℕ → Rendering → Except Raised Rendering
  | 0, r => do
    let stream ← largerStreamWith count r
    pure (r.set stream 0 ⟨[], !(initial stream).isEmpty⟩)
  | rounds + 1, r => do
    let combined ← measureWith count budget r.combined
    if combined.fits then pure r
    else do
      let stream ← largerStreamWith count r
      let allocation := r.allocations stream - max 1 (combined.estimatedTokens - budget.maxTokens)
      let cut ← truncateWith count (initial stream) allocation
      tightenWith count budget initial rounds (r.set stream allocation cut)

def fitStreamsWith (count : TokenCounter) (budget : Budget) (initial : Stream → Text) : Except Raised Rendering := do
  let needsOut ← count (initial .stdout)
  let needsErr ← count (initial .stderr)
  let allocations := allocateStreamTokenBudgets
    (fun s => match s with | .stdout => needsOut | .stderr => needsErr) budget.maxTokens
  let out ← truncateWith count (initial .stdout) (allocations .stdout)
  let err ← truncateWith count (initial .stderr) (allocations .stderr)
  let start : Rendering := ⟨initial, allocations, fun _ => false⟩
  tightenWith count budget initial 8 ((start.set .stdout (allocations .stdout) out).set .stderr (allocations .stderr) err)

def shownStreamsWith (count : TokenCounter) (budget : Budget) (whole : Rendering) (fits : Bool)
    (oversized : Option Stream) : Except Raised Rendering :=
  if fits || oversized.isSome then pure whole else fitStreamsWith count budget whole.rendered

/-- `_render_captured_output`, with any counter in the place of the tokenizer. -/
def renderWith (count : TokenCounter) (captures : Stream → StreamCapture) (maxTokens : ℕ+) (captureMaxBytes : ℕ) :
    Except Raised RenderedOutput := do
  let budget : Budget := { maxTokens }
  let whole : Rendering := ⟨fun s => captureText (captures s) s, fun _ => maxTokens, fun _ => false⟩
  let combined ← measureWith count budget whole.combined
  let oversized := if combined.fits then none else oversizedStream captures
  let r ← shownStreamsWith count budget whole combined.fits oversized
  let out ← measureWith count budget (r.rendered .stdout)
  let err ← measureWith count budget (r.rendered .stderr)
  let displayed ← measureWith count budget r.combined
  let outMetadata := streamMetadata (captures .stdout) r .stdout oversized out
  let errMetadata := streamMetadata (captures .stderr) r .stderr oversized err
  pure {
    stdout := r.rendered .stdout
    stderr := r.rendered .stderr
    stdoutMetadata := outMetadata
    stderrMetadata := errMetadata
    aggregate := aggregateMetadata captures r budget captureMaxBytes oversized outMetadata errMetadata displayed }

/-! ## The tokenizer is such a counter -/

theorem measure_eq (enc : TokenEncoding) (budget : Budget) (text : Text) :
    measure enc budget text = measureWith (countTokens enc) budget text := rfl

theorem firstFitting_eq (enc : TokenEncoding) (maxTokens : ℕ) (markers : List Text) :
    firstFitting enc maxTokens markers = firstFittingWith (countTokens enc) maxTokens markers := by
  induction markers with
  | nil => rfl
  | cons marker markers ih => rw [firstFitting, firstFittingWith, ih]

theorem searchKept_eq (enc : TokenEncoding) (budget : Budget) (text marker : Text) (low high : ℕ) :
    searchKept enc budget text marker low high = searchKeptWith (countTokens enc) budget text marker low high := by
  induction low, high using searchKept.induct with
  | case1 low high hlt ihlow ihhigh =>
    rw [searchKept, searchKeptWith, if_pos hlt, if_pos hlt]
    simp only [measure_eq, ihlow, ihhigh]
  | case2 low high hlt => rw [searchKept, searchKeptWith, if_neg hlt, if_neg hlt]

theorem truncateTextToTokens_eq (enc : TokenEncoding) (text : Text) (maxTokens : ℕ) :
    truncateTextToTokens enc text maxTokens = truncateWith (countTokens enc) text maxTokens := by
  simp only [truncateTextToTokens, truncateWith, tokenOmissionMarker, measure_eq, firstFitting_eq, searchKept_eq]

theorem tighten_eq (enc : TokenEncoding) (budget : Budget) (initial : Stream → Text) (rounds : ℕ) (r : Rendering) :
    tighten enc budget initial rounds r = tightenWith (countTokens enc) budget initial rounds r := by
  induction rounds generalizing r with
  | zero => rfl
  | succ rounds ih => simp only [tighten, tightenWith, largerStream, largerStreamWith, measure_eq, truncateTextToTokens_eq, ih]

theorem fitStreams_eq (enc : TokenEncoding) (budget : Budget) (initial : Stream → Text) :
    fitStreams enc budget initial = fitStreamsWith (countTokens enc) budget initial := by
  simp only [fitStreams, truncateTextToTokens_eq, tighten_eq]
  rfl

theorem renderCapturedOutput_eq (enc : TokenEncoding) (captures : Stream → StreamCapture) (maxTokens : ℕ+)
    (captureMaxBytes : ℕ) : renderCapturedOutput enc captures maxTokens captureMaxBytes =
      renderWith (countTokens enc) captures maxTokens captureMaxBytes := by
  simp only [renderCapturedOutput, renderWith, shownStreams, shownStreamsWith, fitStreams_eq, measure_eq]

/-! ## Shares of the budget -/

/-- No stream is given more than there is. -/
theorem allocateBudgets_le {K : Type} [DecidableEq K] (nameLe : K → K → Bool) (needs : K → ℕ) (pending : List K)
    (remaining : ℕ) (allocations : K → ℕ) {bound : ℕ} (hremaining : remaining ≤ bound) (h : ∀ k, allocations k ≤ bound)
    (k : K) : allocateBudgets nameLe needs pending remaining allocations k ≤ bound := by
  induction hlength : pending.length using Nat.strong_induction_on generalizing pending remaining allocations with
  | _ size ih =>
    rw [allocateBudgets]
    by_cases hnil : pending = []
    · rw [if_pos hnil]
      exact h k
    rw [if_neg hnil]
    dsimp only
    by_cases hnone : (unserved needs (remaining / pending.length) pending).length = pending.length
    · have hshare : ∀ i, remaining / pending.length + (if i < remaining % (pending.mergeSort nameLe).length then 1 else 0) ≤ bound := by
        intro i
        have hdiv := Nat.div_add_mod remaining pending.length
        have hpos : 1 ≤ pending.length := List.length_pos_iff.mpr hnil
        have hmul := Nat.le_mul_of_pos_left (remaining / pending.length) hpos
        rw [List.length_mergeSort]
        split_ifs <;> omega
      rw [if_pos hnone]
      cases (pending.mergeSort nameLe).idxOf? k with
      | none => exact h k
      | some i => exact hshare i
    · have hshorter : (unserved needs (remaining / pending.length) pending).length < size := by
        rw [← hlength]
        exact Nat.lt_of_le_of_ne (List.length_filter_le _ pending) hnone
      rw [if_neg hnone]
      refine ih _ hshorter _ _ _ ((Nat.sub_le _ _).trans hremaining) (fun j => ?_) rfl
      split_ifs with hserved
      · exact (hserved.2.trans (Nat.div_le_self _ _)).trans hremaining
      · exact h j

theorem allocateStreamTokenBudgets_le (needs : Stream → ℕ) (maxTokens : ℕ) (s : Stream) :
    allocateStreamTokenBudgets needs maxTokens s ≤ maxTokens :=
  allocateBudgets_le _ needs _ _ _ (Nat.le_refl maxTokens) (fun _ => Nat.zero_le _) s

/-! ## What one text is cut to -/

/-- The counter gives every text a number. -/
def Total (count : TokenCounter) : Prop := ∀ text, ∃ n, count text = .ok n

section
variable {count : TokenCounter} {budget : Budget} {text marker : Text}

theorem count_meets (count : TokenCounter) (text : Text) : Meets (Total count) (count text) fun n => count text = .ok n :=
  ⟨fun _ hn => hn, fun h => h text⟩

theorem measureWith_meets (htext : isEncodable text = true) : Meets (Total count) (measureWith count budget text) fun m =>
    count text = .ok m.estimatedTokens ∧ (budget.maxBytes = none → (m.fits = true ↔ m.estimatedTokens ≤ budget.maxTokens)) := by
  rw [measureWith, encodeUtf8, if_pos htext]
  apply (count_meets count text).bind
  intro n hn
  refine meets_pure ⟨hn, fun hbytes => ?_⟩
  rw [hbytes]
  simp [BudgetMeasurement.fits, exceedsBytes]

def Fits (count : TokenCounter) (n : ℕ) (text : Text) : Prop := ∃ k ≤ n, count text = .ok k

theorem fits_of_measure {m : BudgetMeasurement} (hbytes : budget.maxBytes = none) (hfits : m.fits = true)
    (h : count text = .ok m.estimatedTokens ∧ (budget.maxBytes = none → (m.fits = true ↔ m.estimatedTokens ≤ budget.maxTokens))) :
    Fits count budget.maxTokens text := ⟨m.estimatedTokens, (h.2 hbytes).mp hfits, h.1⟩

theorem encodable_omissionMarkers : ∀ m ∈ omissionMarkers, isEncodable m = true := by decide

theorem firstFittingWith_meets (count : TokenCounter) (n : ℕ) {markers : List Text} (h : ∀ m ∈ markers, isEncodable m = true) :
    Meets (Total count) (firstFittingWith count n markers) fun m => isEncodable m = true := by
  induction markers with
  | nil => exact meets_pure rfl
  | cons marker markers ih =>
    obtain ⟨hmarker, hmarkers⟩ := List.forall_mem_cons.mp h
    apply (count_meets count marker).bind
    intro tokens _
    split_ifs
    · exact meets_pure hmarker
    · exact ih hmarkers

theorem encodable_candidate (htext : isEncodable text = true) (hmarker : isEncodable marker = true) (kept : ℕ) :
    isEncodable (candidate text marker kept) = true := by
  have hhead : isEncodable (text.take ((kept + 1) / 2)) = true :=
    isEncodable_sublist (fun _ hc => List.mem_of_mem_take hc) htext
  have htail : isEncodable (text.drop (text.length - kept / 2)) = true :=
    isEncodable_sublist (fun _ hc => List.mem_of_mem_drop hc) htext
  rw [candidate, isEncodable_append, isEncodable_append, hhead, hmarker, htail]
  rfl

theorem searchKeptWith_meets (htext : isEncodable text = true) (hmarker : isEncodable marker = true) (low high : ℕ) :
    Meets (Total count) (searchKeptWith count budget text marker low high) fun _ => True := by
  induction low, high using searchKept.induct with
  | case1 low high hlt ihlow ihhigh =>
    rw [searchKeptWith, if_pos hlt]
    apply (measureWith_meets (encodable_candidate htext hmarker _)).bind
    intro m _
    split_ifs
    · exact ihlow
    · exact ihhigh
  | case2 low high hlt =>
    rw [searchKeptWith, if_neg hlt]
    exact meets_pure trivial

/-- A text cut to `n` tokens. -/
structure CutTo (count : TokenCounter) (n : ℕ) (text : Text) (cut : Cut) : Prop where
  fits : Fits count n cut.text
  unchanged : cut.truncated = false → cut.text = text
  encodable : isEncodable cut.text = true

theorem truncateWith_meets (hempty : count [] = .ok 0) (htext : isEncodable text = true) (n : ℕ) :
    Meets (Total count) (truncateWith count text n) (CutTo count n text) := by
  have hnothing : ∀ {truncated : Bool}, (truncated = false → [] = text) → CutTo count n text ⟨[], truncated⟩ :=
    fun h => ⟨⟨0, Nat.zero_le n, hempty⟩, h, rfl⟩
  rw [truncateWith]
  split_ifs with hnil hpos
  · exact meets_pure (hnothing fun _ => hnil.symm)
  · apply (measureWith_meets htext).bind
    intro whole hwhole
    split_ifs with hfits
    · exact meets_pure ⟨fits_of_measure rfl hfits hwhole, fun _ => rfl, htext⟩
    apply (firstFittingWith_meets count n encodable_omissionMarkers).bind
    intro marker hmarker
    apply (searchKeptWith_meets htext hmarker 0 (text.length - 1)).bind
    intro kept _
    have hcandidate := encodable_candidate htext hmarker kept
    apply (measureWith_meets hcandidate).bind
    intro rendered hrendered
    split_ifs with hrest
    · exact meets_pure ⟨fits_of_measure rfl hrest hrendered, by simp, hcandidate⟩
    apply (measureWith_meets hmarker).bind
    intro bare hbare
    refine meets_pure ?_
    cases hlast : bare.fits with
    | true => exact ⟨fits_of_measure rfl hlast hbare, by simp, hmarker⟩
    | false => exact hnothing (by simp)
  · exact meets_pure (hnothing (by simp))

/-! ## Both streams -/

/-- Each stream is within its share and flagged if it was changed. -/
structure Held (count : TokenCounter) (maxTokens : ℕ) (initial : Stream → Text) (r : Rendering) : Prop where
  fits : ∀ s, Fits count maxTokens (r.rendered s)
  unchanged : ∀ s, r.budgetTruncated s = false → r.rendered s = initial s
  encodable : ∀ s, isEncodable (r.rendered s) = true
  allocated : ∀ s, r.allocations s ≤ maxTokens

variable {initial : Stream → Text} {r : Rendering} {maxTokens : ℕ}

theorem Fits.mono {n : ℕ} (h : Fits count n text) (hn : n ≤ maxTokens) : Fits count maxTokens text := by
  obtain ⟨k, hk, hcount⟩ := h
  exact ⟨k, hk.trans hn, hcount⟩

theorem Held.set (h : Held count maxTokens initial r) {stream : Stream} {allocation : ℕ} (hallocation : allocation ≤ maxTokens)
    {cut : Cut} (hcut : CutTo count allocation (initial stream) cut) :
    Held count maxTokens initial (r.set stream allocation cut) := by
  constructor <;> intro s <;> by_cases hs : s = stream
  · subst hs
    simpa [Rendering.set] using hcut.fits.mono hallocation
  · simpa [Rendering.set, hs] using h.fits s
  · subst hs
    simpa [Rendering.set] using hcut.unchanged
  · simpa [Rendering.set, hs] using h.unchanged s
  · subst hs
    simpa [Rendering.set] using hcut.encodable
  · simpa [Rendering.set, hs] using h.encodable s
  · subst hs
    simpa [Rendering.set] using hallocation
  · simpa [Rendering.set, hs] using h.allocated s

theorem Held.encodable_combined (h : Held count maxTokens initial r) : isEncodable r.combined = true := by
  rw [Rendering.combined, isEncodable_append, h.encodable, h.encodable]
  rfl

/-- A stream that is dropped leaves the other one alone. -/
theorem Held.combined_drop (h : Held count maxTokens initial r) (stream : Stream) (cut : Cut) (hcut : cut.text = []) :
    Fits count maxTokens (r.set stream 0 cut).combined := by
  cases stream with
  | stdout => simpa [Rendering.set, Rendering.combined, hcut] using h.fits .stderr
  | stderr => simpa [Rendering.set, Rendering.combined, hcut] using h.fits .stdout

theorem largerStreamWith_meets (count : TokenCounter) (r : Rendering) :
    Meets (Total count) (largerStreamWith count r) fun _ => True := by
  apply (count_meets count (r.rendered .stdout)).bind
  intro out _
  apply (count_meets count (r.rendered .stderr)).bind
  intro err _
  exact meets_pure trivial

theorem tightenWith_meets (hempty : count [] = .ok 0) (hbytes : budget.maxBytes = none)
    (hinitial : ∀ s, isEncodable (initial s) = true) (rounds : ℕ) (h : Held count budget.maxTokens initial r) :
    Meets (Total count) (tightenWith count budget initial rounds r) fun r' =>
      Held count budget.maxTokens initial r' ∧ Fits count budget.maxTokens r'.combined := by
  induction rounds generalizing r with
  | zero =>
    apply (largerStreamWith_meets count r).bind
    intro stream _
    have hcut : CutTo count 0 (initial stream) ⟨[], !(initial stream).isEmpty⟩ :=
      ⟨⟨0, Nat.le_refl 0, hempty⟩, fun hflag => (by simpa using hflag.symm), rfl⟩
    exact meets_pure ⟨h.set (Nat.zero_le _) hcut, h.combined_drop stream _ rfl⟩
  | succ rounds ih =>
    apply (measureWith_meets h.encodable_combined).bind
    intro combined hcombined
    split_ifs with hfits
    · exact meets_pure ⟨h, fits_of_measure hbytes hfits hcombined⟩
    apply (largerStreamWith_meets count r).bind
    intro stream _
    apply (truncateWith_meets hempty (hinitial stream) _).bind
    intro cut hcut
    exact ih (h.set ((Nat.sub_le _ _).trans (h.allocated stream)) hcut)

theorem fitStreamsWith_meets (hempty : count [] = .ok 0) (hbytes : budget.maxBytes = none)
    (hinitial : ∀ s, isEncodable (initial s) = true) :
    Meets (Total count) (fitStreamsWith count budget initial) fun r =>
      Held count budget.maxTokens initial r ∧ Fits count budget.maxTokens r.combined := by
  apply (count_meets count (initial .stdout)).bind
  intro needsOut _
  apply (count_meets count (initial .stderr)).bind
  intro needsErr _
  have hallocated := allocateStreamTokenBudgets_le
    (fun s => match s with | .stdout => needsOut | .stderr => needsErr) budget.maxTokens
  apply (truncateWith_meets hempty (hinitial .stdout) _).bind
  intro out hout
  apply (truncateWith_meets hempty (hinitial .stderr) _).bind
  intro err herr
  refine tightenWith_meets hempty hbytes hinitial 8 ⟨?_, ?_, ?_, ?_⟩
  · intro s
    cases s with
    | stdout => exact hout.fits.mono (hallocated .stdout)
    | stderr => exact herr.fits.mono (hallocated .stderr)
  · intro s
    cases s with
    | stdout => exact hout.unchanged
    | stderr => exact herr.unchanged
  · intro s
    cases s with
    | stdout => exact hout.encodable
    | stderr => exact herr.encodable
  · intro s
    cases s with
    | stdout => exact hallocated .stdout
    | stderr => exact hallocated .stderr

end

/-! ## The reply -/

def textOf (out : RenderedOutput) : Stream → Text
  | .stdout => out.stdout
  | .stderr => out.stderr

def metadataOf (out : RenderedOutput) : Stream → StreamMetadata
  | .stdout => out.stdoutMetadata
  | .stderr => out.stderrMetadata

/-- All the output is one line of one stream, and nothing of it was dropped. -/
def OneLine (captures : Stream → StreamCapture) (s : Stream) : Prop :=
  activeStreams captures = [s] ∧ (captures s).droppedBytes = 0 ∧ (captures s).totalLines = 1

/-- The output is within the ceiling, and what was changed is flagged. -/
structure UnderCeiling (count : TokenCounter) (captures : Stream → StreamCapture) (maxTokens : ℕ+) (out : RenderedOutput) :
    Prop where
  fits : Fits count maxTokens (out.stdout ++ out.stderr) ∨
    ∃ s, out.aggregate.oversizedStream = some s ∧ OneLine captures s
  cut_flagged : ∀ s, (metadataOf out s).tokenTruncated = false → textOf out s = captureText (captures s) s
  unchanged : ∀ s, (metadataOf out s).truncated = false →
    textOf out s = decodeReplace ((captures s).head ++ (captures s).tail)
  changed_flagged : ∀ s, textOf out s ≠ decodeReplace ((captures s).head ++ (captures s).tail) →
    (metadataOf out s).truncated = true

variable {count : TokenCounter} {captures : Stream → StreamCapture} {maxTokens : ℕ+} {captureMaxBytes : ℕ}

theorem captureMarker_encodable (stream : Stream) (n : ℕ) : isEncodable (captureMarker stream n) = true := by
  have hgap := (avoids_gap_iff (a := []) (b := []) nil_notMem_unmeasurable (isGap_captureMarker stream n)).mpr
    ⟨avoids_nil nil_notMem_unmeasurable, avoids_nil nil_notMem_unmeasurable⟩
  rw [List.nil_append, List.append_nil] at hgap
  exact ((measurable_iff _).mp hgap).1

theorem captureText_encodable (captures : Stream → StreamCapture) (s : Stream) :
    isEncodable (captureText (captures s) s) = true := by
  rw [captureText]
  split_ifs
  · exact isEncodable_decodeReplace _
  · rw [isEncodable_append, isEncodable_append, isEncodable_decodeReplace, isEncodable_decodeReplace,
      captureMarker_encodable]
    rfl

theorem oneLine_of_oversized {s : Stream} (h : oversizedStream captures = some s) : OneLine captures s := by
  rw [oversizedStream] at h
  split at h
  · next t hactive =>
    split_ifs at h with hone
    obtain rfl := Option.some.inj h
    exact ⟨hactive, hone⟩
  · cases h

/-- What is shown: both streams whole, because they fit or are one line, or both cut. -/
structure Shown (count : TokenCounter) (captures : Stream → StreamCapture) (maxTokens : ℕ) (oversized : Option Stream)
    (r : Rendering) : Prop where
  unchanged : ∀ s, r.budgetTruncated s = false → r.rendered s = captureText (captures s) s
  encodable : ∀ s, isEncodable (r.rendered s) = true
  fits : Fits count maxTokens r.combined ∨ ∃ s, oversized = some s ∧ OneLine captures s

theorem Shown.combined_encodable {oversized : Option Stream} {r : Rendering} {n : ℕ} (h : Shown count captures n oversized r) :
    isEncodable r.combined = true := by
  rw [Rendering.combined, isEncodable_append, h.encodable, h.encodable]
  rfl

theorem shownStreamsWith_meets (hempty : count [] = .ok 0) {budget : Budget} (hbytes : budget.maxBytes = none) {fits : Bool}
    {whole : Rendering} (hwhole : ∀ s, whole.rendered s = captureText (captures s) s)
    (hfits : fits = true → Fits count budget.maxTokens whole.combined) :
    Meets (Total count) (shownStreamsWith count budget whole fits (if fits then none else oversizedStream captures))
      (Shown count captures budget.maxTokens (if fits then none else oversizedStream captures)) := by
  have hencodable : ∀ s, isEncodable (whole.rendered s) = true := fun s => by
    rw [hwhole]
    exact captureText_encodable captures s
  cases fits with
  | true => exact meets_pure ⟨fun s _ => hwhole s, hencodable, .inl (hfits rfl)⟩
  | false =>
    cases hone : oversizedStream captures with
    | some s =>
      have hline := oneLine_of_oversized hone
      exact meets_pure ⟨fun s _ => hwhole s, hencodable, .inr ⟨s, rfl, hline⟩⟩
    | none =>
      refine (fitStreamsWith_meets hempty hbytes hencodable).mono fun r hr => ?_
      exact ⟨fun s hs => (hr.1.unchanged s hs).trans (hwhole s), hr.1.encodable, .inl hr.2⟩

theorem renderWith_meets (hempty : count [] = .ok 0) : Meets (Total count) (renderWith count captures maxTokens captureMaxBytes)
    (UnderCeiling count captures maxTokens) := by
  have hcombined : isEncodable (captureText (captures .stdout) .stdout ++ captureText (captures .stderr) .stderr) = true := by
    rw [isEncodable_append, captureText_encodable, captureText_encodable]
    rfl
  apply (measureWith_meets hcombined).bind
  intro combined hwhole
  have hfits : combined.fits = true → Fits count maxTokens
      (captureText (captures .stdout) .stdout ++ captureText (captures .stderr) .stderr) :=
    fun hfits => fits_of_measure rfl hfits hwhole
  have hshown : Meets (Total count) (shownStreamsWith count { maxTokens }
      ⟨fun s => captureText (captures s) s, fun _ => maxTokens, fun _ => false⟩ combined.fits
      (if combined.fits then none else oversizedStream captures))
      (Shown count captures maxTokens (if combined.fits then none else oversizedStream captures)) :=
    shownStreamsWith_meets hempty rfl (fun s => rfl) hfits
  apply hshown.bind
  intro r hr
  apply (measureWith_meets (hr.encodable .stdout)).bind
  intro out _
  apply (measureWith_meets (hr.encodable .stderr)).bind
  intro err _
  apply (measureWith_meets hr.combined_encodable).bind
  intro displayed _
  have hcut : ∀ s, r.budgetTruncated s = false → r.rendered s = captureText (captures s) s := hr.unchanged
  have hsame : ∀ s, (decide (0 < (captures s).droppedBytes) || r.budgetTruncated s) = false →
      r.rendered s = decodeReplace ((captures s).head ++ (captures s).tail) := by
    intro s hs
    obtain ⟨hdropped, htruncated⟩ := Bool.or_eq_false_iff.mp hs
    have hnone : (captures s).droppedBytes = 0 := Nat.eq_zero_of_not_pos (of_decide_eq_false hdropped)
    rw [hcut s htruncated, captureText, if_pos hnone]
  refine meets_pure ⟨hr.fits, ?_, ?_, ?_⟩
  · intro s
    cases s with
    | stdout => exact hcut .stdout
    | stderr => exact hcut .stderr
  · intro s
    cases s with
    | stdout => exact hsame .stdout
    | stderr => exact hsame .stderr
  · intro s
    cases s with
    | stdout => exact fun hne => Bool.not_eq_false _ |>.mp fun hflag => hne (hsame .stdout hflag)
    | stderr => exact fun hne => Bool.not_eq_false _ |>.mp fun hflag => hne (hsame .stderr hflag)

/-- For every counter that gives the empty text no tokens: what is returned is under the ceiling,
and a counter that gives every text a number always gets something returned. -/
theorem output_under_ceiling (count : TokenCounter) (hempty : count [] = .ok 0) (captures : Stream → StreamCapture)
    (maxTokens : ℕ+) (captureMaxBytes : ℕ) :
    (∀ out, renderWith count captures maxTokens captureMaxBytes = .ok out → UnderCeiling count captures maxTokens out) ∧
      (Total count → ∃ out, renderWith count captures maxTokens captureMaxBytes = .ok out) :=
  ⟨(renderWith_meets hempty).sound, (renderWith_meets hempty).returns⟩

/-- A counter that is not additive: a text of more than two characters counts double. -/
def bulky : TokenCounter := fun text => .ok (if text.length ≤ 2 then text.length else 2 * text.length)

def shortStreams : Stream → StreamCapture := fun s => StreamCapture.drain 8 (match s with
  | .stdout => [[0x61, 0x0A], [0x62]]
  | .stderr => [[0x63, 0x64]])

theorem zero_lt_three : 0 < 3 := by decide

def threeTokens : ℕ+ := ⟨3, zero_lt_three⟩

theorem output_under_ceiling_bulky : ∃ out, renderWith bulky shortStreams threeTokens 8 = .ok out ∧
    UnderCeiling bulky shortStreams threeTokens out := by
  have hceiling := output_under_ceiling bulky rfl shortStreams threeTokens 8
  obtain ⟨out, hout⟩ := hceiling.2 fun text => ⟨_, rfl⟩
  exact ⟨out, hout, hceiling.1 out hout⟩

end WebOauthMcp.OutputCeiling
