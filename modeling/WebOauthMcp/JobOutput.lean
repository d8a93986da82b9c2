import Mathlib.Algebra.GroupWithZero.Nat
import WebOauthMcp.TokenOctets

/-!
# Pages of a job's log

One page reads a chunk of the log from a cursor, decodes it unit by unit, keeps an
incomplete trailing unit for the next page unless the log ends there, and takes as many
units as the token budget admits, at least one.
-/

namespace WebOauthMcp.JobOutput
open CodePoints Utf8Units AvoidedWords ExceptSteps ResponseBudget TokenOctets

/-- `MAX_JOB_OUTPUT_BYTES`. -/
def maxJobOutputBytes : ℕ := 262144

/-- One unit of a log: its octets, the text they stand for, and whether it is a replacement. -/
structure JobUnit where
  raw : Bytes
  text : Text
  replacement : Bool
  deriving DecidableEq

def utf8ExpectedLength (first : Byte) : Option ℕ :=
  if first.val ≤ 0x7F then some 1
  else if 0xC2 ≤ first.val ∧ first.val ≤ 0xDF then some 2
  else if 0xE0 ≤ first.val ∧ first.val ≤ 0xEF then some 3
  else if 0xF0 ≤ first.val ∧ first.val ≤ 0xF4 then some 4
  else none

/-- `_utf8_prefix_is_valid` on what follows `start`. -/
def utf8StartIsValid (data : Bytes) (expected : ℕ) : Bool :=
  let available := min expected data.length
  match data with
  | first :: second :: rest =>
    if available ≤ 1 then true
    else if first.val = 0xE0 ∧ ¬(0xA0 ≤ second.val ∧ second.val ≤ 0xBF) then false
    else if first.val = 0xED ∧ ¬(0x80 ≤ second.val ∧ second.val ≤ 0x9F) then false
    else if first.val = 0xF0 ∧ ¬(0x90 ≤ second.val ∧ second.val ≤ 0xBF) then false
    else if first.val = 0xF4 ∧ ¬(0x80 ≤ second.val ∧ second.val ≤ 0x8F) then false
    else if ¬(first.val = 0xE0 ∨ first.val = 0xED ∨ first.val = 0xF0 ∨ first.val = 0xF4) ∧
      ¬(0x80 ≤ second.val ∧ second.val ≤ 0xBF) then false
    else (rest.take (available - 2)).all isContinuation
  | _ => true

/-- `raw.decode("utf-8")`. -/
def decodeStrict (raw : Bytes) : Except Raised Text :=
  match decodeUtf8 raw with
  | none => .error .unicodeDecodeError
  | some text => .ok text

def replacementUnit (first : Byte) : JobUnit := ⟨[first], [replacementCharacter], true⟩

/-- The unit at the front of the data; `none` when it has to wait for more. -/
def nextUnit (final : Bool) (first : Byte) (rest : Bytes) : Except Raised (Option JobUnit) :=
  match utf8ExpectedLength first with
  | none => pure (some (replacementUnit first))
  | some expected =>
    if (first :: rest).length < expected then
      if utf8StartIsValid (first :: rest) expected && !final then pure none
      else pure (some (replacementUnit first))
    else if !utf8StartIsValid (first :: rest) expected then pure (some (replacementUnit first))
    else do
      let text ← decodeStrict ((first :: rest).take expected)
      pure (some ⟨(first :: rest).take expected, text, false⟩)

structure DecodedUnits where
  units : List JobUnit
  incompleteTrailingBytes : ℕ

/-- `_decode_utf8_units`. -/
def decodeUtf8Units (final : Bool) (data : Bytes) : Except Raised DecodedUnits :=
  match data with
  | [] => pure ⟨[], 0⟩
  | first :: rest => do
    match ← nextUnit final first rest with
    | none => pure ⟨[], (first :: rest).length⟩
    | some unit =>
      let later ← decodeUtf8Units final (rest.drop (unit.raw.length - 1))
      pure ⟨unit :: later.units, later.incompleteTrailingBytes⟩
termination_by data.length
decreasing_by
  simp only [List.length_drop, List.length_cons]
  omega

/-! ## Rendering a page -/

structure PageState where
  rendered : List Text
  bytesReturned : ℕ
  replacementCount : ℕ
  measurement : BudgetMeasurement
  oversizedUnit : Bool
  tokenTruncated : Bool

def PageState.take (s : PageState) (unit : JobUnit) (measurement : BudgetMeasurement) : PageState :=
  { s with
    rendered := s.rendered ++ [unit.text]
    bytesReturned := s.bytesReturned + unit.raw.length
    replacementCount := s.replacementCount + unit.replacement.toNat
    measurement := measurement }

/-- The loop over the units of a page. -/
def takeUnits (enc : TokenEncoding) (budget : Budget) : List JobUnit → PageState → Except Raised PageState
  | [], s => pure s
  | unit :: units, s => do
    let measurement ← measure enc budget (s.rendered ++ [unit.text]).flatten
    if measurement.fits then takeUnits enc budget units (s.take unit measurement)
    else if s.rendered = [] then
      pure { s.take unit measurement with oversizedUnit := true, tokenTruncated := true }
    else pure { s with tokenTruncated := true }

structure RenderedPage where
  content : Text
  bytesReturned : ℕ
  estimatedTokens : ℕ
  replacementCount : ℕ
  incompleteTrailingBytes : ℕ
  nextUnitBytesRequired : Option ℕ
  oversizedUnit : Bool
  tokenTruncated : Bool

/-- `_render_job_output`. -/
def renderJobOutput (enc : TokenEncoding) (raw : Bytes) (final : Bool) (budget : Budget) :
    Except Raised RenderedPage := do
  let decoded ← decodeUtf8Units final raw
  let required := if decoded.incompleteTrailingBytes = 0 then none
    else (raw.drop (raw.length - decoded.incompleteTrailingBytes)).head?.bind utf8ExpectedLength
  let measurement ← measure enc budget []
  let s ← takeUnits enc budget decoded.units ⟨[], 0, 0, measurement, false, false⟩
  pure {
    content := s.rendered.flatten
    bytesReturned := s.bytesReturned
    estimatedTokens := s.measurement.estimatedTokens
    replacementCount := s.replacementCount
    incompleteTrailingBytes :=
      if s.bytesReturned = (decoded.units.map fun u => u.raw.length).sum then decoded.incompleteTrailingBytes
      else 0
    nextUnitBytesRequired := required
    oversizedUnit := s.oversizedUnit
    tokenTruncated := s.tokenTruncated }

/-! ## One call -/

/-- What a caller asks for; the byte limit has passed its check, the wait is over. -/
structure PageRequest where
  maxBytes : ℕ
  budget : Budget
  waitMs : ℕ := 0
  waitedMs : ℕ := 0

/-- `_job_output_stop_reason`. -/
def jobOutputStopReason (page : RenderedPage) (rawBytes : ℕ) (request : PageRequest)
    (hasMore caughtUp terminal : Bool) : Text :=
  if page.oversizedUnit then txt "oversized_unit"
  else if page.tokenTruncated then txt "token_budget"
  else if page.incompleteTrailingBytes ≠ 0 then
    if request.maxBytes ≤ rawBytes then txt "byte_budget_before_utf8_unit" else txt "incomplete_utf8"
  else if hasMore then txt "byte_budget"
  else if terminal && caughtUp then txt "end_of_stream"
  else if 0 < request.waitMs ∧ request.waitMs ≤ request.waitedMs then txt "wait_timeout"
  else txt "caught_up_nonterminal"

structure JobPage where
  content : Text
  cursor : ℕ
  nextCursor : ℕ
  bytesReturned : ℕ
  fileSize : ℕ
  hasMore : Bool
  caughtUp : Bool
  eof : Bool
  stopReason : Text
  estimatedTokens : ℕ
  replacementCount : ℕ
  incompleteTrailingBytes : ℕ
  nextUnitBytesRequired : Option ℕ
  minimumMaxBytesForProgress : Option ℕ
  oversizedUnit : Bool

inductive JobReply
  | page (p : JobPage)
  | invalidArguments (message : Text)
  | invalidCursor (cursor fileSize : ℕ)

def maxBytesMessage : Text := txt "max_bytes must be an integer between 1 and 262144."

def jobPage (page : RenderedPage) (log raw : Bytes) (cursor : ℕ) (request : PageRequest) (terminal : Bool) :
    JobPage :=
  let nextCursor := cursor + page.bytesReturned
  let hasMore := decide (nextCursor < log.length)
  let caughtUp := decide (nextCursor = log.length)
  { content := page.content
    cursor := cursor
    nextCursor := nextCursor
    bytesReturned := page.bytesReturned
    fileSize := log.length
    hasMore := hasMore
    caughtUp := caughtUp
    eof := caughtUp && terminal
    stopReason := jobOutputStopReason page raw.length request hasMore caughtUp terminal
    estimatedTokens := page.estimatedTokens
    replacementCount := page.replacementCount
    incompleteTrailingBytes := page.incompleteTrailingBytes
    nextUnitBytesRequired := page.nextUnitBytesRequired
    minimumMaxBytesForProgress :=
      if page.bytesReturned = 0 ∧ page.incompleteTrailingBytes ≠ 0 then page.nextUnitBytesRequired else none
    oversizedUnit := page.oversizedUnit }

/-- `output_job` on a log that does not change while it is read. -/
def outputJob (enc : TokenEncoding) (log : Bytes) (terminal : Bool) (cursor : ℕ) (request : PageRequest) :
    Except Raised JobReply :=
  if ¬(1 ≤ request.maxBytes ∧ request.maxBytes ≤ maxJobOutputBytes) then pure (.invalidArguments maxBytesMessage)
  else if log.length < cursor then pure (.invalidCursor cursor log.length)
  else do
    let raw := (log.drop cursor).take (min request.maxBytes (log.length - cursor))
    let final := terminal && decide (log.length ≤ cursor + raw.length)
    let page ← renderJobOutput enc raw final request.budget
    pure (.page (jobPage page log raw cursor request terminal))

/-! ## Units -/

theorem expected_pos {first : Byte} {n : ℕ} (h : utf8ExpectedLength first = some n) : 1 ≤ n ∧ n ≤ 4 := by
  simp only [utf8ExpectedLength] at h
  split_ifs at h <;> obtain rfl := Option.some.inj h <;> omega

theorem valid_two {a b : Byte} {rest : Bytes} {n : ℕ} (hn : 2 ≤ n)
    (h : utf8StartIsValid (a :: b :: rest) n = true) :
    secondOctetOk a b = true ∧ (rest.take (n - 2)).all isContinuation = true := by
  have hav : ¬min n (a :: b :: rest).length ≤ 1 := by
    simp only [List.length_cons]
    omega
  have htake : rest.take (min n (a :: b :: rest).length - 2) = rest.take (n - 2) := by
    simp only [List.length_cons]
    by_cases hle : n ≤ rest.length + 2
    · rw [Nat.min_eq_left (by omega)]
    · rw [List.take_of_length_le (by omega), List.take_of_length_le (by omega)]
  simp only [utf8StartIsValid, if_neg hav, htake] at h
  split_ifs at h with h1 h2 h3 h4 h5
  refine ⟨?_, h⟩
  simp only [secondOctetOk]
  split_ifs <;> simp only [isContinuation, Bool.and_eq_true, decide_eq_true_eq] <;> omega

/-- A complete valid start is one well-formed unit. -/
theorem decodeUnits_valid {first : Byte} {rest : Bytes} {n : ℕ} (he : utf8ExpectedLength first = some n)
    (hlen : n ≤ (first :: rest).length) (hv : utf8StartIsValid (first :: rest) n = true) :
    ∃ c, decodeUnits ((first :: rest).take n) = [⟨(first :: rest).take n, some c⟩] := by
  suffices h : ∃ c, firstUnit first (rest.take (n - 1)) = ⟨(first :: rest).take n, some c⟩ by
    obtain ⟨c, hc⟩ := h
    have hpos := expected_pos he
    have htake : (first :: rest).take n = first :: rest.take (n - 1) := by
      obtain ⟨k, rfl⟩ := Nat.exists_eq_add_of_le' hpos.1
      rfl
    refine ⟨c, ?_⟩
    rw [htake] at hc ⊢
    rw [decodeUnits_cons, hc]
    simp only [List.length_cons, Nat.add_sub_cancel, List.drop_length, decodeUnits_nil]
  simp only [utf8ExpectedLength] at he
  split_ifs at he with h1 h2 h3 h4 <;> obtain rfl := Option.some.inj he
  · simp only [List.take_zero, firstUnit, if_pos (show first.val < 0x80 by omega), List.take_succ_cons]
    exact ⟨_, rfl⟩
  · rcases rest with - | ⟨x, rest⟩
    · simp at hlen
    obtain ⟨hx, -⟩ := valid_two (by omega) hv
    have hx : isContinuation x = true := by
      simp only [secondOctetOk] at hx
      split_ifs at hx <;> omega
    simp only [List.take_succ_cons, List.take_zero, firstUnit, if_neg (show ¬first.val < 0x80 by omega), if_pos h2, if_pos hx]
    exact ⟨_, rfl⟩
  · rcases rest with - | ⟨x, - | ⟨y, rest⟩⟩
    · simp at hlen
    · simp at hlen
    obtain ⟨hx, hy⟩ := valid_two (by omega) hv
    simp only [Nat.reduceSub, List.take_succ_cons, List.take_zero, List.all_cons, List.all_nil, Bool.and_true] at hy
    simp only [List.take_succ_cons, List.take_zero, firstUnit, if_neg (show ¬first.val < 0x80 by omega), if_neg h2, if_pos h3,
      if_pos hx, if_pos hy]
    exact ⟨_, rfl⟩
  · rcases rest with - | ⟨x, - | ⟨y, - | ⟨z, rest⟩⟩⟩
    · simp at hlen
    · simp at hlen
    · simp at hlen
    obtain ⟨hx, hy⟩ := valid_two (by omega) hv
    simp only [Nat.reduceSub, List.take_succ_cons, List.take_zero, List.all_cons, List.all_nil, Bool.and_true,
      Bool.and_eq_true] at hy
    simp only [List.take_succ_cons, List.take_zero, firstUnit, if_neg (show ¬first.val < 0x80 by omega), if_neg h2,
      if_neg h3, if_pos h4, if_pos hx, if_pos hy.1, if_pos hy.2]
    exact ⟨_, rfl⟩

/-- A unit a page can hold: some octets, and a text that spells the same. -/
structure JobUnit.Sound (u : JobUnit) : Prop where
  nonempty : u.raw ≠ []
  spells : SpellsAs u.raw u.text
  encodable : isEncodable u.text = true

/-- A unit read at the front of the data. -/
structure UnitOf (data : Bytes) (u : JobUnit) : Prop where
  raw : u.raw = data.take u.raw.length
  sound : u.Sound

theorem decodeStrict_valid {first : Byte} {rest : Bytes} {n : ℕ} (he : utf8ExpectedLength first = some n)
    (hlen : n ≤ (first :: rest).length) (hv : utf8StartIsValid (first :: rest) n = true) :
    ∃ c, decodeStrict ((first :: rest).take n) = .ok [c] ∧ (first :: rest).take n = utf8Bytes c ∧
      isSurrogate c = false := by
  obtain ⟨c, hc⟩ := decodeUnits_valid he hlen hv
  have hmem : ⟨(first :: rest).take n, some c⟩ ∈ decodeUnits ((first :: rest).take n) := by
    rw [hc]
    exact List.mem_singleton.mpr rfl
  have hunit := decodeUnits_char _ _ hmem c rfl
  refine ⟨c, ?_, congrArg Utf8Unit.raw hunit.1, hunit.2⟩
  simp [decodeStrict, decodeUtf8, hc]

theorem replacementUnit_unitOf {first : Byte} (rest : Bytes) (h : 0x80 ≤ first.val) :
    UnitOf (first :: rest) (replacementUnit first) where
  raw := rfl
  sound := by
    have hall : ∀ b ∈ [first], 0x80 ≤ b.val := by simpa using h
    have henc : isEncodable [replacementCharacter] = true := by decide
    exact ⟨List.cons_ne_nil first [], spellsAs_replacement (List.cons_ne_nil first []) hall, henc⟩

/-- Waiting is for a valid start that is still incomplete. -/
def Waits (first : Byte) (rest : Bytes) : Prop :=
  ∃ n, utf8ExpectedLength first = some n ∧ (first :: rest).length < n ∧
    utf8StartIsValid (first :: rest) n = true

/-- What the front of the data yields. -/
theorem nextUnit_cases (final : Bool) (first : Byte) (rest : Bytes) :
    (final = false ∧ Waits first rest ∧ nextUnit final first rest = .ok none) ∨
      ∃ u, nextUnit final first rest = .ok (some u) ∧ UnitOf (first :: rest) u := by
  have hreplace : 0x80 ≤ first.val → UnitOf (first :: rest) (replacementUnit first) := replacementUnit_unitOf rest
  cases he : utf8ExpectedLength first with
  | none =>
    refine Or.inr ⟨replacementUnit first, by simp only [nextUnit, he]; rfl, hreplace ?_⟩
    simp only [utf8ExpectedLength] at he
    split_ifs at he with h1
    omega
  | some n =>
    have hone : n = 1 ∨ 0x80 ≤ first.val := by
      simp only [utf8ExpectedLength] at he
      split_ifs at he with h1
      · exact Or.inl (Option.some.inj he).symm
      all_goals exact Or.inr (by omega)
    by_cases hlen : (first :: rest).length < n
    · have hge : 0x80 ≤ first.val := by
        refine hone.resolve_left fun h => ?_
        rw [h] at hlen
        simp at hlen
      by_cases hw : (utf8StartIsValid (first :: rest) n && !final) = true
      · simp only [Bool.and_eq_true, Bool.not_eq_true'] at hw
        refine Or.inl ⟨hw.2, ⟨n, he, hlen, hw.1⟩, ?_⟩
        simp only [nextUnit, he, if_pos hlen, hw.1, hw.2]
        rfl
      · refine Or.inr ⟨replacementUnit first, ?_, hreplace hge⟩
        simp only [nextUnit, he, if_pos hlen, if_neg hw]
        rfl
    · cases hv : utf8StartIsValid (first :: rest) n with
      | false =>
        have hge : 0x80 ≤ first.val := by
          refine hone.resolve_left fun h => ?_
          rw [h] at hv
          cases rest with
          | nil => simp [utf8StartIsValid] at hv
          | cons second rest => simp [utf8StartIsValid] at hv
        refine Or.inr ⟨replacementUnit first, ?_, hreplace hge⟩
        simp only [nextUnit, he, if_neg hlen, hv]
        rfl
      | true =>
        obtain ⟨c, hdec, hraw, hs⟩ := decodeStrict_valid he (by omega) hv
        refine Or.inr ⟨⟨(first :: rest).take n, [c], false⟩, ?_, ?_⟩
        · simp only [nextUnit, he, if_neg hlen, hv, hdec]
          rfl
        · refine ⟨?_, ⟨?_, ?_, by simp [hs]⟩⟩
          · simp only [List.length_take]
            rw [Nat.min_eq_left (by omega)]
          · simp only [hraw]
            exact utf8Bytes_ne_nil c
          · simp only [hraw]
            exact spellsAs_utf8Bytes c

/-- The octets that wait are fewer than four and none of them is ASCII. -/
theorem Waits.octets {first : Byte} {rest : Bytes} (h : Waits first rest) :
    (first :: rest).length ≤ 3 ∧ ∀ b ∈ first :: rest, 0x80 ≤ b.val := by
  obtain ⟨n, he, hlen, hv⟩ := h
  have hn := expected_pos he
  refine ⟨by omega, ?_⟩
  have hfirst : 0x80 ≤ first.val := by
    simp only [utf8ExpectedLength] at he
    split_ifs at he with h1
    · obtain rfl := Option.some.inj he
      simp at hlen
    all_goals omega
  rw [List.forall_mem_cons]
  refine ⟨hfirst, ?_⟩
  cases rest with
  | nil => simp
  | cons second rest =>
    simp only [List.length_cons] at hlen
    obtain ⟨hs, hr⟩ := valid_two (by omega) hv
    rw [List.take_of_length_le (by omega)] at hr
    rw [List.forall_mem_cons]
    refine ⟨secondOctet_ge hs, fun b hb => continuation_ge ?_⟩
    exact List.all_eq_true.mp hr b hb

private theorem startIsValid_append {a : Byte} {rest more : Bytes} {n : ℕ} (hn : n ≤ (a :: rest).length) :
    utf8StartIsValid (a :: rest ++ more) n = utf8StartIsValid (a :: rest) n := by
  cases rest with
  | nil =>
    simp only [List.length_cons, List.length_nil] at hn
    cases more with
    | nil => rfl
    | cons b more => simp [utf8StartIsValid, show min n (more.length + 1 + 1) ≤ 1 by omega]
  | cons b rest =>
    simp only [List.length_cons] at hn
    simp only [utf8StartIsValid, List.cons_append, List.length_cons, List.length_append,
      Nat.min_eq_left (show n ≤ rest.length + more.length + 1 + 1 by omega), Nat.min_eq_left hn]
    rw [List.take_append_of_le_length (by omega)]

private theorem startIsInvalid_append {a : Byte} {rest more : Bytes} {n : ℕ}
    (h : utf8StartIsValid (a :: rest) n = false) : utf8StartIsValid (a :: rest ++ more) n = false := by
  cases rest with
  | nil => simp [utf8StartIsValid] at h
  | cons b rest =>
    by_cases hle : min n (a :: b :: rest).length ≤ 1
    · simp only [utf8StartIsValid, if_pos hle] at h
      exact nomatch h
    · have hle' : ¬min n (a :: b :: rest ++ more).length ≤ 1 := by
        simp only [List.length_cons, List.length_append] at hle ⊢
        omega
      simp only [utf8StartIsValid, if_neg hle] at h
      simp only [utf8StartIsValid, List.cons_append] at hle' ⊢
      rw [if_neg hle']
      split_ifs at h ⊢
      · rfl
      · rfl
      · rfl
      · rfl
      · rfl
      · rw [Bool.eq_false_iff] at h ⊢
        intro hall
        refine h (List.all_eq_true.mpr fun x hx => List.all_eq_true.mp hall x ?_)
        have hpre : rest.take (min n (a :: b :: rest).length - 2) <+:
            (rest ++ more).take (min n (a :: b :: (rest ++ more)).length - 2) := by
          have hshow : (rest ++ more).take (min n (a :: b :: rest).length - 2) =
              rest.take (min n (a :: b :: rest).length - 2) :=
            List.take_append_of_le_length (by simp only [List.length_cons]; omega)
          rw [← hshow]
          exact List.take_prefix_take_left (by simp only [List.length_cons, List.length_append]; omega)
        exact hpre.subset hx

/-- A unit that did not wait stays the same whatever follows. -/
theorem nextUnit_append {first : Byte} {rest more : Bytes} {u : JobUnit} (final : Bool)
    (h : nextUnit false first rest = .ok (some u)) : nextUnit final first (rest ++ more) = .ok (some u) := by
  cases he : utf8ExpectedLength first with
  | none =>
    simp only [nextUnit, he] at h ⊢
    exact h
  | some n =>
    by_cases hlen : (first :: rest).length < n
    · cases hv : utf8StartIsValid (first :: rest) n with
      | true =>
        simp only [nextUnit, he, if_pos hlen, hv] at h
        exact nomatch h
      | false =>
        have hv' : utf8StartIsValid (first :: (rest ++ more)) n = false := startIsInvalid_append hv
        simp only [nextUnit, he, if_pos hlen, hv] at h
        by_cases hlen' : (first :: (rest ++ more)).length < n
        · simp only [nextUnit, he, if_pos hlen', hv']
          exact h
        · simp only [nextUnit, he, if_neg hlen', hv']
          exact h
    · have hlen' : ¬(first :: (rest ++ more)).length < n := by
        simp only [List.length_cons, List.length_append] at hlen ⊢
        omega
      have hv : utf8StartIsValid (first :: (rest ++ more)) n = utf8StartIsValid (first :: rest) n :=
        startIsValid_append (by omega)
      have htake : (first :: rest ++ more).take n = (first :: rest).take n :=
        List.take_append_of_le_length (by omega)
      rw [List.cons_append] at htake
      simp only [nextUnit, he, if_neg hlen, if_neg hlen', hv, htake] at h ⊢
      exact h

/-! ## Encoded characters -/

private theorem byte_val {n : ℕ} (hn : n < 256) : (Fin.ofNat 256 n).val = n := Nat.mod_eq_of_lt hn

/-- The octets of a character announce their number and are a valid start. -/
private theorem encoded_start (c : CodePoint) (hc : isSurrogate c = false) (b : Byte) (bs : Bytes)
    (h : utf8Bytes c = b :: bs) :
    utf8ExpectedLength b = some (bs.length + 1) ∧ utf8StartIsValid (b :: bs) (bs.length + 1) = true := by
  have hlt := c.isLt
  have hs : ¬(0xD800 ≤ c.val ∧ c.val ≤ 0xDFFF) := by
    simpa [isSurrogate, Bool.and_eq_false_iff] using hc
  simp only [utf8Bytes] at h
  split_ifs at h with h1 h2 h3 <;> obtain ⟨rfl, rfl⟩ := List.cons.inj h
  · have hb := byte_val (n := c.val) (by omega)
    simp only [utf8ExpectedLength, hb, List.length_nil]
    rw [if_pos (by omega)]
    exact ⟨rfl, rfl⟩
  · have hb := byte_val (n := 0xC0 + c.val / 64) (by omega)
    have hx := byte_val (n := 0x80 + c.val % 64) (by omega)
    simp only [utf8ExpectedLength, utf8StartIsValid, hb, hx, List.length_cons, List.length_nil]
    rw [if_neg (by omega), if_pos (by omega), if_neg (by omega), if_neg (by omega), if_neg (by omega),
      if_neg (by omega), if_neg (by omega), if_neg (by omega)]
    exact ⟨rfl, rfl⟩
  · have hb := byte_val (n := 0xE0 + c.val / 4096) (by omega)
    have hx := byte_val (n := 0x80 + c.val / 64 % 64) (by omega)
    have hy := byte_val (n := 0x80 + c.val % 64) (by omega)
    have hyc : isContinuation (Fin.ofNat 256 (0x80 + c.val % 64)) = true := by
      simp only [isContinuation, hy, Bool.and_eq_true, decide_eq_true_eq]
      omega
    simp only [utf8ExpectedLength, utf8StartIsValid, hb, hx, List.length_cons, List.length_nil]
    rw [if_neg (by omega), if_neg (by omega), if_pos (by omega), if_neg (by omega), if_neg (by omega),
      if_neg (by omega), if_neg (by omega), if_neg (by omega), if_neg (by omega)]
    refine ⟨rfl, List.all_eq_true.mpr fun x hx => ?_⟩
    rw [List.mem_singleton.mp (List.mem_of_mem_take hx)]
    exact hyc
  · have hb := byte_val (n := 0xF0 + c.val / 262144) (by omega)
    have hx := byte_val (n := 0x80 + c.val / 4096 % 64) (by omega)
    have hy := byte_val (n := 0x80 + c.val / 64 % 64) (by omega)
    have hz := byte_val (n := 0x80 + c.val % 64) (by omega)
    have hyc : isContinuation (Fin.ofNat 256 (0x80 + c.val / 64 % 64)) = true := by
      simp only [isContinuation, hy, Bool.and_eq_true, decide_eq_true_eq]
      omega
    have hzc : isContinuation (Fin.ofNat 256 (0x80 + c.val % 64)) = true := by
      simp only [isContinuation, hz, Bool.and_eq_true, decide_eq_true_eq]
      omega
    simp only [utf8ExpectedLength, utf8StartIsValid, hb, hx, List.length_cons, List.length_nil]
    rw [if_neg (by omega), if_neg (by omega), if_neg (by omega), if_pos (by omega), if_neg (by omega),
      if_neg (by omega), if_neg (by omega), if_neg (by omega), if_neg (by omega), if_neg (by omega)]
    refine ⟨rfl, List.all_eq_true.mpr fun x hx => ?_⟩
    cases List.mem_cons.mp (List.mem_of_mem_take hx) with
    | inl hx =>
      rw [hx]
      exact hyc
    | inr hx =>
      rw [List.mem_singleton.mp hx]
      exact hzc

/-- An encoded character is read back, whatever follows it. -/
theorem nextUnit_encoded (final : Bool) (c : CodePoint) (hc : isSurrogate c = false) (b : Byte) (bs rest : Bytes)
    (h : utf8Bytes c = b :: bs) : nextUnit final b (bs ++ rest) = .ok (some ⟨b :: bs, [c], false⟩) := by
  obtain ⟨he, hv⟩ := encoded_start c hc b bs h
  have hlen : ¬(b :: (bs ++ rest)).length < bs.length + 1 := by
    simp only [List.length_cons, List.length_append]
    omega
  have hv' : utf8StartIsValid (b :: (bs ++ rest)) (bs.length + 1) = true :=
    (startIsValid_append (le_refl _)).trans hv
  have htake : (b :: (bs ++ rest)).take (bs.length + 1) = b :: bs := by
    rw [List.take_succ_cons, List.take_left]
  have hunits := decodeUnits_encoded [c] (by simp [hc])
  rw [List.flatMap_singleton, h] at hunits
  have hdec : decodeStrict (b :: bs) = .ok [c] := by
    simp [decodeStrict, decodeUtf8, hunits, Utf8Unit.ofChar]
  simp only [nextUnit, he, if_neg hlen, hv', htake, hdec]
  rfl

end WebOauthMcp.JobOutput
