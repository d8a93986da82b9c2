import WebOauthMcp.BytePages
import WebOauthMcp.JobPaging

/-!
# Decoding in units

A log is decoded into whole characters and replaced octets. What is left over at the end of a
chunk is the start of a character that a later chunk may complete.
-/

namespace WebOauthMcp.UnitDecoding
open CodePoints Utf8Units ExceptSteps ResponseBudget BytePages JobOutput JobPaging

/-- The unit of a whole character. -/
def charUnit (c : CodePoint) : JobUnit := ⟨utf8Bytes c, [c], false⟩

/-- A whole character that has an encoding, or a replaced octet. -/
inductive UnitKind : JobUnit → Prop
  | char (c : CodePoint) (h : isSurrogate c = false) : UnitKind (charUnit c)
  | replaced (b : Byte) : UnitKind (replacementUnit b)

/-- The octets at the start of a character, but not all of them. -/
def ProperStart (tail : Bytes) : Prop :=
  tail ≠ [] ∧ ∃ c, isSurrogate c = false ∧ tail <+: utf8Bytes c ∧ tail ≠ utf8Bytes c

theorem nextUnit_kind {final : Bool} {first : Byte} {rest : Bytes} {u : JobUnit} (h : nextUnit final first rest = .ok (some u)) :
    UnitKind u := by
  have hreplaced : (pure (some (replacementUnit first)) : Except Raised (Option JobUnit)) = .ok (some u) → UnitKind u := by
    intro heq
    cases heq
    exact .replaced first
  cases he : utf8ExpectedLength first with
  | none =>
    simp only [nextUnit, he] at h
    exact hreplaced h
  | some n =>
    simp only [nextUnit, he] at h
    split at h
    next hshort =>
      split at h
      · cases h
      · exact hreplaced h
    next hlong =>
      split at h
      · exact hreplaced h
      next hvalid =>
        simp only [Bool.not_eq_true', Bool.not_eq_false] at hvalid
        obtain ⟨c, hdecoded, hraw, hc⟩ := decodeStrict_valid he (Nat.le_of_not_lt hlong) hvalid
        rw [hdecoded, hraw] at h
        cases h
        exact .char c hc

/-! ## What waits -/

theorem startIsValid_iff {a b : Byte} {rest : Bytes} {n : ℕ} (hn : 2 ≤ n) : utf8StartIsValid (a :: b :: rest) n = true ↔
    secondOctetOk a b = true ∧ (rest.take (n - 2)).all isContinuation = true := by
  refine ⟨valid_two hn, fun h => ?_⟩
  obtain ⟨hsecond, hrest⟩ := h
  have hranges : (a.val = 0xE0 → 0xA0 ≤ b.val ∧ b.val ≤ 0xBF) ∧ (a.val = 0xED → 0x80 ≤ b.val ∧ b.val ≤ 0x9F) ∧
      (a.val = 0xF0 → 0x90 ≤ b.val ∧ b.val ≤ 0xBF) ∧ (a.val = 0xF4 → 0x80 ≤ b.val ∧ b.val ≤ 0x8F) ∧ 0x80 ≤ b.val ∧ b.val ≤ 0xBF := by
    simp only [secondOctetOk, isContinuation] at hsecond
    split_ifs at hsecond <;> simp only [Bool.and_eq_true, decide_eq_true_eq] at hsecond <;> omega
  have havailable : ¬min n (a :: b :: rest).length ≤ 1 := by
    simp only [List.length_cons]
    omega
  have htake : rest.take (min n (a :: b :: rest).length - 2) <+: rest.take (n - 2) := List.take_prefix_take_left (by omega)
  rw [utf8StartIsValid, if_neg havailable, if_neg (by omega), if_neg (by omega), if_neg (by omega), if_neg (by omega), if_neg (by omega)]
  exact List.all_eq_true.mpr fun x hx => List.all_eq_true.mp hrest x (htake.subset hx)

/-- A second octet for any first one. -/
def filler (first : Byte) : Byte := if first.val = 0xE0 then 0xA0 else if first.val = 0xF0 then 0x90 else 0x80

theorem secondOctetOk_filler (first : Byte) : secondOctetOk first (filler first) = true := by
  unfold filler secondOctetOk
  split_ifs <;> rfl

/-- A valid start that is too short has one octet more. -/
theorem startIsValid_fill {first : Byte} {rest : Bytes} {n : ℕ} (hshort : (first :: rest).length < n)
    (h : utf8StartIsValid (first :: rest) n = true) : ∃ b, utf8StartIsValid (first :: (rest ++ [b])) n = true := by
  rw [List.length_cons] at hshort
  cases rest with
  | nil =>
    have hnone : (List.take (n - 2) ([] : Bytes)).all isContinuation = true := by rw [List.take_nil, List.all_nil]
    exact ⟨filler first, (startIsValid_iff (by rw [List.length_nil] at hshort; omega)).mpr ⟨secondOctetOk_filler first, hnone⟩⟩
  | cons second rest =>
    rw [List.length_cons] at hshort
    have hn : 2 ≤ n := by omega
    obtain ⟨hsecond, hrest⟩ := (startIsValid_iff hn).mp h
    have hmore : ((rest ++ [0x80]).take (n - 2)).all isContinuation = true := by
      rw [List.take_of_length_le (by omega)] at hrest
      rw [List.take_of_length_le (by rw [List.length_append, List.length_singleton]; omega), List.all_append, hrest]
      rfl
    exact ⟨0x80, (startIsValid_iff hn).mpr ⟨hsecond, hmore⟩⟩

theorem startIsValid_complete {first : Byte} {rest : Bytes} {n : ℕ} (hlength : (first :: rest).length ≤ n)
    (h : utf8StartIsValid (first :: rest) n = true) :
    ∃ more, (first :: (rest ++ more)).length = n ∧ utf8StartIsValid (first :: (rest ++ more)) n = true := by
  induction hroom : n - (first :: rest).length generalizing rest with
  | zero => exact ⟨[], by rw [List.append_nil]; omega, by rwa [List.append_nil]⟩
  | succ room ih =>
    obtain ⟨b, hb⟩ := startIsValid_fill (by omega) h
    have hnext : (first :: (rest ++ [b])).length = (first :: rest).length + 1 := by simp
    obtain ⟨more, hmore⟩ := ih (by omega) hb (by omega)
    rw [List.append_assoc] at hmore
    exact ⟨[b] ++ more, hmore⟩

/-- What waits is the start of a character. -/
theorem properStart_of_waits {first : Byte} {rest : Bytes} (h : Waits first rest) : ProperStart (first :: rest) := by
  obtain ⟨n, he, hshort, hvalid⟩ := h
  obtain ⟨more, hlength, hcomplete⟩ := startIsValid_complete hshort.le hvalid
  obtain ⟨c, -, hraw, hc⟩ := decodeStrict_valid he hlength.ge hcomplete
  rw [List.take_of_length_le hlength.le] at hraw
  refine ⟨List.cons_ne_nil _ _, c, hc, ⟨more, hraw⟩, fun heq => ?_⟩
  rw [heq, ← hraw] at hshort
  omega

/-! ## Decoding -/

/-- A chunk as it is decoded. -/
structure DecodedChunk (final : Bool) (data : Bytes) (d : DecodedUnits) (tail : Bytes) : Prop where
  split : data = rawOfUnits d.units ++ tail
  left : d.incompleteTrailingBytes = tail.length
  kinds : ∀ u ∈ d.units, UnitKind u
  waits : tail = [] ∨ final = false ∧ ProperStart tail

theorem decode_chunk (final : Bool) (data : Bytes) : ∃ d tail, decodeUtf8Units final data = .ok d ∧ DecodedChunk final data d tail := by
  induction h : data.length using Nat.strong_induction_on generalizing data with
  | _ n ih =>
    cases data with
    | nil =>
      refine ⟨⟨[], 0⟩, [], ?_, rfl, rfl, by simp, .inl rfl⟩
      rw [decodeUtf8Units]
      rfl
    | cons first rest =>
      cases nextUnit_cases final first rest with
      | inl hwaits =>
        obtain ⟨hfinal, hwaits, hnone⟩ := hwaits
        refine ⟨⟨[], (first :: rest).length⟩, first :: rest, ?_, rfl, rfl, by simp, .inr ⟨hfinal, properStart_of_waits hwaits⟩⟩
        rw [decodeUtf8Units, hnone]
        rfl
      | inr hunit =>
        obtain ⟨u, hu, hof⟩ := hunit
        obtain ⟨hsplit, -⟩ := unit_front hof
        have hshorter : (rest.drop (u.raw.length - 1)).length < n := by
          rw [← h, List.length_drop, List.length_cons]
          omega
        obtain ⟨d, tail, hd, hchunk⟩ := ih _ hshorter _ rfl
        refine ⟨_, tail, decode_cons hu hd, ?_, hchunk.left, List.forall_mem_cons.mpr ⟨nextUnit_kind hu, hchunk.kinds⟩, hchunk.waits⟩
        rw [rawOfUnits_cons, List.append_assoc, ← hchunk.split]
        exact hsplit

theorem decode_encoded (final : Bool) {text : Text} (htext : isEncodable text = true) :
    decodeUtf8Units final (encoded text) = .ok ⟨text.map charUnit, 0⟩ := by
  induction text with
  | nil =>
    rw [encoded_nil, decodeUtf8Units]
    rfl
  | cons c text ih =>
    rw [isEncodable_cons, Bool.and_eq_true, Bool.not_eq_true'] at htext
    obtain ⟨b, bs, hb⟩ := List.exists_cons_of_ne_nil (utf8Bytes_ne_nil c)
    have hnext := nextUnit_encoded final c htext.1 b bs (encoded text) hb
    have hdrop : (bs ++ encoded text).drop ((b :: bs).length - 1) = encoded text := List.drop_left
    have hcons := decode_cons hnext (hdrop.symm ▸ ih htext.2)
    rw [encoded_cons, hb, List.cons_append, hcons, ← hb]
    rfl

/-- The octets of a character that has an encoding. -/
def WellFormedChar (raw : Bytes) : Prop := ∃ c, isSurrogate c = false ∧ raw = utf8Bytes c

/-- The units and what is left over are the input; units are well-formed characters, decoded
strictly, or single octets; what is left over waits for the rest of a character. -/
structure UnitsOf (final : Bool) (data : Bytes) (d : DecodedUnits) : Prop where
  exact : ∃ tail, data = rawOfUnits d.units ++ tail ∧ d.incompleteTrailingBytes = tail.length ∧
    (tail = [] ∨ final = false ∧ ProperStart tail)
  chars : ∀ u ∈ d.units, u.replacement = false → WellFormedChar u.raw ∧ decodeStrict u.raw = .ok u.text
  replaced : ∀ u ∈ d.units, u.replacement = true → u.raw.length = 1 ∧ u.text = [replacementCharacter]
  wellFormed : ∀ text, isEncodable text = true → data = encoded text → ∀ u ∈ d.units, u.replacement = false

/-- Decoding never raises, and yields the units of its input. -/
theorem decodeUtf8Units_exact (final : Bool) (data : Bytes) : ∃ d, decodeUtf8Units final data = .ok d ∧ UnitsOf final data d := by
  obtain ⟨d, tail, hd, hchunk⟩ := decode_chunk final data
  refine ⟨d, hd, ⟨tail, hchunk.split, hchunk.left, hchunk.waits⟩, fun u hu hflag => ?_, fun u hu hflag => ?_, ?_⟩
  · cases hchunk.kinds u hu with
    | char c hc =>
      have hdecoded := decodeUtf8_encoded (t := [c]) (by simp [hc])
      refine ⟨⟨c, hc, rfl⟩, ?_⟩
      rw [encoded, List.flatMap_singleton] at hdecoded
      simp only [charUnit, decodeStrict, hdecoded]
    | replaced b => cases hflag
  · cases hchunk.kinds u hu with
    | char c hc => cases hflag
    | replaced b => exact ⟨rfl, rfl⟩
  · rintro text htext rfl u hu
    obtain rfl := Except.ok.inj (hd.symm.trans (decode_encoded final htext))
    obtain ⟨c, -, rfl⟩ := List.mem_map.mp hu
    rfl

end WebOauthMcp.UnitDecoding
