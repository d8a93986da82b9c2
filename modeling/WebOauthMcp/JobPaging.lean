import WebOauthMcp.JobOutput

/-!
# Paging a log to its end

Following `next_cursor` over the log of a finished job, the pages hold the log's octets
in a row and their contents are the log decoded in one pass, wherever the pages were
cut. What can stop the paging is a special token that a page would have to measure.
-/

namespace WebOauthMcp.JobPaging
open CodePoints Utf8Units AvoidedWords ExceptSteps ResponseBudget TokenOctets JobOutput

def rawOfUnits (us : List JobUnit) : Bytes := us.flatMap JobUnit.raw
def textOfUnits (us : List JobUnit) : Text := us.flatMap JobUnit.text

@[simp] theorem rawOfUnits_nil : rawOfUnits [] = [] := rfl
@[simp] theorem rawOfUnits_cons (u : JobUnit) (us : List JobUnit) : rawOfUnits (u :: us) = u.raw ++ rawOfUnits us := by
  simp [rawOfUnits]
@[simp] theorem rawOfUnits_append (us vs : List JobUnit) :
    rawOfUnits (us ++ vs) = rawOfUnits us ++ rawOfUnits vs := by simp [rawOfUnits]
@[simp] theorem textOfUnits_nil : textOfUnits [] = [] := rfl
@[simp] theorem textOfUnits_append (us vs : List JobUnit) :
    textOfUnits (us ++ vs) = textOfUnits us ++ textOfUnits vs := by simp [textOfUnits]

theorem textOfUnits_eq_flatten (us : List JobUnit) : (us.map JobUnit.text).flatten = textOfUnits us := by
  simp [textOfUnits, List.flatMap_def]

/-! ## Decoding in pieces -/

/-- The data decodes in one pass to these units. -/
def Decoded (data : Bytes) (us : List JobUnit) : Prop := decodeUtf8Units true data = .ok ⟨us, 0⟩

theorem Decoded.unique {data : Bytes} {us vs : List JobUnit} (h : Decoded data us) (h' : Decoded data vs) :
    us = vs := by
  have he := h.symm.trans h'
  simpa using he

theorem decoded_nil : Decoded [] [] := by
  rw [Decoded, decodeUtf8Units]
  rfl

theorem decode_cons {final : Bool} {first : Byte} {rest : Bytes} {u : JobUnit}
    (hu : nextUnit final first rest = .ok (some u)) {d : DecodedUnits}
    (hd : decodeUtf8Units final (rest.drop (u.raw.length - 1)) = .ok d) :
    decodeUtf8Units final (first :: rest) = .ok ⟨u :: d.units, d.incompleteTrailingBytes⟩ := by
  rw [decodeUtf8Units, hu]
  simp only [bind, Except.bind, hd]
  rfl

theorem unit_front {first : Byte} {rest : Bytes} {u : JobUnit} (hu : UnitOf (first :: rest) u) :
    first :: rest = u.raw ++ rest.drop (u.raw.length - 1) ∧ u.raw.length - 1 ≤ rest.length := by
  obtain ⟨n, hn⟩ := Nat.exists_eq_succ_of_ne_zero (List.length_eq_zero_iff.not.mpr hu.sound.nonempty)
  have hraw := hu.raw
  have hlen := congrArg List.length hraw
  rw [hn, List.take_succ_cons] at hraw
  simp only [List.length_take, List.length_cons] at hlen
  refine ⟨?_, by omega⟩
  rw [hn, Nat.succ_sub_one, hraw, List.cons_append, List.take_append_drop]

/-- What decoding a chunk yields: units, a short tail that waits, and the same units at the
front of any continuation. -/
structure Chunk (final : Bool) (raw : Bytes) (us : List JobUnit) (tail : Bytes) : Prop where
  decoded : decodeUtf8Units final raw = .ok ⟨us, tail.length⟩
  split : raw = rawOfUnits us ++ tail
  sound : ∀ u ∈ us, u.Sound
  short : tail.length ≤ 3
  notAscii : ∀ b ∈ tail, 0x80 ≤ b.val
  complete : final = true → tail = []
  goesOn : ∀ more vs, (final = true → more = []) → Decoded (tail ++ more) vs → Decoded (raw ++ more) (us ++ vs)

theorem chunk_exists (final : Bool) (raw : Bytes) : ∃ us tail, Chunk final raw us tail := by
  induction h : raw.length using Nat.strong_induction_on generalizing raw with
  | _ n ih =>
    cases raw with
    | nil =>
      refine ⟨[], [], ?_, rfl, by simp, by simp, by simp, by simp, fun more vs _ hv => hv⟩
      rw [decodeUtf8Units]
      rfl
    | cons first rest =>
      cases nextUnit_cases final first rest with
      | inl hwait =>
        obtain ⟨hfinal, hwait, hnone⟩ := hwait
        refine ⟨[], first :: rest, ?_, rfl, by simp, hwait.octets.1, hwait.octets.2, by simp [hfinal],
          fun more vs _ hv => hv⟩
        rw [decodeUtf8Units, hnone]
        rfl
      | inr hunit =>
        obtain ⟨u, hu, hof⟩ := hunit
        obtain ⟨hsplit, hle⟩ := unit_front hof
        have hshorter : (rest.drop (u.raw.length - 1)).length < n := by
          simp only [List.length_drop, List.length_cons] at h ⊢
          omega
        obtain ⟨us, tail, hc⟩ := ih _ hshorter _ rfl
        refine ⟨u :: us, tail, decode_cons hu hc.decoded, ?_, ?_, hc.short, hc.notAscii, hc.complete, ?_⟩
        · rw [rawOfUnits_cons, List.append_assoc, ← hc.split]
          exact hsplit
        · rw [List.forall_mem_cons]
          exact ⟨hof.sound, hc.sound⟩
        · intro more vs hmore hv
          have hrest := hc.goesOn more vs hmore hv
          have hnext : nextUnit true first (rest ++ more) = .ok (some u) := by
            cases final with
            | false => exact nextUnit_append true hu
            | true =>
              rw [hmore rfl, List.append_nil]
              exact hu
          rw [← List.drop_append_of_le_length hle] at hrest
          exact decode_cons hnext hrest

/-- In one pass every log decodes, and its units hold all of it. -/
theorem decoded_exists (data : Bytes) :
    ∃ us, Decoded data us ∧ rawOfUnits us = data ∧ ∀ u ∈ us, u.Sound := by
  obtain ⟨us, tail, hc⟩ := chunk_exists true data
  obtain rfl := hc.complete rfl
  refine ⟨us, hc.decoded, ?_, hc.sound⟩
  rw [hc.split, List.append_nil]

/-- Decoding resumes at a unit boundary. -/
theorem Decoded.drop {data : Bytes} {us vs : List JobUnit} (h : Decoded data (us ++ vs)) :
    Decoded (data.drop (rawOfUnits us).length) vs := by
  induction us generalizing data with
  | nil => exact h
  | cons u us ih =>
    cases data with
    | nil =>
      have he := h.unique decoded_nil
      exact absurd he (by simp)
    | cons first rest =>
      cases nextUnit_cases true first rest with
      | inl hwait => exact absurd hwait.1 (by simp)
      | inr hunit =>
        obtain ⟨v, hv, hof⟩ := hunit
        obtain ⟨hsplit, hle⟩ := unit_front hof
        obtain ⟨ws, hws, -, -⟩ := decoded_exists (rest.drop (v.raw.length - 1))
        have he := h.unique (decode_cons hv hws)
        obtain ⟨rfl, rfl⟩ := List.cons.inj he
        have hlen : (first :: rest).drop (u.raw ++ rawOfUnits us).length =
            (rest.drop (u.raw.length - 1)).drop (rawOfUnits us).length := by
          rw [List.length_append, ← List.drop_drop]
          refine congrArg _ ?_
          conv_lhs => rw [hsplit]
          exact List.drop_left
        rw [rawOfUnits_cons, hlen]
        exact ih hws

/-- The text of sound units is measurable exactly when their octets spell no token. -/
theorem measurable_textOfUnits_iff {us : List JobUnit} (h : ∀ u ∈ us, u.Sound) :
    Measurable (textOfUnits us) ↔ SpellsNoToken (rawOfUnits us) := by
  have hspells : SpellsAs (rawOfUnits us) (textOfUnits us) ∧ isEncodable (textOfUnits us) = true := by
    induction us with
    | nil => exact ⟨.nil, rfl⟩
    | cons u us ih =>
      have hu := h u (by simp)
      have ih := ih fun v hv => h v (List.mem_cons_of_mem u hv)
      refine ⟨hu.spells.append ih.1, ?_⟩
      have ht : textOfUnits (u :: us) = u.text ++ textOfUnits us := by simp [textOfUnits]
      rw [ht, isEncodable_append, hu.encodable, ih.2]
      rfl
  exact measurable_iff_spellsNoToken hspells.1 hspells.2

/-- The octets that wait at the end of a chunk complete no token. -/
theorem Chunk.spellsNoToken_iff {final : Bool} {raw tail : Bytes} {us : List JobUnit} (h : Chunk final raw us tail) :
    SpellsNoToken raw ↔ Measurable (textOfUnits us) := by
  have hne : ([] : Bytes) ∉ tokenOctets := by
    intro hmem
    obtain ⟨w, hw, hnil⟩ := hmem
    obtain ⟨c, w, rfl⟩ := List.exists_cons_of_ne_nil (specialTokens_ascii w hw).1
    simp [utf8Bytes_ne_nil] at hnil
  have hoctet : ∀ b : Byte, 0x80 ≤ b.val → Separates tokenOctets b := by
    intro b hb w hw hbw
    obtain ⟨w, hw, rfl⟩ := hw
    obtain ⟨c, hc, hbc⟩ := List.mem_flatMap.mp hbw
    have hascii := (specialTokens_ascii w hw).2 c hc
    simp only [utf8Bytes, if_pos hascii, List.mem_singleton] at hbc
    have hval : (Fin.ofNat 256 c.val).val = c.val := Nat.mod_eq_of_lt (by omega)
    rw [hbc, hval] at hb
    omega
  rw [measurable_textOfUnits_iff h.sound, h.split]
  cases hcase : tail with
  | nil => rw [List.append_nil]
  | cons b rest =>
    have hge := h.notAscii
    rw [hcase, List.forall_mem_cons] at hge
    have hgap : IsGap tokenOctets (b :: rest) := by
      refine ⟨b, rest, rfl, hoctet b hge.1, fun d hd w hw hhead => ?_⟩
      exact hoctet d (hge.2 d hd) w hw (List.mem_of_mem_head? hhead)
    have hiff := avoids_gap_iff (a := rawOfUnits us) (b := []) hne hgap
    rw [List.append_nil] at hiff
    exact hiff.trans (and_iff_left (avoids_nil hne))

/-! ## Taking units onto a page -/

/-- The state of a page that holds the units `done`. -/
def Holds (s : PageState) (done : List JobUnit) : Prop :=
  s.rendered = done.map JobUnit.text ∧ s.bytesReturned = (rawOfUnits done).length

theorem Holds.take {s : PageState} {done : List JobUnit} (h : Holds s done) (u : JobUnit) (m : BudgetMeasurement) :
    Holds (s.take u m) (done ++ [u]) := by
  refine ⟨?_, ?_⟩
  · simp [PageState.take, h.1]
  · simp [PageState.take, h.2]

theorem Holds.candidate {s : PageState} {done : List JobUnit} (h : Holds s done) (u : JobUnit) :
    (s.rendered ++ [u.text]).flatten = textOfUnits (done ++ [u]) := by
  rw [h.1, ← textOfUnits_eq_flatten, List.map_append]
  rfl

theorem holds_start (m : BudgetMeasurement) : Holds ⟨[], 0, 0, m, false, false⟩ [] := ⟨rfl, rfl⟩

/-- The page ends up with some of the units, and with at least one if there is one. -/
theorem takeUnits_ok {enc : TokenEncoding} {budget : Budget} {us done : List JobUnit} {s s' : PageState}
    (h : takeUnits enc budget us s = .ok s') (hs : Holds s done) :
    ∃ k ≤ us.length, Holds s' (done ++ us.take k) ∧ (done = [] → us ≠ [] → 1 ≤ k) := by
  induction us generalizing s done with
  | nil =>
    obtain rfl := Except.ok.inj h
    exact ⟨0, by simp, by simpa using hs, by simp⟩
  | cons u us ih =>
    obtain ⟨m, hm, hk⟩ := bind_eq_ok.mp h
    split_ifs at hk with hfits hempty
    · obtain ⟨k, hle, hhold, -⟩ := ih hk (hs.take u m)
      refine ⟨k + 1, by simpa using hle, ?_, by simp⟩
      rwa [List.take_succ_cons, ← List.singleton_append, ← List.append_assoc]
    · obtain rfl := Except.ok.inj hk
      refine ⟨1, by simp, ?_, by simp⟩
      exact hs.take u m
    · obtain rfl := Except.ok.inj hk
      refine ⟨0, by simp, by simpa [Holds] using hs, fun hdone => ?_⟩
      exact absurd (by rw [hs.1, hdone]; rfl) hempty

theorem takeUnits_returns {enc : TokenEncoding} {budget : Budget} {us done : List JobUnit} {s : PageState}
    (hs : Holds s done) (h : Measurable (textOfUnits (done ++ us))) : ∃ s', takeUnits enc budget us s = .ok s' := by
  induction us generalizing s done with
  | nil => exact ⟨s, rfl⟩
  | cons u us ih =>
    rw [← List.singleton_append, ← List.append_assoc] at h
    have hfront : Measurable (s.rendered ++ [u.text]).flatten := by
      rw [hs.candidate u]
      rw [textOfUnits_append] at h
      exact h.left
    obtain ⟨m, hm⟩ := (measure_returns_iff enc budget _).mpr hfront
    simp only [takeUnits, hm, bind, Except.bind]
    split_ifs
    · exact ih (hs.take u m) h
    · exact ⟨_, rfl⟩
    · exact ⟨_, rfl⟩

/-- Where every text fits, the page goes on until it has to measure the whole. -/
theorem takeUnits_raises {enc : TokenEncoding} {budget : Budget} {us done : List JobUnit} {s : PageState}
    (hs : Holds s done) (hdone : Measurable (textOfUnits done)) (h : ¬Measurable (textOfUnits (done ++ us)))
    (hfit : ∀ t m, t <+: textOfUnits (done ++ us) → measure enc budget t = .ok m → m.fits = true) :
    ¬∃ s', takeUnits enc budget us s = .ok s' := by
  induction us generalizing s done with
  | nil => exact absurd (by simpa using hdone) h
  | cons u us ih =>
    rw [← List.singleton_append, ← List.append_assoc] at h hfit
    intro hok
    obtain ⟨s', hok⟩ := hok
    obtain ⟨m, hm, hk⟩ := bind_eq_ok.mp hok
    have hfront : (s.rendered ++ [u.text]).flatten <+: textOfUnits (done ++ [u] ++ us) := by
      rw [hs.candidate u, textOfUnits_append (done ++ [u]) us]
      exact List.prefix_append _ _
    have hfits := hfit _ m hfront hm
    rw [if_pos hfits] at hk
    have hclean := (measure_returns_iff enc budget _).mp ⟨m, hm⟩
    rw [hs.candidate u] at hclean
    exact ih (hs.take u m) hclean h hfit ⟨s', hk⟩

/-! ## One page -/

theorem renderJobOutput_ok {enc : TokenEncoding} {raw : Bytes} {final : Bool} {budget : Budget} {us : List JobUnit}
    {tail : Bytes} (hc : Chunk final raw us tail) {page : RenderedPage}
    (h : renderJobOutput enc raw final budget = .ok page) :
    ∃ k ≤ us.length, page.content = textOfUnits (us.take k) ∧
      page.bytesReturned = (rawOfUnits (us.take k)).length ∧ (us ≠ [] → 1 ≤ k) := by
  simp only [renderJobOutput, hc.decoded, bind, Except.bind] at h
  cases hm : measure enc budget [] with
  | error e => simp [hm] at h
  | ok m =>
    simp only [hm] at h
    cases ht : takeUnits enc budget us ⟨[], 0, 0, m, false, false⟩ with
    | error e => simp [ht] at h
    | ok s =>
      simp only [ht, pure, Except.pure, Except.ok.injEq] at h
      obtain ⟨k, hk, hhold, hone⟩ := takeUnits_ok ht (holds_start m)
      refine ⟨k, hk, ?_, ?_, hone rfl⟩
      · rw [← h, ← textOfUnits_eq_flatten]
        exact congrArg List.flatten hhold.1
      · rw [← h]
        exact hhold.2

theorem renderJobOutput_returns (enc : TokenEncoding) {raw : Bytes} (final : Bool) (budget : Budget)
    (h : SpellsNoToken raw) : ∃ page, renderJobOutput enc raw final budget = .ok page := by
  obtain ⟨us, tail, hc⟩ := chunk_exists final raw
  have hclean := hc.spellsNoToken_iff.mp h
  obtain ⟨m, hm⟩ := (measure_returns_iff enc budget []).mpr (avoids_nil nil_notMem_unmeasurable)
  have htaken : ∃ s, takeUnits enc budget us ⟨[], 0, 0, m, false, false⟩ = .ok s :=
    takeUnits_returns (holds_start m) hclean
  obtain ⟨s, hs⟩ := htaken
  simp only [renderJobOutput, hc.decoded, bind, Except.bind, hm, hs]
  exact ⟨_, rfl⟩

/-- A token budget that admits every text on the way through these octets. -/
theorem wideBudget_exists (enc : TokenEncoding) (text : Text) :
    ∃ budget : Budget, ∀ t m, t <+: text → measure enc budget t = .ok m → m.fits = true := by
  have hbound : ∃ n : ℕ, ∀ t, t <+: text → enc.tokensOf t ≤ n := by
    induction text using List.reverseRecOn with
    | nil =>
      refine ⟨enc.tokensOf [], fun t ht => ?_⟩
      rw [List.prefix_nil.mp ht]
    | append_singleton text c ih =>
      obtain ⟨n, hn⟩ := ih
      refine ⟨max n (enc.tokensOf (text ++ [c])), fun t ht => ?_⟩
      cases List.prefix_concat_iff.mp ht with
      | inl ht =>
        rw [ht]
        exact Nat.le_max_right _ _
      | inr ht => exact (hn t ht).trans (Nat.le_max_left _ _)
  obtain ⟨n, hn⟩ := hbound
  refine ⟨{ maxTokens := ⟨n + 1, Nat.succ_pos n⟩ }, fun t m ht hm => ?_⟩
  have hclean := (measure_returns_iff enc _ t).mp ⟨m, hm⟩
  have hbytes := (encodeUtf8_eq_some_iff t (t.flatMap utf8Bytes)).mpr ⟨((measurable_iff t).mp hclean).1, rfl⟩
  simp only [ResponseBudget.measure, hbytes, countTokens_returns hclean, bind, Except.bind, pure, Except.pure,
    Except.ok.injEq] at hm
  rw [← hm]
  simp only [BudgetMeasurement.fits, exceedsBytes, Bool.not_false, Bool.true_and, Bool.not_eq_true',
    decide_eq_false_iff_not]
  exact Nat.not_lt.mpr ((hn t ht).trans (Nat.le_succ n))

/-- With such a budget a page that would hold a special token is not rendered. -/
theorem renderJobOutput_raises (enc : TokenEncoding) {raw : Bytes} (final : Bool) (h : ¬SpellsNoToken raw) :
    ∃ budget, ∀ page, renderJobOutput enc raw final budget ≠ .ok page := by
  obtain ⟨us, tail, hc⟩ := chunk_exists final raw
  have hdirty : ¬Measurable (textOfUnits us) := fun hm => h (hc.spellsNoToken_iff.mpr hm)
  obtain ⟨budget, hfit⟩ := wideBudget_exists enc (textOfUnits us)
  refine ⟨budget, fun page hpage => ?_⟩
  simp only [renderJobOutput, hc.decoded, bind, Except.bind] at hpage
  cases hm : measure enc budget [] with
  | error e => simp [hm] at hpage
  | ok m =>
    simp only [hm] at hpage
    have hno := takeUnits_raises (holds_start m) (avoids_nil nil_notMem_unmeasurable) hdirty hfit
    cases ht : takeUnits enc budget us ⟨[], 0, 0, m, false, false⟩ with
    | error e => simp [ht] at hpage
    | ok s => exact hno ⟨s, ht⟩

/-! ## Following the cursor -/

/-- A request that a caller may make and that can always make progress. -/
def Progressive (request : PageRequest) : Prop := 4 ≤ request.maxBytes ∧ request.maxBytes ≤ maxJobOutputBytes

/-- A caller follows `next_cursor` to the end of the log; every page advances the cursor. -/
inductive Paging (enc : TokenEncoding) (log : Bytes) : (ℕ → PageRequest) → ℕ → List JobPage → Prop
  | last {requests : ℕ → PageRequest} {cursor : ℕ} {p : JobPage} :
      outputJob enc log true cursor (requests 0) = .ok (.page p) → p.eof = true → Paging enc log requests cursor [p]
  | more {requests : ℕ → PageRequest} {cursor : ℕ} {p : JobPage} {ps : List JobPage} :
      outputJob enc log true cursor (requests 0) = .ok (.page p) → p.eof = false → cursor < p.nextCursor →
      Paging enc log (fun n => requests (n + 1)) p.nextCursor ps → Paging enc log requests cursor (p :: ps)

/-- What a page from a unit boundary holds: the next units, at least one if there is one. -/
structure PageOf (log : Bytes) (cursor : ℕ) (us : List JobUnit) (k : ℕ) (p : JobPage) : Prop where
  content : p.content = textOfUnits (us.take k)
  start : p.cursor = cursor
  bytes : p.bytesReturned = (rawOfUnits (us.take k)).length
  next : p.nextCursor = cursor + p.bytesReturned
  eof : p.eof = decide (p.nextCursor = log.length)
  progress : us ≠ [] → 1 ≤ k

/-- A page returned from a unit boundary holds the next units of the log. -/
theorem outputJob_page {enc : TokenEncoding} {log : Bytes} {cursor : ℕ} {request : PageRequest} {us : List JobUnit}
    (hcursor : cursor ≤ log.length) (hrequest : Progressive request) (hus : Decoded (log.drop cursor) us)
    {reply : JobReply} (h : outputJob enc log true cursor request = .ok reply) :
    ∃ p k, reply = .page p ∧ PageOf log cursor us k p := by
  rw [outputJob, if_neg (by simp only [Progressive] at hrequest; omega), if_neg (by omega)] at h
  obtain ⟨page, hpage, hreply⟩ := bind_eq_ok.mp h
  obtain rfl := Except.ok.inj hreply
  have hlen : (log.drop cursor).length = log.length - cursor := List.length_drop
  have hrawlen : ((log.drop cursor).take (min request.maxBytes (log.length - cursor))).length =
      min request.maxBytes (log.length - cursor) := by
    rw [List.length_take, hlen]
    omega
  obtain ⟨vs, tail, hc⟩ := chunk_exists (true && decide (log.length ≤ cursor +
    ((log.drop cursor).take (min request.maxBytes (log.length - cursor))).length))
    ((log.drop cursor).take (min request.maxBytes (log.length - cursor)))
  obtain ⟨k, hk, hcontent, hbytes, hone⟩ := renderJobOutput_ok hc hpage
  -- the units of the chunk are the first units of the rest of the log
  have hmore : (true && decide (log.length ≤ cursor +
      ((log.drop cursor).take (min request.maxBytes (log.length - cursor))).length)) = true →
      (log.drop cursor).drop (min request.maxBytes (log.length - cursor)) = [] := by
    intro hfinal
    rw [Bool.true_and, decide_eq_true_eq, hrawlen] at hfinal
    exact List.drop_eq_nil_of_le (by omega)
  obtain ⟨ws, hws, -, -⟩ := decoded_exists (tail ++ (log.drop cursor).drop (min request.maxBytes (log.length - cursor)))
  have hall := hc.goesOn _ ws hmore hws
  rw [List.take_append_drop] at hall
  obtain rfl := hus.unique hall
  have htake : (vs ++ ws).take k = vs.take k := List.take_append_of_le_length hk
  refine ⟨_, k, rfl, ?_, rfl, ?_, rfl, by simp [jobPage], fun hne => hone fun hvs => ?_⟩
  · rw [htake]
    exact hcontent
  · rw [htake]
    exact hbytes
  · -- a chunk without units is a short tail, so it reaches the end of the log
    have hsplit := hc.split
    rw [hvs, rawOfUnits_nil, List.nil_append] at hsplit
    have hshort := hc.short
    rw [← hsplit, hrawlen] at hshort
    have hend : tail = [] := by
      refine hc.complete ?_
      rw [Bool.true_and, decide_eq_true_eq, hrawlen]
      simp only [Progressive] at hrequest
      omega
    rw [hend] at hsplit hws
    have hlast := congrArg List.length hsplit
    rw [hrawlen, List.length_nil] at hlast
    have hdrop : (log.drop cursor).drop (min request.maxBytes (log.length - cursor)) = [] := by
      refine List.drop_eq_nil_of_le ?_
      simp only [Progressive] at hrequest
      omega
    rw [hdrop, List.append_nil] at hws
    rw [hvs, hws.unique decoded_nil] at hne
    exact hne rfl

theorem spellsNoToken_drop {log : Bytes} (h : SpellsNoToken log) (n m : ℕ) : SpellsNoToken ((log.drop n).take m) :=
  h.piece ((List.take_prefix _ _).isInfix.trans (List.drop_suffix _ _).isInfix)

theorem outputJob_returns {enc : TokenEncoding} {log : Bytes} (h : SpellsNoToken log) (terminal : Bool) (cursor : ℕ)
    (request : PageRequest) : ∃ reply, outputJob enc log terminal cursor request = .ok reply := by
  by_cases hmax : ¬(1 ≤ request.maxBytes ∧ request.maxBytes ≤ maxJobOutputBytes)
  · rw [outputJob, if_pos hmax]
    exact ⟨_, rfl⟩
  · rw [outputJob, if_neg hmax]
    by_cases hcursor : log.length < cursor
    · rw [if_pos hcursor]
      exact ⟨_, rfl⟩
    · rw [if_neg hcursor]
      have hraw := spellsNoToken_drop h cursor (min request.maxBytes (log.length - cursor))
      obtain ⟨page, hpage⟩ := renderJobOutput_returns enc (terminal && decide (log.length ≤ cursor +
        ((log.drop cursor).take (min request.maxBytes (log.length - cursor))).length)) request.budget hraw
      exact ⟨_, bind_eq_ok.mpr ⟨page, hpage, rfl⟩⟩

/-- The pages hold the log: their octets in a row are the log's, their texts in a row are the
text of the whole log. -/
structure Lossless (log : Bytes) (pages : List JobPage) : Prop where
  octets : pages.flatMap (fun p => (log.drop p.cursor).take p.bytesReturned) = log
  singlePass : ∀ d, decodeUtf8Units true log = .ok d → pages.flatMap JobPage.content = textOfUnits d.units
  validText : ∀ text, decodeUtf8 log = some text → pages.flatMap JobPage.content = text

theorem Decoded.facts {data : Bytes} {us : List JobUnit} (h : Decoded data us) :
    rawOfUnits us = data ∧ ∀ u ∈ us, u.Sound := by
  obtain ⟨vs, hvs, hraw, hsound⟩ := decoded_exists data
  obtain rfl := h.unique hvs
  exact ⟨hraw, hsound⟩

private theorem eq_nil_of_raw_nil {us : List JobUnit} (hs : ∀ u ∈ us, u.Sound) (h : rawOfUnits us = []) : us = [] := by
  cases us with
  | nil => rfl
  | cons u us =>
    rw [rawOfUnits_cons, List.append_eq_nil_iff] at h
    exact absurd h.1 (hs u (by simp)).nonempty

/-- From a unit boundary the pages hold the rest of the log. -/
theorem paging_exists (enc : TokenEncoding) {log : Bytes} (hclean : SpellsNoToken log) {requests : ℕ → PageRequest}
    (hrequests : ∀ n, Progressive (requests n)) {cursor : ℕ} (hcursor : cursor ≤ log.length) {us : List JobUnit}
    (hus : Decoded (log.drop cursor) us) :
    ∃ pages, Paging enc log requests cursor pages ∧
      pages.flatMap (fun p => (log.drop p.cursor).take p.bytesReturned) = log.drop cursor ∧
      pages.flatMap JobPage.content = textOfUnits us := by
  induction hn : us.length using Nat.strong_induction_on generalizing us cursor requests with
  | _ n ih =>
    have hreturns : ∃ reply, outputJob enc log true cursor (requests 0) = .ok reply :=
      outputJob_returns hclean true cursor (requests 0)
    obtain ⟨reply, hreply⟩ := hreturns
    obtain ⟨p, k, rfl, hp⟩ := outputJob_page hcursor (hrequests 0) hus hreply
    have hlen : (log.drop cursor).length = log.length - cursor := List.length_drop
    have hraw : rawOfUnits (us.take k) ++ rawOfUnits (us.drop k) = log.drop cursor := by
      rw [← rawOfUnits_append, List.take_append_drop]
      exact hus.facts.1
    have hparts := congrArg List.length hraw
    rw [List.length_append, hlen] at hparts
    have hoctets : (log.drop p.cursor).take p.bytesReturned = rawOfUnits (us.take k) := by
      rw [hp.start, hp.bytes, ← hraw, List.take_left]
    have hbytes := hp.bytes
    have hnext := hp.next
    have heof := hp.eof
    have hdropped : Decoded (log.drop p.nextCursor) (us.drop k) := by
      have h : Decoded (log.drop cursor) (us.take k ++ us.drop k) := by rwa [List.take_append_drop]
      have h := h.drop
      rwa [← hp.bytes, List.drop_drop, ← hnext] at h
    by_cases hend : p.nextCursor = log.length
    · have hnil : us.drop k = [] := by
        refine eq_nil_of_raw_nil (fun u hu => hus.facts.2 u (List.mem_of_mem_drop hu)) ?_
        exact List.eq_nil_of_length_eq_zero (by omega)
      have hall : us.take k = us := by
        have h := List.take_append_drop k us
        rwa [hnil, List.append_nil] at h
      refine ⟨[p], .last hreply (by rw [heof, decide_eq_true hend]), ?_, ?_⟩
      · rw [List.flatMap_singleton, hoctets, hall]
        exact hus.facts.1
      · rw [List.flatMap_singleton, hp.content, hall]
    · have hne : us ≠ [] := by
        intro hnil
        rw [hnil, List.take_nil, List.drop_nil, rawOfUnits_nil] at hparts
        rw [hnil, List.take_nil, rawOfUnits_nil] at hbytes
        simp only [List.length_nil] at hparts hbytes
        omega
      have hone := hp.progress hne
      have hadvance : 0 < (rawOfUnits (us.take k)).length := by
        refine Nat.pos_of_ne_zero fun hzero => ?_
        have hnil := eq_nil_of_raw_nil (fun u hu => hus.facts.2 u (List.mem_of_mem_take hu))
          (List.eq_nil_of_length_eq_zero hzero)
        rw [List.take_eq_nil_iff] at hnil
        exact hnil.elim (by omega) hne
      have hshorter : (us.drop k).length < n := by
        have hpos : 0 < us.length := List.length_pos_of_ne_nil hne
        rw [List.length_drop]
        omega
      obtain ⟨pages, hpages, hrest, htext⟩ := ih _ hshorter (fun m => hrequests (m + 1)) (by omega) hdropped rfl
      refine ⟨p :: pages, .more hreply (by rw [heof, decide_eq_false hend]) (by omega) hpages, ?_, ?_⟩
      · rw [List.flatMap_cons, hoctets, hrest, hnext, ← List.drop_drop, hp.bytes, ← hraw, List.drop_left]
      · rw [List.flatMap_cons, hp.content, htext, ← textOfUnits_append, List.take_append_drop]

/-- A well-formed log is decoded character by character. -/
theorem decoded_valid {text : Text} (ht : isEncodable text = true) {us : List JobUnit}
    (h : Decoded (text.flatMap utf8Bytes) us) : textOfUnits us = text := by
  induction text generalizing us with
  | nil =>
    rw [h.unique decoded_nil]
    rfl
  | cons c text ih =>
    rw [isEncodable_cons, Bool.and_eq_true, Bool.not_eq_true'] at ht
    obtain ⟨b, bs, hb⟩ := List.exists_cons_of_ne_nil (utf8Bytes_ne_nil c)
    obtain ⟨vs, hvs, -⟩ := decoded_exists (text.flatMap utf8Bytes)
    have hnext := nextUnit_encoded true c ht.1 b bs (text.flatMap utf8Bytes) hb
    rw [List.flatMap_cons, hb, List.cons_append] at h
    have hdrop : (bs ++ text.flatMap utf8Bytes).drop ((b :: bs).length - 1) = text.flatMap utf8Bytes := List.drop_left
    have hcons := decode_cons hnext (hdrop.symm ▸ hvs)
    rw [h.unique hcons]
    have htext := ih ht.2 hvs
    rw [← List.singleton_append, textOfUnits_append, htext]
    rfl

/-- A log that is valid UTF-8 decodes to its text. -/
theorem decoded_of_decodeUtf8 {log : Bytes} {text : Text} (h : decodeUtf8 log = some text) {us : List JobUnit}
    (hus : Decoded log us) : textOfUnits us = text := by
  have hspells := decodeUtf8_spells h
  rw [← hspells.2] at hus
  exact decoded_valid hspells.1 hus

/-- A page never reaches beyond its byte limit, nor its end beyond the log. -/
theorem outputJob_bounds {enc : TokenEncoding} {log : Bytes} {cursor : ℕ} {request : PageRequest} {p : JobPage}
    (h : outputJob enc log true cursor request = .ok (.page p)) :
    p.nextCursor ≤ cursor + request.maxBytes ∧ (p.eof = true → p.nextCursor = log.length) := by
  by_cases hmax : ¬(1 ≤ request.maxBytes ∧ request.maxBytes ≤ maxJobOutputBytes)
  · rw [outputJob, if_pos hmax] at h
    exact nomatch h
  · rw [outputJob, if_neg hmax] at h
    by_cases hcursor : log.length < cursor
    · rw [if_pos hcursor] at h
      exact nomatch h
    · rw [if_neg hcursor] at h
      obtain ⟨page, hpage, hreply⟩ := bind_eq_ok.mp h
      obtain rfl := JobReply.page.inj (Except.ok.inj hreply)
      obtain ⟨us, tail, hc⟩ := chunk_exists (true && decide (log.length ≤ cursor +
        ((log.drop cursor).take (min request.maxBytes (log.length - cursor))).length))
        ((log.drop cursor).take (min request.maxBytes (log.length - cursor)))
      obtain ⟨k, -, -, hbytes, -⟩ := renderJobOutput_ok hc hpage
      have hle : (rawOfUnits (us.take k)).length ≤
          ((log.drop cursor).take (min request.maxBytes (log.length - cursor))).length := by
        have hus : us.take k ++ us.drop k = us := List.take_append_drop k us
        rw [hc.split, ← hus, rawOfUnits_append]
        simp only [List.length_append, hus]
        omega
      rw [List.length_take] at hle
      refine ⟨?_, ?_⟩
      · simp only [jobPage, hbytes]
        omega
      · simp [jobPage]

/-- Where the log spells a special token some way of paging it is cut off. -/
theorem paging_cut_off (enc : TokenEncoding) {log : Bytes} (h : ¬SpellsNoToken log) :
    ∃ requests : ℕ → PageRequest, (∀ n, Progressive (requests n)) ∧ ∀ pages, ¬Paging enc log requests 0 pages := by
  rw [spellsNoToken_iff] at h
  push Not at h
  obtain ⟨w, hw, hocc⟩ := h
  have hshort : (w.flatMap utf8Bytes).length ≤ 16 := by
    have hall : (specialTokens.all fun w => decide ((w.flatMap utf8Bytes).length ≤ 16)) = true := by decide
    exact of_decide_eq_true (List.all_eq_true.mp hall w hw)
  obtain ⟨before, after, hlog⟩ := hocc
  rw [List.append_assoc] at hlog
  have hlen : before.length + (w.flatMap utf8Bytes).length ≤ log.length := by
    rw [← hlog]
    simp only [List.length_append]
    omega
  -- pages of four octets lead close to the token, and then one page takes it in
  suffices hfrom : ∀ cursor ≤ before.length, ∃ requests : ℕ → PageRequest, (∀ n, Progressive (requests n)) ∧
      ∀ pages, ¬Paging enc log requests cursor pages from hfrom 0 (Nat.zero_le _)
  intro cursor hcursor
  induction hd : before.length - cursor using Nat.strong_induction_on generalizing cursor with
  | _ d ih =>
    by_cases hclose : before.length + (w.flatMap utf8Bytes).length ≤ cursor + maxJobOutputBytes
    · have hraw : ¬SpellsNoToken ((log.drop cursor).take (min maxJobOutputBytes (log.length - cursor))) := by
        rw [spellsNoToken_iff]
        intro hno
        refine hno w hw ?_
        have hdrop : log.drop cursor = before.drop cursor ++ (w.flatMap utf8Bytes ++ after) := by
          rw [← hlog, List.drop_append_of_le_length hcursor]
        have hpre : before.drop cursor ++ w.flatMap utf8Bytes <+:
            (log.drop cursor).take (min maxJobOutputBytes (log.length - cursor)) := by
          rw [List.prefix_take_iff, hdrop, ← List.append_assoc]
          refine ⟨List.prefix_append _ _, ?_⟩
          simp only [List.length_append, List.length_drop]
          omega
        exact (List.suffix_append _ _).isInfix.trans hpre.isInfix
      obtain ⟨budget, hbudget⟩ := renderJobOutput_raises enc (true && decide (log.length ≤ cursor +
        ((log.drop cursor).take (min maxJobOutputBytes (log.length - cursor))).length)) hraw
      have hmax : 4 ≤ maxJobOutputBytes := by decide
      have hraises : ∀ p, outputJob enc log true cursor ⟨maxJobOutputBytes, budget, 0, 0⟩ ≠ .ok (.page p) := by
        intro p hp
        rw [outputJob, if_neg (fun hbad => hbad ⟨le_trans (by decide) hmax, le_refl _⟩), if_neg (by omega)] at hp
        obtain ⟨page, hpage, -⟩ := bind_eq_ok.mp hp
        exact hbudget page hpage
      refine ⟨fun _ => ⟨maxJobOutputBytes, budget, 0, 0⟩, fun _ => ⟨hmax, le_refl _⟩, fun pages hp => ?_⟩
      cases hp with
      | last hpage _ => exact hraises _ hpage
      | more hpage _ _ _ => exact hraises _ hpage
    · have hmax : maxJobOutputBytes = 262144 := rfl
      let small : PageRequest := ⟨4, { maxTokens := ⟨1, Nat.one_pos⟩ }, 0, 0⟩
      have hsmall : Progressive small := by
        refine ⟨le_refl 4, ?_⟩
        rw [hmax]
        exact (by decide : 4 ≤ 262144)
      by_cases hnext : ∃ q, outputJob enc log true cursor small = .ok (.page q) ∧ cursor < q.nextCursor
      · obtain ⟨q, hq, hadvance⟩ := hnext
        have hle : q.nextCursor ≤ cursor + 4 := (outputJob_bounds hq).1
        obtain ⟨requests, hprog, hno⟩ := ih (before.length - q.nextCursor) (by omega) q.nextCursor (by omega) rfl
        refine ⟨fun n => Nat.casesOn (motive := fun _ => PageRequest) n small requests, fun n => ?_, fun pages hp => ?_⟩
        · cases n with
          | zero => exact hsmall
          | succ n => exact hprog n
        · cases hp with
          | last hpage heof =>
            have hend := (outputJob_bounds hpage).2 heof
            have hle : _ ≤ cursor + 4 := (outputJob_bounds hpage).1
            omega
          | more hpage _ _ hrest =>
            obtain rfl := JobReply.page.inj (Except.ok.inj (hpage.symm.trans hq))
            exact hno _ hrest
      · refine ⟨fun _ => small, fun _ => hsmall, fun pages hp => ?_⟩
        cases hp with
        | last hpage heof =>
          have hend := (outputJob_bounds hpage).2 heof
          have hle : _ ≤ cursor + 4 := (outputJob_bounds hpage).1
          omega
        | more hpage _ hadvance _ => exact hnext ⟨_, hpage, hadvance⟩

/-- A log that spells no special token is paged to its end without loss. -/
theorem paging_lossless (enc : TokenEncoding) {log : Bytes} (hclean : SpellsNoToken log) {requests : ℕ → PageRequest}
    (hrequests : ∀ n, Progressive (requests n)) : ∃ pages, Paging enc log requests 0 pages ∧ Lossless log pages := by
  obtain ⟨us, hus, -⟩ := decoded_exists log
  have hdrop : Decoded (log.drop 0) us := hus
  obtain ⟨pages, hpages, hoctets, htext⟩ := paging_exists enc hclean hrequests (Nat.zero_le _) hdrop
  refine ⟨pages, hpages, hoctets, fun d hd => ?_, fun text hvalid => ?_⟩
  · rw [htext, Except.ok.inj (hd.symm.trans hus)]
  · rw [htext]
    exact decoded_of_decodeUtf8 hvalid hus

/-- Every way of paging a log reaches its end and loses nothing exactly when the log spells
no special token. -/
theorem paging_lossless_iff (enc : TokenEncoding) (log : Bytes) :
    (∀ requests : ℕ → PageRequest, (∀ n, Progressive (requests n)) →
      ∃ pages, Paging enc log requests 0 pages ∧ Lossless log pages) ↔ SpellsNoToken log := by
  constructor
  · intro h
    by_contra hdirty
    obtain ⟨requests, hprog, hno⟩ := paging_cut_off enc hdirty
    obtain ⟨pages, hpages, -⟩ := h requests hprog
    exact hno pages hpages
  · intro hclean requests hprog
    exact paging_lossless enc hclean hprog

/-- A finished job that printed an end-of-text literal cannot be paged to its end. -/
theorem endoftext_log_not_paged : ¬∀ requests : ℕ → PageRequest, (∀ n, Progressive (requests n)) →
    ∃ pages, Paging perCharacter ((txt "<|endoftext|>").flatMap utf8Bytes) requests 0 pages := by
  intro h
  have hdirty : ¬SpellsNoToken ((txt "<|endoftext|>").flatMap utf8Bytes) := by decide +kernel
  obtain ⟨requests, hprog, hno⟩ := paging_cut_off perCharacter hdirty
  obtain ⟨pages, hpages⟩ := h requests hprog
  exact hno pages hpages

end WebOauthMcp.JobPaging
