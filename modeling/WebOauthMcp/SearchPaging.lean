import WebOauthMcp.ReplyFields
import WebOauthMcp.SearchPages

/-!
# Following the offsets of a search

The collector fills a page; the page is then finished with what the search was for, and sheds
items if it does not fit any more.
-/

namespace WebOauthMcp.SearchPaging
open CodePoints JsonText ExceptSteps ResponseBudget BudgetMetadata FileReplies SearchPages OffsetPaging ReplyOffsets ReplyFields

/-! ## The collector -/

/-- How a collector comes to its end. -/
inductive Ending
  | exhausted
  | limit
  | budget

def Ending.truncated : Ending → Bool
  | .exhausted => false
  | .limit => true
  | .budget => true

def Ending.reason : Ending → Text
  | .exhausted => txt "end_of_results"
  | .limit => txt "limit"
  | .budget => txt "token_budget"

/-- After `done` items it takes `k` of `n` more, and why it takes no other. -/
structure Reaches (fits : ℕ → Prop) (limit done n k : ℕ) (e : Ending) : Prop where
  le : k ≤ n
  fitted : ∀ j < k, fits (j + 1)
  within : limit ≠ 0 → done + k ≤ limit
  ending : match e with
    | .exhausted => k = n
    | .limit => k < n ∧ limit ≠ 0 ∧ limit ≤ done + k
    | .budget => k < n ∧ ¬fits (k + 1) ∧ (limit ≠ 0 → done + k < limit)

variable {enc : TokenEncoding} {p : PageSetup}

/-- The page with these items fits. -/
def CandidateFits (enc : TokenEncoding) (p : PageSetup) (items : List Json) : Prop :=
  fitsReply enc p.budget (candidatePayload p items (some (p.offset + items.length))) true (txt "token_budget") = true

section
variable {budget : Budget} (hbytes : budget.maxBytes = none)
include hbytes

theorem measure_withinBytes {text : Text} {m : BudgetMeasurement} (h : measure enc budget text = .ok m) : m.exceedsByteBudget = false := by
  rw [(measure_eq_ok h).1, hbytes]
  rfl

/-- Without a byte budget a page that does not fit has too many tokens. -/
theorem stopReason_of_not_fits {payload : Dict} {truncated : Bool} {reason : Text} {r : Dict × BudgetMeasurement}
    (h : withBudgetMetadata enc payload budget truncated reason = .ok r) (hfits : r.2.fits = false) :
    r.2.stopReason = some (txt "token_budget") := by
  have hwithin : r.2.exceedsByteBudget = false := reply_measured (fun _ _ _ hm => measure_withinBytes hbytes hm) h
  rw [BudgetMeasurement.fits, hwithin] at hfits
  have htokens : r.2.exceedsTokenBudget = true := by simpa using hfits
  rw [BudgetMeasurement.stopReason, hwithin, htokens]
  rfl

end

/-- A collector that has reached its offset. -/
structure Collecting (p : PageSetup) (s : PageState) : Prop where
  going : s.shouldStop = false
  untouched : s.truncated = false
  reason : s.stopReason = txt "end_of_results"
  within : p.limit ≠ 0 → s.items.length ≤ p.limit

theorem addAll_collects (hbytes : p.budget.maxBytes = none) {s s' : PageState} {items : List Json} (hs : Collecting p s)
    (hseen : items ≠ [] → p.offset ≤ s.seen) (h : addAll enc p items s = .ok s') : ∃ k e,
      Reaches (fun k => CandidateFits enc p (s.items ++ items.take k)) p.limit s.items.length items.length k e ∧
      s'.items = s.items ++ items.take k ∧ s'.truncated = e.truncated ∧ s'.stopReason = e.reason := by
  induction items generalizing s with
  | nil =>
    cases Except.ok.inj h
    refine ⟨0, .exhausted, ⟨Nat.le_refl 0, fun j hj => absurd hj (Nat.not_lt_zero j), hs.within, rfl⟩, (List.append_nil _).symm,
      hs.untouched, hs.reason⟩
  | cons item items ih =>
    obtain ⟨t, ht, h⟩ := bind_eq_ok.mp h
    have hoffset := hseen (List.cons_ne_nil _ _)
    rw [add, if_neg (by simp [hs.going]), if_neg (Nat.not_lt.mpr hoffset)] at ht
    split at ht
    · next hlimit =>
      cases Except.ok.inj ht
      rw [addAll_stopped rfl] at h
      cases Except.ok.inj h
      refine ⟨0, .limit, ⟨Nat.zero_le _, fun j hj => absurd hj (Nat.not_lt_zero j), hs.within, ⟨Nat.succ_pos _, hlimit.1, hlimit.2⟩⟩,
        (List.append_nil _).symm, rfl, rfl⟩
    · next hlimit =>
      obtain ⟨candidate, hcandidate, ht⟩ := bind_eq_ok.mp ht
      have hone : fitsReply enc p.budget (candidatePayload p (s.items ++ [item]) (some (p.offset + (s.items ++ [item]).length))) true
          (txt "token_budget") = candidate.2.fits := by
        rw [List.length_append, List.length_singleton]
        exact fitsReply_of_ok hcandidate
      split at ht
      · next hfits =>
        cases Except.ok.inj ht
        have hstep : Collecting p { s with seen := s.seen + 1, items := s.items ++ [item] } := by
          refine ⟨hs.going, hs.untouched, hs.reason, fun hne => ?_⟩
          rw [List.length_append, List.length_singleton]
          have hless : ¬p.limit ≤ s.items.length := fun hle => hlimit ⟨hne, hle⟩
          omega
        obtain ⟨k, e, hreach, hitems, hflags⟩ := ih hstep (fun _ => Nat.le_succ_of_le hoffset) h
        have hshift : ∀ j, s.items ++ (item :: items).take (j + 1) = s.items ++ [item] ++ items.take j := fun j => by
          rw [List.take_succ_cons, List.append_cons]
        refine ⟨k + 1, e, ⟨Nat.succ_le_succ hreach.le, fun j hj => ?_, fun hne => ?_, ?_⟩, ?_, hflags⟩
        · rw [hshift]
          cases j with
          | zero =>
            rw [List.take_zero, List.append_nil]
            exact hone.trans hfits
          | succ j => exact hreach.fitted j (Nat.lt_of_succ_lt_succ hj)
        · have hwithin := hreach.within hne
          simp only [List.length_append, List.length_singleton] at hwithin
          omega
        · have hending := hreach.ending
          simp only [List.length_append, List.length_singleton] at hending
          cases e with
          | exhausted => exact congrArg Nat.succ hending
          | limit => exact ⟨Nat.succ_lt_succ hending.1, hending.2.1, by omega⟩
          | budget =>
            refine ⟨Nat.succ_lt_succ hending.1, ?_, fun hne => by have := hending.2.2 hne; omega⟩
            rw [hshift]
            exact hending.2.1
        · rw [hitems, hshift]
      · next hfits =>
        cases Except.ok.inj ht
        rw [addAll_stopped rfl] at h
        cases Except.ok.inj h
        have hnot := Bool.eq_false_of_not_eq_true hfits
        refine ⟨0, .budget, ⟨Nat.zero_le _, fun j hj => absurd hj (Nat.not_lt_zero j), hs.within, Nat.succ_pos _, ?_, fun hne => ?_⟩,
          (List.append_nil _).symm, rfl, ?_⟩
        · rw [List.take_succ_cons, List.take_zero, CandidateFits, hone, hnot]
          exact Bool.false_ne_true
        · exact Nat.lt_of_not_le fun hle => hlimit ⟨hne, hle⟩
        · rw [stopReason_of_not_fits hbytes hcandidate hnot]
          rfl

/-- Items before the offset are only counted. -/
theorem addAll_skips {s : PageState} (hgoing : s.shouldStop = false) (items : List Json) : addAll enc p items s =
    addAll enc p (items.drop (p.offset - s.seen)) { s with seen := s.seen + min (p.offset - s.seen) items.length } := by
  induction items generalizing s with
  | nil => simp [addAll]
  | cons item items ih =>
    by_cases hskip : s.seen < p.offset
    · have hadd : add enc p s item = .ok { s with seen := s.seen + 1 } := by
        rw [add, if_neg (by simp [hgoing]), if_pos hskip]
        rfl
      obtain ⟨n, hn⟩ := Nat.exists_eq_add_of_lt hskip
      have hleft : p.offset - s.seen = n + 1 := by omega
      have hrest : p.offset - (s.seen + 1) = n := by omega
      rw [addAll, hadd, hleft, List.drop_succ_cons]
      refine (ih (s := { s with seen := s.seen + 1 }) hgoing).trans ?_
      rw [hrest, List.length_cons, Nat.add_min_add_right]
      congr 2
      dsimp only
      omega
    · have hnone : p.offset - s.seen = 0 := by omega
      rw [hnone, Nat.zero_min]
      rfl

/-! ## Finished pages -/

def resultKeys : List Text := [txt "matches", txt "files", txt "counts"]

def succeeded (d : Dict) : Bool :=
  match dictGet (txt "success") d with
  | some (.bool b) => b
  | _ => false

/-- What a search found, and how its pages are made and finished. -/
structure Search where
  key : Text
  base : Dict
  mode : Text
  query : Option Text
  maxTokens : ℕ+
  items : List Json
  known : key ∈ resultKeys
  distinct : (keys base).Nodup
  success : succeeded base = true

variable (enc) (x : Search)

def Search.budget : Budget := { maxTokens := x.maxTokens }

def Search.setup (offset limit : ℕ) : PageSetup := ⟨offset, limit, x.key, x.base, x.budget⟩

/-- The mode is added to every reply and the query to that of a text search. -/
def Search.withQuery (d : Dict) : Dict :=
  match x.query with
  | none => dictSet (txt "mode") (.str x.mode) d
  | some q => if x.mode = txt "text" then dictSet (txt "query") (.str q) (dictSet (txt "mode") (.str x.mode) d)
      else dictSet (txt "mode") (.str x.mode) d

/-- `_finalize_search_result`. -/
def finalizeSearchResult (offset : ℕ) (result : Dict) : Except Raised Dict :=
  if succeeded (x.withQuery result) = false then pure (x.withQuery result)
  else do
    let rendered ← withBudgetMetadata enc (x.withQuery result) x.budget (truncatedOf result) (stopReasonOf result)
    shedItems enc x.budget x.key offset (shownItems x.key rendered.1) (shownItems x.key rendered.1).length rendered

/-- A page of the collector, as a search that is not stopped from outside makes it. -/
def collectPage (p : PageSetup) (items : List Json) : Except Raised Dict := do
  let s ← addAll enc p items {}
  payload enc p s

/-- A search for a page. -/
def searchPage (offset limit : ℕ) : Except Raised Dict := do
  let d ← collectPage enc (x.setup offset limit) x.items
  finalizeSearchResult enc x offset d

theorem globFiles_eq (c : GlobCall) (found : List GlobMatch) (offset limit : ℕ) (maxTokens : ℕ+) :
    globFiles enc c found offset limit maxTokens = collectPage enc (globSetup c offset limit maxTokens) (found.map globItem) := rfl

theorem grepFiles_eq {c : GrepCall} {run : GrepRun} {offset limit : ℕ} {maxTokens : ℕ+} {d : Dict} (hforced : run.forced = none)
    (h : grepFiles enc c run offset limit maxTokens = .ok (.page d)) :
    collectPage enc (grepSetup c offset limit maxTokens) (run.whileReading ++ run.atFinish) = .ok d := by
  simp only [grepFiles, hforced, afterReading] at h
  split at h
  · exact absurd h (by simp [pure, Except.pure])
  · next s hs =>
    obtain ⟨t, ht, h⟩ := bind_eq_ok.mp h
    obtain ⟨d', hd, h⟩ := bind_eq_ok.mp h
    cases Except.ok.inj h
    rw [collectPage, addAll_append, hs]
    exact bind_eq_ok.mpr ⟨t, ht, hd⟩

def Search.itemsAt (i k : ℕ) : List Json := (x.items.drop i).take k

def nextJson (truncated : Bool) (n : ℕ) : Json := if truncated then natJson n else .null

/-- The page that the collector returns. -/
def Search.page (i k : ℕ) (e : Ending) : Dict := pageOf x.key x.base (x.itemsAt i k) (nextJson e.truncated (i + k))

/-- Whether that page is flagged as truncated, and with which reason. -/
def Search.flags (i k : ℕ) (e : Ending) : Bool × Text :=
  match withBudgetMetadata enc (x.page i k e) x.budget e.truncated e.reason with
  | .ok r => (truncatedOf r.1, stopReasonOf r.1)
  | .error _ => (false, [])

/-- The collector takes `k` items at the offset: they fit as its candidate. -/
def CollectorFits (i k : ℕ) : Prop :=
  fitsReply enc x.budget (pageOf x.key x.base (x.itemsAt i k) (natJson (i + k))) true (txt "token_budget") = true

/-- The finished page fits as the collector leaves it. -/
def FinishedFits (i k : ℕ) (e : Ending) : Prop :=
  fitsReply enc x.budget (x.withQuery (x.page i k e)) (x.flags enc i k e).1 (x.flags enc i k e).2 = true

/-- The finished page fits once items were shed. -/
def ShedFits (i k : ℕ) : Prop :=
  fitsReply enc x.budget (pageOf x.key (x.withQuery x.base) (x.itemsAt i k) (natJson (i + k))) true (txt "token_budget") = true

variable {enc x}

theorem key_notContract : x.key ∉ txt "mode" :: txt "query" :: txt "success" :: txt "next_offset" :: contractKeys := by
  have hall : ∀ k ∈ resultKeys, k ∉ txt "mode" :: txt "query" :: txt "success" :: txt "next_offset" :: contractKeys := by decide
  exact hall x.key x.known

theorem key_reserved : x.key ∉ txt "next_offset" :: contractKeys := by
  have hall : ∀ k ∈ resultKeys, k ∉ txt "next_offset" :: contractKeys := by decide
  exact hall x.key x.known

theorem key_benign : isBenign x.key = true := by
  have hall : ∀ k ∈ resultKeys, isBenign k = true := by decide
  exact hall x.key x.known

theorem withQuery_same {ks : List Text} {d d' : Dict} (h : SameOutside ks d d') : SameOutside ks (x.withQuery d) (x.withQuery d') := by
  have hset : ∀ {d d' : Dict} (k : Text) (v : Json), SameOutside ks d d' → SameOutside ks (dictSet k v d) (dictSet k v d') :=
    fun k v h => (h.mono fun _ hmem => List.mem_cons_of_mem k hmem).set v
  unfold Search.withQuery
  split
  · exact hset _ _ h
  · split
    · exact hset _ _ (hset _ _ h)
    · exact hset _ _ h

theorem withQuery_get {k : Text} (hmode : k ≠ txt "mode") (hquery : k ≠ txt "query") (d : Dict) :
    dictGet k (x.withQuery d) = dictGet k d := by
  unfold Search.withQuery
  split
  · exact dictGet_dictSet_of_ne hmode _ _
  · split
    · rw [dictGet_dictSet_of_ne hquery, dictGet_dictSet_of_ne hmode]
    · exact dictGet_dictSet_of_ne hmode _ _

theorem length_itemsAt {i k : ℕ} (h : k ≤ x.items.length - i) : (x.itemsAt i k).length = k := by
  rw [Search.itemsAt, List.length_take, List.length_drop]
  exact Nat.min_eq_left h

/-- What the collector returns. -/
theorem collectPage_spec {i limit : ℕ} {d : Dict} (h : collectPage enc (x.setup i limit) x.items = .ok d) : ∃ k e,
    Reaches (CollectorFits enc x i) limit 0 (x.items.length - i) k e ∧
      ∃ r, withBudgetMetadata enc (x.page i k e) x.budget e.truncated e.reason = .ok r ∧ d = r.1 := by
  obtain ⟨s, hs, h⟩ := bind_eq_ok.mp h
  rw [addAll_skips rfl] at hs
  have hdrop : (x.setup i limit).offset - ({} : PageState).seen = i := Nat.sub_zero i
  rw [hdrop] at hs
  have hstart : Collecting (x.setup i limit) { ({} : PageState) with seen := 0 + min i x.items.length } := ⟨rfl, rfl, rfl, fun _ => Nat.zero_le _⟩
  obtain ⟨k, e, hreach, hitems, htruncated, hreason⟩ := addAll_collects rfl hstart (fun hsome => by
    have hlt : i < x.items.length := by
      by_contra hnot
      exact hsome (List.drop_of_length_le (Nat.not_lt.mp hnot))
    have hmin : min i x.items.length = i := Nat.min_eq_left (Nat.le_of_lt hlt)
    show i ≤ 0 + min i x.items.length
    omega) hs
  have hle := hreach.le
  rw [List.length_drop] at hle
  have hcount : s.items = x.itemsAt i k := hitems
  obtain ⟨r, hr, h⟩ := bind_eq_ok.mp h
  refine ⟨k, e, ⟨hle, fun j hj => ?_, hreach.within, ?_⟩, r, ?_, (Except.ok.inj h).symm⟩
  · have hfit := hreach.fitted j hj
    have hlength : ((x.items.drop i).take (j + 1)).length = j + 1 := length_itemsAt (by omega)
    rw [CandidateFits, List.nil_append, hlength] at hfit
    exact hfit
  · have hending := hreach.ending
    rw [List.length_drop] at hending
    cases e with
    | exhausted => exact hending
    | limit => exact hending
    | budget =>
      refine ⟨hending.1, ?_, hending.2.2⟩
      have hlength : ((x.items.drop i).take (k + 1)).length = k + 1 := length_itemsAt (by have := hending.1; omega)
      have hnot := hending.2.1
      rw [CandidateFits, List.nil_append, hlength] at hnot
      exact hnot
  · have hnext : optionalCount (if s.truncated then some ((x.setup i limit).offset + s.items.length) else none) =
        nextJson e.truncated (i + k) := by
      rw [htruncated, hcount, length_itemsAt hle, nextJson]
      cases e.truncated with
      | true => rfl
      | false => rfl
    have hpage : x.page i k e = candidatePayload (x.setup i limit) s.items
        (if s.truncated then some ((x.setup i limit).offset + s.items.length) else none) := by
      rw [Search.page, candidatePayload, hnext, ← hcount]
      rfl
    rw [hpage, ← htruncated, ← hreason]
    exact hr

/-- The finished page differs from what it is made of in the items and the offset only. -/
theorem finished_same (i k : ℕ) (e : Ending) :
    SameOutside (x.key :: txt "next_offset" :: contractKeys) (x.withQuery (x.page i k e)) (x.withQuery x.base) :=
  withQuery_same (pageOf_base x.distinct _ _)

theorem flags_of_ok {i k : ℕ} {e : Ending} {r : Dict × BudgetMeasurement}
    (h : withBudgetMetadata enc (x.page i k e) x.budget e.truncated e.reason = .ok r) :
    x.flags enc i k e = (truncatedOf r.1, stopReasonOf r.1) := by rw [Search.flags, h]

/-- The page that a search returns at an offset. -/
structure PageAt (enc : TokenEncoding) (x : Search) (i limit m : ℕ) (e : Ending) (k : ℕ) (d : Dict) : Prop where
  reaches : Reaches (CollectorFits enc x i) limit 0 (x.items.length - i) m e
  shed : Shed (FinishedFits enc x i m e) (ShedFits enc x i) m k
  items : shownItems x.key d = x.itemsAt i k
  whole : k = m → nextOffsetOf d = (if e.truncated then some (i + m) else none) ∧ (e.truncated = true → truncatedOf d = true) ∧
    (truncatedOf d = true → e.truncated = true ∨ stopReasonOf d = metadataExceeds)
  cut : k < m → nextOffsetOf d = some (i + k) ∧ truncatedOf d = true

theorem nextOffsetOf_page (i k : ℕ) (e : Ending) : nextOffsetOf (x.withQuery (x.page i k e)) = if e.truncated then some (i + k) else none := by
  rw [nextOffsetOf, withQuery_get (by decide) (by decide), Search.page, pageOf, dictGet_dictSet_self, nextJson]
  cases e.truncated with
  | true => rfl
  | false => rfl

/-- The steps of a search that returns a page. -/
theorem searchPage_steps {i limit : ℕ} {d : Dict} (h : searchPage enc x i limit = .ok d) : ∃ m e r rendered,
    Reaches (CollectorFits enc x i) limit 0 (x.items.length - i) m e ∧
      withBudgetMetadata enc (x.page i m e) x.budget e.truncated e.reason = .ok r ∧
      withBudgetMetadata enc (x.withQuery r.1) x.budget (truncatedOf r.1) (stopReasonOf r.1) = .ok rendered ∧
      shedItems enc x.budget x.key i (shownItems x.key rendered.1) (shownItems x.key rendered.1).length rendered = .ok d := by
  obtain ⟨page, hpage, h⟩ := bind_eq_ok.mp h
  obtain ⟨m, e, hreach, r, hr, rfl⟩ := collectPage_spec hpage
  have hnodup : (keys (x.page i m e)).Nodup := nodup_dictSet (nodup_dictSet x.distinct)
  have hsuccess : succeeded (x.withQuery r.1) = true := by
    have hnot : txt "success" ∉ x.key :: txt "next_offset" :: contractKeys := by
      have hnext : txt "success" ∉ txt "next_offset" :: contractKeys := by decide
      have hnot := key_notContract (x := x)
      simp only [List.mem_cons, not_or] at hnot hnext ⊢
      exact ⟨Ne.symm hnot.2.2.1, hnext⟩
    have hget : dictGet (txt "success") (x.withQuery r.1) = dictGet (txt "success") x.base := by
      rw [withQuery_get (by decide) (by decide), (reply_same hnodup hr).get _ (by decide)]
      exact (pageOf_base x.distinct _ _).get _ hnot
    rw [succeeded, hget]
    exact x.success
  rw [finalizeSearchResult, hsuccess, if_neg Bool.true_eq_false.mp] at h
  obtain ⟨rendered, hrendered, h⟩ := bind_eq_ok.mp h
  exact ⟨m, e, r, rendered, hreach, hr, hrendered, h⟩

theorem searchPage_spec {i limit : ℕ} {d : Dict} (h : searchPage enc x i limit = .ok d) : ∃ m e k, PageAt enc x i limit m e k d := by
  obtain ⟨m, e, r, rendered, hreach, hr, hrendered, h⟩ := searchPage_steps h
  have hnodup : (keys (x.page i m e)).Nodup := nodup_dictSet (nodup_dictSet x.distinct)
  have hreply := reply_same hnodup hr
  have hkey : x.key ≠ txt "mode" ∧ x.key ≠ txt "query" := by
    have hnot := key_notContract (x := x)
    simp only [List.mem_cons, not_or] at hnot
    exact ⟨hnot.1, hnot.2.1⟩
  have hcontract : x.key ∉ contractKeys := fun hmem => key_reserved (List.mem_cons_of_mem _ hmem)
  have hfinished := withQuery_same (x := x) hreply
  have hitems : shownItems x.key rendered.1 = x.itemsAt i m := by
    rw [shownItems_reply hcontract hrendered, shownItems, hfinished.get _ hcontract, withQuery_get hkey.1 hkey.2]
    exact shownItems_pageOf key_reserved _ _ _
  have hlength : (x.itemsAt i m).length = m := length_itemsAt hreach.le
  rw [hitems, hlength] at h
  have hbase : SameOutside (x.key :: txt "next_offset" :: contractKeys) rendered.1 (x.withQuery x.base) := by
    refine (((reply_same hfinished.left hrendered).trans hfinished).mono fun k hk => ?_).trans (finished_same i m e)
    exact List.mem_cons_of_mem _ (List.mem_cons_of_mem _ hk)
  obtain ⟨k, hshed, hshown, hall, hless⟩ := shedItems_spec key_reserved (Nat.le_of_eq hlength.symm) hbase
    (hitems.trans (List.take_of_length_le (Nat.le_of_eq hlength)).symm) h
  have hwhole : (rendered.2.fits = true) = FinishedFits enc x i m e := by
    rw [FinishedFits, flags_of_ok hr, ← fitsReply_same hfinished, fitsReply_of_ok hrendered]
  have htake : ∀ j ≤ m, (x.itemsAt i m).take j = x.itemsAt i j := fun j hj => by
    rw [Search.itemsAt, List.take_take, Nat.min_eq_left hj]
    rfl
  refine ⟨m, e, k, hreach, ?_, hshown.trans (htake k hshed.le), fun heq => ?_, hless⟩
  · rw [hwhole] at hshed
    refine ⟨hshed.le, hshed.all, hshed.less, fun hpos hlt => ?_, fun hlt j hkj hj => ?_⟩
    · have hends := hshed.ends hpos hlt
      rwa [htake k hshed.le] at hends
    · have hmost := hshed.most hlt j hkj hj
      rwa [htake j (Nat.le_of_lt hj)] at hmost
  · rw [hall heq]
    refine ⟨(nextOffsetOf_reply hrendered).trans ?_, fun he => ?_, fun htruncated => ?_⟩
    · rw [nextOffsetOf, hfinished.get _ nextOffset_notContract]
      exact nextOffsetOf_page i m e
    · have hfirst : truncatedOf r.1 = true := (reply_flags hr).elim (fun hflag => hflag.1.trans he) fun hflag => hflag.1
      exact (reply_flags hrendered).elim (fun hflag => hflag.1.trans hfirst) fun hflag => hflag.1
    · cases reply_flags hrendered with
      | inl hflags =>
        cases reply_flags hr with
        | inl hfirst => exact .inl (hfirst.1.symm.trans (hflags.1.symm.trans htruncated))
        | inr hfirst =>
          cases he : e.truncated with
          | true => exact .inl rfl
          | false => exact .inr (hflags.2.trans (hfirst.2.trans (if_neg (by simp [he]))))
      | inr hflags =>
        cases reply_flags hr with
        | inl hfirst =>
          cases he : e.truncated with
          | true => exact .inl rfl
          | false => exact .inr (hflags.2.trans (if_neg (by simp [hfirst.1, he])))
        | inr hfirst =>
          cases he : e.truncated with
          | true => exact .inl rfl
          | false =>
            refine .inr (hflags.2.trans ((if_pos hfirst.1).trans (hfirst.2.trans (if_neg ?_))))
            simp [he]

/-! ## Following the offsets -/

/-- Following the offsets shows all items once and in order and ends. A truncated reply leads to
a later offset, or says that its contract alone does not fit. -/
def Paged (key : Text) (reply : ℕ → ℕ → Except Raised Dict) (items : List Json) : Prop :=
  Enumerates (fun limit i => (reply limit i).toOption.map fun d => ⟨shownItems key d, nextOffsetOf d⟩) items ∧
    ∀ limit i, ∃ d, reply limit i = .ok d ∧ (truncatedOf d = true →
      (∃ j, nextOffsetOf d = some j ∧ i < j) ∨ nextOffsetOf d = none ∧ stopReasonOf d = metadataExceeds)

/-- The collector may stop behind `m` of the items at the offset, for that reason. -/
def EndsAt (fits : ℕ → Prop) (n m : ℕ) (e : Ending) : Prop :=
  m ≤ n ∧ (∀ j < m, fits (j + 1)) ∧ match e with
    | .exhausted => m = n
    | .limit => m < n
    | .budget => m < n ∧ ¬fits (m + 1)

/-- What is found can be rendered, and at every offset the first item fits and something is
left when the finished page sheds items. -/
structure Roomy (enc : TokenEncoding) (x : Search) : Prop where
  base : CleanExcept (x.key :: txt "next_offset" :: contractKeys) x.base
  echoed : CleanExcept (x.key :: txt "next_offset" :: contractKeys) (x.withQuery x.base)
  items : ∀ j ∈ x.items, CleanJson j
  first : ∀ i < x.items.length, CollectorFits enc x i 1
  kept : ∀ i m e, 0 < m → EndsAt (CollectorFits enc x i) (x.items.length - i) m e →
    FinishedFits enc x i m e ∨ ∃ j, 0 < j ∧ j < m ∧ ShedFits enc x i j

/-- The limit that makes the collector stop there. -/
def limitFor (m : ℕ) : Ending → ℕ
  | .exhausted => 0
  | .limit => m
  | .budget => 0

theorem Reaches.eq_of_ends {fits : ℕ → Prop} {n m m' : ℕ} {e e' : Ending} (hm : 0 < m) (hends : EndsAt fits n m e)
    (h : Reaches fits (limitFor m e) 0 n m' e') : m' = m ∧ e' = e := by
  obtain ⟨hle, hfits, hend⟩ := hends
  have hending := h.ending
  cases e with
  | exhausted =>
    cases e' with
    | exhausted => exact ⟨hending.trans hend.symm, rfl⟩
    | limit => exact absurd rfl hending.2.1
    | budget => exact absurd (hfits m' (hend ▸ hending.1)) hending.2.1
  | limit =>
    have hwithin := h.within (Nat.pos_iff_ne_zero.mp hm)
    have hend : m < n := hend
    cases e' with
    | exhausted =>
      have hall : m' = n := hending
      simp only [limitFor] at hwithin
      omega
    | limit =>
      have hreached := hending.2.2
      simp only [limitFor] at hwithin hreached
      exact ⟨by omega, rfl⟩
    | budget =>
      have hless := hending.2.2 (Nat.pos_iff_ne_zero.mp hm)
      simp only [limitFor] at hless
      exact absurd (hfits m' (by omega)) hending.2.1
  | budget =>
    cases e' with
    | exhausted =>
      have hall : m' = n := hending
      exact absurd (h.fitted m (hall ▸ hend.1)) hend.2
    | limit => exact absurd rfl hending.2.1
    | budget =>
      refine ⟨?_, rfl⟩
      by_contra hne
      cases Nat.lt_or_gt_of_ne hne with
      | inl hlt => exact hending.2.1 (hfits m' hlt)
      | inr hgt => exact hend.2 (h.fitted m hgt)

/-- Where the first item fits, the collector takes one at least. -/
theorem Reaches.pos {fits : ℕ → Prop} {limit n m : ℕ} {e : Ending} (h : Reaches fits limit 0 n m e) (hn : 0 < n) (hfirst : fits 1) :
    0 < m := by
  by_contra hzero
  have hnone : m = 0 := Nat.le_zero.mp (Nat.not_lt.mp hzero)
  subst hnone
  have hending := h.ending
  cases e with
  | exhausted => exact absurd (hending : 0 = n) (Nat.ne_of_lt hn)
  | limit => exact hending.2.1 (Nat.le_zero.mp hending.2.2)
  | budget => exact hending.2.1 hfirst

theorem Reaches.endsAt {fits : ℕ → Prop} {limit n m : ℕ} {e : Ending} (h : Reaches fits limit 0 n m e) : EndsAt fits n m e := by
  refine ⟨h.le, h.fitted, ?_⟩
  have hending := h.ending
  cases e with
  | exhausted => exact hending
  | limit => exact hending.1
  | budget => exact ⟨hending.1, hending.2.1⟩

section
variable {i limit m k : ℕ} {e : Ending} {d : Dict} (h : PageAt enc x i limit m e k d)
include h

/-- A page that shows nothing although there is something leads nowhere. -/
theorem PageAt.stuck (hi : i < x.items.length) (hk : k = 0) : truncatedOf d = true ∧ nextOffsetOf d = some i := by
  by_cases hm : k = m
  · obtain ⟨hnext, hflag, -⟩ := h.whole hm
    have hending := h.reaches.ending
    cases e with
    | exhausted =>
      have hall : m = x.items.length - i := hending
      omega
    | limit => exact ⟨hflag rfl, hnext.trans (congrArg some (by omega))⟩
    | budget => exact ⟨hflag rfl, hnext.trans (congrArg some (by omega))⟩
  · obtain ⟨hnext, hflag⟩ := h.cut (Nat.lt_of_le_of_ne h.shed.le hm)
    exact ⟨hflag, hnext.trans (congrArg some (by omega))⟩

theorem PageAt.pos (hroom : Roomy enc x) (hi : i < x.items.length) : 0 < k := by
  have hm := h.reaches.pos (Nat.sub_pos_of_lt hi) (hroom.first i hi)
  exact (h.shed.pos_iff hm).mpr (hroom.kept i m e hm h.reaches.endsAt)

theorem PageAt.serves (hroom : Roomy enc x) (hi : i ≤ x.items.length) : Serves x.items i ⟨shownItems x.key d, nextOffsetOf d⟩ := by
  have hle := h.shed.le
  have hreach := h.reaches.le
  have hlength : (shownItems x.key d).length = k := by
    rw [h.items]
    exact length_itemsAt (Nat.le_trans hle hreach)
  refine ⟨?_, ?_, fun hlt hnil => ?_⟩
  · rw [h.items]
    exact List.take_prefix _ _
  · rw [hlength]
    by_cases hm : k = m
    · rw [(h.whole hm).1]
      have hending := h.reaches.ending
      cases e with
      | exhausted =>
        have hall : m = x.items.length - i := hending
        have hend : ¬i + k < x.items.length := by omega
        exact (if_neg hend).symm
      | limit =>
        have hless := hending.1
        have hmore : i + m < x.items.length := by omega
        rw [hm]
        exact (if_pos hmore).symm
      | budget =>
        have hless := hending.1
        have hmore : i + m < x.items.length := by omega
        rw [hm]
        exact (if_pos hmore).symm
    · have hlt := Nat.lt_of_le_of_ne hle hm
      rw [(h.cut hlt).1, if_pos (by omega)]
  · have hpos := h.pos hroom hlt
    have hnone : shownItems x.key d = [] := hnil
    rw [hnone] at hlength
    exact absurd hlength (Nat.ne_of_lt hpos)

end

theorem cleanPage (hroom : Roomy enc x) (i k : ℕ) (e : Ending) : CleanPayload (x.page i k e) := by
  have hnext : CleanField (txt "next_offset", nextJson e.truncated (i + k)) := by
    cases e.truncated with
    | true => exact cleanField_nat (by decide)
    | false => exact cleanField_of_strings_nil (by decide) rfl
  have hitems : CleanField (x.key, .arr (x.itemsAt i k)) :=
    cleanField_of key_benign (cleanJson_arr.mpr fun j hj => hroom.items j (List.mem_of_mem_drop (List.mem_of_mem_take hj)))
  exact (cleanExcept_set hnext).mpr ((cleanExcept_set hitems).mpr hroom.base)

theorem cleanFinished (hroom : Roomy enc x) (i k : ℕ) (e : Ending) : CleanPayload (x.withQuery (x.page i k e)) := by
  have hsame := finished_same (x := x) i k e
  intro f hf hnot
  obtain ⟨field, v⟩ := f
  have hget := (mem_iff_dictGet hsame.left field v).mp hf
  by_cases hown : field ∈ x.key :: txt "next_offset" :: contractKeys
  · -- the items and the offset are those of the page
    have hfree : field ≠ txt "mode" ∧ field ≠ txt "query" := by
      have hkey := key_notContract (x := x)
      simp only [List.mem_cons, not_or] at hkey
      cases List.mem_cons.mp hown with
      | inl heq => exact ⟨heq ▸ hkey.1, heq ▸ hkey.2.1⟩
      | inr hnext =>
        cases List.mem_cons.mp hnext with
        | inl heq => exact ⟨heq ▸ by decide, heq ▸ by decide⟩
        | inr hcontract => exact absurd hcontract hnot
    rw [withQuery_get hfree.1 hfree.2] at hget
    have hnodup : (keys (x.page i k e)).Nodup := nodup_dictSet (nodup_dictSet x.distinct)
    exact cleanPage hroom i k e (field, v) ((mem_iff_dictGet hnodup field v).mpr hget) hnot
  · rw [hsame.get field hown] at hget
    exact hroom.echoed (field, v) ((mem_iff_dictGet hsame.right field v).mpr hget) hown

theorem Ending.measurable_reason (e : Ending) : Measurable e.reason := by
  refine measurable_of_isBenign ?_
  cases e with
  | exhausted => decide
  | limit => decide
  | budget => decide

theorem searchPage_returns (hroom : Roomy enc x) (i limit : ℕ) : ∃ d, searchPage enc x i limit = .ok d := by
  have hkey : Measurable (x.setup i limit).resultKey := measurable_of_isBenign key_benign
  have hreserved : (x.setup i limit).resultKey ∉ txt "next_offset" :: contractKeys := key_reserved
  have hcollected : Returns (addAll enc (x.setup i limit) x.items {}) CleanState :=
    addAll_returns hkey hreserved hroom.base hroom.items cleanState_start
  obtain ⟨s, hs, hclean⟩ := hcollected
  have hrendered : Returns (payload enc (x.setup i limit) s) fun _ => True := payload_returns hkey hreserved hroom.base hclean
  obtain ⟨page, hpage, -⟩ := hrendered
  have hcollect : collectPage enc (x.setup i limit) x.items = .ok page := bind_eq_ok.mpr ⟨s, hs, hpage⟩
  obtain ⟨m, e, hreach, r, hr, rfl⟩ := collectPage_spec hcollect
  suffices hfinal : ∃ d, finalizeSearchResult enc x i r.1 = .ok d by
    obtain ⟨d, hd⟩ := hfinal
    exact ⟨d, bind_eq_ok.mpr ⟨r.1, hcollect, hd⟩⟩
  by_cases hsuccess : succeeded (x.withQuery r.1) = false
  · exact ⟨_, if_pos hsuccess⟩
  · have hnodup : (keys (x.page i m e)).Nodup := nodup_dictSet (nodup_dictSet x.distinct)
    have hpayload : CleanPayload (x.withQuery r.1) := (cleanExcept_same (withQuery_same (reply_same hnodup hr))).mpr (cleanFinished hroom i m e)
    have hreason : Measurable (stopReasonOf r.1) := by
      have hexceeds : Measurable metadataExceeds := measurable_of_isBenign (by decide)
      cases reply_flags hr with
      | inl hflags => exact hflags.2 ▸ e.measurable_reason
      | inr hflags =>
        rw [hflags.2]
        split
        · exact e.measurable_reason
        · exact hexceeds
    have hfinished : Returns (withBudgetMetadata enc (x.withQuery r.1) x.budget (truncatedOf r.1) (stopReasonOf r.1))
        fun s => CleanExcept [] s.1 := withBudgetMetadata_returns hpayload hreason
    obtain ⟨rendered, hrendered, hcleaned⟩ := hfinished
    have hitems : ∀ j ∈ shownItems x.key rendered.1, CleanJson j := by
      have hcontract : x.key ∉ contractKeys := fun hmem => key_reserved (List.mem_cons_of_mem _ hmem)
      have hfree := key_notContract (x := x)
      simp only [List.mem_cons, not_or] at hfree
      have hshown : shownItems x.key rendered.1 = x.itemsAt i m := by
        rw [shownItems_reply hcontract hrendered, shownItems, withQuery_get hfree.1 hfree.2.1, (reply_same hnodup hr).get _ hcontract]
        exact shownItems_pageOf key_reserved _ _ _
      rw [hshown]
      exact fun j hj => hroom.items j (List.mem_of_mem_drop (List.mem_of_mem_take hj))
    obtain ⟨d, hd⟩ : ∃ d, shedItems enc x.budget x.key i (shownItems x.key rendered.1) (shownItems x.key rendered.1).length rendered = .ok d :=
      shedItems_returns key_benign hcleaned hitems
    exact ⟨d, (if_neg hsuccess).trans (bind_eq_ok.mpr ⟨rendered, hrendered, hd⟩)⟩

/-- A search whose pages have room is paged to its end. -/
theorem paged_of_roomy (hroom : Roomy enc x) : Paged x.key (fun limit i => searchPage enc x i limit) x.items := by
  refine ⟨enumerates_of_serves fun limit i hi => ?_, fun limit i => ?_⟩
  · obtain ⟨d, hd⟩ := searchPage_returns hroom i limit
    obtain ⟨m, e, k, hpage⟩ := searchPage_spec hd
    refine ⟨_, ?_, hpage.serves hroom hi⟩
    dsimp only
    rw [hd]
    rfl
  · obtain ⟨d, hd⟩ := searchPage_returns hroom i limit
    obtain ⟨m, e, k, hpage⟩ := searchPage_spec hd
    refine ⟨d, hd, fun htruncated => ?_⟩
    by_cases hk : k = m
    · obtain ⟨hnext, -, hflag⟩ := hpage.whole hk
      cases he : e.truncated with
      | false => exact .inr ⟨by rw [hnext, he]; rfl, (hflag htruncated).resolve_left (by simp [he])⟩
      | true =>
        refine .inl ⟨i + m, by rw [hnext, he]; rfl, ?_⟩
        have hi : i < x.items.length := by
          have hending := hpage.reaches.ending
          cases e with
          | exhausted => exact absurd he (by decide)
          | limit =>
            have hless := hending.1
            omega
          | budget =>
            have hless := hending.1
            omega
        have hpos := hpage.pos hroom hi
        omega
    · have hlt := Nat.lt_of_le_of_ne hpage.shed.le hk
      have hreach := hpage.reaches.le
      have hpos := hpage.pos hroom (by omega)
      exact .inl ⟨i + k, (hpage.cut hlt).1, by omega⟩

theorem roomy_of_paged (h : Paged x.key (fun limit i => searchPage enc x i limit) x.items) : Roomy enc x := by
  have hreply : ∀ limit i, ∃ d, searchPage enc x i limit = .ok d := fun limit i => (h.2 limit i).imp fun d hd => hd.1
  have hkey : Measurable (x.setup 0 0).resultKey := measurable_of_isBenign key_benign
  have hpos : ∀ {i limit m k : ℕ} {e : Ending} {d : Dict}, searchPage enc x i limit = .ok d → PageAt enc x i limit m e k d →
      i < x.items.length → 0 < k := by
    intro i limit m k e d hd hpage hi
    by_contra hzero
    obtain ⟨htruncated, hnext⟩ := hpage.stuck hi (Nat.le_zero.mp (Nat.not_lt.mp hzero))
    obtain ⟨d', hd', hprogress⟩ := h.2 limit i
    cases Except.ok.inj (hd.symm.trans hd')
    cases hprogress htruncated with
    | inl hsome =>
      obtain ⟨j, hj, hlt⟩ := hsome
      cases hnext.symm.trans hj
      exact absurd hlt (Nat.lt_irrefl i)
    | inr hnone => exact absurd (hnext.symm.trans hnone.1) (Option.some_ne_none i)
  refine ⟨?_, ?_, fun j hj => ?_, fun i hi => ?_, fun i m e hm hends => ?_⟩
  · obtain ⟨d, hd⟩ := hreply 0 0
    obtain ⟨page, hpage, -⟩ := bind_eq_ok.mp hd
    obtain ⟨s, -, hpage⟩ := bind_eq_ok.mp hpage
    exact payload_clean hkey key_reserved hpage
  · obtain ⟨d, hd⟩ := hreply 0 0
    obtain ⟨m, e, r, rendered, -, hr, hrendered, -⟩ := searchPage_steps hd
    have hnodup : (keys (x.page 0 m e)).Nodup := nodup_dictSet (nodup_dictSet x.distinct)
    have hpayload := ((withBudgetMetadata_returns_iff enc _ _ _ _).mp ⟨rendered, hrendered⟩).1
    have hpage : CleanPayload (x.withQuery (x.page 0 m e)) := (cleanExcept_same (withQuery_same (reply_same hnodup hr))).mp hpayload
    exact (cleanExcept_same (finished_same 0 m e)).mp
      (cleanExcept_mono (fun k hk => List.mem_cons_of_mem _ (List.mem_cons_of_mem _ hk)) hpage)
  · obtain ⟨before, after, hsplit⟩ := List.append_of_mem hj
    obtain ⟨d, hd⟩ := hreply 0 before.length
    obtain ⟨page, hpage, -⟩ := bind_eq_ok.mp hd
    obtain ⟨s, hs, -⟩ := bind_eq_ok.mp hpage
    rw [hsplit] at hs
    exact addAll_measures (p := x.setup before.length 0) hkey key_reserved rfl rfl (Nat.zero_add before.length) hs
  · obtain ⟨d, hd⟩ := hreply 0 i
    obtain ⟨m, e, k, hpage⟩ := searchPage_spec hd
    have hk := hpos hd hpage hi
    exact hpage.reaches.fitted 0 (Nat.lt_of_lt_of_le hk hpage.shed.le)
  · obtain ⟨d, hd⟩ := hreply (limitFor m e) i
    obtain ⟨m', e', k, hpage⟩ := searchPage_spec hd
    obtain ⟨rfl, rfl⟩ := hpage.reaches.eq_of_ends hm hends
    have hle := hends.1
    exact (hpage.shed.pos_iff hm).mp (hpos hd hpage (by omega))

end WebOauthMcp.SearchPaging
