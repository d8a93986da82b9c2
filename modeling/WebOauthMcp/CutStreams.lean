import WebOauthMcp.EventReading

/-!
# Streams that are cut

A line that is no event ends the stream of the backend early. What was read before is kept: all
but what still waits for more, which the forced stop throws away. A summary is not marked at all.
-/

namespace WebOauthMcp.CutStreams
open CodePoints JsonText ExceptSteps ResponseBudget BudgetMetadata FileReplies SearchPages OffsetPaging ReplyOffsets ReplyFields
open LineSplitting SearchPaging BoundedQueues ContentSearch EventReading

/-! ## Filling a page -/

section
variable {enc : TokenEncoding} {p : PageSetup} {page page' : PageState}

/-- A page that goes on has everything from the offset on. -/
theorem addAll_going {items : List Json} (h : addAll enc p items page = .ok page') (hgoing : page'.shouldStop = false) :
    page.shouldStop = false ∧ page'.seen = page.seen + items.length ∧ page'.items = page.items ++ items.drop (p.offset - page.seen) := by
  induction items generalizing page with
  | nil =>
    cases Except.ok.inj h
    exact ⟨hgoing, rfl, by rw [List.drop_nil, List.append_nil]⟩
  | cons item items ih =>
    obtain ⟨next, hnext, hrest⟩ := bind_eq_ok.mp h
    obtain ⟨hnextGoing, hseen, hitems⟩ := ih hrest
    rw [add] at hnext
    split at hnext
    · next hstop =>
      cases Except.ok.inj hnext
      exact absurd hstop (by simp [hnextGoing])
    · next hstop =>
      refine ⟨Bool.eq_false_iff.mpr hstop, ?_⟩
      rw [hseen, hitems, List.length_cons]
      split at hnext
      · next hskip =>
        cases Except.ok.inj hnext
        obtain ⟨n, hn⟩ := Nat.exists_eq_add_of_lt hskip
        have hleft : p.offset - page.seen = n + 1 := by omega
        have hrest : p.offset - (page.seen + 1) = n := by omega
        dsimp only
        rw [hleft, hrest, List.drop_succ_cons]
        exact ⟨by omega, rfl⟩
      · next hskip =>
        split at hnext
        · cases Except.ok.inj hnext
          exact absurd hnextGoing Bool.true_eq_false.mp
        · obtain ⟨candidate, -, hnext⟩ := bind_eq_ok.mp hnext
          split at hnext
          · cases Except.ok.inj hnext
            have hnone : p.offset - page.seen = 0 := by omega
            have hnone' : p.offset - (page.seen + 1) = 0 := by omega
            dsimp only
            rw [hnone, hnone', List.drop_zero, List.drop_zero, List.append_assoc]
            exact ⟨by omega, rfl⟩
          · cases Except.ok.inj hnext
            exact absurd hnextGoing Bool.true_eq_false.mp

theorem add_extends {item : Json} (h : add enc p page item = .ok page') : page.items <+: page'.items := by
  rw [add] at h
  split at h
  · cases Except.ok.inj h
    exact List.prefix_refl _
  · split at h
    · cases Except.ok.inj h
      exact List.prefix_refl _
    · split at h
      · cases Except.ok.inj h
        exact List.prefix_refl _
      · obtain ⟨candidate, -, h⟩ := bind_eq_ok.mp h
        split at h
        · cases Except.ok.inj h
          exact List.prefix_append _ _
        · cases Except.ok.inj h
          exact List.prefix_refl _

theorem addAll_extends {items : List Json} (h : addAll enc p items page = .ok page') : page.items <+: page'.items := by
  induction items generalizing page with
  | nil =>
    cases Except.ok.inj h
    exact List.prefix_refl _
  | cons item items ih =>
    obtain ⟨next, hnext, hrest⟩ := bind_eq_ok.mp h
    exact (add_extends hnext).trans (ih hrest)

/-- The page has a place for one more item. -/
structure HasRoom (enc : TokenEncoding) (p : PageSetup) (page : PageState) (item : Json) : Prop where
  limit : p.limit ≠ 0 → page.items.length < p.limit
  fits : CandidateFits enc p (page.items ++ [item])

theorem add_of_room {item : Json} (hgoing : page.shouldStop = false) (hseen : p.offset ≤ page.seen) (hroom : HasRoom enc p page item) :
    add enc p page item = .ok { page with seen := page.seen + 1, items := page.items ++ [item] } := by
  have hlimit : ¬(p.limit ≠ 0 ∧ p.limit ≤ page.items.length) := fun h => Nat.not_le.mpr (hroom.limit h.1) h.2
  rw [add, if_neg (by simp [hgoing]), if_neg (Nat.not_lt.mpr hseen), if_neg hlimit]
  have hfits := hroom.fits
  rw [CandidateFits, List.length_append, List.length_singleton, fitsReply] at hfits
  split at hfits
  · next candidate hcandidate => exact bind_eq_ok.mpr ⟨candidate, hcandidate, if_pos hfits⟩
  · exact absurd hfits Bool.false_ne_true

theorem add_of_no_room {item : Json} (hgoing : page.shouldStop = false) (hseen : p.offset ≤ page.seen) (hroom : ¬HasRoom enc p page item)
    (h : add enc p page item = .ok page') : page'.items = page.items ∧ page'.shouldStop = true := by
  rw [add, if_neg (by simp [hgoing]), if_neg (Nat.not_lt.mpr hseen)] at h
  split at h
  · cases Except.ok.inj h
    exact ⟨rfl, rfl⟩
  · next hlimit =>
    obtain ⟨candidate, hcandidate, h⟩ := bind_eq_ok.mp h
    split at h
    · next hfits =>
      refine absurd ⟨fun hne => ?_, ?_⟩ hroom
      · exact Nat.not_le.mp fun hle => hlimit ⟨hne, hle⟩
      · rw [CandidateFits, List.length_append, List.length_singleton]
        exact (fitsReply_of_ok hcandidate).trans hfits
    · cases Except.ok.inj h
      exact ⟨rfl, rfl⟩

/-- The first item that waits at the offset or behind it has a place on the page. -/
def TakesNext (enc : TokenEncoding) (p : PageSetup) (page : PageState) (waiting : List Json) : Prop :=
  ∃ item, (waiting.drop (p.offset - page.seen)).head? = some item ∧ HasRoom enc p page item

theorem addAll_no_room {waiting : List Json} (hgoing : page.shouldStop = false) (hnext : ¬TakesNext enc p page waiting)
    (h : addAll enc p waiting page = .ok page') : page'.items = page.items := by
  rw [addAll_skips hgoing] at h
  cases hrest : waiting.drop (p.offset - page.seen) with
  | nil =>
    rw [hrest] at h
    cases Except.ok.inj h
    rfl
  | cons item rest =>
    rw [hrest] at h
    obtain ⟨next, hadd, h⟩ := bind_eq_ok.mp h
    have hlength : p.offset - page.seen < waiting.length := by
      have hdropped := congrArg List.length hrest
      rw [List.length_drop, List.length_cons] at hdropped
      omega
    let reached : PageState := { page with seen := page.seen + min (p.offset - page.seen) waiting.length }
    have hseen : p.offset ≤ reached.seen := by
      dsimp only [reached]
      omega
    have hroom : ¬HasRoom enc p reached item := fun hroom => hnext ⟨item, by rw [hrest]; rfl, hroom.limit, hroom.fits⟩
    have hreached : reached.shouldStop = false := hgoing
    obtain ⟨hitems, hstop⟩ := add_of_no_room hreached hseen hroom hadd
    rw [addAll_stopped hstop] at h
    cases Except.ok.inj h
    exact hitems

theorem addAll_room {waiting : List Json} (hgoing : page.shouldStop = false) (hnext : TakesNext enc p page waiting) :
    ∃ k page', addAll enc p (waiting.take k) page = .ok page' ∧ page.items.length < page'.items.length := by
  obtain ⟨item, hfirst, hroom⟩ := hnext
  obtain ⟨rest, hrest⟩ := List.head?_eq_some_iff.mp hfirst
  have hlength : p.offset - page.seen < waiting.length := by
    have hdropped := congrArg List.length hrest
    rw [List.length_drop, List.length_cons] at hdropped
    omega
  have htaken : waiting.take (p.offset - page.seen + 1) = waiting.take (p.offset - page.seen) ++ [item] := by
    rw [List.take_add_one, List.getElem?_eq_getElem hlength]
    rw [List.drop_eq_getElem_cons hlength] at hrest
    rw [(List.cons.inj hrest).1]
    rfl
  let reached : PageState := { page with seen := page.seen + (p.offset - page.seen) }
  have hseen : p.offset ≤ reached.seen := by
    dsimp only [reached]
    omega
  have hreached : reached.shouldStop = false := hgoing
  have hskipped : addAll enc p (waiting.take (p.offset - page.seen)) page = .ok reached := by
    have hnone : (waiting.take (p.offset - page.seen)).drop (p.offset - page.seen) = [] := List.drop_take_self ..
    have hcount : min (p.offset - page.seen) (waiting.take (p.offset - page.seen)).length = p.offset - page.seen := by
      rw [List.length_take]
      omega
    rw [addAll_skips hgoing, hnone, hcount]
    rfl
  have hadded : add enc p reached item = .ok { reached with seen := reached.seen + 1, items := reached.items ++ [item] } :=
    add_of_room hreached hseen ⟨hroom.limit, hroom.fits⟩
  refine ⟨p.offset - page.seen + 1, { reached with seen := reached.seen + 1, items := reached.items ++ [item] }, ?_, ?_⟩
  · rw [htaken, addAll_append, hskipped]
    exact bind_eq_ok.mpr ⟨reached, rfl, bind_eq_ok.mpr ⟨_, hadded, rfl⟩⟩
  · dsimp only
    rw [List.length_append, List.length_singleton]
    exact Nat.lt_succ_self _

/-- Whatever first part of the items is added, the page does not show more than before the items
that wait, unless it takes one of them. -/
theorem kept_iff {handed waiting : List Json} (h : addAll enc p handed {} = .ok page) (hgoing : page.shouldStop = false) :
    (∀ k page', addAll enc p ((handed ++ waiting).take k) {} = .ok page' → page'.items <+: page.items) ↔ ¬TakesNext enc p page waiting := by
  constructor
  · intro hkept hnext
    obtain ⟨k, page', hadded, hmore⟩ := addAll_room hgoing hnext
    have hall : addAll enc p ((handed ++ waiting).take (handed.length + k)) {} = .ok page' := by
      rw [List.take_length_add_append, addAll_append, h]
      exact hadded
    exact Nat.not_le.mpr hmore (hkept _ _ hall).length_le
  · intro hnext k page' hadded
    by_cases hk : k ≤ handed.length
    · have hsplit : handed = handed.take k ++ handed.drop k := (List.take_append_drop k handed).symm
      rw [List.take_append_of_le_length hk] at hadded
      rw [hsplit, addAll_append, hadded] at h
      exact addAll_extends h
    · obtain ⟨n, rfl⟩ := Nat.exists_eq_add_of_le (Nat.le_of_not_le hk)
      rw [List.take_length_add_append, addAll_append, h] at hadded
      have hfirst : ¬TakesNext enc p page (waiting.take n) := by
        intro hfirst
        obtain ⟨item, hitem, hroom⟩ := hfirst
        refine hnext ⟨item, ?_, hroom⟩
        rw [List.drop_take] at hitem
        cases hleft : n - (p.offset - page.seen) with
        | zero =>
          rw [hleft] at hitem
          exact absurd hitem (by simp)
        | succ m =>
          rw [hleft] at hitem
          rw [← hitem]
          cases waiting.drop (p.offset - page.seen) <;> rfl
      exact (addAll_no_room hgoing hfirst hadded).symm ▸ List.prefix_refl _

end

/-! ## The loop -/

section
variable {σ : Type} {c : Collector σ} {s : σ}

/-- The loop over lines that are all events, and what comes behind them. -/
theorem readStream_parsed (hgoing : (c.page s).shouldStop = false) (anyParsed : Bool) (events : List Event) (tail : List RawEvent) :
    readStream c anyParsed s (events.map .parsed ++ tail) =
      match feedEvents c s events with
      | .error _ => none
      | .ok s' => if (c.page s').shouldStop then some (s', .pageFull) else readStream c (anyParsed || !events.isEmpty) s' tail := by
  induction events generalizing s anyParsed with
  | nil =>
    have hnone : feedEvents c s [] = .ok s := rfl
    rw [hnone]
    dsimp only
    rw [hgoing, if_neg Bool.false_ne_true]
    exact congrArg (readStream c · s tail) (Bool.or_false anyParsed).symm
  | cons e events ih =>
    rw [List.map_cons, List.cons_append, readStream]
    cases hfed : c.feed s e with
    | error err =>
      rw [feedEvents, hfed]
      rfl
    | ok s' =>
      have hrest : feedEvents c s (e :: events) = if (c.page s').shouldStop then .ok s' else feedEvents c s' events := by
        rw [feedEvents, hfed]
        rfl
      have hflag : (anyParsed || !(e :: events).isEmpty) = (true || !events.isEmpty) := Bool.or_true anyParsed
      rw [hrest, hflag]
      dsimp only
      cases hstop : (c.page s').shouldStop with
      | true =>
        rw [if_pos rfl, if_pos rfl]
        dsimp only
        rw [if_pos hstop]
      | false => rw [if_neg Bool.false_ne_true, if_neg Bool.false_ne_true, ih hstop]

/-- A stream is a run of events and what comes behind it. -/
theorem exists_run (stream : List RawEvent) :
    ∃ (events : List Event) (tail : List RawEvent), stream = events.map .parsed ++ tail ∧ ∀ e rest, tail ≠ .parsed e :: rest := by
  induction stream with
  | nil => exact ⟨[], [], rfl, fun _ _ h => absurd h (List.cons_ne_nil _ _).symm⟩
  | cons raw stream ih =>
    cases raw with
    | parsed e =>
      obtain ⟨events, tail, rfl, htail⟩ := ih
      exact ⟨e :: events, tail, rfl, htail⟩
    | badData => exact ⟨[], _, rfl, fun e rest h => RawEvent.noConfusion (List.cons.inj h).1⟩
    | oversized => exact ⟨[], _, rfl, fun e rest h => RawEvent.noConfusion (List.cons.inj h).1⟩
    | invalidJson => exact ⟨[], _, rfl, fun e rest h => RawEvent.noConfusion (List.cons.inj h).1⟩

/-- The stream is cut behind these events. -/
structure CutAfter (stream : List RawEvent) (events : List Event) : Prop where
  some : events ≠ []
  cut : ∃ raw rest, stream = events.map .parsed ++ raw :: rest ∧ raw.Malformed

theorem readStream_cut (hgoing : (c.page s).shouldStop = false) {stream : List RawEvent} {events : List Event} (hcut : CutAfter stream events) :
    readStream c false s stream =
      match feedEvents c s events with
      | .error _ => none
      | .ok s' => some (s', if (c.page s').shouldStop then .pageFull else .malformedEvent) := by
  obtain ⟨hsome, raw, rest, rfl, hraw⟩ := hcut
  have hany : (false || !events.isEmpty) = true := by simp [hsome]
  rw [readStream_parsed hgoing, hany]
  cases feedEvents c s events with
  | error err => rfl
  | ok s' =>
    dsimp only
    have hend : readStream c true s' (raw :: rest) = some (s', .malformedEvent) := by cases hraw <;> rfl
    rw [hend]
    split
    · rfl
    · rfl

end

/-! ## Replies with a page -/

section
variable {enc : TokenEncoding} {p : PageSetup} {page : PageState} {d : Dict}

theorem payload_shown (hkey : p.resultKey ∉ txt "next_offset" :: contractKeys) (h : payload enc p page = .ok d) :
    shownItems p.resultKey d = page.items := by
  obtain ⟨r, hr, h⟩ := bind_eq_ok.mp h
  cases Except.ok.inj h
  rw [List.mem_cons, not_or] at hkey
  refine (shownItems_reply hkey.2 hr).trans ?_
  rw [candidatePayload, shownItems, dictGet_dictSet_of_ne hkey.1, dictGet_dictSet_self]
  rfl

theorem payload_truncated (h : payload enc p page = .ok d) (hd : truncatedOf d = false) : page.truncated = false := by
  obtain ⟨r, hr, h⟩ := bind_eq_ok.mp h
  cases Except.ok.inj h
  cases reply_flags hr with
  | inl hsame => exact hsame.1.symm.trans hd
  | inr hexceeds => exact absurd (hexceeds.1.symm.trans hd) Bool.true_eq_false.mp

theorem payload_of_room {item : Json} (hkey : Measurable p.resultKey) (hreserved : p.resultKey ∉ txt "next_offset" :: contractKeys)
    (hroom : HasRoom enc p page item) (stop : ForcedStop) : ∃ d, payload enc p (forceStop page stop) = .ok d := by
  have hfits := hroom.fits
  rw [CandidateFits, fitsReply] at hfits
  split at hfits
  · next r hr =>
    have hclean := ((withBudgetMetadata_returns_iff enc _ _ _ _).mp ⟨r, hr⟩).1
    obtain ⟨hsetup, hitems⟩ := (candidatePayload_clean_iff hkey hreserved _ _).mp hclean
    have hreason : isBenign stop.reason = true := by cases stop <;> decide
    have hshown : CleanState (forceStop page stop) :=
      ⟨fun j hj => hitems j (List.mem_append_left _ hj), measurable_of_isBenign hreason⟩
    exact (payload_returns hkey hreserved hsetup hshown).isOk
  · exact absurd hfits Bool.false_ne_true

theorem settle_flags {full : Bool} (hflags : page.shouldStop = page.truncated) :
    (settle full page).shouldStop = (settle full page).truncated := by
  rw [settle]
  split
  · rfl
  · exact hflags

theorem settle_going {full : Bool} (h : (settle full page).shouldStop = false) : full = false ∧ settle full page = page := by
  rw [settle] at h ⊢
  split at h
  · exact absurd h Bool.true_eq_false.mp
  · next hnot =>
    rw [if_neg hnot]
    simp only [h, Bool.not_false, Bool.and_true, Bool.not_eq_true] at hnot
    exact ⟨hnot, rfl⟩

end

section
variable {enc : TokenEncoding} {p : PageSetup} {σ : Type} {c : Collector σ} {ledger : List Event → Ledger} {exitCode : ℤ}
  {stream : List RawEvent} {events : List Event} {d : Dict}

theorem collectReply_page (h : collectReply c enc p exitCode stream = .ok (.page d)) : ∃ s ending t,
    readStream c false c.start stream = some (s, ending) ∧
      c.finish (if ending = .malformedEvent then c.force .malformedRipgrepEvent s else s) = .ok t ∧ payload enc p (c.page t) = .ok d := by
  rw [collectReply] at h
  split at h
  · exact absurd (Except.ok.inj h) (by simp)
  · next s ending hread =>
    obtain ⟨t, hfinish, h⟩ := bind_eq_ok.mp h
    split at h
    · exact absurd (Except.ok.inj h) (by simp)
    · obtain ⟨d', hd, h⟩ := bind_eq_ok.mp h
      obtain rfl := GrepReply.page.inj (Except.ok.inj h)
      exact ⟨s, ending, t, hread, hfinish, hd⟩

/-- Something that is known in full waits when the stream is cut, and the page has a place for it. -/
structure WaitsFor (enc : TokenEncoding) (p : PageSetup) (l : Ledger) (page : PageState) : Prop where
  handed : addAll enc p l.handed {} = .ok page
  going : page.shouldStop = false
  whole : l.whole = true
  next : TakesNext enc p page l.waiting

variable (hkeeps : c.Keeps enc p ledger)
include hkeeps

theorem page_start : (c.page c.start).shouldStop = false := congrArg PageState.shouldStop hkeeps.start

theorem fed_page {s : σ} (h : feedEvents c c.start events = .ok s) : ∃ page, addAll enc p (ledger events).handed {} = .ok page ∧
    c.page s = settle (ledger events).full page := by
  have hreads := hkeeps.reads events
  rw [h] at hreads
  obtain ⟨page, hpage, hsettled⟩ := bind_eq_ok.mp hreads.symm
  exact ⟨page, hpage, (Except.ok.inj hsettled).symm⟩

theorem fed_flags {s : σ} (h : feedEvents c c.start events = .ok s) : (c.page s).shouldStop = (c.page s).truncated := by
  obtain ⟨page, hpage, hs⟩ := fed_page hkeeps h
  rw [hs]
  exact settle_flags (addAll_flags rfl hpage)

theorem finish_stopped {s t : σ} (hstop : (c.page s).shouldStop = true) (h : c.finish s = .ok t) : c.page t = c.page s := by
  obtain ⟨t', ht', hsame⟩ := hkeeps.idle s hstop
  cases Except.ok.inj (h.symm.trans ht')
  exact hsame

theorem finish_forced {s t : σ} {stop : ForcedStop} (h : c.finish (c.force stop s) = .ok t) : c.page t = forceStop (c.page s) stop := by
  have hforced := hkeeps.forced stop s
  have hstop : (c.page (c.force stop s)).shouldStop = true := by
    rw [hforced]
    rfl
  exact (finish_stopped hkeeps hstop h).trans hforced

/-- A reply that is not truncated tells of all events of the stream. -/
theorem collectReply_complete (hreserved : p.resultKey ∉ txt "next_offset" :: contractKeys)
    (h : collectReply c enc p exitCode stream = .ok (.page d)) (hd : truncatedOf d = false) :
    ∃ events : List Event, stream = events.map .parsed ∧ shownItems p.resultKey d = (ledger events).all.drop p.offset := by
  obtain ⟨s, ending, t, hread, hfinish, hpayload⟩ := collectReply_page h
  have hwhole : (c.page t).truncated = false := payload_truncated hpayload hd
  obtain ⟨events, tail, rfl, htail⟩ := exists_run stream
  rw [readStream_parsed (page_start hkeeps)] at hread
  split at hread
  · exact absurd hread.symm (Option.some_ne_none _)
  · next s' hfed =>
    have hflags := fed_flags hkeeps hfed
    split at hread
    · next hstop =>
      -- a full page is marked
      cases Option.some.inj hread
      rw [if_neg (by decide)] at hfinish
      rw [finish_stopped hkeeps hstop hfinish, ← hflags, hstop] at hwhole
      exact absurd hwhole Bool.true_eq_false.mp
    · have hmarked : ∀ {t' : σ}, c.finish (c.force .malformedRipgrepEvent s') = .ok t' → (c.page t').truncated = true := by
        intro t' ht'
        rw [finish_forced hkeeps ht']
        rfl
      have hbroken : ∀ {b : Bool}, (if b then some (s', ReadEnding.malformedEvent) else none) = some (s, ending) → False := by
        intro b hb
        split at hb
        · cases Option.some.inj hb
          exact absurd ((hmarked hfinish).symm.trans hwhole) Bool.true_eq_false.mp
        · exact absurd hb.symm (Option.some_ne_none _)
      cases tail with
      | nil =>
        cases Option.some.inj hread
        rw [if_neg (by decide)] at hfinish
        have hfinishes := hkeeps.finishes events
        have hended : (feedEvents c c.start events >>= fun s => c.finish s >>= fun s => pure (c.page s)) = .ok (c.page t) := by
          rw [hfed]
          exact bind_eq_ok.mpr ⟨s, rfl, bind_eq_ok.mpr ⟨t, hfinish, rfl⟩⟩
        obtain ⟨page, hpage, hsettled⟩ := bind_eq_ok.mp (hfinishes.symm.trans hended)
        have hsame := Except.ok.inj hsettled
        have hstop : (settle (ledger events).full page).shouldStop = false := by
          rw [settle_flags (addAll_flags rfl hpage), hsame]
          exact hwhole
        obtain ⟨-, hpageEq⟩ := settle_going hstop
        rw [hpageEq] at hstop hsame
        obtain ⟨-, -, hitems⟩ := addAll_going hpage hstop
        refine ⟨events, List.append_nil _, ?_⟩
        rw [payload_shown hreserved hpayload, ← hsame, hitems]
        rfl
      | cons raw rest =>
        cases raw with
        | parsed e => exact absurd rfl (htail e rest)
        | badData => exact absurd hread.symm (Option.some_ne_none _)
        | oversized => exact (hbroken hread).elim
        | invalidJson => exact (hbroken hread).elim

theorem waitsFor_roomy {page : PageState} (h : WaitsFor enc p (ledger events) page) : (ledger events).full = false := by
  obtain ⟨item, hitem, -⟩ := h.next
  refine Bool.eq_false_iff.mpr fun hfull => ?_
  rw [hkeeps.lost events hfull, List.drop_nil] at hitem
  exact Option.some_ne_none item hitem.symm

/-- Where the stream is cut, the page is what the events handed over. -/
theorem cut_page {s : σ} (hcut : CutAfter stream events) (h : readStream c false c.start stream = some (s, .malformedEvent)) :
    feedEvents c c.start events = .ok s ∧ addAll enc p (ledger events).handed {} = .ok (c.page s) ∧ (c.page s).shouldStop = false := by
  rw [readStream_cut (page_start hkeeps) hcut] at h
  split at h
  · exact absurd h.symm (Option.some_ne_none _)
  · next s' hfed =>
    have hboth := Prod.mk.inj (Option.some.inj h)
    obtain ⟨rfl, hending⟩ := hboth
    split at hending
    · exact absurd hending (by decide)
    · next hgoing =>
      have hgo := Bool.eq_false_iff.mpr hgoing
      obtain ⟨page, hpage, hsettled⟩ := fed_page hkeeps hfed
      rw [hsettled] at hgo ⊢
      obtain ⟨-, hsame⟩ := settle_going hgo
      rw [hsame] at hgo ⊢
      exact ⟨hfed, hpage, hgo⟩

theorem cut_read (hcut : CutAfter stream events) {page : PageState} (hpage : addAll enc p (ledger events).handed {} = .ok page)
    (hgoing : page.shouldStop = false) (hroom : (ledger events).full = false) :
    ∃ s, readStream c false c.start stream = some (s, .malformedEvent) ∧ c.page s = page := by
  have hreads := hkeeps.reads events
  have hsettled : settle (ledger events).full page = page := by
    rw [hroom]
    rfl
  rw [hpage] at hreads
  obtain ⟨s, hfed, hs⟩ := bind_eq_ok.mp (hreads.trans (congrArg Except.ok hsettled))
  have hsame : c.page s = page := Except.ok.inj hs
  refine ⟨s, ?_, hsame⟩
  rw [readStream_cut (page_start hkeeps) hcut, hfed]
  dsimp only
  rw [hsame, hgoing, if_neg Bool.false_ne_true]

/-- A stream that is cut leaves all in the reply that is known in full, unless such a thing waits. -/
theorem collectReply_kept_iff (hkey : Measurable p.resultKey) (hreserved : p.resultKey ∉ txt "next_offset" :: contractKeys)
    (hcut : CutAfter stream events) :
    (∀ d, collectReply c enc p exitCode stream = .ok (.page d) → (readStream c false c.start stream).map Prod.snd = some .malformedEvent →
      ∀ k page, addAll enc p ((ledger events).found.take k) {} = .ok page → page.items <+: shownItems p.resultKey d) ↔
      ¬∃ page, WaitsFor enc p (ledger events) page := by
  constructor
  · intro h hwaits
    obtain ⟨page, hwaits⟩ := hwaits
    obtain ⟨s, hread, hs⟩ := cut_read hkeeps hcut hwaits.handed hwaits.going (waitsFor_roomy hkeeps hwaits)
    obtain ⟨item, -, hroom⟩ := id hwaits.next
    obtain ⟨d, hd⟩ := payload_of_room hkey hreserved hroom .malformedRipgrepEvent
    have hforced := hkeeps.forced .malformedRipgrepEvent s
    have hstop : (c.page (c.force .malformedRipgrepEvent s)).shouldStop = true := by
      rw [hforced]
      rfl
    obtain ⟨t, hfinish, ht⟩ := hkeeps.idle _ hstop
    rw [hforced, hs] at ht
    have hreply : collectReply c enc p exitCode stream = .ok (.page d) := by
      have hnotExit : ¬((c.page t).shouldStop = false ∧ exitCode ≠ 0 ∧ exitCode ≠ 1) := by
        rw [ht]
        exact fun h => Bool.false_ne_true h.1.symm
      rw [collectReply, hread]
      dsimp only
      rw [if_pos rfl]
      refine bind_eq_ok.mpr ⟨t, hfinish, ?_⟩
      rw [if_neg hnotExit, ht]
      exact bind_eq_ok.mpr ⟨d, hd, rfl⟩
    have hkept := h d hreply (by rw [hread]; rfl)
    rw [payload_shown hreserved hd] at hkept
    have hfound : (ledger events).found = (ledger events).handed ++ (ledger events).waiting := by rw [Ledger.found, if_pos hwaits.whole]
    rw [hfound] at hkept
    exact (kept_iff hwaits.handed hwaits.going).mp hkept hwaits.next
  · intro hnone d hreply hending
    obtain ⟨s, ending, t, hread, hfinish, hpayload⟩ := collectReply_page hreply
    rw [hread] at hending
    obtain rfl : ending = .malformedEvent := Option.some.inj hending
    obtain ⟨-, hpage, hgoing⟩ := cut_page hkeeps hcut hread
    rw [if_pos rfl] at hfinish
    have hshown : shownItems p.resultKey d = (c.page s).items := by
      rw [payload_shown hreserved hpayload, finish_forced hkeeps hfinish]
      rfl
    rw [hshown, Ledger.found]
    by_cases hwhole : (ledger events).whole = true
    · rw [if_pos hwhole]
      exact (kept_iff hpage hgoing).mpr fun hnext => hnone ⟨_, hpage, hgoing, hwhole, hnext⟩
    · rw [if_neg hwhole]
      refine (kept_iff hpage hgoing).mpr fun hnext => ?_
      obtain ⟨item, hitem, -⟩ := hnext
      rw [List.drop_nil] at hitem
      exact Option.some_ne_none item hitem.symm

end

/-! ## Sums -/

def Event.occurrences : Event → ℕ
  | .found _ _ _ submatches => submatches.length
  | _ => 0

def summaryJson (occurrences matchedFiles : ℕ) : Json :=
  .obj [(txt "occurrences", natJson occurrences), (txt "matched_files", natJson matchedFiles)]

/-- What the events add up to. -/
def summaryOf (events : List Event) : Json := summaryJson (events.map Event.occurrences).sum (fileRuns events).length

theorem feedEvents_sum (s : SumState) (events : List Event) : feedEvents sumCollector s events = .ok (events.foldl sumEvent s) := by
  induction events generalizing s with
  | nil => rfl
  | cons e events ih => exact ih (sumEvent s e)

theorem occurrences_foldl (s : SumState) (events : List Event) :
    (events.foldl sumEvent s).occurrences = s.occurrences + (events.map Event.occurrences).sum := by
  induction events generalizing s with
  | nil => rfl
  | cons e events ih =>
    have hstep : (sumEvent s e).occurrences = s.occurrences + Event.occurrences e := by cases e <;> rfl
    rw [List.foldl_cons, ih, hstep, List.map_cons, List.sum_cons, Nat.add_assoc]

theorem length_extendRuns (path : Text) (m n : ℕ) (runs : List (Text × ℕ)) :
    (extendRuns path m runs).length = (extendRuns path n runs).length := by
  cases runs with
  | nil => rfl
  | cons run runs =>
    rw [extendRuns, extendRuns]
    split
    · rfl
    · rfl

/-- The file that is read counts already. -/
theorem matchedFiles_foldl (s : SumState) (events : List Event) :
    (events.foldl sumEvent s).matchedFiles + s.currentPath.toList.length =
      s.matchedFiles + (runsFrom (s.currentPath.map fun path => (path, 0)) events).length := by
  induction events generalizing s with
  | nil => cases s.currentPath <;> rfl
  | cons e events ih =>
    rw [List.foldl_cons]
    have hsame : sumEvent s e = s → runsFrom (s.currentPath.map fun path => (path, 0)) (e :: events) =
        runsFrom (s.currentPath.map fun path => (path, 0)) events →
        (events.foldl sumEvent (sumEvent s e)).matchedFiles + s.currentPath.toList.length =
          s.matchedFiles + (runsFrom (s.currentPath.map fun path => (path, 0)) (e :: events)).length := by
      intro hs hruns
      rw [hs, hruns]
      exact ih s
    cases e with
    | found path lineNumber text submatches =>
      have hrest := ih (sumEvent s (.found path lineNumber text submatches))
      have hfiles : (sumEvent s (.found path lineNumber text submatches)).matchedFiles =
        if s.currentPath = some path then s.matchedFiles else s.matchedFiles + 1 := rfl
      have hpath : (sumEvent s (.found path lineNumber text submatches)).currentPath = some path := rfl
      rw [hfiles, hpath, Option.toList_some, List.length_singleton, Option.map_some, runsFrom] at hrest
      dsimp only at hrest
      have hlength := length_extendRuns path 0 submatches.length (fileRuns events)
      cases hcurrent : s.currentPath with
      | none =>
        rw [hcurrent, if_neg (Option.some_ne_none path).symm] at hrest
        have hruns : runsFrom (Option.map (fun path => (path, 0)) none) (.found path lineNumber text submatches :: events) =
          extendRuns path submatches.length (fileRuns events) := rfl
        rw [hruns, Option.toList_none, List.length_nil]
        omega
      | some path' =>
        rw [hcurrent] at hrest
        have hruns : runsFrom (Option.map (fun path => (path, 0)) (some path')) (.found path lineNumber text submatches :: events) =
          extendRuns path' 0 (extendRuns path submatches.length (fileRuns events)) := rfl
        rw [hruns, Option.toList_some, List.length_singleton]
        by_cases hsame : path' = path
        · rw [if_pos (congrArg some hsame)] at hrest
          rw [hsame, extendRuns_same, length_extendRuns path _ 0]
          exact hrest
        · rw [if_neg fun h => hsame (Option.some.inj h)] at hrest
          rw [extendRuns_other (Ne.symm hsame), List.length_cons]
          omega
    | context path lineNumber text => exact hsame rfl (by cases s.currentPath <;> rfl)
    | fileEnd => exact hsame rfl (by cases s.currentPath <;> rfl)
    | other => exact hsame rfl (by cases s.currentPath <;> rfl)

theorem sums_of_events (events : List Event) : feedEvents sumCollector sumCollector.start events = .ok (events.foldl sumEvent {}) ∧
    summaryJson (events.foldl sumEvent {}).occurrences (events.foldl sumEvent {}).matchedFiles = summaryOf events := by
  have hoccurrences := occurrences_foldl {} events
  have hfiles := matchedFiles_foldl {} events
  refine ⟨feedEvents_sum _ events, ?_⟩
  have hruns : runsFrom (Option.map (fun path => (path, 0)) (SumState.currentPath {})) events = fileRuns events := rfl
  have hnone : (SumState.currentPath {}).toList.length = 0 := rfl
  rw [hruns, hnone, Nat.add_zero] at hfiles
  rw [summaryOf, hoccurrences, hfiles, Nat.zero_add, Nat.zero_add]

/-! ## Replies without a page -/

section
variable {enc : TokenEncoding} {budget : Budget} {payload : Dict}

/-- The settled reply fits, before anything is said of a budget that is exceeded. -/
def settlesWithin (enc : TokenEncoding) (budget : Budget) (payload : Dict) (truncated : Bool) (reason : Text) : Bool :=
  match measureJsonPayload enc budget (withContract payload budget truncated reason) >>=
    settleEstimate enc budget 5 (withContract payload budget truncated reason) 0 with
  | .ok s => s.measurement.fits
  | .error _ => false

theorem settles_of_cheap {truncated : Bool} {reason : Text} (hcheap : ∀ t, enc.tokensOf t ≤ budget.maxTokens) (hbytes : budget.maxBytes = none)
    (hclean : CleanPayload payload) (hreason : Measurable reason) : settlesWithin enc budget payload truncated reason = true := by
  have hcontract := (withContract_clean_iff payload budget truncated reason).mpr ⟨hclean, hreason⟩
  have hcarries : Carries payload (withContract payload budget truncated reason) := fun k hk => dictGet_withContract hk _ _ _ _
  have hmeasured : ∀ d m, Carries payload d → measureJsonPayload enc budget d = .ok m → m.fits = true := fun _ _ _ h =>
    measured_of_cheap hcheap hbytes h
  have hfirst : Returns (measureJsonPayload enc budget (withContract payload budget truncated reason)) fun _ => True :=
    measureJsonPayload_returns hcontract
  obtain ⟨m, hm, -⟩ := hfirst
  have hrounds : Returns (settleEstimate enc budget 5 (withContract payload budget truncated reason) 0 m) fun s => CleanExcept [] s.result :=
    settleEstimate_returns 5 _ 0 m hcontract
  obtain ⟨s, hs, -⟩ := hrounds
  have hall : measureJsonPayload enc budget (withContract payload budget truncated reason) >>=
      settleEstimate enc budget 5 (withContract payload budget truncated reason) 0 = .ok s := bind_eq_ok.mpr ⟨m, hm, hs⟩
  rw [settlesWithin, hall]
  exact settleEstimate_measured hmeasured hcarries (hmeasured _ _ hcarries hm) hs

/-- A reply is called complete exactly when it is settled within its budget. -/
theorem unmarked_iff (reason : Text) :
    (∃ r, withBudgetMetadata enc payload budget false reason = .ok r ∧ truncatedOf r.1 = false) ↔
      settlesWithin enc budget payload false reason = true := by
  have hreply : withBudgetMetadata enc payload budget false reason =
      (measureJsonPayload enc budget (withContract payload budget false reason) >>=
        settleEstimate enc budget 5 (withContract payload budget false reason) 0) >>= fun s =>
          if s.measurement.fits then pure (s.result, s.measurement)
          else resettleEstimate enc budget 5 (withBudgetExceeded s.result false s.measurement) s.stored s.measurement := by
    rw [bind_assoc]
    rfl
  rw [hreply, settlesWithin]
  cases hsettled : measureJsonPayload enc budget (withContract payload budget false reason) >>=
      settleEstimate enc budget 5 (withContract payload budget false reason) 0 with
  | error e => exact iff_of_false (fun h => by obtain ⟨r, hr, -⟩ := h; exact absurd hr (by simp [bind, Except.bind])) Bool.false_ne_true
  | ok s =>
    dsimp only
    constructor
    · intro h
      obtain ⟨r, hr, hmark⟩ := h
      have hr : (if s.measurement.fits then pure (s.result, s.measurement)
          else resettleEstimate enc budget 5 (withBudgetExceeded s.result false s.measurement) s.stored s.measurement) = .ok r := hr
      by_contra hnot
      rw [if_neg hnot] at hr
      have hflag : dictGet (txt "truncated") r.1 = some (.bool true) := by
        rw [resettleEstimate_flag (by decide) hr, withBudgetExceeded, if_neg Bool.false_ne_true,
          dictGet_dictSet_of_ne (by decide), dictGet_dictSet_of_ne (by decide), dictGet_dictSet_self]
      rw [truncatedOf, hflag] at hmark
      exact Bool.true_eq_false.mp hmark
    · intro hfits
      refine ⟨(s.result, s.measurement), if_pos hfits, ?_⟩
      obtain ⟨m, -, hs⟩ := bind_eq_ok.mp hsettled
      have hflag : dictGet (txt "truncated") s.result = some (.bool false) := by
        rw [settleEstimate_flag (by decide) hs, withContract, dictGet_dictSet_of_ne (by decide), dictGet_dictSet_of_ne (by decide),
          dictGet_dictSet_of_ne (by decide), dictGet_dictSet_self]
      rw [truncatedOf, hflag]

end

/-! ## Searches -/

/-- A text search, with the stream and the exit code of its backend. A summary takes the same
arguments; the mode of the call is then not used. -/
structure StreamCall where
  call : GrepCall
  before : ℕ
  after : ℕ
  multiline : Bool
  offset : ℕ
  limit : ℕ
  maxTokens : ℕ+
  exitCode : ℤ
  stream : List RawEvent

inductive Output
  | paged
  | summary

section
variable (enc : TokenEncoding) (x : StreamCall)

def StreamCall.options : ContextOptions := ⟨x.before, x.after, x.multiline, x.call.onlyMatching⟩

def StreamCall.setup : PageSetup := grepSetup x.call x.offset x.limit x.maxTokens

def StreamCall.ledger : List Event → Ledger :=
  match x.call.mode with
  | .content => contentLedger x.options x.offset
  | mode => countLedger mode

def grepPaged : Except Raised GrepReply :=
  match x.call.mode with
  | .content => collectReply (contentCollector enc x.setup x.options) enc x.setup x.exitCode x.stream
  | mode => collectReply (countCollector enc x.setup mode) enc x.setup x.exitCode x.stream

/-- How the loop of a search with a page ends. -/
def pagedEnding : Option ReadEnding :=
  match x.call.mode with
  | .content => (readStream (contentCollector enc x.setup x.options) false {} x.stream).map Prod.snd
  | mode => (readStream (countCollector enc x.setup mode) false {} x.stream).map Prod.snd

def summaryPayload (c : GrepCall) (summary : Json) : Dict :=
  dictSet (txt "next_offset") .null
    (dictSet (txt "summary") summary (dictSet (txt "output_mode") (.str (txt "summary")) (grepBasePayload c)))

def grepSummary : Except Raised GrepReply :=
  match readStream sumCollector false {} x.stream with
  | none => pure .backendError
  | some (s, ending) =>
    if ending ≠ .malformedEvent ∧ x.exitCode ≠ 0 ∧ x.exitCode ≠ 1 then pure .backendError
    else do
      let rendered ← withBudgetMetadata enc (summaryPayload x.call (summaryJson s.occurrences s.matchedFiles)) { maxTokens := x.maxTokens }
        false (txt "end_of_results")
      pure (.page rendered.1)

def grepStream : Output → Except Raised GrepReply
  | .paged => grepPaged enc x
  | .summary => grepSummary enc x

/-- What a reply that is not truncated has to tell of the events. -/
def StreamCall.TellsAll (d : Dict) (events : List Event) : Output → Prop
  | .paged => shownItems x.call.mode.resultKey d = (x.ledger events).all.drop x.offset
  | .summary => dictGet (txt "summary") d = some (summaryOf events)

/-- What is known in full before the cut and is not skipped is in the reply: whichever first part
of it a page is filled with, the reply shows what that page shows. -/
def StreamCall.KeepsFound (d : Dict) (events : List Event) : Output → Prop
  | .paged => pagedEnding enc x = some .malformedEvent →
      ∀ k page, addAll enc x.setup ((x.ledger events).found.take k) {} = .ok page → page.items <+: shownItems x.call.mode.resultKey d
  | .summary => dictGet (txt "summary") d = some (summaryOf events)

/-- The replies to a search never overstate how complete they are. -/
structure Faithful (out : Output) : Prop where
  complete : ∀ d, grepStream enc x out = .ok (.page d) → truncatedOf d = false →
    ∃ events : List Event, x.stream = events.map .parsed ∧ x.TellsAll d events out
  kept : ∀ d events, grepStream enc x out = .ok (.page d) → CutAfter x.stream events → x.KeepsFound enc d events out

/-- The cut of the stream leaves something out, or is not told of. -/
def Forgets : Output → Prop
  | .paged => ∃ events page, CutAfter x.stream events ∧ WaitsFor enc x.setup (x.ledger events) page
  | .summary => ∃ events, CutAfter x.stream events ∧
      settlesWithin enc { maxTokens := x.maxTokens } (summaryPayload x.call (summaryOf events)) false (txt "end_of_results") = true

end

variable {enc : TokenEncoding} {x : StreamCall}

theorem exists_collector (enc : TokenEncoding) (x : StreamCall) : ∃ (σ : Type) (c : Collector σ), c.Keeps enc x.setup x.ledger ∧
    grepPaged enc x = collectReply c enc x.setup x.exitCode x.stream ∧
      pagedEnding enc x = (readStream c false c.start x.stream).map Prod.snd := by
  have hledger : x.ledger = match x.call.mode with
    | .content => contentLedger x.options x.offset
    | mode => countLedger mode := rfl
  rw [grepPaged, pagedEnding]
  cases hmode : x.call.mode with
  | content =>
    refine ⟨_, contentCollector enc x.setup x.options, ?_, rfl, rfl⟩
    rw [hledger, hmode]
    exact contentCollector_keeps enc x.setup x.options
  | filesWithMatches =>
    refine ⟨_, countCollector enc x.setup .filesWithMatches, ?_, rfl, rfl⟩
    rw [hledger, hmode]
    exact countCollector_keeps enc x.setup .filesWithMatches
  | count =>
    refine ⟨_, countCollector enc x.setup .count, ?_, rfl, rfl⟩
    rw [hledger, hmode]
    exact countCollector_keeps enc x.setup .count

theorem paged_faithful_iff (enc : TokenEncoding) (x : StreamCall) : Faithful enc x .paged ↔ ¬Forgets enc x .paged := by
  obtain ⟨σ, c, hkeeps, hreply, hending⟩ := exists_collector enc x
  have hkey : Measurable x.setup.resultKey := measurable_of_isBenign x.call.mode.resultKey_benign
  have hreserved : x.setup.resultKey ∉ txt "next_offset" :: contractKeys := x.call.mode.resultKey_free
  have hkept : ∀ {events}, CutAfter x.stream events →
      ((∀ d, grepPaged enc x = .ok (.page d) → x.KeepsFound enc d events .paged) ↔ ¬∃ page, WaitsFor enc x.setup (x.ledger events) page) := by
    intro events hcut
    simp only [hreply, StreamCall.KeepsFound, hending]
    exact collectReply_kept_iff hkeeps hkey hreserved hcut
  constructor
  · intro h hforgets
    obtain ⟨events, page, hcut, hwaits⟩ := hforgets
    exact (hkept hcut).mp (fun d hd => h.kept d events hd hcut) ⟨page, hwaits⟩
  · intro h
    refine ⟨fun d hd htruncated => ?_, fun d events hd hcut => ?_⟩
    · have hd : collectReply c enc x.setup x.exitCode x.stream = .ok (.page d) := hreply.symm.trans hd
      exact collectReply_complete hkeeps hreserved hd htruncated
    · refine (hkept hcut).mpr (fun hwaits => ?_) d hd
      obtain ⟨page, hwaits⟩ := hwaits
      exact h ⟨events, page, hcut, hwaits⟩

/-- A stream that is cut is summed up, and only a budget that is exceeded marks the reply. -/
theorem summary_page_iff {d : Dict} : grepSummary enc x = .ok (.page d) ↔ ∃ s ending r,
    readStream sumCollector false {} x.stream = some (s, ending) ∧ ¬(ending ≠ .malformedEvent ∧ x.exitCode ≠ 0 ∧ x.exitCode ≠ 1) ∧
      withBudgetMetadata enc (summaryPayload x.call (summaryJson s.occurrences s.matchedFiles)) { maxTokens := x.maxTokens } false
        (txt "end_of_results") = .ok r ∧ r.1 = d := by
  rw [grepSummary]
  cases hread : readStream sumCollector false {} x.stream with
  | none => exact iff_of_false (by simp [pure, Except.pure]) (by simp)
  | some result =>
    obtain ⟨s, ending⟩ := result
    dsimp only
    constructor
    · intro h
      split at h
      · exact absurd (Except.ok.inj h) (by simp)
      · next hexit =>
        obtain ⟨r, hr, h⟩ := bind_eq_ok.mp h
        exact ⟨s, ending, r, rfl, hexit, hr, GrepReply.page.inj (Except.ok.inj h)⟩
    · intro h
      obtain ⟨s', ending', r, hsame, hexit, hr, rfl⟩ := h
      cases Option.some.inj hsame
      rw [if_neg hexit]
      exact bind_eq_ok.mpr ⟨r, hr, rfl⟩

theorem read_sums (anyParsed : Bool) (events : List Event) (tail : List RawEvent) :
    readStream sumCollector anyParsed {} (events.map .parsed ++ tail) =
      readStream sumCollector (anyParsed || !events.isEmpty) (events.foldl sumEvent {}) tail := by
  have hgoing : (sumCollector.page {}).shouldStop = false := rfl
  have hfed : feedEvents sumCollector {} events = .ok (events.foldl sumEvent {}) := (sums_of_events events).1
  rw [readStream_parsed hgoing, hfed]
  exact if_neg Bool.false_ne_true

theorem read_sums_cut {stream : List RawEvent} {events : List Event} (hcut : CutAfter stream events) :
    readStream sumCollector false {} stream = some (events.foldl sumEvent {}, .malformedEvent) := by
  have hgoing : (sumCollector.page {}).shouldStop = false := rfl
  have hfed : feedEvents sumCollector {} events = .ok (events.foldl sumEvent {}) := (sums_of_events events).1
  rw [readStream_cut hgoing hcut, hfed]
  rfl

theorem summary_shown {s : SumState} {r : Dict × BudgetMeasurement} {budget : Budget}
    (h : withBudgetMetadata enc (summaryPayload x.call (summaryJson s.occurrences s.matchedFiles)) budget false (txt "end_of_results") = .ok r) :
    dictGet (txt "summary") r.1 = some (summaryJson s.occurrences s.matchedFiles) := by
  rw [withBudgetMetadata_get (by decide) h, summaryPayload, dictGet_dictSet_of_ne (by decide), dictGet_dictSet_self]

theorem summary_faithful_iff (enc : TokenEncoding) (x : StreamCall) : Faithful enc x .summary ↔ ¬Forgets enc x .summary := by
  constructor
  · intro h hforgets
    obtain ⟨events, hcut, hsettles⟩ := hforgets
    obtain ⟨r, hr, hmark⟩ := (unmarked_iff _).mpr hsettles
    rw [← (sums_of_events events).2] at hr
    have hreply : grepSummary enc x = .ok (.page r.1) :=
      summary_page_iff.mpr ⟨_, _, r, read_sums_cut hcut, fun hexit => hexit.1 rfl, hr, rfl⟩
    obtain ⟨all, hall, -⟩ := h.complete r.1 hreply hmark
    obtain ⟨-, raw, rest, hstream, hraw⟩ := hcut
    have hmem : raw ∈ all.map RawEvent.parsed := by
      rw [← hall, hstream]
      exact List.mem_append_right _ (List.mem_cons_self ..)
    obtain ⟨e, -, rfl⟩ := List.mem_map.mp hmem
    exact nomatch hraw
  · intro h
    refine ⟨fun d hd htruncated => ?_, fun d events hd hcut => ?_⟩
    · obtain ⟨s, ending, r, hread, -, hr, rfl⟩ := summary_page_iff.mp hd
      obtain ⟨events, tail, hstream, htail⟩ := exists_run x.stream
      rw [hstream, read_sums] at hread
      have hbroken : ∀ {raw rest}, tail = raw :: rest → raw.Malformed → False := by
        intro raw rest htail' hraw
        subst htail'
        cases events with
        | nil =>
          cases hraw with
          | oversized => exact absurd hread.symm (Option.some_ne_none _)
          | invalidJson => exact absurd hread.symm (Option.some_ne_none _)
        | cons e events =>
          have hcut : CutAfter x.stream (e :: events) := ⟨List.cons_ne_nil _ _, raw, rest, hstream, hraw⟩
          have hsums : s = (e :: events).foldl sumEvent {} := by
            cases hraw with
            | oversized => exact (Prod.mk.inj (Option.some.inj hread)).1.symm
            | invalidJson => exact (Prod.mk.inj (Option.some.inj hread)).1.symm
          rw [hsums, (sums_of_events _).2] at hr
          exact h ⟨e :: events, hcut, (unmarked_iff _).mp ⟨r, hr, htruncated⟩⟩
      cases tail with
      | nil =>
        have hsums : s = events.foldl sumEvent {} := (Prod.mk.inj (Option.some.inj hread)).1.symm
        refine ⟨events, hstream.trans (List.append_nil _), ?_⟩
        exact (summary_shown hr).trans (congrArg some (hsums ▸ (sums_of_events events).2))
      | cons raw rest =>
        cases raw with
        | parsed e => exact absurd rfl (htail e rest)
        | badData => exact absurd hread.symm (Option.some_ne_none _)
        | oversized => exact (hbroken rfl .oversized).elim
        | invalidJson => exact (hbroken rfl .invalidJson).elim
    · obtain ⟨s, ending, r, hread, -, hr, rfl⟩ := summary_page_iff.mp hd
      rw [read_sums_cut hcut] at hread
      have hsums : s = events.foldl sumEvent {} := (Prod.mk.inj (Option.some.inj hread)).1.symm
      exact (summary_shown hr).trans (congrArg some (hsums ▸ (sums_of_events events).2))

/-- A search is told of faithfully exactly when no cut forgets anything. -/
theorem faithful_iff (enc : TokenEncoding) (x : StreamCall) (out : Output) : Faithful enc x out ↔ ¬Forgets enc x out := by
  cases out with
  | paged => exact paged_faithful_iff enc x
  | summary => exact summary_faithful_iff enc x

/-! ## A line that is too long -/

def helloText : Text := txt "hello" ++ [lineFeed]

def helloMatch : Submatch helloText := ⟨0, 5, txt "hello", by decide, by decide, by decide⟩

def helloFound : Event := .found (txt "/srv/one.txt") 1 helloText [helloMatch]

def helloGrep (mode : GrepMode) : GrepCall := { denseGrep with pattern := txt "hello", mode, onlyMatching := false }

/-- A search for `hello`, with a line of context behind each match, whose backend sends a line
that is too long behind these events. -/
def helloCall (mode : GrepMode) (events : List Event) : StreamCall where
  call := helloGrep mode
  before := 0
  after := 1
  multiline := false
  offset := 0
  limit := 0
  maxTokens := ⟨1, Nat.one_pos⟩
  exitCode := 0
  stream := events.map .parsed ++ [.oversized]

theorem helloCall_cut (mode : GrepMode) {events : List Event} (h : events ≠ []) : CutAfter (helloCall mode events).stream events :=
  ⟨h, .oversized, [], rfl, .oversized⟩

theorem helloGrep_benign (mode : GrepMode) : ∀ f ∈ grepBasePayload (helloGrep mode), isBenign f.1 = true ∧ (strings f.2).all isBenign = true := by
  cases mode <;> decide

theorem clean_of_benign {keys : List Text} {d : Dict} (h : ∀ f ∈ d, isBenign f.1 = true ∧ (strings f.2).all isBenign = true) :
    CleanExcept keys d := by
  intro f hf _
  obtain ⟨hname, hvalue⟩ := h f hf
  exact cleanField_of hname fun t ht => measurable_of_isBenign (List.all_eq_true.mp hvalue t ht)

/-- What waits for the next line is forgotten. -/
theorem helloCall_forgets {mode : GrepMode} {events : List Event} (hsome : events ≠ []) {item : Json}
    (hwaiting : (helloCall mode events).ledger events = ⟨[], [item], true, false⟩) (hitem : (strings item).all isBenign = true) :
    Forgets oneForAll (helloCall mode events) .paged := by
  have hkey : Measurable (helloCall mode events).setup.resultKey := measurable_of_isBenign mode.resultKey_benign
  have hbase : CleanSetup (helloCall mode events).setup := clean_of_benign (helloGrep_benign mode)
  refine ⟨events, {}, helloCall_cut mode hsome, ?_⟩
  rw [hwaiting]
  refine ⟨rfl, rfl, rfl, item, rfl, fun hlimit => absurd rfl hlimit, fits_oneForAll ?_⟩
  refine (candidatePayload_clean_iff hkey mode.resultKey_free _ _).mpr ⟨hbase, fun j hj => ?_⟩
  rw [List.mem_singleton.mp hj]
  exact fun t ht => measurable_of_isBenign (List.all_eq_true.mp hitem t ht)

theorem helloCall_unmarked (mode : GrepMode) {events : List Event} (hsome : events ≠ []) :
    Forgets oneForAll (helloCall mode events) .summary := by
  refine ⟨events, helloCall_cut mode hsome, ?_⟩
  refine settles_of_cheap (fun _ => Nat.le_refl 1) rfl ?_ (measurable_of_isBenign (by decide))
  have hsummary : CleanField (txt "summary", summaryOf events) := by
    refine cleanField_of (by decide) (cleanJson_obj.mpr ?_)
    simp only [List.forall_mem_cons, List.not_mem_nil, false_implies, implies_true, and_true]
    exact ⟨cleanField_nat (by decide), cleanField_nat (by decide)⟩
  have hnext : CleanField (txt "next_offset", .null) := cleanField_of_strings_nil (by decide) rfl
  have hmode : CleanField (txt "output_mode", .str (txt "summary")) := cleanField_benign (by decide) (by decide)
  refine (cleanExcept_set hnext).mpr ((cleanExcept_set hsummary).mpr ((cleanExcept_set hmode).mpr ?_))
  exact clean_of_benign (helloGrep_benign mode)

/-- One line of the backend that is too long: the match before it is not shown, its file is neither
listed nor counted, and the sums are called complete. -/
theorem oversized_line_forgotten :
    ¬Faithful oneForAll (helloCall .content [helloFound]) .paged ∧ ¬Faithful oneForAll (helloCall .filesWithMatches [helloFound]) .paged ∧
      ¬Faithful oneForAll (helloCall .count [helloFound, .fileEnd]) .paged ∧ ¬Faithful oneForAll (helloCall .count [helloFound]) .summary := by
  have hshown : (helloCall .content [helloFound]).ledger [helloFound] =
      ⟨[], [Pending.item { path := txt "/srv/one.txt", lineNumber := 1, line := txt "hello", contextBefore := [], contextThrough := 2 }],
        true, false⟩ := rfl
  refine ⟨fun h => ?_, fun h => ?_, fun h => ?_, fun h => ?_⟩
  · exact (paged_faithful_iff _ _).mp h (helloCall_forgets (List.cons_ne_nil _ _) hshown (by decide))
  · exact (paged_faithful_iff _ _).mp h (helloCall_forgets (List.cons_ne_nil _ _) rfl (by decide))
  · exact (paged_faithful_iff _ _).mp h (helloCall_forgets (List.cons_ne_nil _ _) rfl (by decide))
  · exact (summary_faithful_iff _ _).mp h (helloCall_unmarked .count (List.cons_ne_nil _ _))

end WebOauthMcp.CutStreams
