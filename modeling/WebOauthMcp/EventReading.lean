import WebOauthMcp.ContentSearch

/-!
# Reading the events of a search

The backend sends one event a line. The loop ends with the stream, with a page that is full, or
with a line that is no event; then the last file is finished. What is found reaches the page as
soon as it is complete.
-/

namespace WebOauthMcp.EventReading
open CodePoints JsonText ExceptSteps ResponseBudget BudgetMetadata FileReplies SearchPages OffsetPaging ReplyOffsets ReplyFields
open SearchPaging BoundedQueues ContentSearch

/-! ## The loop -/

/-- A line of the backend: an event, an event without the data it must have, or no event at all. -/
inductive RawEvent
  | parsed (e : Event)
  | badData
  | oversized
  | invalidJson

inductive RawEvent.Malformed : RawEvent → Prop
  | oversized : Malformed .oversized
  | invalidJson : Malformed .invalidJson

inductive ReadEnding
  | endOfStream
  | pageFull
  | malformedEvent
deriving DecidableEq

/-- What the events are handed to, and the page it fills. -/
structure Collector (σ : Type) where
  start : σ
  feed : σ → Event → Except Raised σ
  page : σ → PageState
  force : ForcedStop → σ → σ
  finish : σ → Except Raised σ

variable {σ : Type} (c : Collector σ)

/-- The loop over the lines. Nothing is returned where it ends in an error reply. -/
def readStream : Bool → σ → List RawEvent → Option (σ × ReadEnding)
  | _, s, [] => some (s, .endOfStream)
  | anyParsed, s, .oversized :: _ => if anyParsed then some (s, .malformedEvent) else none
  | anyParsed, s, .invalidJson :: _ => if anyParsed then some (s, .malformedEvent) else none
  | _, _, .badData :: _ => none
  | _, s, .parsed e :: stream =>
    match c.feed s e with
    | .error _ => none
    | .ok s => if (c.page s).shouldStop then some (s, .pageFull) else readStream true s stream

/-- `grep_files` behind the start of the backend, for the modes with a page. -/
def collectReply (enc : TokenEncoding) (p : PageSetup) (exitCode : ℤ) (stream : List RawEvent) : Except Raised GrepReply :=
  match readStream c false c.start stream with
  | none => pure .backendError
  | some (s, ending) => do
    let s ← c.finish (if ending = .malformedEvent then c.force .malformedRipgrepEvent s else s)
    if (c.page s).shouldStop = false ∧ exitCode ≠ 0 ∧ exitCode ≠ 1 then pure .backendError
    else do
      let d ← payload enc p (c.page s)
      pure (.page d)

/-- The loop over events alone. -/
def feedEvents : σ → List Event → Except Raised σ
  | s, [] => pure s
  | s, e :: events => do
    let s ← c.feed s e
    if (c.page s).shouldStop then pure s else feedEvents s events

/-! ## The collectors -/

section
variable (enc : TokenEncoding) (p : PageSetup)

def contentCollector (o : ContextOptions) : Collector ContentCollector where
  start := {}
  feed := ContentSearch.feed enc p o
  page s := s.waiting.page
  force stop s := { s with waiting := { s.waiting with page := forceStop s.waiting.page stop } }
  finish := finishFile enc p

structure CountState where
  currentPath : Option Text := none
  currentCount : ℕ := 0
  page : PageState := {}

/-- What a file with matches is in the list of files, or of counts. -/
def countItem : GrepMode → Text × ℕ → Json
  | .count, file => .obj [(txt "path", .str file.1), (txt "count", natJson file.2)]
  | _, file => .str file.1

/-- `finish_count_path`. -/
def finishCountPath (mode : GrepMode) (s : CountState) : Except Raised CountState :=
  match s.currentPath with
  | none => pure s
  | some path => do
    let page ← add enc p s.page (countItem mode (path, s.currentCount))
    pure { page }

def feedCount (mode : GrepMode) (s : CountState) : Event → Except Raised CountState
  | .found path _ _ submatches =>
    if s.currentPath = some path then pure { s with currentCount := s.currentCount + submatches.length }
    else do
      let s ← finishCountPath enc p mode s
      if s.page.shouldStop then pure s
      else pure { s with currentPath := some path, currentCount := s.currentCount + submatches.length }
  | _ => pure s

def countCollector (mode : GrepMode) : Collector CountState where
  start := {}
  feed := feedCount enc p mode
  page s := s.page
  force stop s := { s with page := forceStop s.page stop }
  finish := finishCountPath enc p mode

end

structure SumState where
  currentPath : Option Text := none
  occurrences : ℕ := 0
  matchedFiles : ℕ := 0

def sumEvent (s : SumState) : Event → SumState
  | .found path _ _ submatches =>
    { currentPath := some path
      occurrences := s.occurrences + submatches.length
      matchedFiles := if s.currentPath = some path then s.matchedFiles else s.matchedFiles + 1 }
  | _ => s

/-- A summary has no page. -/
def sumCollector : Collector SumState where
  start := {}
  feed s e := pure (sumEvent s e)
  page _ := {}
  force _ s := s
  finish := pure

/-! ## What the events tell -/

/-- More matches in the file that comes first. -/
def extendRuns (path : Text) (n : ℕ) : List (Text × ℕ) → List (Text × ℕ)
  | [] => [(path, n)]
  | run :: runs => if run.1 = path then (path, n + run.2) :: runs else (path, n) :: run :: runs

/-- The files with matches, each with the number of its matches. -/
def fileRuns : List Event → List (Text × ℕ)
  | [] => []
  | .found path _ _ submatches :: events => extendRuns path submatches.length (fileRuns events)
  | _ :: events => fileRuns events

def Event.fileMark : Event → Option Bool
  | .found .. => some false
  | .fileEnd => some true
  | _ => none

/-- Behind its last match the last file was read to the end. -/
def lastFileEnded (events : List Event) : Bool := (events.filterMap Event.fileMark).getLast? == some true

/-- What the events give a collector for its page, and what waits behind them. -/
structure Ledger where
  handed : List Json
  waiting : List Json
  /-- What waits has been read to its end. -/
  whole : Bool
  /-- The queue was full, and what waited is lost. -/
  full : Bool

/-- All that is known in full. -/
def Ledger.found (l : Ledger) : List Json := l.handed ++ if l.whole then l.waiting else []

def Ledger.all (l : Ledger) : List Json := l.handed ++ l.waiting

def countLedger (mode : GrepMode) (events : List Event) : Ledger where
  handed := (fileRuns events).dropLast.map (countItem mode)
  waiting := (fileRuns events).getLast?.toList.map (countItem mode)
  whole := match mode with
    | .count => lastFileEnded events
    | _ => true
  full := false

/-- The matches before the offset do not wait. -/
def contentLedger (o : ContextOptions) (offset : ℕ) (events : List Event) : Ledger :=
  let ops := operations o {} events
  let r := release contextQueue maxPendingMatches [] (skip offset ops)
  { handed := ((queued ops).take offset ++ r.1).map Pending.item
    waiting := (r.2.getD []).map Pending.item
    whole := true
    full := r.2.isNone }

/-- A collector keeps the ledger of the events. -/
structure Collector.Keeps (enc : TokenEncoding) (p : PageSetup) (ledger : List Event → Ledger) : Prop where
  start : c.page c.start = {}
  forced : ∀ stop s, c.page (c.force stop s) = forceStop (c.page s) stop
  idle : ∀ s, (c.page s).shouldStop = true → ∃ s', c.finish s = .ok s' ∧ c.page s' = c.page s
  lost : ∀ events, (ledger events).full = true → (ledger events).waiting = []
  reads : ∀ events, (feedEvents c c.start events >>= fun s => pure (c.page s)) =
    addAll enc p (ledger events).handed {} >>= fun page => pure (settle (ledger events).full page)
  finishes : ∀ events, (feedEvents c c.start events >>= fun s => c.finish s >>= fun s => pure (c.page s)) =
    addAll enc p (ledger events).all {} >>= fun page => pure (settle (ledger events).full page)

/-! ## Files -/

section
variable {enc : TokenEncoding} {p : PageSetup} {mode : GrepMode}

theorem extendRuns_same (path : Text) (m n : ℕ) (runs : List (Text × ℕ)) :
    extendRuns path m (extendRuns path n runs) = extendRuns path (m + n) runs := by
  cases runs with
  | nil => exact if_pos rfl
  | cons run runs =>
    rw [extendRuns, extendRuns]
    split
    · exact (if_pos rfl).trans (by rw [Nat.add_assoc])
    · exact if_pos rfl

theorem extendRuns_other {path path' : Text} (hne : path' ≠ path) (m n : ℕ) (runs : List (Text × ℕ)) :
    extendRuns path m (extendRuns path' n runs) = (path, m) :: extendRuns path' n runs := by
  cases runs with
  | nil => exact if_neg hne
  | cons run runs =>
    rw [extendRuns]
    split
    · exact if_neg hne
    · exact if_neg hne

theorem extendRuns_ne_nil (path : Text) (n : ℕ) (runs : List (Text × ℕ)) : extendRuns path n runs ≠ [] := by
  cases runs with
  | nil => exact List.cons_ne_nil _ _
  | cons run runs =>
    rw [extendRuns]
    split
    · exact List.cons_ne_nil _ _
    · exact List.cons_ne_nil _ _

def stateAt (current : Option (Text × ℕ)) (page : PageState) : CountState :=
  match current with
  | none => { page }
  | some run => ⟨some run.1, run.2, page⟩

def runsFrom (current : Option (Text × ℕ)) (events : List Event) : List (Text × ℕ) :=
  match current with
  | none => fileRuns events
  | some run => extendRuns run.1 run.2 (fileRuns events)

@[simp] theorem stateAt_page (current : Option (Text × ℕ)) (page : PageState) : (stateAt current page).page = page := by
  cases current <;> rfl

theorem finishCountPath_stateAt (run : Text × ℕ) (page : PageState) : finishCountPath enc p mode (stateAt (some run) page) =
    add enc p page (countItem mode run) >>= fun page => pure (stateAt none page) := rfl

section
variable {path : Text} (lineNumber : ℕ) {text : Text} {submatches : List (Submatch text)} {page : PageState}

theorem feedCount_first (hgoing : page.shouldStop = false) :
    feedCount enc p mode (stateAt none page) (.found path lineNumber text submatches) =
      pure (stateAt (some (path, submatches.length)) page) := by
  have hcount : (stateAt none page).currentCount + submatches.length = submatches.length := Nat.zero_add _
  have hfirst : (stateAt none page).currentPath ≠ some path := fun h => Option.some_ne_none path h.symm
  have hnothing : finishCountPath enc p mode (stateAt none page) = pure (stateAt none page) := rfl
  rw [feedCount, if_neg hfirst, hnothing, pure_bind, stateAt_page, if_neg (by simp [hgoing]), hcount]
  rfl

theorem feedCount_same (m : ℕ) : feedCount enc p mode (stateAt (some (path, m)) page) (.found path lineNumber text submatches) =
    pure (stateAt (some (path, m + submatches.length)) page) := if_pos rfl

theorem feedCount_other {run : Text × ℕ} (hne : run.1 ≠ path) :
    feedCount enc p mode (stateAt (some run) page) (.found path lineNumber text submatches) =
      add enc p page (countItem mode run) >>= fun page =>
        pure (stateAt (if page.shouldStop then none else some (path, submatches.length)) page) := by
  have hother : (stateAt (some run) page).currentPath ≠ some path := fun h => hne (Option.some.inj h)
  rw [feedCount, if_neg hother, finishCountPath_stateAt, bind_assoc]
  refine bind_congr fun page' => ?_
  have hcount : (stateAt none page').currentCount + submatches.length = submatches.length := Nat.zero_add _
  rw [pure_bind, stateAt_page, hcount]
  cases page'.shouldStop with
  | true => rfl
  | false => rfl

end

/-- All files but the last reach the page. -/
theorem feedEvents_count {current : Option (Text × ℕ)} {page : PageState} (hgoing : page.shouldStop = false) (events : List Event) :
    feedEvents (countCollector enc p mode) (stateAt current page) events =
      addAll enc p ((runsFrom current events).dropLast.map (countItem mode)) page >>= fun page =>
        pure (stateAt (if page.shouldStop then none else (runsFrom current events).getLast?) page) := by
  have hpage : ∀ current page, (countCollector enc p mode).page (stateAt current page) = page := stateAt_page
  induction events generalizing current page with
  | nil =>
    have hend : ∀ last, (addAll enc p [] page >>= fun page => pure (stateAt (if page.shouldStop then none else last) page)) =
        (pure (stateAt last page) : Except Raised CountState) := by
      intro last
      show (pure (stateAt (if page.shouldStop then none else last) page) : Except Raised CountState) = pure (stateAt last page)
      rw [hgoing, if_neg Bool.false_ne_true]
    cases current with
    | none => exact (hend none).symm
    | some run => exact (hend (some run)).symm
  | cons e events ih =>
    -- where the event leaves a state of this kind, the rest goes on from there
    have hstep : ∀ {next : Option (Text × ℕ)}, feedCount enc p mode (stateAt current page) e = pure (stateAt next page) →
        runsFrom current (e :: events) = runsFrom next events → feedEvents (countCollector enc p mode) (stateAt current page) (e :: events) =
          addAll enc p ((runsFrom current (e :: events)).dropLast.map (countItem mode)) page >>= fun page =>
            pure (stateAt (if page.shouldStop then none else (runsFrom current (e :: events)).getLast?) page) := by
      intro next hfeed hruns
      have hfed : (countCollector enc p mode).feed (stateAt current page) e = pure (stateAt next page) := hfeed
      rw [feedEvents, hfed, pure_bind, hpage, if_neg (by simp [hgoing]), hruns]
      exact ih hgoing
    cases e with
    | found path lineNumber text submatches =>
      cases current with
      | none => exact hstep (feedCount_first lineNumber hgoing) rfl
      | some run =>
        obtain ⟨path', m⟩ := run
        by_cases hsame : path' = path
        · subst hsame
          exact hstep (feedCount_same lineNumber m) (extendRuns_same ..)
        · have hruns : runsFrom (some (path', m)) (.found path lineNumber text submatches :: events) =
              (path', m) :: runsFrom (some (path, submatches.length)) events := extendRuns_other (Ne.symm hsame) ..
          have hmore : runsFrom (some (path, submatches.length)) events ≠ [] := extendRuns_ne_nil _ _ _
          have hfed : (countCollector enc p mode).feed (stateAt (some (path', m)) page) (.found path lineNumber text submatches) =
              add enc p page (countItem mode (path', m)) >>= fun page =>
                pure (stateAt (if page.shouldStop then none else some (path, submatches.length)) page) := feedCount_other lineNumber hsame
          rw [feedEvents, hfed, hruns, List.dropLast_cons_of_ne_nil hmore, List.map_cons, addAll, bind_assoc, bind_assoc]
          refine bind_congr fun page' => ?_
          rw [pure_bind, hpage]
          cases hstop : page'.shouldStop with
          | true =>
            rw [if_pos rfl, if_pos rfl, addAll_stopped hstop]
            show _ = (pure (stateAt (if page'.shouldStop then none else _) page') : Except Raised CountState)
            rw [hstop, if_pos rfl]
          | false =>
            rw [if_neg Bool.false_ne_true, if_neg Bool.false_ne_true, ih hstop, List.getLast?_cons_of_ne_nil hmore]
    | context path lineNumber text => exact hstep rfl (by cases current <;> rfl)
    | fileEnd => exact hstep rfl (by cases current <;> rfl)
    | other => exact hstep rfl (by cases current <;> rfl)

theorem finishCountPath_stopped {s : CountState} (hstop : s.page.shouldStop = true) :
    ∃ s', finishCountPath enc p mode s = .ok s' ∧ s'.page = s.page := by
  obtain ⟨current, n, page⟩ := s
  cases current with
  | none => exact ⟨_, rfl, rfl⟩
  | some path => exact ⟨stateAt none page, bind_eq_ok.mpr ⟨page, add_stopped hstop _, rfl⟩, rfl⟩

/-- The last file reaches the page when it is finished. -/
theorem finishCountPath_last (last : Option (Text × ℕ)) (page : PageState) :
    (finishCountPath enc p mode (stateAt (if page.shouldStop then none else last) page) >>= fun s => pure s.page) =
      addAll enc p (last.toList.map (countItem mode)) page := by
  cases hstop : page.shouldStop with
  | true =>
    rw [if_pos rfl, addAll_stopped hstop]
    rfl
  | false =>
    rw [if_neg Bool.false_ne_true]
    cases last with
    | none => rfl
    | some run =>
      have hone : addAll enc p [countItem mode run] page = add enc p page (countItem mode run) >>= fun page => pure page := rfl
      rw [finishCountPath_stateAt, bind_assoc, Option.toList_some, List.map_singleton, hone]
      exact bind_congr fun page => rfl

theorem countCollector_keeps (enc : TokenEncoding) (p : PageSetup) (mode : GrepMode) :
    (countCollector enc p mode).Keeps enc p (countLedger mode) where
  start := rfl
  forced _ _ := rfl
  idle _ hstop := finishCountPath_stopped hstop
  lost _ hfull := absurd hfull Bool.false_ne_true
  reads events := by
    have hstart : (countCollector enc p mode).start = stateAt none {} := rfl
    rw [hstart, feedEvents_count rfl events, bind_assoc]
    refine bind_congr fun page => ?_
    rw [pure_bind]
    exact congrArg pure (stateAt_page _ _)
  finishes events := by
    have hstart : (countCollector enc p mode).start = stateAt none {} := rfl
    have hall : (countLedger mode events).all = (fileRuns events).dropLast.map (countItem mode) ++
      (fileRuns events).getLast?.toList.map (countItem mode) := rfl
    rw [hstart, feedEvents_count rfl events, hall, addAll_append, bind_assoc, bind_assoc]
    refine bind_congr fun page => ?_
    rw [pure_bind]
    refine (finishCountPath_last _ page).trans ?_
    exact (bind_pure _).symm

end

/-! ## Matches -/

section
variable {enc : TokenEncoding} {p : PageSetup}

theorem readEvents_feedEvents (o : ContextOptions) (s : ContentCollector) (events : List Event) :
    feedEvents (contentCollector enc p o) s events = readEvents enc p o s events := by
  induction events generalizing s with
  | nil => rfl
  | cons e events ih =>
    rw [feedEvents, readEvents]
    refine bind_congr fun s => ?_
    rw [ih s]
    rfl

/-- The queue behind all operations of a search. -/
theorem runOps_ledger (ops : List MatchOp) : runOps enc p {} ops =
    addAll enc p (((queued ops).take p.offset ++ (release contextQueue maxPendingMatches [] (skip p.offset ops)).1).map Pending.item) {} >>=
      fun page => pure (released (release contextQueue maxPendingMatches [] (skip p.offset ops)) page) := by
  let start : PageState := { seen := 0 + min p.offset (queued ops).length }
  have hskip : runOps enc p {} ops = runOps enc p ⟨[], start⟩ (skip p.offset ops) := runOps_skip rfl (Nat.zero_add _).le ops
  have hcounted : addAll enc p (((queued ops).take p.offset).map Pending.item) {} = .ok start := by
    rw [addAll_skips rfl]
    have hnone : (((queued ops).take p.offset).map Pending.item).drop (p.offset - 0) = [] := by
      rw [List.drop_eq_nil_iff, List.length_map, List.length_take]
      omega
    have hlength : min (p.offset - 0) (((queued ops).take p.offset).map Pending.item).length = min p.offset (queued ops).length := by
      rw [List.length_map, List.length_take]
      omega
    dsimp only
    rw [hnone, hlength]
    rfl
  rw [hskip, List.map_append, addAll_append, hcounted]
  by_cases hoffset : p.offset ≤ (queued ops).length
  · refine runOps_release rfl ?_ _
    dsimp only [start]
    omega
  · rw [skip_of_lt (Nat.not_le.mp hoffset)]
    rfl

theorem contentCollector_keeps (enc : TokenEncoding) (p : PageSetup) (o : ContextOptions) :
    (contentCollector enc p o).Keeps enc p (contentLedger o p.offset) where
  start := rfl
  forced _ _ := rfl
  idle s hstop := by
    obtain ⟨cursor, pending, page⟩ := s
    have hflushed : flush enc p none ⟨pending, page⟩ = .ok ⟨[], page⟩ := by
      cases pending with
      | nil => rfl
      | cons m pending =>
        have hadd : add enc p page m.item = .ok page := add_stopped hstop _
        rw [flush, flushPending, if_neg (by simp), hadd]
        exact if_pos hstop
    exact ⟨⟨{}, [], page⟩, bind_eq_ok.mpr ⟨_, hflushed, rfl⟩, rfl⟩
  lost events hfull := by
    have hnone := Option.isNone_iff_eq_none.mp hfull
    rw [contentLedger, hnone]
    rfl
  reads events := by
    have hread : (readEvents enc p o {} events >>= fun s => pure s.waiting) = runOps enc p {} (operations o {} events) :=
      readEvents_eq o rfl events
    have hpage : (feedEvents (contentCollector enc p o) {} events >>= fun s => pure s.waiting.page) =
        runOps enc p {} (operations o {} events) >>= fun w => pure w.page := by
      rw [readEvents_feedEvents, ← hread, bind_assoc]
      rfl
    refine hpage.trans ?_
    rw [runOps_ledger, bind_assoc]
    refine bind_congr fun page => ?_
    rw [pure_bind, released_page]
    rfl
  finishes events := by
    have hread : (readEvents enc p o {} events >>= fun s => pure s.waiting) = runOps enc p {} (operations o {} events) :=
      readEvents_eq o rfl events
    have hpage : (feedEvents (contentCollector enc p o) {} events >>= fun s => finishFile enc p s >>= fun s => pure s.waiting.page) =
        runOps enc p {} (operations o {} events) >>= fun w => flush enc p none w >>= fun w => pure w.page := by
      rw [readEvents_feedEvents, ← hread, bind_assoc]
      refine bind_congr fun s => ?_
      rw [pure_bind, finishFile, bind_assoc]
      rfl
    refine hpage.trans ?_
    rw [runOps_ledger, bind_assoc, Ledger.all, addAll_append, bind_assoc]
    refine bind_congr fun page => ?_
    rw [pure_bind]
    exact flush_released _ page

/-- Unless the queue was full, every match is in the ledger. -/
theorem length_contentLedger (o : ContextOptions) (offset : ℕ) (events : List Event) (hroom : (contentLedger o offset events).full = false) :
    (contentLedger o offset events).all.length = (queued (operations o {} events)).length := by
  obtain ⟨left, hleft⟩ := Option.isSome_iff_exists.mp (Option.isNone_eq_false_iff.mp hroom)
  have hcount := length_release hleft
  have hskipped : (queued (skip offset (operations o {} events))).length = (queued (operations o {} events)).length - offset := by
    rw [← length_results (d := contextQueue), results_skip, List.length_drop, length_results]
  rw [Ledger.all, contentLedger]
  simp only [hleft, Option.getD_some, List.length_append, List.length_map, List.length_take, List.length_nil, Nat.zero_add] at hcount ⊢
  omega

end

end WebOauthMcp.EventReading
