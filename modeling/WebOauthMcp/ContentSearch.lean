import WebOauthMcp.BoundedQueues
import WebOauthMcp.SearchPaging

/-!
# Content search

A match waits for the lines behind it, which come with the events that follow. The collector of
the page gets it when they are complete. No more than a thousand matches wait.
-/

namespace WebOauthMcp.ContentSearch
open CodePoints JsonText ExceptSteps ResponseBudget BudgetMetadata FileReplies SearchPages OffsetPaging ReplyOffsets ReplyFields
open LineSplitting SearchPaging BoundedQueues

/-! ## Events -/

/-- One occurrence in the text of an event, by its offsets in bytes. -/
structure Submatch (text : Text) where
  start : ℕ
  stop : ℕ
  matched : Text
  encodable : isEncodable text = true
  ordered : start ≤ stop
  within : stop ≤ (text.flatMap utf8Bytes).length

inductive Event
  | found (path : Text) (lineNumber : ℕ) (text : Text) (submatches : List (Submatch text))
  | context (path : Text) (lineNumber : ℕ) (text : Text)
  | fileEnd
  | other

structure ContextOptions where
  before : ℕ
  after : ℕ
  multiline : Bool
  onlyMatching : Bool

/-- A match that waits for its context. -/
structure Pending where
  path : Text
  lineNumber : ℕ
  line : Text
  contextBefore : List Text
  contextAfter : List Text := []
  endLineNumber : Option ℕ := none
  contextThrough : ℕ
  contextLineNumbers : List ℕ := []

def Pending.item (m : Pending) : Json :=
  .obj ([(txt "path", .str m.path), (txt "line_number", natJson m.lineNumber), (txt "line", .str m.line),
    (txt "context_before", .arr (m.contextBefore.map .str)), (txt "context_after", .arr (m.contextAfter.map .str))] ++
    match m.endLineNumber with
    | none => []
    | some n => [(txt "end_line_number", natJson n)])

def Pending.endLine (m : Pending) : ℕ := m.endLineNumber.getD m.lineNumber

/-- Lines behind a match are added to its context, each number once. -/
def addContext (number : ℕ) : List Text → Pending → Pending
  | [], m => m
  | line :: lines, m =>
    if m.endLine < number ∧ number ≤ m.contextThrough ∧ number ∉ m.contextLineNumbers then
      addContext (number + 1) lines
        { m with contextAfter := m.contextAfter ++ [line], contextLineNumbers := number :: m.contextLineNumbers }
    else addContext (number + 1) lines m

def eventLines (text : Text) : List Text := if splitlines text = [] ∧ text = [] then [[]] else splitlines text

/-- `_submatch_details`, without the text. -/
def submatchDetails {text : Text} (lineNumber : ℕ) (m : Submatch text) : ℕ × ℕ :=
  let startLine := lineNumber + ((text.flatMap utf8Bytes).take m.start).count 0x0A
  (startLine, startLine + m.matched.count lineFeed)

/-! ## Recent lines -/

/-- What the collector remembers of the file it reads. -/
structure Cursor where
  currentPath : Option Text := none
  recentLines : List (ℕ × Text) := []

def recordRecent (recent : List (ℕ × Text)) (lineNumber : ℕ) (text : Text) : List (ℕ × Text) :=
  if recent.any fun r => decide (r.1 = lineNumber) then recent.map fun r => if r.1 = lineNumber then (lineNumber, text) else r
  else recent ++ [(lineNumber, text)]

def recordLines : List (ℕ × Text) → ℕ → List Text → List (ℕ × Text)
  | recent, _, [] => recent
  | recent, lineNumber, line :: lines => recordLines (recordRecent recent lineNumber line) (lineNumber + 1) lines

def trimRecent (o : ContextOptions) (currentEnd : ℕ) (recent : List (ℕ × Text)) : List (ℕ × Text) :=
  recent.dropWhile fun r => decide (r.1 < max (currentEnd + 1 - o.before) 1)

def contextBefore (o : ContextOptions) (recent : List (ℕ × Text)) (startLine : ℕ) : List Text :=
  let first := max (startLine - o.before) 1
  (List.range' first (startLine - first)).filterMap fun n => (recent.find? fun r => decide (r.1 = n)).map Prod.snd

/-- Another file forgets the lines of the one before. -/
def Cursor.enter (c : Cursor) (path : Text) : Cursor := if c.currentPath = some path then c else ⟨some path, []⟩

def Cursor.leave (o : ContextOptions) (c : Cursor) (lineNumber : ℕ) (lines : List Text) : Cursor :=
  { c with recentLines := trimRecent o (lineNumber + lines.length - 1) (recordLines c.recentLines lineNumber lines) }

/-- The matches of an event. -/
def matchesOf (o : ContextOptions) (recent : List (ℕ × Text)) (path : Text) (lineNumber : ℕ) (text : Text)
    (submatches : List (Submatch text)) : List Pending :=
  if o.multiline || o.onlyMatching then
    submatches.map fun m =>
      let (startLine, endLine) := submatchDetails lineNumber m
      { path, lineNumber := startLine, line := m.matched, contextBefore := contextBefore o recent startLine
        endLineNumber := if o.multiline then some endLine else none, contextThrough := endLine + o.after }
  else
    [{ path, lineNumber, line := (eventLines text).headD [], contextBefore := contextBefore o recent lineNumber
       contextThrough := lineNumber + o.after }]

/-! ## The collector -/

def maxPendingMatches : ℕ := 1000

structure Waiting where
  pending : List Pending := []
  page : PageState := {}

structure ContentCollector where
  cursor : Cursor := {}
  waiting : Waiting := {}

variable (enc : TokenEncoding) (p : PageSetup)

/-- `_queue`. -/
def queueMatch (w : Waiting) (m : Pending) : Except Raised Waiting :=
  if w.page.shouldStop then pure w
  else if w.page.seen < p.offset ∧ w.pending = [] then do
    let page ← add enc p w.page m.item
    pure { w with page }
  else if maxPendingMatches ≤ w.pending.length then pure ⟨[], forceStop w.page .contextBufferLimit⟩
  else pure { w with pending := w.pending ++ [m] }

def queueMatches : Waiting → List Pending → Except Raised Waiting
  | w, [] => pure w
  | w, m :: ms => do
    let w ← queueMatch enc p w m
    if w.page.shouldStop then pure w else queueMatches w ms

/-- `_flush_pending`. -/
def flushPending (beforeLine : Option ℕ) : List Pending → PageState → Except Raised Waiting
  | [], page => pure ⟨[], page⟩
  | m :: pending, page =>
    if (beforeLine.all fun b => decide (m.contextThrough < b)) = false then pure ⟨m :: pending, page⟩
    else do
      let page ← add enc p page m.item
      if page.shouldStop then pure ⟨[], page⟩ else flushPending beforeLine pending page

def flush (beforeLine : Option ℕ) (w : Waiting) : Except Raised Waiting := flushPending enc p beforeLine w.pending w.page

def finishFile (s : ContentCollector) : Except Raised ContentCollector := do
  let waiting ← flush enc p none s.waiting
  pure ⟨{}, waiting⟩

/-- The events of another file finish the one before. -/
def enterFile (s : ContentCollector) (path : Text) : Except Raised ContentCollector :=
  if s.cursor.currentPath = some path then pure s
  else do
    let s ← finishFile enc p s
    pure { s with cursor := { s.cursor with currentPath := some path } }

/-- The part of `feed` that lines of a match and lines of context share. -/
def feedLines (o : ContextOptions) (s : ContentCollector) (path : Text) (lineNumber : ℕ) (text : Text)
    (found : List (ℕ × Text) → List Pending) : Except Raised ContentCollector := do
  let s ← enterFile enc p s path
  let w ← flush enc p (some lineNumber) s.waiting
  let w : Waiting := { w with pending := w.pending.map (addContext lineNumber (eventLines text)) }
  let w ← queueMatches enc p w (found s.cursor.recentLines)
  let w ← flush enc p (some (lineNumber + (eventLines text).length - 1 + 1)) w
  pure ⟨s.cursor.leave o lineNumber (eventLines text), w⟩

def feed (o : ContextOptions) (s : ContentCollector) (e : Event) : Except Raised ContentCollector :=
  if s.waiting.page.shouldStop then pure s
  else match e with
    | .fileEnd => finishFile enc p s
    | .found path lineNumber text submatches =>
      feedLines enc p o s path lineNumber text fun recent => matchesOf o recent path lineNumber text submatches
    | .context path lineNumber text => feedLines enc p o s path lineNumber text fun _ => []
    | .other => pure s

/-- The loop over the events. It ends early when the page is full. -/
def readEvents (o : ContextOptions) : ContentCollector → List Event → Except Raised ContentCollector
  | s, [] => pure s
  | s, e :: events => do
    let s ← feed enc p o s e
    if s.waiting.page.shouldStop then pure s else readEvents o s events

/-! ## The queue of matches -/

/-- What the events do to the matches that wait. -/
inductive Signal
  | passed (line : ℕ)
  | fileDone
  | lines (number : ℕ) (lines : List Text)

theorem contextThrough_addContext (number : ℕ) (lines : List Text) (m : Pending) :
    (addContext number lines m).contextThrough = m.contextThrough := by
  induction lines generalizing number m with
  | nil => rfl
  | cons line lines ih =>
    rw [addContext]
    split
    · exact ih _ _
    · exact ih _ _

def contextQueue : Discipline Pending Signal where
  frees
    | .passed b, m => decide (m.contextThrough < b)
    | .fileDone, _ => true
    | .lines _ _, _ => false
  change
    | .lines number lines, m => addContext number lines m
    | _, m => m
  stable s t m := by
    cases t with
    | passed b => rfl
    | fileDone => rfl
    | lines number lines =>
      cases s with
      | passed b => simp only [contextThrough_addContext]
      | fileDone => rfl
      | lines _ _ => rfl

abbrev MatchOp := Op Pending Signal

/-- The operations of an event's lines. -/
def lineOps (c : Cursor) (path : Text) (lineNumber : ℕ) (text : Text) (found : List (ℕ × Text) → List Pending) : List MatchOp :=
  (if c.currentPath = some path then [] else [.signal .fileDone]) ++
    (.signal (.passed lineNumber) :: .signal (.lines lineNumber (eventLines text)) :: ((found (c.enter path).recentLines).map .queue ++
      [.signal (.passed (lineNumber + (eventLines text).length - 1 + 1))]))

def eventOps (o : ContextOptions) (c : Cursor) : Event → List MatchOp × Cursor
  | .fileEnd => ([.signal .fileDone], {})
  | .found path lineNumber text submatches =>
    (lineOps c path lineNumber text fun recent => matchesOf o recent path lineNumber text submatches,
      (c.enter path).leave o lineNumber (eventLines text))
  | .context path lineNumber text => (lineOps c path lineNumber text fun _ => [], (c.enter path).leave o lineNumber (eventLines text))
  | .other => ([], c)

def operations (o : ContextOptions) : Cursor → List Event → List MatchOp
  | _, [] => []
  | c, e :: events => (eventOps o c e).1 ++ operations o (eventOps o c e).2 events

def runOp (w : Waiting) : MatchOp → Except Raised Waiting
  | .queue m => queueMatch enc p w m
  | .signal (.passed b) => flush enc p (some b) w
  | .signal .fileDone => flush enc p none w
  | .signal (.lines number lines) => pure { w with pending := w.pending.map (addContext number lines) }

def runOps : Waiting → List MatchOp → Except Raised Waiting
  | w, [] => pure w
  | w, op :: ops => do
    let w ← runOp enc p w op
    runOps w ops

variable {enc p} {w w' : Waiting}

theorem runOps_append (w : Waiting) (a b : List MatchOp) : runOps enc p w (a ++ b) = runOps enc p w a >>= fun w => runOps enc p w b := by
  induction a generalizing w with
  | nil => rfl
  | cons op a ih =>
    rw [List.cons_append, runOps, runOps, bind_assoc]
    exact bind_congr fun w => ih w

/-- A full page is left as it is. -/
structure Idle (w : Waiting) : Prop where
  stopped : w.page.shouldStop = true
  empty : w.pending = []

theorem runOp_idle (h : Idle w) (op : MatchOp) : runOp enc p w op = .ok w := by
  obtain ⟨pending, page⟩ := w
  obtain ⟨hstopped, rfl⟩ := h
  cases op with
  | queue m => exact if_pos hstopped
  | signal s =>
    cases s with
    | passed b => rfl
    | fileDone => rfl
    | lines number lines => rfl

theorem runOps_idle (h : Idle w) (ops : List MatchOp) : runOps enc p w ops = .ok w := by
  induction ops with
  | nil => rfl
  | cons op ops ih =>
    rw [runOps, runOp_idle h]
    exact ih

/-- Nothing waits when the page is full. -/
def Sound (w : Waiting) : Prop := w.page.shouldStop = true → w.pending = []

theorem flush_sound {beforeLine : Option ℕ} (hw : Sound w) (h : flush enc p beforeLine w = .ok w') : Sound w' := by
  obtain ⟨pending, page⟩ := w
  rw [flush] at h
  dsimp only at h
  induction pending generalizing page with
  | nil =>
    cases Except.ok.inj h
    exact fun _ => rfl
  | cons m pending ih =>
    have hgoing : ¬page.shouldStop = true := fun hstop => absurd (hw hstop) (List.cons_ne_nil _ _)
    rw [flushPending] at h
    split at h
    · cases Except.ok.inj h
      exact fun hstop => absurd hstop hgoing
    · obtain ⟨page', -, h⟩ := bind_eq_ok.mp h
      split at h
      · cases Except.ok.inj h
        exact fun _ => rfl
      · next hgoing' => exact ih page' (fun hstop => absurd hstop hgoing') h

theorem queueMatch_sound {m : Pending} (hw : Sound w) (h : queueMatch enc p w m = .ok w') : Sound w' := by
  rw [queueMatch] at h
  split at h
  · cases Except.ok.inj h
    exact hw
  · next hgoing =>
    split at h
    · next hskip =>
      obtain ⟨page, -, h⟩ := bind_eq_ok.mp h
      cases Except.ok.inj h
      exact fun _ => hskip.2
    · split at h
      · cases Except.ok.inj h
        exact fun _ => rfl
      · cases Except.ok.inj h
        exact fun hstop => absurd hstop hgoing

theorem runOps_sound {ops : List MatchOp} (hw : Sound w) (h : runOps enc p w ops = .ok w') : Sound w' := by
  induction ops generalizing w with
  | nil =>
    cases Except.ok.inj h
    exact hw
  | cons op ops ih =>
    obtain ⟨v, hv, h⟩ := bind_eq_ok.mp h
    refine ih ?_ h
    cases op with
    | queue m => exact queueMatch_sound hw hv
    | signal s =>
      cases s with
      | passed b => exact flush_sound hw hv
      | fileDone => exact flush_sound hw hv
      | lines number lines =>
        cases Except.ok.inj hv
        exact fun hstop => List.map_eq_nil_iff.mpr (hw hstop)

theorem queueMatches_eq (w : Waiting) (ms : List Pending) : queueMatches enc p w ms = runOps enc p w (ms.map .queue) := by
  have hstopped : ∀ {w : Waiting} (ms : List Pending), w.page.shouldStop = true → runOps enc p w (ms.map .queue) = .ok w := by
    intro w ms hstop
    induction ms with
    | nil => rfl
    | cons m ms ih =>
      have hqueue : runOp enc p w (.queue m) = .ok w := if_pos hstop
      rw [List.map_cons, runOps, hqueue]
      exact ih
  induction ms generalizing w with
  | nil => rfl
  | cons m ms ih =>
    rw [queueMatches, List.map_cons, runOps]
    refine bind_congr fun v => ?_
    split
    · next hstop => exact (hstopped ms hstop).symm
    · exact ih v

theorem feedLines_eq (o : ContextOptions) (s : ContentCollector) (path : Text) (lineNumber : ℕ) (text : Text)
    (found : List (ℕ × Text) → List Pending) : feedLines enc p o s path lineNumber text found =
      runOps enc p s.waiting (lineOps s.cursor path lineNumber text found) >>= fun w =>
        pure ⟨(s.cursor.enter path).leave o lineNumber (eventLines text), w⟩ := by
  have hentered : ∀ (c : Cursor) (w : Waiting), (do
      let w ← flush enc p (some lineNumber) w
      let w : Waiting := { w with pending := w.pending.map (addContext lineNumber (eventLines text)) }
      let w ← queueMatches enc p w (found c.recentLines)
      let w ← flush enc p (some (lineNumber + (eventLines text).length - 1 + 1)) w
      pure (⟨c.leave o lineNumber (eventLines text), w⟩ : ContentCollector)) =
      runOps enc p w (.signal (.passed lineNumber) :: .signal (.lines lineNumber (eventLines text)) ::
        ((found c.recentLines).map .queue ++ [.signal (.passed (lineNumber + (eventLines text).length - 1 + 1))])) >>= fun w =>
          pure ⟨c.leave o lineNumber (eventLines text), w⟩ := by
    intro c w
    rw [runOps, bind_assoc]
    refine bind_congr fun w => ?_
    rw [runOps, runOp, pure_bind, runOps_append, ← queueMatches_eq, bind_assoc]
    refine bind_congr fun w => ?_
    rw [runOps, bind_assoc]
    exact bind_congr fun w => rfl
  by_cases hpath : s.cursor.currentPath = some path
  · have hsame : s.cursor.enter path = s.cursor := if_pos hpath
    rw [feedLines, enterFile, if_pos hpath, lineOps, if_pos hpath, pure_bind, hsame]
    exact hentered s.cursor s.waiting
  · have hnew : s.cursor.enter path = ⟨some path, []⟩ := if_neg hpath
    rw [feedLines, enterFile, if_neg hpath, lineOps, if_neg hpath, finishFile, hnew, List.singleton_append, runOps]
    simp only [bind_assoc, pure_bind]
    exact bind_congr fun w => hentered ⟨some path, []⟩ w

theorem feed_eq (o : ContextOptions) {s : ContentCollector} (hgoing : s.waiting.page.shouldStop = false) (e : Event) :
    feed enc p o s e = runOps enc p s.waiting (eventOps o s.cursor e).1 >>= fun w => pure ⟨(eventOps o s.cursor e).2, w⟩ := by
  have hnot : ¬s.waiting.page.shouldStop = true := by simp [hgoing]
  unfold feed
  rw [if_neg hnot]
  cases e with
  | found path lineNumber text submatches => exact feedLines_eq o s path lineNumber text _
  | context path lineNumber text => exact feedLines_eq o s path lineNumber text _
  | fileEnd =>
    rw [eventOps, runOps, bind_assoc]
    exact bind_congr fun w => rfl
  | other => rfl

/-- Reading the events is running their operations. -/
theorem readEvents_eq (o : ContextOptions) {s : ContentCollector} (hgoing : s.waiting.page.shouldStop = false) (events : List Event) :
    (readEvents enc p o s events >>= fun s => pure s.waiting) = runOps enc p s.waiting (operations o s.cursor events) := by
  induction events generalizing s with
  | nil => rfl
  | cons e events ih =>
    rw [readEvents, feed_eq o hgoing, operations, runOps_append, bind_assoc, bind_assoc]
    have hsound : Sound s.waiting := fun hstop => absurd hstop (by simp [hgoing])
    cases hw : runOps enc p s.waiting (eventOps o s.cursor e).1 with
    | error err => rfl
    | ok w =>
      have hrest : Sound w := runOps_sound hsound hw
      show ((if w.page.shouldStop = true then pure (⟨(eventOps o s.cursor e).2, w⟩ : ContentCollector)
        else readEvents enc p o ⟨(eventOps o s.cursor e).2, w⟩ events) >>= fun s => pure s.waiting) =
          runOps enc p w (operations o (eventOps o s.cursor e).2 events)
      cases hstop : w.page.shouldStop with
      | false => exact ih (s := ⟨(eventOps o s.cursor e).2, w⟩) hstop
      | true => exact (runOps_idle ⟨hstop, hrest hstop⟩ _).symm

/-! ## What reaches the page -/

def isFreed (beforeLine : Option ℕ) (m : Pending) : Bool := beforeLine.all fun b => decide (m.contextThrough < b)

/-- A full queue stops a page that goes on. -/
def settle (full : Bool) (page : PageState) : PageState :=
  if full && !page.shouldStop then forceStop page .contextBufferLimit else page

theorem settle_stopped {full : Bool} {page : PageState} (h : page.shouldStop = true) : settle full page = page := by
  rw [settle, h, Bool.not_true, Bool.and_false, if_neg Bool.false_ne_true]

theorem flush_eq (beforeLine : Option ℕ) {pending : List Pending} {page : PageState} (hgoing : page.shouldStop = false) :
    flush enc p beforeLine ⟨pending, page⟩ = addAll enc p ((pending.takeWhile (isFreed beforeLine)).map Pending.item) page >>= fun page =>
      pure (if page.shouldStop then ⟨[], page⟩ else ⟨pending.dropWhile (isFreed beforeLine), page⟩) := by
  rw [flush]
  dsimp only
  induction pending generalizing page with
  | nil =>
    show pure ⟨[], page⟩ = pure (if page.shouldStop then (⟨[], page⟩ : Waiting) else ⟨[], page⟩)
    rw [ite_self]
  | cons m pending ih =>
    rw [flushPending]
    by_cases hfree : isFreed beforeLine m = true
    · rw [if_neg (by rw [← isFreed, hfree]; decide), List.takeWhile_cons_of_pos hfree, List.dropWhile_cons_of_pos hfree, List.map_cons,
        addAll, bind_assoc]
      refine bind_congr fun page' => ?_
      cases hstop : page'.shouldStop with
      | false =>
        rw [if_neg Bool.false_ne_true]
        exact ih hstop
      | true =>
        rw [addAll_stopped hstop]
        show pure ⟨[], page'⟩ = pure (if page'.shouldStop then (⟨[], page'⟩ : Waiting) else _)
        rw [hstop]
        rfl
    · rw [if_pos (by rw [← isFreed]; exact Bool.eq_false_iff.mpr hfree), List.takeWhile_cons_of_neg hfree, List.dropWhile_cons_of_neg hfree]
      show pure ⟨m :: pending, page⟩ = pure (if page.shouldStop then (⟨[], page⟩ : Waiting) else ⟨m :: pending, page⟩)
      rw [hgoing, if_neg Bool.false_ne_true]

theorem addAll_seen {items : List Json} {page page' : PageState} (h : addAll enc p items page = .ok page') : page.seen ≤ page'.seen := by
  induction items generalizing page with
  | nil =>
    cases Except.ok.inj h
    exact Nat.le_refl _
  | cons item items ih =>
    obtain ⟨next, hnext, h⟩ := bind_eq_ok.mp h
    refine Nat.le_trans ?_ (ih h)
    rw [add] at hnext
    split at hnext
    · cases Except.ok.inj hnext
      exact Nat.le_refl _
    · split at hnext
      · cases Except.ok.inj hnext
        exact Nat.le_succ _
      · split at hnext
        · cases Except.ok.inj hnext
          exact Nat.le_succ _
        · obtain ⟨candidate, -, hnext⟩ := bind_eq_ok.mp hnext
          split at hnext
          · cases Except.ok.inj hnext
            exact Nat.le_succ _
          · cases Except.ok.inj hnext
            exact Nat.le_succ _

/-- The queue behind the operations, on a page that goes on. -/
def released (r : List Pending × Option (List Pending)) (page : PageState) : Waiting :=
  if page.shouldStop then ⟨[], page⟩
  else match r.2 with
    | none => ⟨[], forceStop page .contextBufferLimit⟩
    | some left => ⟨left, page⟩

theorem released_page (r : List Pending × Option (List Pending)) (page : PageState) :
    (released r page).page = settle r.2.isNone page := by
  rw [released, settle]
  cases page.shouldStop with
  | true =>
    rw [if_pos rfl, Bool.not_true, Bool.and_false]
    rfl
  | false =>
    cases r.2 with
    | none => rfl
    | some left => rfl

/-- Behind the offset, the page gets what leaves the queue, and the rest waits. -/
theorem runOps_release {pending : List Pending} {page : PageState} (hgoing : page.shouldStop = false) (hseen : p.offset ≤ page.seen)
    (ops : List MatchOp) : runOps enc p ⟨pending, page⟩ ops =
      addAll enc p ((release contextQueue maxPendingMatches pending ops).1.map Pending.item) page >>= fun page =>
        pure (released (release contextQueue maxPendingMatches pending ops) page) := by
  have hflushed : ∀ (beforeLine : Option ℕ) (s : Signal) (ops : List MatchOp) (pending : List Pending) {page : PageState},
      page.shouldStop = false → p.offset ≤ page.seen → isFreed beforeLine = contextQueue.frees s → contextQueue.change s = id →
      (∀ {pending : List Pending} {page : PageState}, page.shouldStop = false → p.offset ≤ page.seen →
        runOps enc p ⟨pending, page⟩ ops = addAll enc p ((release contextQueue maxPendingMatches pending ops).1.map Pending.item) page >>=
          fun page => pure (released (release contextQueue maxPendingMatches pending ops) page)) →
      (flush enc p beforeLine ⟨pending, page⟩ >>= fun w => runOps enc p w ops) =
        addAll enc p ((release contextQueue maxPendingMatches pending (.signal s :: ops)).1.map Pending.item) page >>= fun page =>
          pure (released (release contextQueue maxPendingMatches pending (.signal s :: ops)) page) := by
    intro beforeLine s ops pending page hgoing hseen hfrees hchange ih
    rw [flush_eq beforeLine hgoing, release, hfrees, hchange, List.map_id, bind_assoc]
    dsimp only
    rw [List.map_append, addAll_append, bind_assoc]
    cases hpage : addAll enc p ((pending.takeWhile (contextQueue.frees s)).map Pending.item) page with
    | error e => rfl
    | ok page' =>
      have hlater := Nat.le_trans hseen (addAll_seen hpage)
      show runOps enc p (if page'.shouldStop then ⟨[], page'⟩ else ⟨pending.dropWhile (contextQueue.frees s), page'⟩) ops =
        addAll enc p ((release contextQueue maxPendingMatches (pending.dropWhile (contextQueue.frees s)) ops).1.map Pending.item) page' >>=
          fun page => pure (released (_, (release contextQueue maxPendingMatches (pending.dropWhile (contextQueue.frees s)) ops).2) page)
      cases hstop : page'.shouldStop with
      | false => exact ih hstop hlater
      | true =>
        have hidle : runOps enc p ⟨[], page'⟩ ops = .ok ⟨[], page'⟩ := runOps_idle ⟨hstop, rfl⟩ ops
        rw [if_pos rfl, hidle, addAll_stopped hstop]
        exact congrArg Except.ok (if_pos hstop).symm
  induction ops generalizing pending page with
  | nil => exact congrArg Except.ok (if_neg (by simp [hgoing])).symm
  | cons op ops ih =>
    rw [runOps]
    cases op with
    | queue m =>
      have hbehind : ¬(page.seen < p.offset ∧ pending = []) := fun h => absurd h.1 (Nat.not_lt.mpr hseen)
      rw [runOp, queueMatch, if_neg (by simp [hgoing]), if_neg hbehind, release]
      by_cases hfull : maxPendingMatches ≤ pending.length
      · have hidle : runOps enc p ⟨[], forceStop page .contextBufferLimit⟩ ops = .ok ⟨[], forceStop page .contextBufferLimit⟩ :=
          runOps_idle ⟨rfl, rfl⟩ ops
        rw [if_pos hfull, if_pos hfull, pure_bind, hidle]
        exact congrArg Except.ok (if_neg (by simp [hgoing])).symm
      · rw [if_neg hfull, if_neg hfull, pure_bind]
        exact ih hgoing hseen
    | signal s =>
      cases s with
      | passed b => exact hflushed (some b) (.passed b) ops pending hgoing hseen rfl rfl fun hgo hs => ih hgo hs
      | fileDone => exact hflushed none .fileDone ops pending hgoing hseen rfl rfl fun hgo hs => ih hgo hs
      | lines number lines =>
        rw [runOp, pure_bind]
        refine (ih hgoing hseen).trans ?_
        have hnone : pending.takeWhile (contextQueue.frees (.lines number lines)) = [] := by cases pending <;> rfl
        have hall : pending.dropWhile (contextQueue.frees (.lines number lines)) = pending := by cases pending <;> rfl
        rw [release, hnone, hall]
        rfl

/-- Matches before the offset are counted, and none of them waits. -/
theorem runOps_skip {page : PageState} (hgoing : page.shouldStop = false) {n : ℕ} (hn : page.seen + n ≤ p.offset) (ops : List MatchOp) :
    runOps enc p ⟨[], page⟩ ops =
      runOps enc p ⟨[], { page with seen := page.seen + min n (queued ops).length }⟩ (skip n ops) := by
  induction ops generalizing n page with
  | nil =>
    cases n with
    | zero => rfl
    | succ n => rfl
  | cons op ops ih =>
    cases n with
    | zero => simp only [skip_zero, Nat.zero_min, Nat.add_zero]
    | succ n =>
      rw [runOps]
      cases op with
      | queue m =>
        have hskip : page.seen < p.offset := by omega
        have hadd : add enc p page m.item = pure { page with seen := page.seen + 1 } := by
          rw [add, if_neg (by simp [hgoing]), if_pos hskip]
        rw [runOp, queueMatch, if_neg (by simp [hgoing]), if_pos ⟨hskip, rfl⟩, hadd]
        let next : PageState := { page with seen := page.seen + 1 }
        have hgoing' : next.shouldStop = false := hgoing
        have hcounted : next.seen + n ≤ p.offset := by
          dsimp only [next]
          omega
        have hseen : next.seen + min n (queued ops).length = page.seen + min (n + 1) (queued (.queue m :: ops)).length := by
          dsimp only [next]
          rw [queued_queue, List.length_cons, Nat.add_min_add_right]
          omega
        refine (ih hgoing' hcounted).trans ?_
        rw [hseen]
        rfl
      | signal s =>
        have hsame : runOp enc p ⟨[], page⟩ (.signal s) = pure ⟨[], page⟩ := by
          cases s with
          | passed b => rfl
          | fileDone => rfl
          | lines number lines => rfl
        rw [hsame]
        exact ih hgoing hn

/-- When the last file is finished, the page gets what still waits. -/
theorem flush_released (r : List Pending × Option (List Pending)) (page : PageState) :
    (flush enc p none (released r page) >>= fun w => pure w.page) =
      addAll enc p ((r.2.getD []).map Pending.item) page >>= fun page => pure (settle r.2.isNone page) := by
  cases hstop : page.shouldStop with
  | true =>
    rw [released, if_pos hstop, addAll_stopped hstop]
    exact congrArg Except.ok (settle_stopped hstop).symm
  | false =>
    rw [released, if_neg (by simp [hstop])]
    cases r.2 with
    | none =>
      show Except.ok (forceStop page .contextBufferLimit) = Except.ok (settle true page)
      rw [settle, hstop]
      rfl
    | some left =>
      have hall : left.takeWhile (isFreed none) = left := List.takeWhile_eq_self_iff.mpr fun _ _ => rfl
      dsimp only
      rw [flush_eq none hstop, hall, bind_assoc]
      refine bind_congr fun page => ?_
      rw [pure_bind]
      split
      · rfl
      · rfl

/-- The page behind the operations, once the last file is finished. -/
def finalPage (enc : TokenEncoding) (p : PageSetup) (w : Waiting) (ops : List MatchOp) : Except Raised PageState := do
  let w ← runOps enc p w ops
  let w ← flush enc p none w
  pure w.page

/-- Behind the offset, the page gets what leaves the queue. -/
theorem finalPage_emits {pending : List Pending} {page : PageState} (hgoing : page.shouldStop = false) (hseen : p.offset ≤ page.seen)
    (ops : List MatchOp) : finalPage enc p ⟨pending, page⟩ ops =
      addAll enc p ((emit contextQueue maxPendingMatches pending ops).1.map Pending.item) page >>= fun page =>
        pure (settle (emit contextQueue maxPendingMatches pending ops).2 page) := by
  rw [finalPage, runOps_release hgoing hseen, emit_eq_release, List.map_append, addAll_append, bind_assoc, bind_assoc]
  exact bind_congr fun page => flush_released _ page

/-- Matches before the offset are counted, and none of them waits. -/
theorem finalPage_skips {page : PageState} (hgoing : page.shouldStop = false) {n : ℕ} (hn : page.seen + n = p.offset) {ops : List MatchOp}
    (hops : n ≤ (queued ops).length) :
    finalPage enc p ⟨[], page⟩ ops = finalPage enc p ⟨[], { page with seen := p.offset }⟩ (skip n ops) := by
  rw [finalPage, runOps_skip hgoing hn.le, Nat.min_eq_left hops, hn]
  rfl

/-! ## Searches -/

/-- A search for content, with the events that its backend sends. The matches of a file come in
the order of the lines on which they end. -/
structure ContentCall where
  call : GrepCall
  before : ℕ
  after : ℕ
  multiline : Bool
  maxTokens : ℕ+
  events : List Event
  content : call.mode = .content
  orderly : Orderly contextQueue (operations ⟨before, after, multiline, call.onlyMatching⟩ {} events)

variable (enc) (x : ContentCall)

def ContentCall.options : ContextOptions := ⟨x.before, x.after, x.multiline, x.call.onlyMatching⟩

def ContentCall.setup (offset limit : ℕ) : PageSetup := grepSetup x.call offset limit x.maxTokens

/-- `grep_files` for content, from the first event of the backend on. -/
def grepContent (offset limit : ℕ) : Except Raised GrepReply :=
  match readEvents enc (x.setup offset limit) x.options {} x.events with
  | .error _ => pure .backendError
  | .ok s => do
    let s ← finishFile enc (x.setup offset limit) s
    let d ← payload enc (x.setup offset limit) s.waiting.page
    pure (.page d)

def ContentCall.ops : List MatchOp := operations x.options {} x.events

/-- All matches of the search, with their context. -/
def ContentCall.items : List Json := (results contextQueue x.ops).map Pending.item

def contentPager (limit i : ℕ) : Option (Page Json) :=
  match grepContent enc x i limit with
  | .ok (.page d) => some ⟨shownItems (txt "matches") d, nextOffsetOf d⟩
  | _ => none

variable {enc x}

theorem grepContent_page_iff {i limit : ℕ} {d : Dict} : grepContent enc x i limit = .ok (.page d) ↔
    ∃ page, finalPage enc (x.setup i limit) {} x.ops = .ok page ∧ payload enc (x.setup i limit) page = .ok d := by
  have hread : (readEvents enc (x.setup i limit) x.options {} x.events >>= fun s => pure s.waiting) =
      runOps enc (x.setup i limit) {} x.ops := readEvents_eq x.options rfl x.events
  rw [grepContent, finalPage, ← hread]
  cases readEvents enc (x.setup i limit) x.options {} x.events with
  | error e => exact iff_of_false (by simp [pure, Except.pure]) fun h => by obtain ⟨page, hpage, -⟩ := h; exact absurd hpage (by simp [bind, Except.bind])
  | ok s =>
    have hflushed : (do
        let w ← (Except.ok s >>= fun s : ContentCollector => pure s.waiting)
        let w ← flush enc (x.setup i limit) none w
        pure w.page) = flush enc (x.setup i limit) none s.waiting >>= fun w => pure w.page := rfl
    rw [hflushed]
    constructor
    · intro h
      obtain ⟨t, ht, h⟩ := bind_eq_ok.mp h
      obtain ⟨w, hw, ht⟩ := bind_eq_ok.mp ht
      cases Except.ok.inj ht
      obtain ⟨d', hd, h⟩ := bind_eq_ok.mp h
      cases Except.ok.inj h
      exact ⟨w.page, bind_eq_ok.mpr ⟨w, hw, rfl⟩, hd⟩
    · intro h
      obtain ⟨page, hpage, hd⟩ := h
      obtain ⟨w, hw, hpage⟩ := bind_eq_ok.mp hpage
      cases Except.ok.inj hpage
      have hfinish : finishFile enc (x.setup i limit) s = .ok ⟨{}, w⟩ := bind_eq_ok.mpr ⟨w, hw, rfl⟩
      exact bind_eq_ok.mpr ⟨⟨{}, w⟩, hfinish, bind_eq_ok.mpr ⟨d, hd, rfl⟩⟩

/-! ## Its pages -/

/-- What leaves the queue for the page at an offset. -/
def ContentCall.ready (x : ContentCall) (i : ℕ) : List Json := (emit contextQueue maxPendingMatches [] (skip i x.ops)).1.map Pending.item

def ContentCall.full (x : ContentCall) (i : ℕ) : Bool := (emit contextQueue maxPendingMatches [] (skip i x.ops)).2

theorem length_items : x.items.length = (queued x.ops).length := (List.length_map _).trans (length_results x.ops)

theorem ready_spec (x : ContentCall) (i : ℕ) :
    x.ready i <+: x.items.drop i ∧ x.full i = decide ((x.ready i).length < (x.items.drop i).length) := by
  have hcap : 0 < maxPendingMatches := by decide
  obtain ⟨hfront, hfull⟩ := emit_spec hcap queue_nil (x.orderly.suffix (skip_suffix i x.ops))
  have hall : outlook contextQueue [] (skip i x.ops) = (results contextQueue x.ops).drop i := results_skip i x.ops
  rw [hall] at hfront hfull
  have hitems : x.items.drop i = ((results contextQueue x.ops).drop i).map Pending.item := List.map_drop.symm
  rw [hitems, ContentCall.ready, ContentCall.full, List.length_map, List.length_map]
  exact ⟨hfront.map _, hfull⟩

/-- The page with the first `k` matches that are ready fits. -/
def ReadyFits (enc : TokenEncoding) (x : ContentCall) (i k : ℕ) : Prop :=
  fitsReply enc { maxTokens := x.maxTokens } (candidatePayload (x.setup i 0) ((x.items.drop i).take k) (some (i + k))) true (txt "token_budget") = true

theorem addAll_flags {items : List Json} {page page' : PageState} (hflags : page.shouldStop = page.truncated)
    (h : addAll enc p items page = .ok page') : page'.shouldStop = page'.truncated := by
  induction items generalizing page with
  | nil =>
    cases Except.ok.inj h
    exact hflags
  | cons item items ih =>
    obtain ⟨next, hnext, h⟩ := bind_eq_ok.mp h
    refine ih ?_ h
    rw [add] at hnext
    split at hnext
    · cases Except.ok.inj hnext
      exact hflags
    · split at hnext
      · cases Except.ok.inj hnext
        exact hflags
      · split at hnext
        · cases Except.ok.inj hnext
          rfl
        · obtain ⟨candidate, -, hnext⟩ := bind_eq_ok.mp hnext
          split at hnext
          · cases Except.ok.inj hnext
            exact hflags
          · cases Except.ok.inj hnext
            rfl

theorem finalPage_eq {i limit : ℕ} (hi : i ≤ x.items.length) : finalPage enc (x.setup i limit) {} x.ops =
    addAll enc (x.setup i limit) (x.ready i) { seen := i } >>= fun page => pure (settle (x.full i) page) := by
  have hops : i ≤ (queued x.ops).length := length_items ▸ hi
  have hskip : finalPage enc (x.setup i limit) {} x.ops = finalPage enc (x.setup i limit) ⟨[], { seen := i }⟩ (skip i x.ops) :=
    finalPage_skips rfl (Nat.zero_add i) hops
  rw [hskip]
  exact finalPage_emits rfl (Nat.le_refl i) _

/-- What a page shows of the matches, and whether it stops before the last. -/
theorem finalPage_spec {i limit : ℕ} {page : PageState} (hi : i ≤ x.items.length)
    (h : finalPage enc (x.setup i limit) {} x.ops = .ok page) : ∃ k e,
      Reaches (ReadyFits enc x i) limit 0 (x.ready i).length k e ∧ page.items = (x.items.drop i).take k ∧
        page.truncated = decide (i + k < x.items.length) := by
  rw [finalPage_eq hi] at h
  obtain ⟨collected, hcollected, h⟩ := bind_eq_ok.mp h
  cases Except.ok.inj h
  obtain ⟨hfront, hfull⟩ := ready_spec x i
  have hle := hfront.length_le
  rw [List.length_drop] at hle hfull
  have htake : ∀ m ≤ (x.ready i).length, (x.ready i).take m = (x.items.drop i).take m ∧ ((x.items.drop i).take m).length = m := by
    intro m hm
    obtain ⟨rest, hrest⟩ := hfront
    refine ⟨?_, ?_⟩
    · rw [← hrest, List.take_append_of_le_length hm]
    · rw [List.length_take, List.length_drop]
      omega
  have hstart : Collecting (x.setup i limit) { seen := i } := ⟨rfl, rfl, rfl, fun _ => Nat.zero_le _⟩
  obtain ⟨k, e, hreach, hitems, htruncated, -⟩ := addAll_collects rfl hstart (fun _ => Nat.le_refl i) hcollected
  have hflags := addAll_flags rfl hcollected
  have hfit : ∀ m ≤ (x.ready i).length, CandidateFits enc (x.setup i limit) ([] ++ (x.ready i).take m) ↔ ReadyFits enc x i m := by
    intro m hm
    obtain ⟨hsame, hlength⟩ := htake m hm
    rw [List.nil_append, hsame, CandidateFits, hlength]
    exact Iff.rfl
  have hkept : (settle (x.full i) collected).items = collected.items := by
    rw [settle]
    split
    · rfl
    · rfl
  refine ⟨k, e, ⟨hreach.le, fun j hj => (hfit (j + 1) (Nat.le_trans hj hreach.le)).mp (hreach.fitted j hj), hreach.within, ?_⟩, ?_, ?_⟩
  · have hending := hreach.ending
    cases e with
    | exhausted => exact hending
    | limit => exact hending
    | budget => exact ⟨hending.1, fun hfits => hending.2.1 ((hfit (k + 1) hending.1).mpr hfits), hending.2.2⟩
  · rw [hkept, hitems]
    exact (htake k hreach.le).1
  · have hending := hreach.ending
    cases e with
    | exhausted =>
      have hall : k = (x.ready i).length := hending
      have hgoing : collected.shouldStop = false := hflags.trans htruncated
      have hflag : (settle (x.full i) collected).truncated = x.full i := by
        rw [settle, hgoing]
        cases x.full i with
        | false => exact htruncated
        | true => rfl
      rw [hflag, hfull, decide_eq_decide]
      omega
    | limit =>
      have hless := hending.1
      rw [settle_stopped (hflags.trans htruncated), htruncated, decide_eq_true (by omega)]
      rfl
    | budget =>
      have hless := hending.1
      rw [settle_stopped (hflags.trans htruncated), htruncated, decide_eq_true (by omega)]
      rfl

theorem setup_key (i limit : ℕ) : (x.setup i limit).resultKey = txt "matches" := by
  have hkey : (x.setup i limit).resultKey = x.call.mode.resultKey := rfl
  rw [hkey, x.content]
  rfl

/-- What a page of the search shows, and where it leads. -/
theorem contentPager_spec {limit i : ℕ} {q : Page Json} (hi : i ≤ x.items.length) (h : contentPager enc x limit i = some q) : ∃ k e,
    Reaches (ReadyFits enc x i) limit 0 (x.ready i).length k e ∧
      q = ⟨(x.items.drop i).take k, if i + k < x.items.length then some (i + k) else none⟩ := by
  rw [contentPager] at h
  split at h
  · next d hd =>
    cases Option.some.inj h
    obtain ⟨page, hpage, hpayload⟩ := grepContent_page_iff.mp hd
    obtain ⟨k, e, hreach, hitems, htruncated⟩ := finalPage_spec hi hpage
    obtain ⟨r, hr, hpayload⟩ := bind_eq_ok.mp hpayload
    cases Except.ok.inj hpayload
    have hle := hreach.le
    have hready := (ready_spec x i).1.length_le
    rw [List.length_drop] at hready
    have hlength : page.items.length = k := by
      rw [hitems, List.length_take, List.length_drop]
      omega
    refine ⟨k, e, hreach, ?_⟩
    have hshown : shownItems (txt "matches") r.1 = page.items := by
      refine (shownItems_reply (by decide) hr).trans ?_
      rw [candidatePayload, setup_key, shownItems, dictGet_dictSet_of_ne (by decide), dictGet_dictSet_self]
      rfl
    have hnext : nextOffsetOf r.1 = if i + k < x.items.length then some (i + k) else none := by
      refine (nextOffsetOf_reply hr).trans ?_
      rw [candidatePayload, nextOffsetOf, dictGet_dictSet_self, htruncated, hlength]
      refine (countOf_optionalCount _).trans ?_
      simp only [decide_eq_true_eq]
      rfl
    rw [hshown, hnext, hitems]
  · exact absurd h.symm (Option.some_ne_none q)

/-! ## Following the offsets -/

variable (enc x) in
/-- What is found can be rendered, each match fits on the page that begins with it, and its
context is complete before a thousand matches wait. -/
structure ContentRoomy : Prop where
  base : CleanSetup (x.setup 0 0)
  items : ∀ j ∈ x.items, CleanJson j
  first : ∀ i < x.items.length, ReadyFits enc x i 1
  timely : Timely contextQueue maxPendingMatches x.ops

theorem key_measurable (i limit : ℕ) : Measurable (x.setup i limit).resultKey := by
  rw [setup_key]
  exact measurable_of_isBenign (by decide)

theorem key_unreserved (i limit : ℕ) : (x.setup i limit).resultKey ∉ txt "next_offset" :: contractKeys := by
  rw [setup_key]
  decide

theorem timely_ready : Timely contextQueue maxPendingMatches x.ops ↔ ∀ i < x.items.length, x.ready i ≠ [] := by
  rw [timely_iff (by decide), length_items]
  refine forall₂_congr fun i _ => ?_
  rw [ContentCall.ready, Ne, Ne, List.map_eq_nil_iff]

theorem contentPager_returns (hroom : ContentRoomy enc x) (limit : ℕ) {i : ℕ} (hi : i ≤ x.items.length) :
    ∃ q, contentPager enc x limit i = some q := by
  have hready : ∀ j ∈ x.ready i, CleanJson j := fun j hj => hroom.items j (List.mem_of_mem_drop ((ready_spec x i).1.subset hj))
  have hbase : CleanSetup (x.setup i limit) := hroom.base
  have hcollected : Returns (addAll enc (x.setup i limit) (x.ready i) { seen := i }) CleanState :=
    addAll_returns (key_measurable i limit) (key_unreserved i limit) hbase hready cleanState_start
  obtain ⟨collected, hcollected, hclean⟩ := hcollected
  have hsettled : CleanState (settle (x.full i) collected) := by
    rw [settle]
    split
    · have hreason : isBenign ForcedStop.contextBufferLimit.reason = true := by decide
      exact ⟨hclean.1, measurable_of_isBenign hreason⟩
    · exact hclean
  have hpage : finalPage enc (x.setup i limit) {} x.ops = .ok (settle (x.full i) collected) := by
    rw [finalPage_eq hi, hcollected]
    rfl
  have hpayload : Returns (payload enc (x.setup i limit) (settle (x.full i) collected)) fun _ => True :=
    payload_returns (key_measurable i limit) (key_unreserved i limit) hbase hsettled
  obtain ⟨d, hd, -⟩ := hpayload
  refine ⟨⟨shownItems (txt "matches") d, nextOffsetOf d⟩, ?_⟩
  rw [contentPager, grepContent_page_iff.mpr ⟨_, hpage, hd⟩]

theorem enumerates_of_contentRoomy (hroom : ContentRoomy enc x) : Enumerates (contentPager enc x) x.items := by
  refine enumerates_of_serves fun limit i hi => ?_
  obtain ⟨q, hq⟩ := contentPager_returns hroom limit hi
  obtain ⟨k, e, hreach, rfl⟩ := contentPager_spec hi hq
  have hready := (ready_spec x i).1.length_le
  rw [List.length_drop] at hready
  refine ⟨_, hq, serves_take (Nat.le_trans hreach.le hready) fun hlt => ?_⟩
  exact hreach.pos (List.length_pos_iff.mpr (timely_ready.mp hroom.timely i hlt)) (hroom.first i hlt)

theorem single_page {i : ℕ} {q : Page Json} (hi : i < x.items.length) (h : contentPager enc x 1 i = some q) : Single x.items i q := by
  obtain ⟨k, e, hreach, rfl⟩ := contentPager_spec (Nat.le_of_lt hi) h
  have hone := hreach.within Nat.one_ne_zero
  have hready := (ready_spec x i).1.length_le
  have hle := hreach.le
  rw [List.length_drop] at hready
  have hlength : ((x.items.drop i).take k).length = k := by
    rw [List.length_take, List.length_drop]
    omega
  refine ⟨by rw [hlength]; omega, fun j hj => ?_, fun hnone => ?_⟩
  · dsimp only at hj
    split at hj
    · rw [hlength]
      exact (Option.some.inj hj).symm
    · exact absurd hj.symm (Option.some_ne_none j)
  · dsimp only at hnone
    split at hnone
    · exact absurd hnone (Option.some_ne_none _)
    · exact List.take_of_length_le (by rw [List.length_drop]; omega)

theorem contentRoomy_of_enumerates (h : Enumerates (contentPager enc x) x.items) : ContentRoomy enc x := by
  have hpage : ∀ i < x.items.length, x.ready i ≠ [] ∧ ReadyFits enc x i 1 := by
    intro i hi
    obtain ⟨ys, hwalk⟩ := walk_from (fun i q => single_page) h hi fun _ => 0
    obtain ⟨q, hq⟩ := hwalk.reply
    obtain ⟨k, e, hreach, rfl⟩ := contentPager_spec (Nat.le_of_lt hi) hq
    have hpos : 0 < k := by
      by_contra hzero
      cases Nat.le_zero.mp (Nat.not_lt.mp hzero)
      exact not_walk_of_same hq (if_pos hi) hwalk
    exact ⟨List.length_pos_iff.mp (Nat.lt_of_lt_of_le hpos hreach.le), hreach.fitted 0 hpos⟩
  refine ⟨?_, fun j hj => ?_, fun i hi => (hpage i hi).2, timely_ready.mpr fun i hi => (hpage i hi).1⟩
  · obtain ⟨q, hq⟩ := (h fun _ => 0).reply
    rw [contentPager] at hq
    split at hq
    · next d hd =>
      obtain ⟨page, -, hpayload⟩ := grepContent_page_iff.mp hd
      exact payload_clean (key_measurable 0 0) (key_unreserved 0 0) hpayload
    · exact absurd hq.symm (Option.some_ne_none q)
  · obtain ⟨i, hi, rfl⟩ := List.getElem_of_mem hj
    have hfits := (hpage i hi).2
    rw [ReadyFits, fitsReply] at hfits
    split at hfits
    · next r hr =>
      have hclean := ((withBudgetMetadata_returns_iff enc _ _ _ _).mp ⟨r, hr⟩).1
      refine ((candidatePayload_clean_iff (key_measurable i 0) (key_unreserved i 0) _ _).mp hclean).2 _ ?_
      rw [List.drop_eq_getElem_cons hi]
      exact List.mem_cons_self ..
    · exact absurd hfits Bool.false_ne_true

/-- A content search is paged without loss exactly when its matches fit and are complete in time. -/
theorem content_paged_iff (enc : TokenEncoding) (x : ContentCall) : Enumerates (contentPager enc x) x.items ↔ ContentRoomy enc x :=
  ⟨contentRoomy_of_enumerates, enumerates_of_contentRoomy⟩

/-! ## A dense line -/

/-- Matches that end on ever later lines are in order. -/
theorem orderly_of_sorted {ops : List MatchOp} (h : ((queued ops).map Pending.contextThrough).Pairwise (· ≤ ·)) :
    Orderly contextQueue ops := by
  intro front a rest hsplit mid b more hlater _ s hs
  have hle : a.contextThrough ≤ b.contextThrough := by
    rw [hsplit, queued_append, queued_queue, hlater, queued_append, queued_queue, List.map_append, List.map_cons, List.map_append] at h
    exact (List.pairwise_cons.mp (List.pairwise_append.mp h).2.1).1 _ (List.mem_append_right _ (List.mem_cons_self ..))
  cases s with
  | passed line => exact decide_eq_true (Nat.lt_of_le_of_lt hle (of_decide_eq_true hs))
  | fileDone => rfl
  | lines number lines => exact hs

def letterX : CodePoint := 0x78

/-- A line of nothing but `x`. -/
def denseText : Text := List.replicate 1001 letterX

theorem bytes_denseText : denseText.flatMap utf8Bytes = List.replicate 1001 0x78 := by
  have hall : ∀ n, (List.replicate n letterX).flatMap utf8Bytes = List.replicate n 0x78 := by
    intro n
    induction n with
    | zero => rfl
    | succ n ih =>
      rw [List.replicate_succ, List.flatMap_cons, ih]
      rfl
  exact hall 1001

theorem encodable_denseText : isEncodable denseText = true := by
  refine List.all_eq_true.mpr fun c hc => ?_
  rw [List.eq_of_mem_replicate hc]
  rfl

/-- Each character matches. -/
def denseMatches : List (Submatch denseText) := (List.finRange 1001).map fun i =>
  ⟨i.val, i.val + 1, [letterX], encodable_denseText, Nat.le_succ _, by
    rw [bytes_denseText, List.length_replicate]
    exact i.isLt⟩

def denseOptions : ContextOptions := ⟨0, 0, false, true⟩

def denseEvents : List Event := [.found (txt "/srv/dense.txt") 1 denseText denseMatches, .fileEnd]

/-- The matches of the line, as they wait. -/
def densePending : List Pending := matchesOf denseOptions [] (txt "/srv/dense.txt") 1 denseText denseMatches

/-- The operations of a file with one line. -/
theorem operations_line (o : ContextOptions) (path : Text) (lineNumber : ℕ) (text : Text) (submatches : List (Submatch text)) :
    operations o {} [.found path lineNumber text submatches, .fileEnd] =
      [.signal .fileDone, .signal (.passed lineNumber), .signal (.lines lineNumber (eventLines text))] ++
        ((matchesOf o [] path lineNumber text submatches).map .queue ++
          [.signal (.passed (lineNumber + (eventLines text).length - 1 + 1)), .signal .fileDone]) := by
  have htail : ∀ a b c d e : List MatchOp, a ++ (b ++ (c ++ d)) ++ (e ++ []) = a ++ b ++ (c ++ (d ++ e)) := by
    intro a b c d e
    simp only [List.append_assoc, List.append_nil]
  exact htail [_] [_, _] _ [_] [_]

theorem dense_mode : (denseOptions.multiline || denseOptions.onlyMatching) = true := rfl

theorem length_densePending : densePending.length = 1001 := by
  rw [densePending, matchesOf, if_pos dense_mode, List.length_map, denseMatches, List.length_map, List.length_finRange]

theorem densePending_same {m : Pending} (hm : m ∈ densePending) :
    m = { path := txt "/srv/dense.txt", lineNumber := 1, line := [letterX], contextBefore := [], contextThrough := 1 } := by
  rw [densePending, matchesOf, if_pos dense_mode, denseMatches, List.map_map] at hm
  obtain ⟨i, -, rfl⟩ := List.mem_map.mp hm
  have hfeeds : ((denseText.flatMap utf8Bytes).take i.val).count 0x0A = 0 := by
    rw [bytes_denseText, List.take_replicate, List.count_replicate, if_neg (by decide)]
  have hbefore : contextBefore denseOptions [] 1 = [] := rfl
  have hlast : [letterX].count lineFeed = 0 := by decide
  simp only [Function.comp, submatchDetails, hfeeds, hlast, Nat.add_zero, hbefore]
  rfl

def denseGrep : GrepCall where
  basePath := txt "/srv"
  pattern := txt "x"
  mode := .content
  includeHidden := false
  respectGitignore := true
  gitignoreApplied := false
  excludePatterns := []
  fileType := none
  onlyMatching := true
  rgBinary := txt "rg"

theorem queued_line (o : ContextOptions) (path : Text) (lineNumber : ℕ) (text : Text) (submatches : List (Submatch text)) :
    queued (operations o {} [.found path lineNumber text submatches, .fileEnd]) = matchesOf o [] path lineNumber text submatches := by
  have hsignals : ∀ s t u v w : Signal, ∀ ms : List Pending,
      queued ([.signal s, .signal t, .signal u] ++ (ms.map .queue ++ [.signal v, .signal w])) = ms := by
    intro s t u v w ms
    rw [queued_append, queued_append, queued_map]
    exact List.append_nil ms
  rw [operations_line, hsignals]

/-- No signal of a single line completes what waits. -/
theorem results_line (o : ContextOptions) (path : Text) (lineNumber : ℕ) (text : Text) (submatches : List (Submatch text)) :
    results contextQueue (operations o {} [.found path lineNumber text submatches, .fileEnd]) =
      matchesOf o [] path lineNumber text submatches := by
  have hskip : ∀ (b c : ℕ) (lines : List Text) (rest : List MatchOp),
      results contextQueue ([.signal .fileDone, .signal (.passed b), .signal (.lines c lines)] ++ rest) =
        results contextQueue rest := fun _ _ _ _ => rfl
  have hsignals : ∀ (b : ℕ) (ms : List Pending),
      results contextQueue (ms.map .queue ++ [.signal (.passed b), .signal .fileDone]) = ms := by
    intro b ms
    rw [results_of_unchanged, queued_append, queued_map]
    · exact List.append_nil ms
    · intro s hs m
      cases List.mem_append.mp hs with
      | inl hqueue =>
        obtain ⟨a, -, ha⟩ := List.mem_map.mp hqueue
        exact absurd ha (by simp)
      | inr hend =>
        simp only [List.mem_cons, Op.signal.injEq, List.not_mem_nil, or_false] at hend
        cases hend with
        | inl hpassed => rw [hpassed]; rfl
        | inr hdone => rw [hdone]; rfl
  rw [operations_line, hskip, hsignals]

/-- A search whose matches are all on one line. -/
def denseCall : ContentCall where
  call := denseGrep
  before := 0
  after := 0
  multiline := false
  maxTokens := ⟨1, Nat.one_pos⟩
  events := denseEvents
  content := rfl
  orderly := by
    have hsame : ∀ n ∈ (queued (operations denseOptions {} denseEvents)).map Pending.contextThrough, n = 1 := by
      intro n hn
      obtain ⟨m, hm, rfl⟩ := List.mem_map.mp hn
      rw [denseEvents, queued_line] at hm
      rw [densePending_same hm]
    refine orderly_of_sorted (List.pairwise_of_forall_mem_list fun m hm n hn => ?_)
    rw [hsame m hm, hsame n hn]

theorem denseCall_ops : denseCall.ops = operations denseOptions {} denseEvents := rfl

theorem denseCall_items : denseCall.items = densePending.map Pending.item := by
  rw [ContentCall.items, denseCall_ops, denseEvents, results_line, densePending]

theorem one_ellipsis : (fun _ : Text => 1) (txt "…") = 1 := rfl

/-- A tokenizer to which every text is one token. -/
def oneForAll : TokenEncoding := ⟨fun _ => 1, one_ellipsis⟩

theorem fits_oneForAll {payload : Dict} (hclean : CleanPayload payload) :
    fitsReply oneForAll oneToken payload true (txt "token_budget") = true :=
  fits_of_cheap (fun _ => Nat.le_refl 1) rfl hclean (measurable_of_isBenign (by decide))

/-- Every match fits, but more of them than may wait are found before one is complete: the first
page is empty and leads to itself. -/
theorem dense_line_hides_matches : (∀ i < denseCall.items.length, ReadyFits oneForAll denseCall i 1) ∧
    ¬Enumerates (contentPager oneForAll denseCall) denseCall.items := by
  constructor
  · intro i hi
    have hitems : ∀ j ∈ denseCall.items, CleanJson j := by
      intro j hj
      rw [denseCall_items] at hj
      obtain ⟨m, hm, rfl⟩ := List.mem_map.mp hj
      rw [densePending_same hm]
      have hbenign : (strings (Pending.item { path := txt "/srv/dense.txt", lineNumber := 1, line := [letterX], contextBefore := []
                                              contextThrough := 1 })).all isBenign = true := by decide
      exact fun t ht => measurable_of_isBenign (List.all_eq_true.mp hbenign t ht)
    have hbase : CleanSetup (denseCall.setup i 0) := by
      have hbenign : ∀ f ∈ grepBasePayload denseGrep, isBenign f.1 = true ∧ (strings f.2).all isBenign = true := by decide
      intro f hf _
      obtain ⟨hname, hvalue⟩ := hbenign f hf
      exact cleanField_of hname fun t ht => measurable_of_isBenign (List.all_eq_true.mp hvalue t ht)
    exact fits_oneForAll ((candidatePayload_clean_iff (key_measurable i 0) (key_unreserved i 0) _ _).mpr
      ⟨hbase, fun j hj => hitems j (List.mem_of_mem_drop (List.mem_of_mem_take hj))⟩)
  · intro h
    have htimely := (contentRoomy_of_enumerates h).timely
    rw [denseCall_ops, denseEvents, operations_line] at htimely
    have hmany : maxPendingMatches < densePending.length := by
      rw [length_densePending]
      decide
    exact not_timely_of_many hmany (Nat.succ_pos _) _ _ htimely

end WebOauthMcp.ContentSearch
