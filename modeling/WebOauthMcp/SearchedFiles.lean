import WebOauthMcp.LineNumbers
import WebOauthMcp.NumberedLists

/-!
# Searched files

What the backend sends for a file: its lines in order, some with matches in them and some as their
context, one event for neighbouring lines. A look into the lines of the file says what the context
of a match is.
-/

namespace WebOauthMcp.SearchedFiles
open CodePoints JsonText ExceptSteps ResponseBudget FileReplies SearchPages LineSplitting BoundedQueues ContentSearch GitOutput LineNumbers
open NumberedLists

/-! ## Lines that line feeds end -/

/-- Nothing but line feeds breaks the lines. -/
structure Fed (ls : List (Line CodePoint)) : Prop where
  ended : Ended id ls
  unbroken : ∀ l ∈ ls, Unbroken l.content
  feeds : ∀ l ∈ ls, ∀ c ∈ l.ending, c = lineFeed

namespace Fed
variable {ls : List (Line CodePoint)} (h : Fed ls)
include h

theorem slice (i n : ℕ) : Fed ((ls.drop i).take n) where
  ended := (h.ended.drop i).take n
  unbroken l hl := h.unbroken l (List.mem_of_mem_drop (List.mem_of_mem_take hl))
  feeds l hl := h.feeds l (List.mem_of_mem_drop (List.mem_of_mem_take hl))

theorem tail {l : Line CodePoint} {rest : List (Line CodePoint)} (hls : ls = l :: rest) : Fed rest := by
  subst hls
  exact ⟨h.ended.drop 1, fun m hm => h.unbroken m (List.mem_cons_of_mem _ hm), fun m hm => h.feeds m (List.mem_cons_of_mem _ hm)⟩

end Fed

theorem ending_of_feeds {e : Text} (h : IsEnding id e) (hfeeds : ∀ c ∈ e, c = lineFeed) : e = [lineFeed] := by
  obtain ⟨c, rfl, -⟩ | ⟨c, d, rfl, hc, -⟩ := h
  · rw [hfeeds c (List.mem_cons_self ..)]
  · have hreturn : c = carriageReturn := hc
    have hfeed := hfeeds c (List.mem_cons_self ..)
    rw [hreturn] at hfeed
    exact absurd hfeed (by decide)

/-- Lines are found again in their text. -/
theorem linesOf_items {ls : List (Line CodePoint)} (h : Fed ls) : linesOf id (ls.flatMap Line.items) = ls := by
  induction ls with
  | nil => exact linesOf_nil id
  | cons l ls ih =>
    have hrest := ih (h.tail rfl)
    have hunbroken := h.unbroken l (List.mem_cons_self ..)
    have hfeeds := h.feeds l (List.mem_cons_self ..)
    have hfed : ∀ rest : List (Line CodePoint), l.ending = [lineFeed] → linesOf id (rest.flatMap Line.items) = rest →
        linesOf id ((l :: rest).flatMap Line.items) = l :: rest := by
      intro rest hending hrest
      have hline : linesOf id (l.content ++ [lineFeed]) = [⟨l.content, [lineFeed]⟩] := linesOf_unbroken rfl hunbroken
      have hsame : (⟨l.content, [lineFeed]⟩ : Line CodePoint) = l := by rw [← hending]
      have hfeed : id lineFeed = lineFeed := rfl
      rw [List.flatMap_cons, Line.items, hending, List.append_assoc, List.singleton_append, linesOf_append_feed hfeed, hline, hrest, hsame]
      rfl
    cases ls with
    | cons m ms => exact hfed _ (ending_of_feeds h.ended.1 hfeeds) hrest
    | nil =>
      cases h.ended with
      | inr hended => exact hfed [] (ending_of_feeds hended hfeeds) (linesOf_nil id)
      | inl hlast =>
        obtain ⟨hnone, hsome⟩ := hlast
        have hitems : [l].flatMap Line.items = l.content := by simp [Line.items, hnone]
        have hall : ∀ {t : Text}, Unbroken t → t ≠ [] → linesOf id t = [⟨t, []⟩] := by
          intro t ht hne
          induction t with
          | nil => exact absurd rfl hne
          | cons c t iht =>
            obtain ⟨hc, hothers⟩ := List.forall_mem_cons.mp ht
            have hcons := linesOf_content id c t hc
            rw [hcons]
            by_cases hnil : t = []
            · subst hnil
              rw [linesOf_nil]
            · rw [iht hothers hnil]
        rw [hitems, hall hunbroken hsome, ← hnone]

/-- A line has at most one line feed. -/
theorem count_items_le {ls : List (Line CodePoint)} (h : Fed ls) : (ls.flatMap Line.items).count lineFeed ≤ ls.length := by
  induction ls with
  | nil => exact Nat.le_refl 0
  | cons l ls ih =>
    have hrest := ih (h.tail rfl)
    have hcontent : l.content.count lineFeed = 0 := by
      refine List.count_eq_zero.mpr fun hmem => ?_
      exact absurd (h.unbroken l (List.mem_cons_self ..) lineFeed hmem) (by decide)
    have hending : l.ending.count lineFeed ≤ 1 := by
      have hfeeds := h.feeds l (List.mem_cons_self ..)
      have hcases : IsEnding id l.ending ∨ l.ending = [] := by
        cases ls with
        | cons m ms => exact Or.inl h.ended.1
        | nil => exact h.ended.symm.imp_right And.left
      obtain hended | hnone := hcases
      · rw [ending_of_feeds hended hfeeds]
        decide
      · rw [hnone]
        decide
    rw [List.flatMap_cons, List.count_append, Line.items, List.count_append, List.length_cons]
    omega

/-! ## The searched file -/

/-- A file whose lines only line feeds end. -/
structure SearchedFile where
  path : Text
  text : Text
  encodable : isEncodable text = true
  feeds : ∀ c ∈ text, isLineBreak c = true → c = lineFeed

namespace SearchedFile
variable (f : SearchedFile)

def lines : List (Line CodePoint) := linesOf id f.text

def contents : List Text := f.lines.map Line.content

/-- Up to `k` lines directly in front of a line. -/
def linesBefore (n k : ℕ) : List Text := (f.contents.take (n - 1)).drop (n - 1 - k)

/-- Up to `k` lines directly behind a line. -/
def linesAfter (n k : ℕ) : List Text := (f.contents.drop n).take k

theorem fed : Fed f.lines where
  ended := linesOf_ended id f.text
  unbroken := linesOf_content_noBreak id f.text
  feeds l hl c hc := by
    refine f.feeds c ?_ (isLineBreak_of_ended (linesOf_ended id f.text) l hl c hc)
    rw [← flatMap_linesOf id f.text]
    exact List.mem_flatMap.mpr ⟨l, hl, List.mem_append_right _ hc⟩

end SearchedFile

/-! ## The events of a search -/

variable {f : SearchedFile}

/-- Neighbouring lines of a file. -/
structure Block (f : SearchedFile) where
  first : ℕ
  count : ℕ
  some : 0 < count
  within : first + count ≤ f.lines.length

namespace Block
variable (b : Block f)

def lines : List (Line CodePoint) := (f.lines.drop b.first).take b.count
def text : Text := b.lines.flatMap Line.items
def contents : List Text := b.lines.map Line.content
def lineNumber : ℕ := b.first + 1

/-- The number of the line behind the block. -/
def behind : ℕ := b.lineNumber + b.count

def Holds (n : ℕ) : Prop := b.lineNumber ≤ n ∧ n < b.behind

end Block

/-- A match, by its place in the text of its event. -/
structure Span (text : Text) where
  start : ℕ
  stop : ℕ
  ordered : start ≤ stop
  within : stop ≤ text.length

def Span.matched {text : Text} (m : Span text) : Text := (text.take m.stop).drop m.start

theorem take_stop {text : Text} (m : Span text) : text.take m.stop = text.take m.start ++ m.matched := by
  have hparts := List.take_append_drop m.start (text.take m.stop)
  rw [List.take_take, Nat.min_eq_left m.ordered] at hparts
  exact hparts.symm

/-- Ripgrep gives the offsets in bytes. -/
def Span.submatch {text : Text} (m : Span text) (h : isEncodable text = true) : Submatch text where
  start := ((text.take m.start).flatMap utf8Bytes).length
  stop := ((text.take m.stop).flatMap utf8Bytes).length
  matched := m.matched
  encodable := h
  ordered := by
    rw [take_stop, List.flatMap_append, List.length_append]
    exact Nat.le_add_right _ _
  within := by
    have hparts := congrArg List.length (congrArg (List.flatMap utf8Bytes) (List.take_append_drop m.stop text))
    rw [List.flatMap_append, List.length_append] at hparts
    omega

/-- What comes with one event: lines with matches in them, or lines of context. -/
inductive Chunk (f : SearchedFile)
  | found (b : Block f) (spans : List (Span b.text))
  | context (b : Block f)

def Chunk.block : Chunk f → Block f
  | .found b _ => b
  | .context b => b

theorem mem_text {b : Block f} {c : CodePoint} (h : c ∈ b.text) : c ∈ f.text := by
  obtain ⟨l, hl, hc⟩ := List.mem_flatMap.mp h
  rw [← flatMap_linesOf id f.text]
  exact List.mem_flatMap.mpr ⟨l, List.mem_of_mem_drop (List.mem_of_mem_take hl), hc⟩

theorem encodable_block (b : Block f) : isEncodable b.text = true :=
  (isEncodable_iff _).mpr fun c hc => (isEncodable_iff _).mp f.encodable c (mem_text hc)

def Chunk.event : Chunk f → Event
  | .found b spans => .found f.path b.lineNumber b.text (spans.map fun m => m.submatch (encodable_block b))
  | .context b => .context f.path b.lineNumber b.text

/-- The events of a search in one file, in the order of its lines, and the matches of each in
order. Ripgrep sends one event for matching lines that follow each other, and without `multiline`
it finds matches within a line. -/
structure Stream where
  file : SearchedFile
  options : ContextOptions
  chunks : List (Chunk file)
  ordered : chunks.Pairwise fun c d => c.block.behind ≤ d.block.lineNumber
  inOrder : ∀ b spans, .found b spans ∈ chunks → spans.Pairwise fun m n => m.stop ≤ n.start
  oneLine : options.multiline = false → ∀ b spans, .found b spans ∈ chunks → ∀ m ∈ spans, lineFeed ∉ m.matched

/-! ## The reference -/

/-- A match, with the lines that it is on. -/
structure Found where
  text : Text
  startLine : ℕ
  endLine : ℕ

/-- The number of the line that holds a position of the block. -/
def Block.lineAt (b : Block f) (p : ℕ) : ℕ := b.lineNumber + (b.text.take p).count lineFeed

/-- With `multiline` or `only_matching` the matches, else the lines that match. -/
def Chunk.hits (o : ContextOptions) : Chunk f → List Found
  | .context _ => []
  | .found b spans =>
    if o.multiline || o.onlyMatching then spans.map fun m => ⟨m.matched, b.lineAt m.start, b.lineAt m.stop⟩
    else (numbered b.lineNumber b.contents).map fun line => ⟨line.2, line.1, line.1⟩

def Found.pending (f : SearchedFile) (o : ContextOptions) (before after : List Text) (m : Found) : Pending where
  path := f.path
  lineNumber := m.startLine
  line := m.text
  contextBefore := before
  contextAfter := after
  endLineNumber := if o.multiline then some m.endLine else none
  contextThrough := m.endLine + o.after

namespace Stream
variable (s : Stream)

def hits : List Found := s.chunks.flatMap fun c => c.hits s.options

/-- What a look into the lines of the file gives. -/
def reference : List Json := s.hits.map fun m =>
  (m.pending s.file s.options (s.file.linesBefore m.startLine s.options.before) (s.file.linesAfter m.endLine s.options.after)).item

def events : List Event := .other :: (s.chunks.map Chunk.event ++ [.fileEnd, .other])

/-- The collector at the end of the search. -/
def collect (enc : TokenEncoding) (p : PageSetup) : Except Raised PageState := do
  let c ← readEvents enc p s.options {} s.events
  let c ← finishFile enc p c
  pure c.waiting.page

def ops : List MatchOp := operations s.options {} s.events

/-- What the collector hands to its page, and whether it ran out of room for the matches that wait. -/
def handed : List Json := (emit contextQueue maxPendingMatches [] s.ops).1.map Pending.item

def crowded : Bool := (emit contextQueue maxPendingMatches [] s.ops).2

theorem collect_eq (enc : TokenEncoding) {p : PageSetup} (hoffset : p.offset = 0) :
    s.collect enc p = addAll enc p s.handed {} >>= fun page => pure (settle s.crowded page) := by
  have hread : (readEvents enc p s.options {} s.events >>= fun c => pure c.waiting) = runOps enc p {} s.ops :=
    readEvents_eq s.options rfl s.events
  have hemits : finalPage enc p {} s.ops = addAll enc p s.handed {} >>= fun page => pure (settle s.crowded page) :=
    finalPage_emits rfl (Nat.le_of_eq hoffset) s.ops
  rw [← hemits, finalPage, ← hread, collect]
  simp only [finishFile, bind_assoc, pure_bind]

/-! ## Where the two agree -/

/-- Where whole lines are shown, an event with a match is one line: only its first is shown. -/
def SingleLines : Prop := (s.options.multiline || s.options.onlyMatching) = false →
  ∀ b spans, .found b spans ∈ s.chunks → b.count = 1

/-- With those of an event, no more than a thousand matches wait for the lines behind them. -/
def Sparse : Prop := ∀ front c rest, s.chunks = front ++ c :: rest →
  ((front.flatMap fun d => d.hits s.options).filter fun m => decide (c.block.lineNumber ≤ m.endLine + s.options.after)).length +
    (c.hits s.options).length ≤ maxPendingMatches

/-- Each line of the context of a match comes with another event than the match. -/
def Apart : Prop := ∀ c ∈ s.chunks, ∀ m ∈ c.hits s.options, ∀ n, 0 < n → n ≤ s.file.lines.length →
  (n < m.startLine ∧ m.startLine ≤ n + s.options.before ∨ m.endLine < n ∧ n ≤ m.endLine + s.options.after) →
    ¬c.block.Holds n ∧ ∃ d ∈ s.chunks, d.block.Holds n

end Stream

/-! ## Blocks -/

namespace Block
variable (b : Block f)

def numbered : List (ℕ × Text) := NumberedLists.numbered b.lineNumber b.contents

theorem length_lines : b.lines.length = b.count := by
  have hwithin := b.within
  rw [lines, List.length_take, List.length_drop]
  omega

theorem length_contents : b.contents.length = b.count := (List.length_map _).trans b.length_lines

theorem splitlines_text : splitlines b.text = b.contents := by
  have hfed : Fed b.lines := f.fed.slice b.first b.count
  rw [splitlines, text, linesOf_items hfed, contents]

theorem eventLines_text : eventLines b.text = b.contents := by
  have hsome : ¬(splitlines b.text = [] ∧ b.text = []) := by
    rintro ⟨hnone, -⟩
    have hlength := b.length_contents
    rw [← b.splitlines_text, hnone] at hlength
    exact absurd hlength.symm (Nat.ne_of_gt b.some)
  rw [eventLines, if_neg hsome, b.splitlines_text]

theorem numbered_eq : b.numbered = ((NumberedLists.numbered 1 f.contents).drop b.first).take b.count := by
  rw [drop_numbered, take_numbered, numbered, contents, lines, SearchedFile.contents, List.map_take, List.map_drop, lineNumber,
    Nat.add_comm 1]

theorem mem_numbered {r : ℕ × Text} (h : r ∈ b.numbered) : b.Holds r.1 := by
  have hbounds := NumberedLists.mem_numbered h
  rw [b.length_contents] at hbounds
  exact hbounds

theorem lineAt_le (p : ℕ) : b.lineNumber ≤ b.lineAt p ∧ b.lineAt p ≤ b.behind := by
  have hprefix : (b.text.take p).count lineFeed ≤ b.text.count lineFeed := (List.take_sublist p b.text).count_le lineFeed
  have hcount : b.text.count lineFeed ≤ b.lines.length := count_items_le (f.fed.slice _ _)
  rw [b.length_lines] at hcount
  refine ⟨Nat.le_add_right _ _, Nat.add_le_add_left (Nat.le_trans hprefix hcount) _⟩

theorem lineAt_mono {p q : ℕ} (h : p ≤ q) : b.lineAt p ≤ b.lineAt q := by
  have hsub : (b.text.take p).Sublist (b.text.take q) := by
    rw [← Nat.min_eq_left h, ← List.take_take]
    exact List.take_sublist _ _
  exact Nat.add_le_add_left (hsub.count_le lineFeed) _

end Block

/-- Offsets in bytes lead to the lines. -/
theorem submatchDetails_eq (b : Block f) (m : Span b.text) :
    submatchDetails b.lineNumber (m.submatch (encodable_block b)) = (b.lineAt m.start, b.lineAt m.stop) := by
  have hfront : (b.text.flatMap utf8Bytes).take (m.submatch (encodable_block b)).start = (b.text.take m.start).flatMap utf8Bytes := by
    have hparts := congrArg (List.flatMap utf8Bytes) (List.take_append_drop m.start b.text)
    rw [List.flatMap_append] at hparts
    rw [← hparts]
    exact List.take_left' rfl
  have hcounts := congrArg (List.count lineFeed) (take_stop m)
  rw [List.count_append] at hcounts
  rw [submatchDetails, hfront, count_utf8Bytes, Block.lineAt, Block.lineAt, hcounts, Nat.add_assoc]
  rfl

/-- The matches of an event, with what is remembered of the lines in front. -/
theorem matchesOf_eq {o : ContextOptions} {b : Block f} {spans : List (Span b.text)}
    (hone : (o.multiline || o.onlyMatching) = false → b.count = 1) (recent : List (ℕ × Text)) :
    matchesOf o recent f.path b.lineNumber b.text (spans.map fun m => m.submatch (encodable_block b)) =
      ((Chunk.found b spans).hits o).map fun m => m.pending f o (contextBefore o recent m.startLine) [] := by
  rw [matchesOf, Chunk.hits]
  split
  · rw [List.map_map, List.map_map]
    refine List.map_congr_left fun m _ => ?_
    simp only [Function.comp, submatchDetails_eq]
    rfl
  · next hmode =>
    have hcount := hone (Bool.eq_false_iff.mpr hmode)
    obtain ⟨line, hline⟩ := List.length_eq_one_iff.mp (b.length_contents.trans hcount)
    have hsingle : o.multiline = false := (Bool.or_eq_false_iff.mp (Bool.eq_false_iff.mpr hmode)).1
    rw [b.eventLines_text, hline]
    simp only [numbered, List.map_cons, List.map_nil, Found.pending, hsingle]
    rfl

variable {o : ContextOptions} {c d : Chunk f} {front rest cs : List (Chunk f)}

theorem hit_bounds {m : Found} (h : m ∈ c.hits o) :
    c.block.lineNumber ≤ m.startLine ∧ m.startLine ≤ m.endLine ∧ m.endLine ≤ c.block.behind := by
  cases c with
  | context b => exact absurd h List.not_mem_nil
  | found b spans =>
    rw [Chunk.hits] at h
    split at h
    · obtain ⟨span, -, rfl⟩ := List.mem_map.mp h
      exact ⟨(b.lineAt_le _).1, b.lineAt_mono span.ordered, (b.lineAt_le _).2⟩
    · obtain ⟨line, hline, rfl⟩ := List.mem_map.mp h
      obtain ⟨hfirst, hlast⟩ := b.mem_numbered hline
      exact ⟨hfirst, Nat.le_refl _, Nat.le_of_lt hlast⟩

theorem hits_sorted (h : ∀ b spans, c = .found b spans → spans.Pairwise fun m n => m.stop ≤ n.start) :
    (c.hits o).Pairwise fun m n => m.endLine ≤ n.endLine := by
  cases c with
  | context b => exact List.Pairwise.nil
  | found b spans =>
    rw [Chunk.hits]
    split
    · refine List.pairwise_map.mpr ((h b spans rfl).imp fun {m n} hmn => ?_)
      exact b.lineAt_mono (Nat.le_trans hmn n.ordered)
    · exact List.pairwise_map.mpr ((ascending_numbered _ _).imp fun hlt => Nat.le_of_lt hlt)

end WebOauthMcp.SearchedFiles
