import WebOauthMcp.ReplyOffsets

/-!
# Following the offsets of a text file

A page takes line after line while it fits. A first line that does not fit is shown all the
same, alone and flagged.
-/

namespace WebOauthMcp.ReadPaging
open CodePoints LineSplitting JsonText ExceptSteps ResponseBudget BudgetMetadata FileReplies OffsetPaging

/-! ## Rendered lines -/

/-- The lines as a page shows them, from a number on. -/
def renderedFrom (b : Bool) : ℕ → List Text → List Text
  | _, [] => []
  | number, line :: lines => renderLine b number line :: renderedFrom b (number + 1) lines

@[simp] theorem length_renderedFrom (b : Bool) (number : ℕ) (lines : List Text) : (renderedFrom b number lines).length = lines.length := by
  induction lines generalizing number with
  | nil => rfl
  | cons line lines ih => exact congrArg Nat.succ (ih (number + 1))

theorem drop_renderedFrom (b : Bool) (number i : ℕ) (lines : List Text) :
    (renderedFrom b number lines).drop i = renderedFrom b (number + i) (lines.drop i) := by
  induction i generalizing number lines with
  | zero => rfl
  | succ i ih =>
    cases lines with
    | nil => rfl
    | cons line lines =>
      rw [renderedFrom, List.drop_succ_cons, List.drop_succ_cons, ih, Nat.add_assoc, Nat.add_comm 1 i]

theorem take_renderedFrom (b : Bool) (number k : ℕ) (lines : List Text) :
    (renderedFrom b number lines).take k = renderedFrom b number (lines.take k) := by
  induction k generalizing number lines with
  | zero => rfl
  | succ k ih =>
    cases lines with
    | nil => rfl
    | cons line lines => rw [renderedFrom, List.take_succ_cons, List.take_succ_cons, renderedFrom, ih]

theorem measurable_renderedFrom {b : Bool} {number : ℕ} {lines : List Text} (h : ∀ l ∈ lines, Measurable l) :
    ∀ l ∈ renderedFrom b number lines, Measurable l := by
  induction lines generalizing number with
  | nil => exact fun l hl => absurd hl List.not_mem_nil
  | cons line lines ih =>
    rw [List.forall_mem_cons] at h
    rw [renderedFrom, List.forall_mem_cons]
    exact ⟨(measurable_renderLine_iff b number line).mpr h.1, ih h.2⟩

/-- The lines fit together on one page. -/
def FitsLines (enc : TokenEncoding) (budget : Budget) (lines : List Text) : Prop :=
  ∃ m, measure enc budget (joinLines lines) = .ok m ∧ m.fits = true

/-- What the loop makes of a page: it is filled, or its only line is too large. -/
def Taken (enc : TokenEncoding) (budget : Budget) (done lines : List Text) (p : ReadPage) : Prop :=
  (∃ k, Filled (FitsLines enc budget) done lines k ∧ p.renderedLines = done ++ lines.take k ∧ p.oversizedLine = false ∧
    (p.renderedLines = [] → lines = [])) ∨
  (done = [] ∧ ∃ line rest, lines = line :: rest ∧ ¬FitsLines enc budget [line] ∧ p.renderedLines = [line] ∧ p.oversizedLine = true)

theorem takeLines_spec {enc : TokenEncoding} {budget : Budget} {b : Bool} {number : ℕ} {lines : List Text} {page p : ReadPage}
    (h : takeLines enc budget b number lines page = .ok p) (hover : page.oversizedLine = false) :
    Taken enc budget page.renderedLines (renderedFrom b number lines) p := by
  induction lines generalizing number page with
  | nil =>
    cases Except.ok.inj h
    exact .inl ⟨0, filled_nil, (List.append_nil _).symm, hover, fun _ => rfl⟩
  | cons line lines ih =>
    obtain ⟨m, hm, h⟩ := bind_eq_ok.mp h
    split at h
    · next hfits =>
      have hline : FitsLines enc budget (page.renderedLines ++ [renderLine b number line]) := ⟨m, hm, hfits⟩
      cases ih h hover with
      | inl htaken =>
        obtain ⟨k, hfilled, hlines, hflag, -⟩ := htaken
        refine .inl ⟨k + 1, hfilled.cons hline, ?_, hflag, fun hnil => ?_⟩
        · rw [hlines, renderedFrom, List.take_succ_cons]
          exact List.append_assoc _ _ _
        · rw [hlines] at hnil
          exact absurd hnil (by simp)
      | inr hlarge => exact absurd hlarge.1 (by simp)
    · next hfits =>
      have hline : ¬FitsLines enc budget (page.renderedLines ++ [renderLine b number line]) := fun hsome => by
        obtain ⟨m', hm', hfits'⟩ := hsome
        cases Except.ok.inj (hm.symm.trans hm')
        exact hfits hfits'
      split at h
      · next hnil =>
        cases Except.ok.inj h
        rw [hnil] at hline
        exact .inr ⟨hnil, _, _, rfl, hline, rfl, rfl⟩
      · next hsome =>
        cases Except.ok.inj h
        exact .inl ⟨0, filled_stop hline, (List.append_nil _).symm, hover, fun hnil => absurd hnil hsome⟩

theorem renderLine_noFeed {b : Bool} {number : ℕ} {line : Text} (h : lineFeed ∉ line) : lineFeed ∉ renderLine b number line := by
  have hcolon : lineFeed ∉ txt ": " := by decide
  have hfeed : isJsonChar lineFeed = false := by decide
  have hdecimal : lineFeed ∉ decimal number := fun hmem =>
    absurd (List.all_eq_true.mp (decimal_json number) lineFeed hmem) (Bool.eq_false_iff.mp hfeed)
  rw [renderLine]
  split
  · rw [List.mem_append, List.mem_append]
    exact fun hmem => hmem.elim hdecimal fun hmem => hmem.elim hcolon h
  · exact h

theorem renderedFrom_noFeed {b : Bool} {number : ℕ} {lines : List Text} (h : ∀ l ∈ lines, lineFeed ∉ l) :
    ∀ l ∈ renderedFrom b number lines, lineFeed ∉ l := by
  induction lines generalizing number with
  | nil => exact fun l hl => absurd hl List.not_mem_nil
  | cons line lines ih =>
    rw [List.forall_mem_cons] at h
    rw [renderedFrom, List.forall_mem_cons]
    exact ⟨renderLine_noFeed h.1, ih h.2⟩

theorem splitlines_noFeed (text : Text) : ∀ l ∈ splitlines text, lineFeed ∉ l := by
  have hfeed : isLineBreak lineFeed = true := by decide
  rw [splitlines, List.forall_mem_map]
  intro l hl hmem
  exact absurd hfeed (Bool.eq_false_iff.mp (linesOf_content_noBreak id text l hl lineFeed hmem))

/-! ## The lines of a reply -/

/-- The lines that a reply shows, as its reader splits them. -/
def shownLines (r : ReadReply) : List Text := if r.returnedLineCount = 0 then [] else r.content.splitOn lineFeed

theorem shownLines_readReply {request : ReadRequest} {count : ℕ} {p : ReadPage} (h : ∀ l ∈ p.renderedLines, lineFeed ∉ l) :
    shownLines (readReply request count p) = p.renderedLines := by
  have hcount : (readReply request count p).returnedLineCount = p.renderedLines.length := rfl
  have hcontent : (readReply request count p).content = joinLines p.renderedLines := rfl
  rw [shownLines, hcount, hcontent]
  split
  · next hzero => exact (List.length_eq_zero_iff.mp hzero).symm
  · next hsome => exact List.splitOn_intercalate lineFeed h fun hnil => hsome (List.length_eq_zero_iff.mpr hnil)

/-! ## Calls -/

/-- What stays the same from call to call. -/
structure Reading where
  raw : Bytes
  maxBytes : ℕ+
  includeLineNumbers : Bool
  maxTokens : ℕ+

structure ReadCall where
  path : Text
  limit : Option ℤ
  maxLines : ℤ

variable (enc : TokenEncoding) (x : Reading)

def Reading.budget : Budget := { maxTokens := x.maxTokens, maxBytes := some x.maxBytes }

/-- Lines are counted from one. -/
def requestAt (c : ReadCall) (i : ℕ) : ReadRequest :=
  ⟨c.path, some (i + 1), c.limit, c.maxLines, x.maxBytes, x.includeLineNumbers, x.maxTokens⟩

def replyAt (c : ReadCall) (i : ℕ) : Option ReadReply :=
  match readFile enc (.file x.raw) (requestAt x c i) with
  | .ok (.reply r) => some r
  | _ => none

def readPager (c : ReadCall) (i : ℕ) : Option (Page Text) :=
  (replyAt enc x c i).map fun r => ⟨shownLines r, r.nextOffset.map fun n => n - 1⟩

/-- All lines of the text as pages show them. -/
def Reading.lines (text : Text) : List Text := renderedFrom x.includeLineNumbers 1 (splitlines text)

/-- The reading of a text loses nothing, ends, and keeps to its budgets: pages without the flag
fit, and a line that does not fit alone is on a page of its own with the flag. -/
structure Lossless (text : Text) : Prop where
  enumerates : Enumerates (readPager enc x) (x.lines text)
  advances : Advances (readPager enc x)
  withinBudgets : ∀ c i r, i < (x.lines text).length ∨ i = 0 → replyAt enc x c i = some r → r.oversizedLine = false →
    ∃ m, measure enc x.budget r.content = .ok m ∧ m.fits = true
  flagged : ∀ c i r, replyAt enc x c i = some r → r.oversizedLine = true →
    ∃ line, shownLines r = [line] ∧ ¬FitsLines enc x.budget [line]
  oversized : ∀ c i r line, replyAt enc x c i = some r → line ∈ shownLines r → ¬FitsLines enc x.budget [line] →
    r.oversizedLine = true ∧ shownLines r = [line]

/-- The text can be measured, nothing at all fits, and where lines fit together line by line
the last one also fits alone. -/
structure Steady (text : Text) : Prop where
  measurable : Measurable text
  nothing : splitlines text = [] → FitsLines enc x.budget []
  lastLine : ∀ i k line, (x.lines text)[i + k]? = some line →
    (∀ m ≤ k, FitsLines enc x.budget (((x.lines text).drop i).take (m + 1))) → FitsLines enc x.budget [line]

variable {enc x}

theorem startLine_succ (i : ℕ) : startLine (some ((i : ℤ) + 1)) = i + 1 := by
  rw [startLine, Option.filter_some, if_pos (by simp; omega), Option.getD_some]
  omega

theorem lineLimit_pos (limit : Option ℤ) (maxLines : ℤ) : 1 ≤ lineLimit limit maxLines := by
  rw [lineLimit]
  omega

/-- The lines that a call selects. -/
theorem selected_eq (text : Text) (c : ReadCall) (i : ℕ) :
    renderedFrom x.includeLineNumbers (i + 1) (((splitlines text).drop i).take (lineLimit c.limit c.maxLines)) =
      ((x.lines text).drop i).take (lineLimit c.limit c.maxLines) := by
  rw [Reading.lines, drop_renderedFrom, take_renderedFrom, Nat.add_comm 1 i]

theorem length_lines (text : Text) : (x.lines text).length = (splitlines text).length := length_renderedFrom _ _ _

section
variable {text : Text} (htext : readText x.raw = some text)
include htext

theorem readFile_text (c : ReadCall) (i : ℕ) : readFile enc (.file x.raw) (requestAt x c i) = (do
    let empty ← measure enc x.budget []
    let page ← takeLines enc x.budget x.includeLineNumbers (i + 1) (((splitlines text).drop i).take (lineLimit c.limit c.maxLines))
      ⟨[], empty, none, false⟩
    pure (.reply (readReply (requestAt x c i) (splitlines text).length page))) := by
  have hstart : startLine (requestAt x c i).offset = i + 1 := startLine_succ i
  simp only [readFile, htext, hstart, Nat.add_sub_cancel]
  rfl

/-- What a reply at an offset is. -/
theorem replyAt_spec {c : ReadCall} {i : ℕ} {r : ReadReply} (h : replyAt enc x c i = some r) : ∃ p,
    Taken enc x.budget [] (((x.lines text).drop i).take (lineLimit c.limit c.maxLines)) p ∧
      r = readReply (requestAt x c i) (x.lines text).length p ∧ shownLines r = p.renderedLines := by
  rw [replyAt, readFile_text htext] at h
  split at h
  · next r' hr =>
    cases Option.some.inj h
    obtain ⟨empty, -, hr⟩ := bind_eq_ok.mp hr
    obtain ⟨p, hp, hr⟩ := bind_eq_ok.mp hr
    have htaken := takeLines_spec hp rfl
    rw [selected_eq] at htaken
    have hreply : r = readReply (requestAt x c i) (x.lines text).length p := by
      rw [length_lines]
      exact (ReadOutcome.reply.inj (Except.ok.inj hr)).symm
    have hfree : ∀ l ∈ ((x.lines text).drop i).take (lineLimit c.limit c.maxLines), lineFeed ∉ l := fun l hl =>
      renderedFrom_noFeed (splitlines_noFeed text) l (List.mem_of_mem_drop (List.mem_of_mem_take hl))
    refine ⟨p, htaken, hreply, hreply ▸ shownLines_readReply fun l hl => ?_⟩
    cases htaken with
    | inl hfilled =>
      obtain ⟨k, -, hlines, -⟩ := hfilled
      rw [hlines] at hl
      exact hfree l (List.mem_of_mem_take hl)
    | inr hlarge =>
      obtain ⟨-, line, rest, hlines, -, hshown, -⟩ := hlarge
      rw [hshown] at hl
      rw [hlines] at hfree
      exact hfree l (List.mem_singleton.mp hl ▸ List.mem_cons_self)
  · exact absurd h.symm (Option.some_ne_none r)

theorem replyAt_returns (hclean : Measurable text) (c : ReadCall) (i : ℕ) : ∃ r, replyAt enc x c i = some r := by
  have hlines := (measurable_splitlines_iff text).mp hclean
  obtain ⟨empty, hempty⟩ := (measure_returns_iff enc x.budget []).mpr (measurable_of_isBenign rfl)
  have hselected : Returns (takeLines enc x.budget x.includeLineNumbers (i + 1)
      (((splitlines text).drop i).take (lineLimit c.limit c.maxLines)) ⟨[], empty, none, false⟩) fun _ => True := takeLines_returns
    (fun l hl => hlines l (List.mem_of_mem_drop (List.mem_of_mem_take hl))) (fun l hl => absurd hl List.not_mem_nil)
  obtain ⟨page, hpage, -⟩ := hselected
  refine ⟨readReply (requestAt x c i) (splitlines text).length page, ?_⟩
  rw [replyAt, readFile_text htext, hempty]
  simp only [bind, Except.bind, hpage]
  rfl

/-- A reply shows the next lines, and one at least if there is one. -/
theorem replyAt_serves {c : ReadCall} {i : ℕ} {r : ReadReply} (h : replyAt enc x c i = some r) :
    Serves (x.lines text) i ⟨shownLines r, r.nextOffset.map fun n => n - 1⟩ := by
  obtain ⟨p, htaken, hr, hshown⟩ := replyAt_spec htext h
  have hfront : p.renderedLines <+: ((x.lines text).drop i).take (lineLimit c.limit c.maxLines) := by
    cases htaken with
    | inl hfilled =>
      obtain ⟨k, -, hlines, -⟩ := hfilled
      rw [hlines, List.nil_append]
      exact List.take_prefix _ _
    | inr hlarge =>
      obtain ⟨-, line, rest, hlines, -, hshown, -⟩ := hlarge
      rw [hlines, hshown]
      exact List.prefix_append _ _
  have hprogress : i < (x.lines text).length → p.renderedLines ≠ [] := by
    intro hmore hnil
    have hlimit := lineLimit_pos c.limit c.maxLines
    have hnone : ((x.lines text).drop i).take (lineLimit c.limit c.maxLines) = [] := by
      cases htaken with
      | inl hfilled => exact hfilled.choose_spec.2.2.2 hnil
      | inr hlarge =>
        obtain ⟨-, line, rest, -, -, hshown, -⟩ := hlarge
        exact absurd (hshown.symm.trans hnil) (List.cons_ne_nil _ _)
    have hlength := congrArg List.length hnone
    rw [List.length_take, List.length_drop, List.length_nil] at hlength
    omega
  rw [hshown]
  refine ⟨hfront.trans (List.take_prefix _ _), ?_, hprogress⟩
  have hstart : startLine (requestAt x c i).offset = i + 1 := startLine_succ i
  have hnext : r.nextOffset = if decide (i + 1 - 1 + p.renderedLines.length < (x.lines text).length) && decide (0 < p.renderedLines.length)
      then some (i + 1 + p.renderedLines.length) else none := by
    rw [hr, ← hstart]
    rfl
  rw [hnext, Nat.add_sub_cancel]
  by_cases hmore : i + p.renderedLines.length < (x.lines text).length
  · have hpos : 0 < p.renderedLines.length := List.length_pos_iff.mpr (hprogress (by omega))
    rw [if_pos hmore, if_pos (Bool.and_eq_true_iff.mpr ⟨decide_eq_true hmore, decide_eq_true hpos⟩), Option.map_some]
    have hshift : i + 1 + p.renderedLines.length - 1 = i + p.renderedLines.length := by omega
    exact congrArg some hshift
  · rw [if_neg hmore, decide_eq_false hmore, Bool.false_and]
    rfl

/-- The first selected line is measured. -/
theorem line_measured {c : ReadCall} {i : ℕ} {r : ReadReply} (h : replyAt enc x c i = some r) {line : Text}
    (hline : (splitlines text)[i]? = some line) : Measurable line := by
  obtain ⟨hi, hget⟩ := List.getElem?_eq_some_iff.mp hline
  obtain ⟨n, hn⟩ := Nat.exists_eq_add_of_le (lineLimit_pos c.limit c.maxLines)
  rw [replyAt, readFile_text htext] at h
  split at h
  · next r' hr =>
    obtain ⟨empty, -, hr⟩ := bind_eq_ok.mp hr
    obtain ⟨p, hp, -⟩ := bind_eq_ok.mp hr
    rw [List.drop_eq_getElem_cons hi, hget, hn, Nat.add_comm 1 n, List.take_succ_cons] at hp
    obtain ⟨m, hm, -⟩ := bind_eq_ok.mp hp
    have hclean := measurable_joinLines_iff.mp ((measure_returns_iff enc _ _).mp ⟨m, hm⟩)
    exact (measurable_renderLine_iff x.includeLineNumbers (i + 1) line).mp (hclean _ List.mem_cons_self)
  · exact absurd h.symm (Option.some_ne_none r)

theorem steady_of_lossless (h : Lossless enc x text) : Steady enc x text := by
  have hreply : ∀ c i, ∃ r, replyAt enc x c i = some r := by
    intro c i
    obtain ⟨p, hp, -⟩ := h.advances c i
    obtain ⟨r, hr, -⟩ := Option.map_eq_some_iff.mp hp
    exact ⟨r, hr⟩
  refine ⟨(measurable_splitlines_iff text).mpr fun line hline => ?_, fun hnone => ?_, fun i k line hget hfits => ?_⟩
  · obtain ⟨i, hi⟩ := List.mem_iff_getElem?.mp hline
    obtain ⟨r, hr⟩ := hreply ⟨[], none, 1⟩ i
    exact line_measured htext hr hi
  · obtain ⟨r, hr⟩ := hreply ⟨[], none, 1⟩ 0
    obtain ⟨p, htaken, hread, -⟩ := replyAt_spec htext hr
    have hlines : x.lines text = [] := List.length_eq_zero_iff.mp ((length_lines text).trans (congrArg List.length hnone))
    rw [hlines, List.drop_nil, List.take_nil] at htaken
    cases htaken with
    | inl hfilled =>
      obtain ⟨k, -, hshown, hflag, -⟩ := hfilled
      have hfit := h.withinBudgets _ 0 r (.inr rfl) hr (hread ▸ hflag)
      have hcontent : r.content = joinLines p.renderedLines := hread ▸ rfl
      rw [hcontent, hshown, List.take_nil] at hfit
      exact hfit
    | inr hlarge =>
      obtain ⟨-, line, rest, hcons, -⟩ := hlarge
      exact absurd hcons.symm (List.cons_ne_nil line rest)
  · -- a call for these lines alone shows them all
    by_contra hlarge
    obtain ⟨hlt, hline⟩ := List.getElem?_eq_some_iff.mp hget
    obtain ⟨r, hr⟩ := hreply ⟨[], some (k + 1), 1⟩ i
    obtain ⟨p, htaken, hread, hshown⟩ := replyAt_spec htext hr
    have hlimit : lineLimit (some ((k : ℤ) + 1)) 1 = k + 1 := by
      rw [lineLimit, Option.filter_some, if_pos (by simp; omega), Option.getD_some]
      omega
    rw [hlimit] at htaken
    have hlength : (((x.lines text).drop i).take (k + 1)).length = k + 1 := by
      rw [List.length_take, List.length_drop]
      omega
    cases htaken with
    | inl hfilled =>
      obtain ⟨n, hfilled, hrendered, hflag, -⟩ := hfilled
      have hall : n = k + 1 := by
        by_contra hne
        have hle := hfilled.le
        refine hfilled.stopped (by omega) ?_
        rw [List.nil_append, List.take_take, Nat.min_eq_left (by omega)]
        exact hfits n (by omega)
      have hmem : line ∈ shownLines r := by
        rw [hshown, hrendered, hall, List.nil_append, List.take_take, Nat.min_self]
        refine List.mem_iff_getElem?.mpr ⟨k, ?_⟩
        rw [List.getElem?_take_of_lt (Nat.lt_succ_self k), List.getElem?_drop]
        exact hget
      have hflagged := (h.oversized _ i r line hr hmem hlarge).1
      rw [hread] at hflagged
      exact absurd (hflag.symm.trans hflagged) Bool.false_ne_true
    | inr hfirst =>
      obtain ⟨-, first, rest, hcons, hover, -⟩ := hfirst
      have hone := hfits 0 (Nat.zero_le k)
      have htake : ((x.lines text).drop i).take 1 = [first] := by
        have hcut := congrArg (List.take 1) hcons
        rwa [List.take_take, Nat.min_eq_left (by omega)] at hcut
      rw [htake] at hone
      exact hover hone

theorem lossless_of_steady (h : Steady enc x text) : Lossless enc x text := by
  have hreply : ∀ c i, ∃ r, replyAt enc x c i = some r := replyAt_returns htext h.measurable
  refine ⟨enumerates_of_serves fun c i _ => ?_, fun c i => ?_, fun c i r hi hr hflag => ?_, fun c i r hr hflag => ?_,
    fun c i r line hr hmem hlarge => ?_⟩
  · obtain ⟨r, hr⟩ := hreply c i
    exact ⟨_, by rw [readPager, hr]; rfl, replyAt_serves htext hr⟩
  · obtain ⟨r, hr⟩ := hreply c i
    exact ⟨_, by rw [readPager, hr]; rfl, fun j hj => (replyAt_serves htext hr).advances hj⟩
  · obtain ⟨p, htaken, hread, -⟩ := replyAt_spec htext hr
    have hcontent : r.content = joinLines p.renderedLines := hread ▸ rfl
    rw [hcontent]
    cases htaken with
    | inl hfilled =>
      obtain ⟨k, hfilled, hrendered, -, hnone⟩ := hfilled
      rw [hrendered]
      cases k with
      | zero =>
        have hcut := congrArg List.length (hnone hrendered)
        have hlimit := lineLimit_pos c.limit c.maxLines
        rw [List.length_take, List.length_drop, List.length_nil] at hcut
        have hempty : splitlines text = [] := List.length_eq_zero_iff.mp (by rw [← length_lines (x := x)]; omega)
        exact h.nothing hempty
      | succ k => exact hfilled.fitted k (Nat.lt_succ_self k)
    | inr hlarge =>
      obtain ⟨-, line, rest, -, -, -, hover⟩ := hlarge
      rw [hread] at hflag
      exact absurd (hover.symm.trans hflag).symm Bool.false_ne_true
  · obtain ⟨p, htaken, hread, hshown⟩ := replyAt_spec htext hr
    cases htaken with
    | inl hfilled =>
      obtain ⟨k, -, -, hnot, -⟩ := hfilled
      rw [hread] at hflag
      exact absurd (hnot.symm.trans hflag) Bool.false_ne_true
    | inr hlarge =>
      obtain ⟨-, line, rest, -, hover, hrendered, -⟩ := hlarge
      exact ⟨line, hshown.trans hrendered, hover⟩
  · obtain ⟨p, htaken, hread, hshown⟩ := replyAt_spec htext hr
    rw [hshown] at hmem
    cases htaken with
    | inl hfilled =>
      obtain ⟨k, hfilled, hrendered, -, -⟩ := hfilled
      rw [hrendered, List.nil_append] at hmem
      obtain ⟨j, hj⟩ := List.mem_iff_getElem?.mp hmem
      obtain ⟨hlt, -⟩ := List.getElem?_eq_some_iff.mp hj
      have hjk : j < k := Nat.lt_of_lt_of_le hlt (List.length_take_le _ _)
      have hle := hfilled.le
      rw [List.length_take] at hle
      rw [List.getElem?_take_of_lt hjk, List.getElem?_take_of_lt (by omega), List.getElem?_drop] at hj
      refine absurd (h.lastLine i j line hj fun m hm => ?_) hlarge
      have hfit := hfilled.fitted m (by omega)
      rwa [List.nil_append, List.take_take, Nat.min_eq_left (by omega)] at hfit
    | inr hfirst =>
      obtain ⟨-, first, rest, -, -, hrendered, hover⟩ := hfirst
      rw [hrendered] at hmem
      cases List.mem_singleton.mp hmem
      exact ⟨hread ▸ hover, hshown.trans hrendered⟩

end

/-- A text file is read to its end without loss exactly when its text is steady. -/
theorem lossless_iff_steady (enc : TokenEncoding) (x : Reading) :
    (∀ text, readText x.raw = some text → Lossless enc x text) ↔ ∀ text, readText x.raw = some text → Steady enc x text :=
  ⟨fun h text htext => steady_of_lossless htext (h text htext), fun h text htext => lossless_of_steady htext (h text htext)⟩

/-- A file that mentions a special token. -/
def tokenFile : Reading := ⟨(txt "<|endoftext|>").flatMap utf8Bytes, ⟨1000, by decide⟩, false, ⟨1000, by decide⟩⟩

theorem tokenFile_not_read : ¬∀ text, readText tokenFile.raw = some text → Lossless perCharacter tokenFile text := by
  intro h
  have htext : readText tokenFile.raw = some (txt "<|endoftext|>") := by decide +kernel
  have hdirty : ¬∀ w ∈ specialTokens, ¬w <:+: txt "<|endoftext|>" := by decide
  exact hdirty ((measurable_iff _).mp (steady_of_lossless htext (h _ htext)).measurable).2

end WebOauthMcp.ReadPaging
