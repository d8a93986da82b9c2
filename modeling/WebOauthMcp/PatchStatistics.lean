import WebOauthMcp.GitOutput
import WebOauthMcp.PatchPlanning

/-!
# Line counts of planned changes

The lines added and removed are counted in the rendered diff, by the first characters of what
`splitlines` makes of it. Which entries of the diff are counted depends on what they hold and on
what stands in front of them.
-/

namespace WebOauthMcp.PatchStatistics
open CodePoints LineSplitting PatchGrammar PatchPlanning GitOutput

def plus : CodePoint := 0x2B
def minus : CodePoint := 0x2D

/-! ## Unified diffs -/

/-- The entries of a unified diff after its two headers. Equal lines may be left out. -/
inductive Describes : List Text → List Text → List Text → Prop
  | done : Describes [] [] []
  | omitted {entries old new : List Text} (line : Text) : Describes entries old new →
      Describes entries (line :: old) (line :: new)
  | range {entries old new : List Text} (range : Text) : Unbroken range → Describes entries old new →
      Describes ((txt "@@ " ++ range ++ txt " @@" ++ [lineFeed]) :: entries) old new
  | context {entries old new : List Text} (line : Text) : Describes entries old new →
      Describes ((0x20 :: line) :: entries) (line :: old) (line :: new)
  | removed {entries old new : List Text} (line : Text) : Describes entries old new →
      Describes ((minus :: line) :: entries) (line :: old) new
  | added {entries old new : List Text} (line : Text) : Describes entries old new →
      Describes ((plus :: line) :: entries) old (line :: new)

/-- What `difflib.unified_diff` emits for two lists of lines. -/
inductive UnifiedDiff (fromFile toFile : Text) : List Text → List Text → List Text → Prop
  | same (lines : List Text) : UnifiedDiff fromFile toFile lines lines []
  | differs {entries old new : List Text} : Describes entries old new → UnifiedDiff fromFile toFile old new
      ((txt "--- " ++ fromFile ++ [lineFeed]) :: (txt "+++ " ++ toFile ++ [lineFeed]) :: entries)

def isEntry (mark : CodePoint) (entry : Text) : Bool := startsWith entry [mark]

/-- A line of the rendered diff that is counted under `mark`. -/
def counted (mark : CodePoint) (line : Text) : Bool := startsWith line [mark] && !startsWith line [mark, mark, mark]

def endsLine (entry : Text) : Bool := entry.getLast?.any isLineBreak

/-- The entries under `mark` that are taken for a file header or joined to the entry before. -/
def hiddenIn (mark : CodePoint) : Bool → List Text → ℕ
  | _, [] => 0
  | joined, entry :: entries =>
    (if isEntry mark entry && (joined || startsWith entry [mark, mark, mark]) then 1 else 0) +
      hiddenIn mark (!endsLine entry) entries

/-- The lines of the file headers that are counted under `mark`. -/
def strayIn (mark : CodePoint) (headers : List Text) : ℕ := (headers.flatMap splitlines).countP (counted mark)

def hidden (mark : CodePoint) (diff : List Text) : ℕ := hiddenIn mark false (diff.drop 2)
def stray (mark : CodePoint) (diff : List Text) : ℕ := strayIn mark (diff.take 2)
def entriesOf (mark : CodePoint) (diff : List Text) : ℕ := (diff.drop 2).countP (isEntry mark)

/-! ## Lines with their breaks -/

inductive Pieces : List Text → Prop
  | nil : Pieces []
  | last {content : Text} : Unbroken content → content ≠ [] → Pieces [content]
  | cons {content ending : Text} {lines : List Text} : Unbroken content → IsEnding id ending → Pieces lines →
      Pieces ((content ++ ending) :: lines)

theorem pieces_items {lines : List (Line CodePoint)} (hended : Ended id lines)
    (hcontent : ∀ l ∈ lines, Unbroken l.content) : Pieces (lines.map Line.items) := by
  induction lines with
  | nil => exact .nil
  | cons l lines ih =>
    obtain ⟨hl, hlines⟩ := List.forall_mem_cons.mp hcontent
    cases lines with
    | nil =>
      cases hended with
      | inl hlast =>
        have hitems : [l].map Line.items = [l.content] := by simp [Line.items, hlast.1]
        rw [hitems]
        exact .last hl hlast.2
      | inr hending => exact .cons hl hending .nil
    | cons m lines => exact .cons hl hended.1 (ih hended.2 hlines)

theorem pieces_splitlinesKeepends (t : Text) : Pieces (splitlinesKeepends t) :=
  pieces_items (linesOf_ended id t) (linesOf_content_noBreak id t)

/-- An ended line is split off. -/
theorem splitlines_ended {content ending : Text} (hcontent : Unbroken content) (hending : IsEnding id ending) {rest : Text}
    (hrest : rest.head? ≠ some lineFeed) : splitlines (content ++ ending ++ rest) = content :: splitlines rest := by
  induction content with
  | nil =>
    rcases hending with ⟨c, rfl, hc⟩ | ⟨c, d, rfl, hc, hd⟩
    · refine splitlines_break hc fun e es he hcrlf => hrest ?_
      have hhead : rest = e :: es := he
      rw [hhead, hcrlf.2]
      rfl
    · obtain rfl : c = carriageReturn := hc
      obtain rfl : d = lineFeed := hd
      exact splitlines_crlf rest
  | cons c content ih =>
    obtain ⟨hc, hothers⟩ := List.forall_mem_cons.mp hcontent
    rw [List.cons_append, List.cons_append, splitlines_content hc, ih hothers]

/-- An unended line takes in the first line behind it. -/
theorem splitlines_unended {content : Text} (hcontent : Unbroken content) (hne : content ≠ []) (rest : Text) :
    splitlines (content ++ rest) = (content ++ (splitlines rest).head?.getD []) :: (splitlines rest).tail := by
  induction content with
  | nil => exact absurd rfl hne
  | cons c content ih =>
    obtain ⟨hc, hothers⟩ := List.forall_mem_cons.mp hcontent
    rw [List.cons_append, splitlines_content hc]
    by_cases hnil : content = []
    · subst hnil
      rw [List.nil_append]
      cases splitlines rest <;> simp
    · rw [ih hothers hnil]
      rfl

/-! ## Lines that are counted -/

variable {mark : CodePoint} {entries old new : List Text} {line rest : Text}

theorem replicate_isPrefixOf_append {α : Type} [BEq α] [LawfulBEq α] (a : α) (n : ℕ) (xs : List α) {ys : List α} (hys : ys.head? ≠ some a) :
    (List.replicate n a).isPrefixOf (xs ++ ys) = (List.replicate n a).isPrefixOf xs := by
  induction n generalizing xs with
  | zero => simp
  | succ n ih =>
    cases xs with
    | nil =>
      cases ys with
      | nil => rfl
      | cons y ys =>
        have hy : y ≠ a := fun heq => hys (by rw [heq, List.head?_cons])
        simp [List.replicate_succ, List.isPrefixOf, Ne.symm hy]
    | cons x xs => simp only [List.replicate_succ, List.cons_append, List.isPrefixOf, ih]

/-- Only characters equal to the mark could change whether a line is counted. -/
theorem counted_append {xs ys : Text} (hys : ys.head? ≠ some mark) : counted mark (xs ++ ys) = counted mark xs := by
  have hone := replicate_isPrefixOf_append mark 1 xs hys
  have hthree := replicate_isPrefixOf_append mark 3 xs hys
  exact congrArg₂ (fun a b => a && !b) hone hthree

theorem counted_other {c : CodePoint} (h : c ≠ mark) (text : Text) : counted mark (c :: text) = false := by
  simp [counted, startsWith, List.isPrefixOf, Ne.symm h]

theorem startsWith_other {c d : CodePoint} (h : d ≠ c) (text mark : Text) : startsWith (c :: text) (d :: mark) = false := by
  simp [startsWith, List.isPrefixOf, h]

/-- The tests for file headers and ranges tell apart only lines that begin with the mark. -/
theorem counted_iff (line : Text) :
    (startsWith line (txt "+") && !(startsWith line (txt "+++") || startsWith line (txt "---") || startsWith line (txt "@@"))) =
      counted plus line ∧
    (startsWith line (txt "-") && !(startsWith line (txt "+++") || startsWith line (txt "---") || startsWith line (txt "@@"))) =
      counted minus line := by
  have hplus : txt "+" = [plus] ∧ txt "+++" = [plus, plus, plus] := ⟨rfl, rfl⟩
  have hminus : txt "-" = [minus] ∧ txt "---" = [minus, minus, minus] := ⟨rfl, rfl⟩
  have hat : txt "@@" = [0x40, 0x40] := rfl
  rw [hplus.1, hplus.2, hminus.1, hminus.2, hat, counted, counted]
  cases line with
  | nil => exact ⟨rfl, rfl⟩
  | cons c text =>
    constructor
    · by_cases hc : plus = c
      · subst hc
        have hm : startsWith (plus :: text) [minus, minus, minus] = false := startsWith_other (by decide) text _
        have ha : startsWith (plus :: text) [0x40, 0x40] = false := startsWith_other (by decide) text _
        rw [hm, ha, Bool.or_false, Bool.or_false]
      · rw [startsWith_other hc, Bool.false_and, Bool.false_and]
    · by_cases hc : minus = c
      · subst hc
        have hp : startsWith (minus :: text) [plus, plus, plus] = false := startsWith_other (by decide) text _
        have ha : startsWith (minus :: text) [0x40, 0x40] = false := startsWith_other (by decide) text _
        rw [hp, ha, Bool.or_false, Bool.false_or]
      · rw [startsWith_other hc, Bool.false_and, Bool.false_and]

theorem diffLineCounts_eq (diff : Text) : diffLineCounts diff =
    ((splitlines diff).countP (counted plus), (splitlines diff).countP (counted minus)) := by
  simp only [diffLineCounts, List.filter_filter, List.countP_eq_length_filter, (counted_iff _).1, (counted_iff _).2]

/-! ## The lines of a rendered diff -/

/-- What one entry adds to a count, unless it is joined to the entry before. -/
def visibleIn (mark : CodePoint) : Bool → List Text → ℕ
  | _, [] => 0
  | joined, entry :: entries =>
    (if !joined && counted mark entry then 1 else 0) + visibleIn mark (!endsLine entry) entries

theorem visible_add_hidden (mark : CodePoint) (joined : Bool) (entries : List Text) :
    visibleIn mark joined entries + hiddenIn mark joined entries = entries.countP (isEntry mark) := by
  induction entries generalizing joined with
  | nil => rfl
  | cons entry entries ih =>
    rw [visibleIn, hiddenIn, List.countP_cons, ← ih (!endsLine entry), counted, isEntry]
    cases joined <;> cases startsWith entry [mark] <;> cases startsWith entry [mark, mark, mark] <;> simp <;> omega

theorem hidden_le (mark : CodePoint) (diff : List Text) : hidden mark diff ≤ entriesOf mark diff := by
  rw [hidden, entriesOf, ← visible_add_hidden mark false]
  exact Nat.le_add_left _ _

theorem endsLine_append_ending {content ending : Text} (h : IsEnding id ending) : endsLine (content ++ ending) = true := by
  rcases h with ⟨c, rfl, hc⟩ | ⟨c, d, rfl, -, hd⟩
  · rw [endsLine, List.getLast?_concat]
    exact hc
  · obtain rfl : d = lineFeed := hd
    have hlast : (content ++ [c, lineFeed]).getLast? = some lineFeed := by simp
    rw [endsLine, hlast]
    rfl

theorem endsLine_unbroken {content : Text} (h : Unbroken content) : endsLine content = false := by
  rw [endsLine]
  cases hlast : content.getLast? with
  | none => rfl
  | some c => exact h c (List.mem_of_getLast? hlast)

/-- No further entry under a mark when its side is used up. -/
theorem Describes.head (h : Describes entries old new) : (old = [] → entries.flatten.head? ≠ some minus) ∧
    (new = [] → entries.flatten.head? ≠ some plus) ∧ entries.flatten.head? ≠ some lineFeed := by
  have hentry : ∀ c d : CodePoint, ∀ rest : Text, c ≠ d → (c :: rest).head? ≠ some d :=
    fun c d rest hne heq => hne (Option.some.inj heq)
  have hcons : ∀ {line : Text} {lines : List Text} {P : Prop}, line :: lines = [] → P :=
    fun h => absurd h (List.cons_ne_nil _ _)
  induction h with
  | done => simp
  | omitted line _ ih => exact ⟨hcons, hcons, ih.2.2⟩
  | range range _ _ _ =>
    exact ⟨fun _ => hentry 0x40 _ _ (by decide), fun _ => hentry 0x40 _ _ (by decide), hentry 0x40 _ _ (by decide)⟩
  | context line _ _ => exact ⟨hcons, hcons, hentry 0x20 _ _ (by decide)⟩
  | removed line _ _ => exact ⟨hcons, fun _ => hentry minus _ _ (by decide), hentry minus _ _ (by decide)⟩
  | added line _ _ => exact ⟨fun _ => hentry plus _ _ (by decide), hcons, hentry plus _ _ (by decide)⟩

/-- The counts of what is behind an entry, and of what is behind its first line. -/
def Counts (mark : CodePoint) (entries : List Text) : Prop :=
  (splitlines entries.flatten).countP (counted mark) = visibleIn mark false entries ∧
    (splitlines entries.flatten).tail.countP (counted mark) = visibleIn mark true entries

theorem counts_ended {content ending : Text} (hcontent : Unbroken content) (hending : IsEnding id ending)
    (hmark : isLineBreak mark = false) (hrest : entries.flatten.head? ≠ some lineFeed) (h : Counts mark entries) :
    Counts mark ((content ++ ending) :: entries) := by
  have hhead : ending.head? ≠ some mark := by
    rcases hending with ⟨c, rfl, hc⟩ | ⟨c, d, rfl, hc, -⟩
    · rintro heq
      obtain rfl := Option.some.inj heq
      exact Bool.false_ne_true (hmark.symm.trans hc)
    · rintro heq
      obtain rfl := Option.some.inj heq
      obtain rfl : c = carriageReturn := hc
      exact Bool.false_ne_true hmark.symm
  rw [Counts, List.flatten_cons, splitlines_ended hcontent hending hrest, visibleIn, visibleIn, counted_append hhead,
    endsLine_append_ending hending, List.countP_cons, List.tail_cons, h.1]
  exact ⟨Nat.add_comm _ _, (Nat.zero_add _).symm⟩

theorem counts_unended {entry : Text} (hentry : Unbroken entry) (hne : entry ≠ [])
    (hsame : counted mark (entry ++ (splitlines entries.flatten).head?.getD []) = counted mark entry)
    (h : Counts mark entries) : Counts mark (entry :: entries) := by
  rw [Counts, List.flatten_cons, splitlines_unended hentry hne, visibleIn, visibleIn, endsLine_unbroken hentry,
    List.countP_cons, List.tail_cons, h.2, hsame]
  exact ⟨Nat.add_comm _ _, (Nat.zero_add _).symm⟩

theorem head_first_line {t : Text} (h : t.head? ≠ some mark) : ((splitlines t).head?.getD []).head? ≠ some mark := by
  induction t using splitlines_induction with
  | nil => simp [splitlines]
  | content c rest hc _ =>
    rw [splitlines_content hc]
    cases splitlines rest <;> exact h
  | crlf rest _ =>
    rw [splitlines_crlf]
    simp
  | ending c rest hc hcr _ =>
    rw [splitlines_break hc hcr]
    simp

theorem Pieces.uncons {lines : List Text} (h : Pieces (line :: lines)) : Pieces lines ∧
    ((∃ content ending, line = content ++ ending ∧ Unbroken content ∧ IsEnding id ending) ∨
      Unbroken line ∧ lines = []) := by
  cases h with
  | last hcontent _ => exact ⟨.nil, .inr ⟨hcontent, rfl⟩⟩
  | cons hcontent hending hlines => exact ⟨hlines, .inl ⟨_, _, rfl, hcontent, hending⟩⟩

/-- One entry for a line. Where the line is unended, nothing behind it may begin with its mark. -/
theorem counts_entry {c : CodePoint} {lines : List Text} (hc : isLineBreak c = false) (hmark : isLineBreak mark = false)
    (hlines : Pieces (line :: lines)) (hrest : entries.flatten.head? ≠ some lineFeed)
    (hlast : c = mark → lines = [] → entries.flatten.head? ≠ some mark) (h : Counts mark entries) :
    Counts mark ((c :: line) :: entries) := by
  rcases hlines.uncons.2 with ⟨content, ending, rfl, hcontent, hending⟩ | ⟨hline, hnil⟩
  · have hfront : Unbroken (c :: content) := List.forall_mem_cons.mpr ⟨hc, hcontent⟩
    exact counts_ended hfront hending hmark hrest h
  · refine counts_unended (List.forall_mem_cons.mpr ⟨hc, hline⟩) (List.cons_ne_nil c line) ?_ h
    by_cases heq : c = mark
    · exact counted_append (head_first_line (hlast heq hnil))
    · rw [List.cons_append, counted_other heq, counted_other heq]

theorem Describes.counts (h : Describes entries old new) (hold : Pieces old) (hnew : Pieces new)
    (hmark : mark = plus ∨ mark = minus) : Counts mark entries := by
  have hbreak : isLineBreak mark = false := by rcases hmark with rfl | rfl <;> decide
  induction h with
  | done => exact ⟨rfl, rfl⟩
  | omitted line _ ih => exact ih hold.uncons.1 hnew.uncons.1
  | range range hrange hothers ih =>
    have hunbroken : Unbroken (txt "@@ " ++ range ++ txt " @@") := by
      have hfront : Unbroken (txt "@@ ") := (printable_of_all (by decide)).unbroken
      have hback : Unbroken (txt " @@") := (printable_of_all (by decide)).unbroken
      exact (hfront.append hrange).append hback
    exact counts_ended hunbroken (.inl ⟨lineFeed, rfl, by decide⟩) hbreak hothers.head.2.2 (ih hold hnew)
  | context line hothers ih =>
    refine counts_entry (by decide) hbreak hold hothers.head.2.2 (fun heq => ?_) (ih hold.uncons.1 hnew.uncons.1)
    rcases hmark with rfl | rfl <;> exact absurd heq (by decide)
  | removed line hothers ih =>
    refine counts_entry (by decide) hbreak hold hothers.head.2.2 (fun heq hnil => ?_) (ih hold.uncons.1 hnew)
    exact heq ▸ hothers.head.1 hnil
  | added line hothers ih =>
    refine counts_entry (by decide) hbreak hnew hothers.head.2.2 (fun heq hnil => ?_) (ih hold hnew.uncons.1)
    exact heq ▸ hothers.head.2.1 hnil

theorem Describes.length (h : Describes entries old new) :
    new.length + entries.countP (isEntry minus) = old.length + entries.countP (isEntry plus) := by
  induction h with
  | done => rfl
  | omitted line _ ih => simp only [List.length_cons]; omega
  | @range entries old new range _ _ ih =>
    have hplus : isEntry plus (txt "@@ " ++ range ++ txt " @@" ++ [lineFeed]) = false := rfl
    have hminus : isEntry minus (txt "@@ " ++ range ++ txt " @@" ++ [lineFeed]) = false := rfl
    rw [List.countP_cons_of_neg (Bool.not_eq_true _ ▸ hminus), List.countP_cons_of_neg (Bool.not_eq_true _ ▸ hplus)]
    exact ih
  | @context entries old new line _ ih =>
    have hplus : isEntry plus (0x20 :: line) = false := rfl
    have hminus : isEntry minus (0x20 :: line) = false := rfl
    rw [List.countP_cons_of_neg (by simpa using hminus), List.countP_cons_of_neg (by simpa using hplus)]
    simp only [List.length_cons]
    omega
  | @removed entries old new line _ ih =>
    have hminus : isEntry minus (minus :: line) = true := rfl
    have hplus : isEntry plus (minus :: line) = false := rfl
    rw [List.countP_cons_of_pos hminus, List.countP_cons_of_neg (by simpa using hplus)]
    simp only [List.length_cons]
    omega
  | @added entries old new line _ ih =>
    have hminus : isEntry minus (plus :: line) = false := rfl
    have hplus : isEntry plus (plus :: line) = true := rfl
    rw [List.countP_cons_of_pos hplus, List.countP_cons_of_neg (by simpa using hminus)]
    simp only [List.length_cons]
    omega

/-! ## The statistics of a change -/

/-- The lines a text has. -/
def lineCount (t : Text) : ℕ := (splitlines t).length

theorem length_splitlinesKeepends (t : Text) : (splitlinesKeepends t).length = lineCount t := by
  rw [splitlinesKeepends, lineCount, splitlines, List.length_map, List.length_map]

/-- The diff that is rendered for a change. -/
def diffOf (env : PatchEnv) (change : PlannedChange) : List Text :=
  env.unifiedDiff (splitlinesKeepends change.oldText) (splitlinesKeepends change.newText)
    (pathText (change.previousPath.getD change.path)) (pathText change.path)

/-- `unified_diff` is called as documented for this change. -/
def DiffAsDocumented (env : PatchEnv) (change : PlannedChange) : Prop :=
  UnifiedDiff (pathText (change.previousPath.getD change.path)) (pathText change.path)
    (splitlinesKeepends change.oldText) (splitlinesKeepends change.newText) (diffOf env change)

variable {env : PatchEnv} {change : PlannedChange}

theorem splitlines_header (t rest : Text) : splitlines (t ++ [lineFeed] ++ rest) = splitlines (t ++ [lineFeed]) ++ splitlines rest := by
  have hfeed : id lineFeed = lineFeed := rfl
  have hlines := linesOf_append_feed hfeed t rest
  rw [List.append_assoc, List.singleton_append, splitlines, hlines, List.map_append]
  rfl

theorem UnifiedDiff.elim {fromFile toFile : Text} {diff : List Text} (h : UnifiedDiff fromFile toFile old new diff) :
    (old = new ∧ diff = []) ∨ ∃ entries, Describes entries old new ∧
      diff = (txt "--- " ++ fromFile ++ [lineFeed]) :: (txt "+++ " ++ toFile ++ [lineFeed]) :: entries := by
  cases h with
  | same => exact .inl ⟨rfl, rfl⟩
  | @differs entries _ _ hentries => exact .inr ⟨entries, hentries, rfl⟩

theorem countP_splitlines (hdiff : DiffAsDocumented env change) (hmark : mark = plus ∨ mark = minus) :
    (splitlines (renderDiff env change)).countP (counted mark) + hidden mark (diffOf env change) =
      stray mark (diffOf env change) + entriesOf mark (diffOf env change) := by
  have hold := pieces_splitlinesKeepends change.oldText
  have hnew := pieces_splitlinesKeepends change.newText
  have hrender : renderDiff env change = (diffOf env change).flatten := rfl
  rw [hrender]
  rcases hdiff.elim with ⟨-, hdiff⟩ | ⟨entries, hentries, hdiff⟩
  · rw [hdiff]
    rfl
  · rw [hdiff]
    have hcounts := (hentries.counts hold hnew hmark).1
    have hsum := visible_add_hidden mark false entries
    rw [List.flatten_cons, List.flatten_cons, splitlines_header, splitlines_header, List.countP_append, List.countP_append,
      hcounts]
    simp only [hidden, stray, entriesOf, strayIn, List.drop_succ_cons, List.drop_zero, List.take_succ_cons, List.take_zero,
      List.flatMap_cons, List.flatMap_nil, List.append_nil, List.countP_append]
    omega

theorem lineCount_add (hdiff : DiffAsDocumented env change) :
    lineCount change.newText + entriesOf minus (diffOf env change) = lineCount change.oldText + entriesOf plus (diffOf env change) := by
  rw [← length_splitlinesKeepends, ← length_splitlinesKeepends]
  rcases hdiff.elim with ⟨hsame, hdiff⟩ | ⟨entries, hentries, hdiff⟩
  · rw [hdiff, hsame]
    rfl
  · rw [hdiff]
    exact hentries.length

/-- What the summary of a change promises about its lines. -/
structure Truthful (env : PatchEnv) (change : PlannedChange) (summary : FileSummary) : Prop where
  balance : (summary.linesAdded : ℤ) - summary.linesRemoved = lineCount change.newText - lineCount change.oldText
  removals : summary.linesRemoved = 0 ↔ entriesOf minus (diffOf env change) = 0
  warning : summary.warnings ≠ [] ↔ (change.kind = .update ∨ change.kind = .move) ∧
    0 < entriesOf plus (diffOf env change) ∧ entriesOf minus (diffOf env change) = 0

/-- As many additions as removals are miscounted, and a removal shows exactly when there is one. -/
structure Undisguised (diff : List Text) : Prop where
  balanced : hidden plus diff + stray minus diff = hidden minus diff + stray plus diff
  shown : 0 < entriesOf minus diff ↔ hidden minus diff < entriesOf minus diff ∨ 0 < stray minus diff

theorem changeWarnings_ne_nil {added removed : ℕ} : changeWarnings change added removed ≠ [] ↔
    (change.kind = .update ∨ change.kind = .move) ∧ 0 < added ∧ removed = 0 := by
  rw [changeWarnings]
  split_ifs with h
  · exact iff_of_true (List.cons_ne_nil _ _) h
  · exact iff_of_false (fun hne => hne rfl) h

/-- The statistics of a change tell the truth exactly when no disguise of its lines shows. -/
theorem statistics_truthful_iff {summary : FileSummary} (hdiff : DiffAsDocumented env change)
    (hsummary : summarizeChange env change = .ok summary) :
    Truthful env change summary ↔ Undisguised (diffOf env change) := by
  have hplus := countP_splitlines hdiff (.inl rfl)
  have hminus := countP_splitlines hdiff (.inr rfl)
  have hlines := lineCount_add hdiff
  have hcounts : summary.linesAdded = (splitlines (renderDiff env change)).countP (counted plus) ∧
      summary.linesRemoved = (splitlines (renderDiff env change)).countP (counted minus) ∧
      summary.warnings = changeWarnings change summary.linesAdded summary.linesRemoved := by
    rw [summarizeChange, diffLineCounts_eq] at hsummary
    dsimp only at hsummary
    split at hsummary
    · cases hsummary
      exact ⟨rfl, rfl, rfl⟩
    · cases hsummary
  obtain ⟨hadded, hremoved, hwarnings⟩ := hcounts
  rw [← hadded] at hplus
  rw [← hremoved] at hminus
  have hbound := hidden_le minus (diffOf env change)
  constructor
  · intro h
    have hbalance := h.balance
    have hremovals := h.removals
    exact ⟨by omega, by omega⟩
  · intro h
    have hbalanced := h.balanced
    have hshown := h.shown
    refine ⟨by omega, by omega, ?_⟩
    rw [hwarnings, changeWarnings_ne_nil]
    refine and_congr_right fun _ => ?_
    omega

/-- A differ that replaces everything. -/
def wholeDiff (old new : List Text) (fromFile toFile : Text) : List Text :=
  if old = new then []
  else (txt "--- " ++ fromFile ++ [lineFeed]) :: (txt "+++ " ++ toFile ++ [lineFeed]) ::
    (txt "@@ " ++ txt "-1 +1" ++ txt " @@" ++ [lineFeed]) :: (old.map (minus :: ·) ++ new.map (plus :: ·))

def wholeEnv : PatchEnv where
  resolvePath _ := .error .osError
  unreadable _ := false
  unifiedDiff := wholeDiff
  sha256Hex _ := []

/-- A comment of a query is replaced by a line of code. -/
def commentReplaced : PlannedChange := ⟨.update, [txt "q.sql"], none, txt "--x\n", txt "y\n", 1⟩

def commentSummary : FileSummary := ⟨.update, txt "/q.sql", 1, 0, 4, 2, 1, [],
  [txt "update inserted lines without removing any existing lines; verify this was intended"], none⟩

theorem commentReplaced_documented : DiffAsDocumented wholeEnv commentReplaced := by
  have hrange : Unbroken (txt "-1 +1") := (printable_of_all (by decide)).unbroken
  exact .differs (.range _ hrange (.removed _ (.added _ .done)))

theorem statistics_truthful_comment : Truthful wholeEnv commentReplaced commentSummary ↔
    Undisguised (diffOf wholeEnv commentReplaced) :=
  statistics_truthful_iff commentReplaced_documented (by decide +kernel)

/-- The removed comment is taken for a file header: a warning says that nothing was removed. -/
theorem removed_comment_hidden : summarizeChange wholeEnv commentReplaced = .ok commentSummary ∧
    ¬Truthful wholeEnv commentReplaced commentSummary := by
  refine ⟨by decide +kernel, fun h => ?_⟩
  have hnone := h.removals.mp rfl
  exact absurd hnone (by decide +kernel)

end WebOauthMcp.PatchStatistics
