import WebOauthMcp.ExceptSteps
import WebOauthMcp.PatchGrammar

/-!
# The language of patches

A grammar for the lines between `*** Begin Patch` and `*** End Patch`, each derivation with
the operation it stands for. The parser returns exactly the derivable operations, and every
derivation prints back to the lines it read.
-/

namespace WebOauthMcp.PatchAcceptance
open CodePoints LineSplitting PatchGrammar ExceptSteps

/-! ## The grammar -/

def marker : LineKind → CodePoint
  | .context => 0x20
  | .addition => 0x2B
  | .removal => 0x2D

def printLine (l : DiffLine) : Text := marker l.kind :: l.text

inductive HunkBody : List Text → List DiffLine → Prop
  | nil : HunkBody [] []
  | endOfFile {body : List Text} {diff : List DiffLine} : HunkBody body diff → HunkBody (endOfFileMark :: body) diff
  | line (l : DiffLine) {body : List Text} {diff : List DiffLine} : HunkBody body diff →
      HunkBody (printLine l :: body) (l :: diff)

structure WellFormed (diff : List DiffLine) : Prop where
  changes : ∃ l ∈ diff, l.kind ≠ .context
  anchored : ∃ l ∈ diff, l.kind ≠ .addition

/-- A hunk whose first line has the index `n` in the patch, with or without an `@@` line. -/
inductive Hunk (n : ℕ) : Bool → List Text → UpdateHunk → Prop
  | marked {mark : Text} {body : List Text} {diff : List DiffLine} : startsWith mark hunkMark = true →
      HunkBody body diff → WellFormed diff → Hunk n true (mark :: body) ⟨diff, n + 1⟩
  | unmarked {body : List Text} {diff : List DiffLine} : HunkBody body diff → WellFormed diff →
      Hunk n false body ⟨diff, n + 1⟩

/-- Hunks in a row. Only the first of an update may stand without an `@@` line. -/
inductive Hunks : Bool → ℕ → List Text → List UpdateHunk → Prop
  | nil {first : Bool} {n : ℕ} : Hunks first n [] []
  | cons {first marked : Bool} {n : ℕ} {block rest : List Text} {hunk : UpdateHunk} {hunks : List UpdateHunk} :
      Hunk n marked block hunk → first = true ∨ marked = true → Hunks false (n + block.length) rest hunks →
      Hunks first n (block ++ rest) (hunk :: hunks)

/-- A block whose header has the index `n` in the patch. -/
inductive Block (n : ℕ) : List Text → PatchOperation → Prop
  | addFile (path : Text) (content : List Text) :
      Block n ((addFileMark ++ path) :: content.map (0x2B :: ·)) (.addFile path content)
  | deleteFile (path : Text) : Block n [deleteFileMark ++ path] (.deleteFile path)
  | updateFile (path : Text) {body : List Text} {hunks : List UpdateHunk} : Hunks true (n + 1) body hunks →
      hunks ≠ [] → Block n ((updateFileMark ++ path) :: body) (.updateFile path none hunks)
  | moveFile (path target : Text) {body : List Text} {hunks : List UpdateHunk} : Hunks true (n + 2) body hunks →
      Block n ((updateFileMark ++ path) :: (moveToMark ++ target) :: body) (.updateFile path (some target) hunks)

inductive Blocks : ℕ → List Text → List PatchOperation → Prop
  | nil {n : ℕ} : Blocks n [] []
  | cons {n : ℕ} {block rest : List Text} {operation : PatchOperation} {operations : List PatchOperation} :
      Block n block operation → Blocks (n + block.length) rest operations →
      Blocks n (block ++ rest) (operation :: operations)

def printHunk (hunk : UpdateHunk) : List Text := hunk.lines.map printLine

def printOperation : PatchOperation → List Text
  | .addFile path content => (addFileMark ++ path) :: content.map (0x2B :: ·)
  | .deleteFile path => [deleteFileMark ++ path]
  | .updateFile path none hunks => (updateFileMark ++ path) :: hunks.flatMap printHunk
  | .updateFile path (some target) hunks =>
    (updateFileMark ++ path) :: (moveToMark ++ target) :: hunks.flatMap printHunk

def printOperations (operations : List PatchOperation) : List Text := operations.flatMap printOperation

/-- The lines that carry no content of their own. -/
def isMark (line : Text) : Bool := startsWith line hunkMark || line = endOfFileMark

variable {n index used : ℕ} {line mark : Text} {lines body block rest : List Text} {diff : List DiffLine}
  {hunk : UpdateHunk} {hunks : List UpdateHunk} {first marked : Bool} {operation : PatchOperation}
  {operations : List PatchOperation}

/-! ## Which line is which -/

theorem startsWith_iff : startsWith line mark = true ↔ ∃ path, line = mark ++ path := by
  rw [startsWith, List.isPrefixOf_iff_prefix]
  constructor
  · rintro ⟨path, hp⟩
    exact ⟨path, hp.symm⟩
  · rintro ⟨path, hp⟩
    exact ⟨path, hp.symm⟩

theorem startsWith_append (mark path : Text) : startsWith (mark ++ path) mark = true :=
  startsWith_iff.mpr ⟨path, rfl⟩

theorem drop_mark (mark path : Text) : (mark ++ path).drop mark.length = path := List.drop_left

theorem marker_of_lineKind {c : CodePoint} {kind : LineKind} (h : lineKind c = some kind) : c = marker kind := by
  simp only [lineKind] at h
  split_ifs at h with h₁ h₂ h₃
  · rw [h₁, ← Option.some.inj h]
    rfl
  · rw [h₂, ← Option.some.inj h]
    rfl
  · rw [h₃, ← Option.some.inj h]
    rfl

theorem printLine_not_header (l : DiffLine) : nextIsOperationHeader (printLine l) = false := by
  obtain ⟨kind, text⟩ := l
  cases kind <;> rfl

/-- What stands behind a hunk: the next one, the next block, or nothing. -/
def Stops (rest : List Text) : Prop :=
  ∀ line ∈ rest.head?, (nextIsOperationHeader line || startsWith line hunkMark) = true

/-- What stands behind a block. -/
def EndsBlock (rest : List Text) : Prop := ∀ line ∈ rest.head?, nextIsOperationHeader line = true

theorem EndsBlock.stops (h : EndsBlock rest) : Stops rest := fun line hline => by rw [h line hline, Bool.true_or]

/-! ## One hunk -/

theorem parseHunkLines_cons (line : Text) (rest : List Text) : parseHunkLines (line :: rest) =
    if nextIsOperationHeader line || startsWith line hunkMark then .ok ([], 0)
    else if line = endOfFileMark then (parseHunkLines rest).map fun r => (r.1, r.2 + 1)
    else match line with
      | [] => .error (.invalidPatch (txt "Unexpected patch line: " ++ line))
      | c :: text => match lineKind c with
        | none => .error (.invalidPatch (txt "Unexpected patch line: " ++ line))
        | some kind => (parseHunkLines rest).map fun r => (⟨kind, text⟩ :: r.1, r.2 + 1) := rfl

theorem parseHunkLines_stop (h : (nextIsOperationHeader line || startsWith line hunkMark) = true) :
    parseHunkLines (line :: rest) = .ok ([], 0) := by rw [parseHunkLines_cons, if_pos h]

theorem parseHunkLines_endOfFile (lines : List Text) :
    parseHunkLines (endOfFileMark :: lines) = (parseHunkLines lines).map fun r => (r.1, r.2 + 1) := rfl

theorem parseHunkLines_printLine (l : DiffLine) (lines : List Text) :
    parseHunkLines (printLine l :: lines) = (parseHunkLines lines).map fun r => (l :: r.1, r.2 + 1) := by
  obtain ⟨kind, text⟩ := l
  cases kind <;> rfl

theorem HunkBody.parse (h : HunkBody body diff) (hrest : Stops rest) :
    parseHunkLines (body ++ rest) = .ok (diff, body.length) := by
  induction h with
  | nil =>
    cases rest with
    | nil => rfl
    | cons line rest => exact parseHunkLines_stop (hrest line rfl)
  | endOfFile _ ih =>
    rw [List.cons_append, parseHunkLines_endOfFile, ih]
    rfl
  | line l _ ih =>
    rw [List.cons_append, parseHunkLines_printLine, ih]
    rfl

/-- The lines used are a body, and the parser stopped where a body ends. -/
theorem hunkBody_of_parse (h : parseHunkLines lines = .ok (diff, used)) :
    ∃ body rest, lines = body ++ rest ∧ used = body.length ∧ HunkBody body diff ∧ Stops rest := by
  induction lines generalizing diff used with
  | nil =>
    cases h
    exact ⟨[], [], rfl, rfl, .nil, fun line hline => nomatch hline⟩
  | cons line lines ih =>
    rw [parseHunkLines_cons] at h
    split_ifs at h with hstop hend
    · cases h
      refine ⟨[], line :: lines, rfl, rfl, .nil, fun line' hline => ?_⟩
      obtain rfl := Option.some.inj hline
      exact hstop
    · obtain ⟨r, hr, hout⟩ := map_ok_iff.mp h
      obtain ⟨rfl, rfl⟩ := Prod.mk.inj hout
      obtain ⟨body, rest, rfl, hused, hbody, hrest⟩ := ih hr
      exact ⟨line :: body, rest, rfl, by rw [hused, List.length_cons], hend ▸ hbody.endOfFile, hrest⟩
    · cases line with
      | nil => cases h
      | cons c text =>
        cases hkind : lineKind c with
        | none =>
          simp only [hkind] at h
          cases h
        | some kind =>
          simp only [hkind] at h
          obtain ⟨r, hr, hout⟩ := map_ok_iff.mp h
          obtain ⟨rfl, rfl⟩ := Prod.mk.inj hout
          obtain ⟨body, rest, rfl, hused, hbody, hrest⟩ := ih hr
          rw [marker_of_lineKind hkind]
          exact ⟨printLine ⟨kind, text⟩ :: body, rest, rfl, by rw [hused, List.length_cons], hbody.line _, hrest⟩

theorem ne_context_iff {kind : LineKind} : kind ≠ .context ↔ kind = .addition ∨ kind = .removal := by
  cases kind <;> simp

theorem ne_addition_iff {kind : LineKind} : kind ≠ .addition ↔ kind = .removal ∨ kind = .context := by
  cases kind <;> simp

theorem wellFormed_iff : WellFormed diff ↔
    ((∃ l ∈ diff, l.kind = .addition) ∨ ∃ l ∈ diff, l.kind = .removal) ∧
      ((∃ l ∈ diff, l.kind = .removal) ∨ ∃ l ∈ diff, l.kind = .context) := by
  constructor
  · intro h
    have hchanges := h.changes
    have hanchored := h.anchored
    simp only [ne_context_iff, ne_addition_iff, and_or_left, exists_or] at hchanges hanchored
    exact ⟨hchanges, hanchored⟩
  · intro h
    simp only [← exists_or, ← and_or_left, ← ne_context_iff, ← ne_addition_iff] at h
    exact ⟨h.1, h.2⟩

theorem checkHunk_eq_ok : checkHunk diff n = .ok hunk ↔ WellFormed diff ∧ hunk = ⟨diff, n⟩ := by
  have hany : ∀ kind, (diff.any fun l => decide (l.kind = kind)) = true ↔ ∃ l ∈ diff, l.kind = kind := by simp
  rw [wellFormed_iff, ← hany, ← hany, ← hany, checkHunk]
  cases hempty : diff.isEmpty with
  | true =>
    obtain rfl := List.isEmpty_iff.mp hempty
    simp
  | false =>
    cases (diff.any fun l => decide (l.kind = .addition)) <;> cases (diff.any fun l => decide (l.kind = .removal)) <;>
      cases (diff.any fun l => decide (l.kind = .context)) <;> simp [eq_comm]

theorem stops_mark (h : startsWith mark hunkMark = true) (lines : List Text) : Stops (mark :: lines) := by
  intro line hline
  obtain rfl := Option.some.inj hline
  rw [h, Bool.or_true]

/-- No line of a body is taken for anything else. -/
theorem HunkBody.head (h : HunkBody (line :: body) diff) : nextIsOperationHeader line = false ∧
    startsWith line hunkMark = false ∧ startsWith line moveToMark = false := by
  cases h with
  | endOfFile _ => exact ⟨by decide, by decide, by decide⟩
  | line l _ =>
    obtain ⟨kind, text⟩ := l
    cases kind <;> exact ⟨rfl, rfl, rfl⟩

theorem mark_not_header (h : startsWith mark hunkMark = true) : nextIsOperationHeader mark = false ∧
    startsWith mark moveToMark = false := by
  obtain ⟨path, rfl⟩ := startsWith_iff.mp h
  exact ⟨rfl, rfl⟩

theorem HunkBody.ne_nil (h : HunkBody body diff) (hdiff : WellFormed diff) : body ≠ [] := by
  rintro rfl
  cases h
  obtain ⟨l, hl, -⟩ := hdiff.changes
  exact absurd hl List.not_mem_nil

/-- The first line of a hunk begins no block and moves nothing. -/
theorem Hunk.cons (h : Hunk n marked block hunk) : ∃ line tail, block = line :: tail ∧
    nextIsOperationHeader line = false ∧ startsWith line hunkMark = marked ∧ startsWith line moveToMark = false := by
  cases h with
  | @marked mark body diff hmark hbody hdiff =>
    exact ⟨mark, body, rfl, (mark_not_header hmark).1, hmark, (mark_not_header hmark).2⟩
  | @unmarked body diff hbody hdiff =>
    obtain ⟨line, tail, rfl⟩ := List.exists_cons_of_ne_nil (hbody.ne_nil hdiff)
    exact ⟨line, tail, rfl, hbody.head.1, hbody.head.2.1, hbody.head.2.2⟩

theorem parseHunk_marked (h : startsWith mark hunkMark = true) (lines : List Text) (n : ℕ) :
    parseHunk (mark :: lines) n = parseHunkLines lines >>= fun r =>
      checkHunk r.1 (n + 1) >>= fun hunk => .ok (hunk, r.2 + 1) := by
  simp only [parseHunk, h, if_true, List.drop_one, List.tail_cons]
  rfl

theorem parseHunk_unmarked (h : startsWith line hunkMark = false) (lines : List Text) (n : ℕ) :
    parseHunk (line :: lines) n = parseHunkLines (line :: lines) >>= fun r =>
      checkHunk r.1 (n + 1) >>= fun hunk => .ok (hunk, r.2) := by
  simp only [parseHunk, h]
  rfl

theorem Hunk.parse (h : Hunk n marked block hunk) (hrest : Stops rest) :
    parseHunk (block ++ rest) n = .ok (hunk, block.length) := by
  obtain ⟨line, tail, hblock, -, hmarked, -⟩ := h.cons
  cases h with
  | @marked mark body diff hmark hbody hdiff =>
    have hread := hbody.parse hrest
    have hcheck := (checkHunk_eq_ok (n := n + 1)).mpr ⟨hdiff, rfl⟩
    rw [List.cons_append, parseHunk_marked hmark, hread]
    simp only [bind, Except.bind, hcheck, List.length_cons]
  | @unmarked body diff hbody hdiff =>
    have hread := hbody.parse hrest
    have hcheck := (checkHunk_eq_ok (n := n + 1)).mpr ⟨hdiff, rfl⟩
    subst hblock
    rw [List.cons_append] at hread ⊢
    rw [parseHunk_unmarked hmarked, hread]
    simp only [bind, Except.bind, hcheck]

theorem hunk_of_parse (h : parseHunk (line :: lines) n = .ok (hunk, used)) :
    ∃ block rest, line :: lines = block ++ rest ∧ used = block.length ∧
      Hunk n (startsWith line hunkMark) block hunk ∧ Stops rest := by
  cases hmark : startsWith line hunkMark with
  | true =>
    rw [parseHunk_marked hmark] at h
    obtain ⟨⟨diff, k⟩, hread, h⟩ := bind_eq_ok.mp h
    obtain ⟨hunk', hcheck, hout⟩ := bind_eq_ok.mp h
    cases hout
    obtain ⟨body, rest, rfl, rfl, hbody, hrest⟩ := hunkBody_of_parse hread
    obtain ⟨hdiff, rfl⟩ := checkHunk_eq_ok.mp hcheck
    exact ⟨line :: body, rest, rfl, rfl, .marked hmark hbody hdiff, hrest⟩
  | false =>
    rw [parseHunk_unmarked hmark] at h
    obtain ⟨⟨diff, k⟩, hread, h⟩ := bind_eq_ok.mp h
    obtain ⟨hunk', hcheck, hout⟩ := bind_eq_ok.mp h
    cases hout
    obtain ⟨body, rest, hlines, rfl, hbody, hrest⟩ := hunkBody_of_parse hread
    obtain ⟨hdiff, rfl⟩ := checkHunk_eq_ok.mp hcheck
    exact ⟨body, rest, hlines, rfl, .unmarked hbody hdiff, hrest⟩

/-! ## The hunks of an update -/

theorem parseHunks_skip (skipped : List Text) (n : ℕ) (rest : List Text) :
    parseHunks skipped.length n (skipped ++ rest) =
      (parseHunks 0 (n + skipped.length) rest).map fun r => (r.1, r.2 + skipped.length) := by
  induction skipped generalizing n with
  | nil => cases h : parseHunks 0 n rest <;> simp [h, Except.map]
  | cons line skipped ih =>
    rw [List.length_cons, List.cons_append, parseHunks, ih, Nat.add_right_comm n 1, Nat.add_assoc n]
    cases parseHunks 0 (n + (skipped.length + 1)) rest <;> simp [Except.map, Nat.add_assoc]

theorem parseHunks_end (h : EndsBlock rest) (n : ℕ) : parseHunks 0 n rest = .ok ([], 0) := by
  cases rest with
  | nil => rfl
  | cons line rest => rw [parseHunks, if_pos (h line rfl)]

/-- One hunk is read, then the others from where it ends. -/
theorem parseHunks_block (h : Hunk n marked block hunk) (hread : parseHunk (block ++ rest) n = .ok (hunk, block.length)) :
    parseHunks 0 n (block ++ rest) =
      (parseHunks 0 (n + block.length) rest).map fun r => (hunk :: r.1, r.2 + block.length) := by
  obtain ⟨line, tail, rfl, hheader, -, -⟩ := h.cons
  rw [List.cons_append] at hread ⊢
  rw [parseHunks, if_neg (by simp [hheader]), hread]
  simp only [bind, Except.bind, List.length_cons, Nat.add_sub_cancel]
  rw [parseHunks_skip, Nat.add_right_comm n 1, Nat.add_assoc n]
  cases parseHunks 0 (n + (tail.length + 1)) rest <;> simp [Except.map, pure, Except.pure, Nat.add_assoc]

theorem Hunks.stops (h : Hunks false n body hunks) (hrest : EndsBlock rest) : Stops (body ++ rest) := by
  cases h with
  | nil => exact hrest.stops
  | @cons _ marked _ block rest' hunk hunks hhunk hfirst _ =>
    obtain ⟨line, tail, rfl, -, hmark, -⟩ := hhunk.cons
    obtain rfl : marked = true := hfirst.resolve_left Bool.false_ne_true
    exact stops_mark hmark _

theorem Hunks.parse (h : Hunks first n body hunks) (hrest : EndsBlock rest) :
    parseHunks 0 n (body ++ rest) = .ok (hunks, body.length) := by
  induction h with
  | nil => exact parseHunks_end hrest _
  | cons hhunk _ hothers ih =>
    have hread := hhunk.parse (hothers.stops hrest)
    rw [List.append_assoc, parseHunks_block hhunk hread, ih, List.length_append, Nat.add_comm]
    rfl

theorem hunks_of_parse (first : Bool) (h : parseHunks 0 n lines = .ok (hunks, used)) (hfirst : first = true ∨ Stops lines) :
    ∃ body rest, lines = body ++ rest ∧ used = body.length ∧ Hunks first n body hunks ∧ EndsBlock rest := by
  induction hlength : lines.length using Nat.strong_induction_on generalizing n lines hunks used first with
  | _ size ih =>
    cases lines with
    | nil =>
      cases h
      exact ⟨[], [], rfl, rfl, .nil, fun line hline => nomatch hline⟩
    | cons line lines =>
      cases hheader : nextIsOperationHeader line with
      | true =>
        have hends : EndsBlock (line :: lines) := fun line' hline => by rwa [← Option.some.inj hline]
        rw [parseHunks_end hends] at h
        cases h
        exact ⟨[], line :: lines, rfl, rfl, .nil, hends⟩
      | false =>
        have hstep := h
        rw [parseHunks, if_neg (by simp [hheader])] at hstep
        obtain ⟨⟨hunk, k⟩, hread, -⟩ := bind_eq_ok.mp hstep
        obtain ⟨block, rest, hsplit, rfl, hhunk, hstops⟩ := hunk_of_parse hread
        have hmarked : first = true ∨ startsWith line hunkMark = true :=
          hfirst.imp_right fun hlines => by simpa [hheader] using hlines line rfl
        rw [hsplit] at h hread hlength
        rw [parseHunks_block hhunk hread] at h
        obtain ⟨r, hr, hout⟩ := map_ok_iff.mp h
        cases hout
        obtain ⟨head, tail, rfl, -⟩ := hhunk.cons
        have hshorter : rest.length < size := by
          rw [← hlength, List.length_append, List.length_cons]
          omega
        obtain ⟨body, behind, rfl, hused, hothers, hends⟩ := ih _ hshorter false hr (.inr hstops) rfl
        refine ⟨(head :: tail) ++ body, behind, ?_, ?_, .cons hhunk hmarked hothers, hends⟩
        · rw [hsplit, List.append_assoc]
        · rw [List.length_append, hused, Nat.add_comm]

/-! ## Blocks -/

theorem addFile_header (path : Text) : nextIsOperationHeader (addFileMark ++ path) = true := by
  simp [nextIsOperationHeader, startsWith_append]

theorem deleteFile_header (path : Text) : nextIsOperationHeader (deleteFileMark ++ path) = true := by
  simp [nextIsOperationHeader, startsWith_append]

theorem updateFile_header (path : Text) : nextIsOperationHeader (updateFileMark ++ path) = true := by
  simp [nextIsOperationHeader, startsWith_append]

theorem endPatch_header : nextIsOperationHeader endPatch = true := by decide

theorem Block.header (h : Block n block operation) : ∃ line tail, block = line :: tail ∧ nextIsOperationHeader line = true := by
  cases h with
  | addFile path content => exact ⟨_, _, rfl, addFile_header path⟩
  | deleteFile path => exact ⟨_, _, rfl, deleteFile_header path⟩
  | updateFile path _ _ => exact ⟨_, _, rfl, updateFile_header path⟩
  | moveFile path target _ => exact ⟨_, _, rfl, updateFile_header path⟩

theorem parseAddLines_plus (content : List Text) (hrest : EndsBlock rest) :
    parseAddLines (content.map (0x2B :: ·) ++ rest) = .ok content := by
  induction content with
  | nil =>
    cases rest with
    | nil => rfl
    | cons line rest => rw [List.map_nil, List.nil_append, parseAddLines, if_pos (hrest line rfl)]
  | cons text content ih =>
    have hheader : nextIsOperationHeader (0x2B :: text) = false := rfl
    have hplus : startsWith (0x2B :: text) (txt "+") = true := rfl
    rw [List.map_cons, List.cons_append, parseAddLines, hheader, if_neg Bool.false_ne_true, if_pos hplus, ih]
    rfl

theorem content_of_parse {content : List Text} (h : parseAddLines lines = .ok content) :
    ∃ rest, lines = content.map (0x2B :: ·) ++ rest ∧ EndsBlock rest := by
  induction lines generalizing content with
  | nil =>
    cases h
    exact ⟨[], rfl, fun line hline => nomatch hline⟩
  | cons line lines ih =>
    rw [parseAddLines] at h
    split_ifs at h with hheader hplus
    · cases h
      refine ⟨line :: lines, rfl, fun line' hline => ?_⟩
      rwa [← Option.some.inj hline]
    · obtain ⟨content', hcontent, rfl⟩ := map_ok_iff.mp h
      obtain ⟨rest, rfl, hends⟩ := ih hcontent
      obtain ⟨text, rfl⟩ := startsWith_iff.mp hplus
      exact ⟨rest, rfl, hends⟩

theorem parseUpdateFile_move (path target : Text) (lines : List Text) (n : ℕ) :
    parseUpdateFile (updateFileMark ++ path) ((moveToMark ++ target) :: lines) n = parseHunks 0 (n + 2) lines >>= fun r =>
      .ok (.updateFile path (some target) r.1, 2 + r.2) := by
  simp only [parseUpdateFile, startsWith_append, drop_mark, if_true, Option.isSome_some, Option.isNone_some,
    Bool.and_false]
  rfl

theorem parseUpdateFile_plain (path : Text) (h : ∀ line ∈ lines.head?, startsWith line moveToMark = false) (n : ℕ) :
    parseUpdateFile (updateFileMark ++ path) lines n = parseHunks 0 (n + 1) lines >>= fun r =>
      if r.1.isEmpty then .error (.invalidPatch (txt "Update file patch has no changes: " ++ path))
      else .ok (.updateFile path none r.1, 1 + r.2) := by
  have hchecked : ∀ r : List UpdateHunk × ℕ, (do
      if (r.1.isEmpty && true) = true then throw (.invalidPatch (txt "Update file patch has no changes: " ++ path))
      pure (.updateFile path none r.1, 1 + r.2) : Except PatchError (PatchOperation × ℕ)) =
      if r.1.isEmpty then .error (.invalidPatch (txt "Update file patch has no changes: " ++ path))
      else .ok (.updateFile path none r.1, 1 + r.2) := by
    intro r
    cases r.1.isEmpty <;> rfl
  cases lines with
  | nil => simp only [parseUpdateFile, drop_mark, ← hchecked, Option.isSome_none, Option.isNone_none]; rfl
  | cons line lines =>
    simp only [parseUpdateFile, h line rfl, drop_mark, ← hchecked, Option.isSome_none, Option.isNone_none,
      Bool.false_eq_true, if_false]
    rfl

theorem parseOperations_skip (skipped : List Text) (n : ℕ) (rest : List Text) :
    parseOperations skipped.length n (skipped ++ rest) = parseOperations 0 (n + skipped.length) rest := by
  induction skipped generalizing n with
  | nil => rfl
  | cons line skipped ih =>
    rw [List.length_cons, List.cons_append, parseOperations, ih, Nat.add_right_comm n 1, Nat.add_assoc n]

theorem parseOperations_end (n : ℕ) (rest : List Text) : parseOperations 0 n (endPatch :: rest) = .ok [] := rfl

theorem parseOperations_addFile (n : ℕ) (path : Text) (rest : List Text) :
    parseOperations 0 n ((addFileMark ++ path) :: rest) = parseAddLines rest >>= fun content =>
      parseOperations content.length (n + 1) rest >>= fun operations => .ok (.addFile path content :: operations) := by
  have hread : parseAddFile (addFileMark ++ path) rest =
      parseAddLines rest >>= fun content => .ok (.addFile path content, content.length + 1) := rfl
  have hstep : parseOperations 0 n ((addFileMark ++ path) :: rest) = parseAddFile (addFileMark ++ path) rest >>= fun r =>
      parseOperations (r.2 - 1) (n + 1) rest >>= fun operations => .ok (r.1 :: operations) := rfl
  rw [hstep, hread]
  cases parseAddLines rest <;> rfl

theorem parseOperations_deleteFile (n : ℕ) (path : Text) (rest : List Text) :
    parseOperations 0 n ((deleteFileMark ++ path) :: rest) =
      parseOperations 0 (n + 1) rest >>= fun operations => .ok (.deleteFile path :: operations) := rfl

theorem parseOperations_updateFile (n : ℕ) (path : Text) (rest : List Text) :
    parseOperations 0 n ((updateFileMark ++ path) :: rest) = parseUpdateFile (updateFileMark ++ path) rest n >>= fun r =>
      parseOperations (r.2 - 1) (n + 1) rest >>= fun operations => .ok (r.1 :: operations) := rfl

/-- The lines of a block are read as its operation, and reading goes on behind them. -/
theorem Block.parse (h : Block n block operation) (hrest : EndsBlock rest) :
    parseOperations 0 n (block ++ rest) =
      parseOperations 0 (n + block.length) rest >>= fun operations => .ok (operation :: operations) := by
  have hskip : ∀ body : List Text, parseOperations body.length (n + 1) (body ++ rest) =
      parseOperations 0 (n + (body.length + 1)) rest := by
    intro body
    rw [parseOperations_skip, Nat.add_right_comm, Nat.add_assoc]
  cases h with
  | addFile path content =>
    have hbody := hskip (content.map (0x2B :: ·))
    rw [List.length_map] at hbody
    rw [List.cons_append, parseOperations_addFile, parseAddLines_plus content hrest]
    simp only [bind, Except.bind, hbody, List.length_cons, List.length_map]
  | deleteFile path => exact parseOperations_deleteFile n path rest
  | @updateFile path body hunks hhunks hne =>
    have hplain : ∀ line ∈ (body ++ rest).head?, startsWith line moveToMark = false := by
      intro line hline
      cases hhunks with
      | nil => exact absurd rfl hne
      | cons hhunk _ _ =>
        obtain ⟨first, tail, rfl, -, -, hmove⟩ := hhunk.cons
        rwa [← Option.some.inj hline]
    have hsome : hunks.isEmpty = false := by simpa using hne
    rw [List.cons_append, parseOperations_updateFile, parseUpdateFile_plain path hplain, hhunks.parse hrest]
    simp only [bind, Except.bind, hsome, Bool.false_eq_true, if_false, Nat.add_sub_cancel_left, hskip, List.length_cons]
  | @moveFile path target body hunks hhunks =>
    have hbody := hskip ((moveToMark ++ target) :: body)
    rw [List.length_cons, List.cons_append] at hbody
    rw [List.cons_append, List.cons_append, parseOperations_updateFile, parseUpdateFile_move, hhunks.parse hrest]
    have hused : 2 + body.length - 1 = body.length + 1 := by omega
    simp only [bind, Except.bind, hused, hbody, List.length_cons]

theorem Blocks.endsBlock (h : Blocks n body operations) (rest : List Text) : EndsBlock (body ++ endPatch :: rest) := by
  intro line hline
  cases h with
  | nil =>
    obtain rfl := Option.some.inj hline
    exact endPatch_header
  | cons hblock _ =>
    obtain ⟨first, tail, rfl, hheader⟩ := hblock.header
    rwa [← Option.some.inj hline]

theorem Blocks.parse (h : Blocks n body operations) (rest : List Text) :
    parseOperations 0 n (body ++ endPatch :: rest) = .ok operations := by
  induction h with
  | nil => rfl
  | cons hblock hothers ih =>
    rw [List.append_assoc, hblock.parse (hothers.endsBlock rest), ih]
    rfl

/-- The first operation stands for a block, and the others for what comes behind it. -/
theorem block_of_parse (h : parseOperations 0 n (line :: lines) = .ok operations) (hline : line ≠ endPatch) :
    ∃ block rest operation operations', line :: lines = block ++ rest ∧ Block n block operation ∧
      operations = operation :: operations' ∧ parseOperations 0 (n + block.length) rest = .ok operations' := by
  have hrun : ∀ {block rest operation}, line :: lines = block ++ rest → Block n block operation → EndsBlock rest →
      ∃ block rest operation operations', line :: lines = block ++ rest ∧ Block n block operation ∧
        operations = operation :: operations' ∧ parseOperations 0 (n + block.length) rest = .ok operations' := by
    intro block rest operation hsplit hblock hends
    rw [hsplit, hblock.parse hends] at h
    obtain ⟨operations', hrest, hout⟩ := bind_eq_ok.mp h
    exact ⟨block, rest, operation, operations', hsplit, hblock, (Except.ok.inj hout).symm, hrest⟩
  have hstep := h
  rw [parseOperations, if_neg hline] at hstep
  split_ifs at hstep with hadd hdelete hupdate
  · obtain ⟨path, rfl⟩ := startsWith_iff.mp hadd
    rw [parseOperations_addFile] at h
    obtain ⟨content, hcontent, -⟩ := bind_eq_ok.mp h
    obtain ⟨rest, rfl, hends⟩ := content_of_parse hcontent
    exact hrun rfl (.addFile path content) hends
  · obtain ⟨path, rfl⟩ := startsWith_iff.mp hdelete
    rw [parseOperations_deleteFile] at h
    obtain ⟨operations', hrest, hout⟩ := bind_eq_ok.mp h
    exact ⟨_, lines, _, operations', rfl, .deleteFile path, (Except.ok.inj hout).symm, hrest⟩
  · obtain ⟨path, rfl⟩ := startsWith_iff.mp hupdate
    rw [parseOperations_updateFile] at h
    obtain ⟨r, hread, -⟩ := bind_eq_ok.mp h
    by_cases hmove : ∃ target behind, lines = (moveToMark ++ target) :: behind
    · obtain ⟨target, behind, rfl⟩ := hmove
      rw [parseUpdateFile_move] at hread
      obtain ⟨⟨hunks, k⟩, hhunks, -⟩ := bind_eq_ok.mp hread
      obtain ⟨body, rest, rfl, -, hbody, hends⟩ := hunks_of_parse true hhunks (.inl rfl)
      exact hrun rfl (.moveFile path target hbody) hends
    · have hplain : ∀ line ∈ lines.head?, startsWith line moveToMark = false := by
        intro line hline
        rw [← Bool.not_eq_true, startsWith_iff]
        rintro ⟨target, rfl⟩
        exact hmove ⟨target, lines.tail, (List.cons_head?_tail hline).symm⟩
      rw [parseUpdateFile_plain path hplain] at hread
      obtain ⟨⟨hunks, k⟩, hhunks, hchecked⟩ := bind_eq_ok.mp hread
      obtain ⟨body, rest, rfl, -, hbody, hends⟩ := hunks_of_parse true hhunks (.inl rfl)
      have hsome : hunks ≠ [] := by
        rintro rfl
        cases hchecked
      exact hrun rfl (.updateFile path hbody hsome) hends

theorem blocks_of_parse (h : parseOperations 0 n lines = .ok operations) :
    ∃ body rest, lines = body ++ endPatch :: rest ∧ Blocks n body operations := by
  induction hlength : lines.length using Nat.strong_induction_on generalizing n lines operations with
  | _ size ih =>
    cases lines with
    | nil => cases h
    | cons line lines =>
      by_cases hend : line = endPatch
      · subst hend
        rw [parseOperations_end] at h
        cases h
        exact ⟨[], lines, rfl, .nil⟩
      · obtain ⟨block, rest, operation, operations', hsplit, hblock, rfl, hrest⟩ := block_of_parse h hend
        obtain ⟨header, tail, rfl, -⟩ := hblock.header
        have hshorter : rest.length < size := by
          rw [← hlength, hsplit, List.length_append, List.length_cons]
          omega
        obtain ⟨body, behind, rfl, hblocks⟩ := ih _ hshorter hrest rfl
        exact ⟨(header :: tail) ++ body, behind, by rw [hsplit, List.append_assoc], .cons hblock hblocks⟩

/-! ## Printing -/

theorem HunkBody.print (h : HunkBody body diff) : body.filter (fun line => !isMark line) = diff.map printLine := by
  induction h with
  | nil => rfl
  | endOfFile _ ih => exact ih
  | line l _ ih =>
    have hkept : isMark (printLine l) = false := by
      obtain ⟨kind, text⟩ := l
      cases kind <;> rfl
    rw [List.filter_cons_of_pos (by simp [hkept]), ih, List.map_cons]

theorem Hunk.print (h : Hunk n marked block hunk) : block.filter (fun line => !isMark line) = printHunk hunk := by
  cases h with
  | marked hmark hbody _ =>
    rw [List.filter_cons_of_neg (by simp [isMark, hmark]), hbody.print]
    rfl
  | unmarked hbody _ => exact hbody.print

theorem Hunks.print (h : Hunks first n body hunks) : body.filter (fun line => !isMark line) = hunks.flatMap printHunk := by
  induction h with
  | nil => rfl
  | cons hhunk _ _ ih => rw [List.filter_append, hhunk.print, ih, List.flatMap_cons]

theorem Block.print (h : Block n block operation) :
    block.filter (fun line => !isMark line) = printOperation operation := by
  cases h with
  | addFile path content =>
    have hcontent : ∀ line ∈ content.map (0x2B :: ·), (!isMark line) = true := by
      intro line hline
      obtain ⟨text, -, rfl⟩ := List.mem_map.mp hline
      rfl
    rw [List.filter_cons_of_pos (by rfl), List.filter_eq_self.mpr hcontent]
    rfl
  | deleteFile path => rfl
  | updateFile path hhunks _ =>
    rw [List.filter_cons_of_pos (by rfl), hhunks.print]
    rfl
  | moveFile path target hhunks =>
    rw [List.filter_cons_of_pos (by rfl), List.filter_cons_of_pos (by rfl), hhunks.print]
    rfl

theorem Blocks.print (h : Blocks n body operations) :
    body.filter (fun line => !isMark line) = printOperations operations := by
  induction h with
  | nil => rfl
  | cons hblock _ ih =>
    rw [List.filter_append, hblock.print, ih]
    rfl

/-! ## The first end marker -/

theorem ne_endPatch_of_not_header (h : nextIsOperationHeader line = false) : line ≠ endPatch := by
  rintro rfl
  exact absurd endPatch_header (Bool.not_eq_true _ ▸ h)

theorem ne_endPatch_of_startsWith (h : startsWith endPatch mark = false) (path : Text) : mark ++ path ≠ endPatch := by
  intro heq
  rw [← heq, startsWith_append] at h
  cases h

theorem HunkBody.no_end (h : HunkBody body diff) : ∀ line ∈ body, line ≠ endPatch := by
  induction h with
  | nil => exact fun line hline => absurd hline List.not_mem_nil
  | endOfFile _ ih => exact List.forall_mem_cons.mpr ⟨by decide, ih⟩
  | line l _ ih => exact List.forall_mem_cons.mpr ⟨ne_endPatch_of_not_header (printLine_not_header l), ih⟩

theorem Hunks.no_end (h : Hunks first n body hunks) : ∀ line ∈ body, line ≠ endPatch := by
  induction h with
  | nil => exact fun line hline => absurd hline List.not_mem_nil
  | cons hhunk _ _ ih =>
    refine List.forall_mem_append.mpr ⟨?_, ih⟩
    cases hhunk with
    | marked hmark hbody _ =>
      exact List.forall_mem_cons.mpr ⟨ne_endPatch_of_not_header (mark_not_header hmark).1, hbody.no_end⟩
    | unmarked hbody _ => exact hbody.no_end

theorem Block.no_end (h : Block n block operation) : ∀ line ∈ block, line ≠ endPatch := by
  cases h with
  | addFile path content =>
    refine List.forall_mem_cons.mpr ⟨ne_endPatch_of_startsWith (by decide) path, fun line hline => ?_⟩
    obtain ⟨text, -, rfl⟩ := List.mem_map.mp hline
    exact ne_endPatch_of_not_header rfl
  | deleteFile path =>
    exact List.forall_mem_singleton.mpr (ne_endPatch_of_startsWith (by decide) path)
  | updateFile path hhunks _ =>
    exact List.forall_mem_cons.mpr ⟨ne_endPatch_of_startsWith (by decide) path, hhunks.no_end⟩
  | moveFile path target hhunks =>
    exact List.forall_mem_cons.mpr ⟨ne_endPatch_of_startsWith (by decide) path,
      List.forall_mem_cons.mpr ⟨ne_endPatch_of_startsWith (by decide) target, hhunks.no_end⟩⟩

theorem Blocks.no_end (h : Blocks n body operations) : ∀ line ∈ body, line ≠ endPatch := by
  induction h with
  | nil => exact fun line hline => absurd hline List.not_mem_nil
  | cons hblock _ ih => exact List.forall_mem_append.mpr ⟨hblock.no_end, ih⟩

/-! ## The language -/

theorem parsePatch_eq_ok (patch : Text) (operations : List PatchOperation) : parsePatch patch = .ok operations ↔
    ∃ body rest, splitlines patch = beginPatch :: (body ++ endPatch :: rest) ∧ Blocks 1 body operations := by
  rw [parsePatch]
  constructor
  · intro h
    cases hlines : splitlines patch with
    | nil =>
      rw [hlines] at h
      cases h
    | cons first rest =>
      rw [hlines] at h
      dsimp only at h
      split_ifs at h with hfirst
      obtain ⟨body, behind, hsplit, hblocks⟩ := blocks_of_parse h
      exact ⟨body, behind, by rw [hfirst, hsplit], hblocks⟩
  · rintro ⟨body, rest, hlines, hblocks⟩
    rw [hlines]
    exact hblocks.parse rest

/-- The patches accepted are those of the grammar. The operations print back to the lines up to
the first end marker, less the lines that only mark hunks and ends of files. -/
theorem parsePatch_lossless (patch : Text) :
    (∀ operations, parsePatch patch = .ok operations ↔ ∃ body rest,
      splitlines patch = beginPatch :: (body ++ endPatch :: rest) ∧ Blocks 1 body operations) ∧
    ∀ operations, parsePatch patch = .ok operations →
      ((splitlines patch).takeWhile fun line => line ≠ endPatch).filter (fun line => !isMark line) =
        beginPatch :: printOperations operations := by
  refine ⟨parsePatch_eq_ok patch, fun operations h => ?_⟩
  obtain ⟨body, rest, hlines, hblocks⟩ := (parsePatch_eq_ok patch operations).mp h
  have hbefore : ((beginPatch :: body) ++ endPatch :: rest).takeWhile (fun line => line ≠ endPatch) = beginPatch :: body := by
    have hall : ∀ line ∈ beginPatch :: body, decide (line ≠ endPatch) = true :=
      List.forall_mem_cons.mpr ⟨by decide, fun line hline => decide_eq_true (hblocks.no_end line hline)⟩
    rw [List.takeWhile_append_of_pos hall, List.takeWhile_cons_of_neg (by simp), List.append_nil]
  rw [hlines, ← List.cons_append, hbefore, List.filter_cons_of_pos (by decide), hblocks.print]

/-- Content that looks like headers stays content. -/
def imitatingPatch : Text := patchText ["*** Begin Patch", "*** Add File: a", "+*** End Patch", "*** Update File: b",
  "*** Move to: c", "+@@", "-*** Delete File: a", "*** End of File", "@@ -1 +1 @@", " ", "+x", "*** End Patch", "ignored"]

theorem parsePatch_lossless_imitating :
    ((splitlines imitatingPatch).takeWhile fun line => line ≠ endPatch).filter (fun line => !isMark line) =
      beginPatch :: printOperations [.addFile (txt "a") [txt "*** End Patch"], .updateFile (txt "b") (some (txt "c"))
        [⟨[⟨.addition, txt "@@"⟩, ⟨.removal, txt "*** Delete File: a"⟩], 6⟩, ⟨[⟨.context, []⟩, ⟨.addition, txt "x"⟩], 9⟩]] :=
  (parsePatch_lossless imitatingPatch).2 _ (by decide +kernel)

end WebOauthMcp.PatchAcceptance
