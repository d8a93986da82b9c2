import WebOauthMcp.DiffPaging
import WebOauthMcp.GitOutput

/-!
# The sections of a diff

Git's unified format, one section a file: a header that names the file twice, lines about
modes, renames and contents, the two marker lines, and hunks. A hunk line may hold any text,
and the splitter of a diff reads it again, cut where `str.splitlines` cuts.
-/

namespace WebOauthMcp.DiffSections
open CodePoints LineSplitting Words DiffPaging GitOutput

/-! ## The format -/

inductive HunkLine
  | context (line : FileLine)
  | added (line : FileLine)
  | removed (line : FileLine)
  | noNewlineAtEnd

def HunkLine.print : HunkLine → Text
  | .context line => txt " " ++ line.text
  | .added line => txt "+" ++ line.text
  | .removed line => txt "-" ++ line.text
  | .noNewlineAtEnd => txt "\\ No newline at end of file"

def HunkLine.isOld : HunkLine → Bool
  | .context _ => true
  | .removed _ => true
  | _ => false

def HunkLine.isNew : HunkLine → Bool
  | .context _ => true
  | .added _ => true
  | _ => false

/-- Lines from a start on; a count of one is left out. -/
def rangeText (start count : ℕ) : Text := if count = 1 then decimal start else decimal start ++ txt "," ++ decimal count

/-- A hunk, with the line of the file that its header may repeat. -/
structure Hunk where
  oldStart : ℕ
  newStart : ℕ
  heading : Option FileLine
  lines : List HunkLine

def Hunk.header (h : Hunk) : Text :=
  txt "@@ -" ++ rangeText h.oldStart (h.lines.countP HunkLine.isOld) ++ txt " +" ++
    rangeText h.newStart (h.lines.countP HunkLine.isNew) ++ txt " @@" ++ (h.heading.map fun l => txt " " ++ l.text).getD []

def Hunk.print (h : Hunk) : List Text := h.header :: h.lines.map HunkLine.print

inductive ExtendedKey
  | oldMode | newMode | deletedFileMode | newFileMode | copyFrom | copyTo | renameFrom | renameTo
  | similarityIndex | dissimilarityIndex | index
  deriving DecidableEq

def ExtendedKey.text : ExtendedKey → Text
  | .oldMode => txt "old mode "
  | .newMode => txt "new mode "
  | .deletedFileMode => txt "deleted file mode "
  | .newFileMode => txt "new file mode "
  | .copyFrom => txt "copy from "
  | .copyTo => txt "copy to "
  | .renameFrom => txt "rename from "
  | .renameTo => txt "rename to "
  | .similarityIndex => txt "similarity index "
  | .dissimilarityIndex => txt "dissimilarity index "
  | .index => txt "index "

/-- An extended header; its value is a mode, a percentage, two hashes or a quoted name. -/
structure ExtendedHeader where
  key : ExtendedKey
  value : Text
  printable : Printable value

def ExtendedHeader.print (h : ExtendedHeader) : Text := h.key.text ++ h.value

inductive Change
  | modified
  | created
  | deleted
  deriving DecidableEq

/-- What follows the extended headers. -/
inductive Body
  | empty
  | binary
  | patch (hunks : List Hunk)

/-- What a diff says about one file. -/
structure Section where
  oldName : Text
  newName : Text
  change : Change
  extended : List ExtendedHeader
  body : Body
  named : newName ≠ []
  sameName : change ≠ .modified → oldName = newName

def devNull : Text := txt "/dev/null"

def Section.fromLabel (s : Section) : Text := if s.change = .created then devNull else quoted (txt "a/" ++ s.oldName)
def Section.toLabel (s : Section) : Text := if s.change = .deleted then devNull else quoted (txt "b/" ++ s.newName)

/-- A label with a space in it is ended by a tab. -/
def tabbed (label : Text) : Text := if space ∈ label then label ++ [tab] else label

def Section.header (s : Section) : Text :=
  diffFileHeader ++ quoted (txt "a/" ++ s.oldName) ++ txt " " ++ quoted (txt "b/" ++ s.newName)

/-- The lines behind the header and the extended headers, without hunks. -/
def Section.markers (s : Section) : List Text :=
  match s.body with
  | .empty => []
  | .binary => [txt "Binary files " ++ s.fromLabel ++ txt " and " ++ s.toLabel ++ txt " differ"]
  | .patch _ => [txt "--- " ++ tabbed s.fromLabel, txt "+++ " ++ tabbed s.toLabel]

def Section.hunkLines (s : Section) : List Text :=
  match s.body with
  | .patch hunks => hunks.flatMap Hunk.print
  | _ => []

def Section.lines (s : Section) : List Text :=
  s.header :: (s.extended.map ExtendedHeader.print ++ s.markers ++ s.hunkLines)

def Section.text (s : Section) : Text := printed s.lines

/-- A diff of several files. -/
def combined (sections : List Section) : Text := sections.flatMap Section.text

/-! ## Which sections are recognised -/

/-- The path that a `+++` line names. -/
def namedPath (line : Text) : Option Text :=
  if txt "+++ " <+: line then
    let marker := stripFeeds (line.drop 4)
    if txt "b/" <+: marker then some (marker.drop 2) else if marker = devNull then none else some marker
  else none

/-- A chunk is shown under its path. -/
def shownPath (path : Text) : Text := if path = [] then txt "(unknown)" else path

/-- The pieces of the hunk lines. -/
def Section.hunkPieces (s : Section) : List Text := s.hunkLines.flatMap pieces

/-- No space, nothing that is quoted. -/
def Plain (name : Text) : Prop := space ∉ name ∧ name.any needsQuoting = false

/-- No piece of a hunk line looks like a header; the last one that looks like a `+++` line with
a path names this section's path, and where there is none the path is plain. -/
structure Section.Recognised (s : Section) : Prop where
  noHeader : ∀ p ∈ s.hunkPieces, ¬diffFileHeader <+: p
  path : match (s.hunkPieces.filterMap namedPath).getLast? with
    | some named => shownPath named = s.newName
    | none => Plain s.newName

/-! ## The splitter on pieces -/

theorem markerPath_eq (currentPath line : Text) (h : txt "+++ " <+: line) :
    markerPath currentPath line = (namedPath line).getD currentPath := by
  rw [markerPath, namedPath, if_pos h]
  dsimp only
  split
  · rfl
  · split
    · next hnull =>
      have hdev : stripFeeds (line.drop 4) = devNull := hnull
      rw [if_pos hdev, Option.getD_none]
    · next hnull =>
      have hdev : ¬stripFeeds (line.drop 4) = devNull := hnull
      rw [if_neg hdev, Option.getD_some]

theorem add_clean {s : Splitting} {p : Text} (hp : ¬diffFileHeader <+: p) (hs : s.buffer ≠ []) :
    s.add p = { s with currentPath := (namedPath p).getD s.currentPath, buffer := s.buffer ++ [p] } := by
  rw [Splitting.add, if_neg hp]
  by_cases hmarker : txt "+++ " <+: p
  · rw [if_pos ⟨hmarker, hs⟩, markerPath_eq _ _ hmarker]
  · rw [if_neg fun h => hmarker h.1, namedPath, if_neg hmarker]
    rfl

theorem foldl_add_clean {ps : List Text} (hclean : ∀ p ∈ ps, ¬diffFileHeader <+: p) {s : Splitting} (hs : s.buffer ≠ []) :
    ps.foldl Splitting.add s =
      { s with currentPath := (ps.filterMap namedPath).getLastD s.currentPath, buffer := s.buffer ++ ps } := by
  induction ps generalizing s with
  | nil => simp
  | cons p ps ih =>
    rw [List.forall_mem_cons] at hclean
    rw [List.foldl_cons, add_clean hclean.1 hs, ih hclean.2 (by simp)]
    cases hnamed : namedPath p with
    | none => rw [List.filterMap_cons_none hnamed, Option.getD_none, List.append_assoc, List.singleton_append]
    | some path =>
      rw [List.filterMap_cons_some hnamed, Option.getD_some, List.getLastD_cons, List.append_assoc, List.singleton_append]

/-- A header and clean pieces end in one more file. -/
theorem foldl_add_section {h : Text} (hh : diffFileHeader <+: h) {ps : List Text} (hclean : ∀ p ∈ ps, ¬diffFileHeader <+: p)
    (s : Splitting) : ((h :: ps).foldl Splitting.add s).flush.chunks =
      s.flush.chunks ++ [(shownPath ((ps.filterMap namedPath).getLastD (headerPath h)), (h :: ps).flatten)] := by
  have hempty : s.flush.buffer = [] := s.flush_text.2
  rw [List.foldl_cons, Splitting.add, if_pos hh, hempty, foldl_add_clean hclean (by simp)]
  simp [Splitting.flush, shownPath]

theorem length_foldl_add (ps : List Text) {s : Splitting} (hs : s.buffer ≠ []) :
    (ps.foldl Splitting.add s).flush.chunks.length =
      s.flush.chunks.length + ps.countP fun p => decide (diffFileHeader <+: p) := by
  induction ps generalizing s with
  | nil => simp
  | cons p ps ih =>
    rw [List.foldl_cons, List.countP_cons]
    by_cases hp : diffFileHeader <+: p
    · have hbuffer : (s.add p).buffer ≠ [] := by simp [Splitting.add, hp]
      have hchunks : (s.add p).flush.chunks.length = s.flush.chunks.length + 1 := by simp [Splitting.add, hp, Splitting.flush]
      rw [ih hbuffer, hchunks, if_pos (decide_eq_true hp)]
      omega
    · have hbuffer : (s.add p).buffer ≠ [] := by simp [add_clean hp hs]
      have hchunks : (s.add p).flush.chunks.length = s.flush.chunks.length := by simp [add_clean hp hs, Splitting.flush, hs]
      rw [ih hbuffer, hchunks, if_neg (by simpa using hp), Nat.add_zero]

/-! ## Names in front lines -/

theorem stripFeeds_feed {t : Text} (h : lineFeed ∉ t) : stripFeeds (t ++ [lineFeed]) = t := by
  rw [stripFeeds, List.rdropWhile_concat_pos _ _ _ (by simp), List.rdropWhile_eq_self_iff]
  intro ht hlast
  refine h ?_
  rw [← of_decide_eq_true hlast]
  exact List.getLast_mem ht

/-- Quoting adds no space. -/
theorem space_notMem_quoted {t : Text} (h : space ∉ t) : space ∉ quoted t := by
  have hescape : ∀ b : Byte, b.val ≠ 0x20 → space ∉ escapeByte b := by decide +kernel
  cases hany : t.any needsQuoting with
  | false => rwa [quoted, quotedIf_plain hany]
  | true =>
    rw [quoted, quotedIf_unusual hany]
    intro hmem
    have hquote : ¬space = quotationMark := by decide
    simp only [List.mem_cons, List.mem_append, hquote, false_or, List.not_mem_nil, or_false] at hmem
    obtain ⟨b, hb, hspace⟩ := List.mem_flatMap.mp hmem
    obtain ⟨c, hc, hb⟩ := List.mem_flatMap.mp hb
    by_cases hval : b.val = 0x20
    · have hsame := mem_utf8Bytes_of_lt c b (by omega) hb
      refine h ?_
      have hcspace : c = space := Fin.ext (hsame.symm.trans hval)
      rwa [← hcspace]
    · exact hescape b hval hspace

/-- The last token has no space. -/
theorem space_notMem_lastToken (t : Text) : space ∉ (t.splitOn space).getLastD [] := by
  intro hmem
  have htoken : (t.splitOn space).getLastD [] ∈ t.splitOn space := by
    rw [List.getLastD_eq_getLast?, List.getLast?_eq_some_getLast (List.splitOn_ne_nil space t)]
    exact List.getLast_mem _
  rw [List.splitOn_eq_splitOnP] at htoken
  have hfree := splitOnP_noSep _ t _ htoken space hmem
  simp at hfree

theorem lastToken_append {t u : Text} (hu : space ∉ u) : ((t ++ space :: u).splitOn space).getLastD [] = u := by
  rw [List.splitOn_append_cons_self, List.splitOn_eq_singleton hu]
  simp

def bSlash : Text := txt "b/"

/-- What a header or a marker makes of a label. -/
def unlabelled (label : Text) : Text := if bSlash <+: label then label.drop 2 else label

/-- A label names its file when nothing is quoted and nothing follows. -/
theorem shown_unlabelled_iff {name : Text} (hname : name ≠ []) (rest : Text) :
    shownPath (unlabelled (quoted (bSlash ++ name) ++ rest)) = name ↔ name.any needsQuoting = false ∧ rest = [] := by
  have hany : (bSlash ++ name).any needsQuoting = name.any needsQuoting := by
    rw [List.any_append]
    exact Bool.false_or _
  cases hcase : name.any needsQuoting with
  | false =>
    have hpath : unlabelled (bSlash ++ name ++ rest) = name ++ rest := by
      rw [unlabelled, List.append_assoc, if_pos (List.prefix_append _ _)]
      rfl
    rw [quoted, quotedIf_plain (hany.trans hcase), hpath, shownPath, if_neg (by simp [hname])]
    simp
  | true =>
    have hlonger := length_quotedIf (hany.trans hcase)
    have hpath : unlabelled (quoted (bSlash ++ name) ++ rest) = quoted (bSlash ++ name) ++ rest := by
      rw [unlabelled, quoted, quotedIf_unusual (hany.trans hcase), List.cons_append, if_neg]
      intro hprefix
      exact absurd (List.cons_prefix_cons.mp hprefix).1 (by decide)
    rw [← quoted, List.length_append] at hlonger
    have hsome : quoted (bSlash ++ name) ++ rest ≠ [] := by
      intro hnil
      rw [(List.append_eq_nil_iff.mp hnil).1] at hlonger
      exact absurd hlonger (by simp)
    rw [hpath, shownPath, if_neg hsome]
    refine iff_of_false (fun hsame => ?_) (by simp)
    have hlength := congrArg List.length hsame
    rw [List.length_append] at hlength
    omega

theorem headerPath_eq (s : Section) :
    headerPath (s.header ++ [lineFeed]) =
      unlabelled (((quoted (txt "a/" ++ s.oldName) ++ space :: quoted (bSlash ++ s.newName)).splitOn space).getLastD []) := by
  have hfeed : lineFeed ∉ quoted (txt "a/" ++ s.oldName) ++ space :: quoted (bSlash ++ s.newName) := by
    have hblank : Printable [space] := printable_of_all (by decide)
    have hprintable := (quoted_printable (txt "a/" ++ s.oldName)).append (hblank.append (quoted_printable (bSlash ++ s.newName)))
    exact hprintable.notMem_feed
  have hdrop : (s.header ++ [lineFeed]).drop diffFileHeader.length =
      quoted (txt "a/" ++ s.oldName) ++ space :: quoted (bSlash ++ s.newName) ++ [lineFeed] := by
    have hblank : txt " " = [space] := by decide
    rw [Section.header, hblank, List.append_assoc, List.append_assoc, List.append_assoc, List.drop_left]
    simp [bSlash]
  rw [headerPath, hdrop, stripFeeds_feed hfeed]
  rfl

theorem shown_headerPath_iff (s : Section) : shownPath (headerPath (s.header ++ [lineFeed])) = s.newName ↔ Plain s.newName := by
  rw [headerPath_eq, Plain]
  by_cases hspace : space ∈ s.newName
  · refine iff_of_false (fun hshown => ?_) (fun h => h.1 hspace)
    have hfree := space_notMem_lastToken (quoted (txt "a/" ++ s.oldName) ++ space :: quoted (bSlash ++ s.newName))
    rw [← hshown, shownPath] at hspace
    split at hspace
    · revert hspace
      decide
    · rw [unlabelled] at hspace
      split at hspace
      · exact hfree (List.mem_of_mem_drop hspace)
      · exact hfree hspace
  · have hlabel : space ∉ bSlash ++ s.newName := by
      intro hmem
      cases List.mem_append.mp hmem with
      | inl hmem => exact absurd hmem (by decide)
      | inr hmem => exact hspace hmem
    have hiff := shown_unlabelled_iff s.named []
    rw [List.append_nil] at hiff
    rw [lastToken_append (space_notMem_quoted hlabel), hiff]
    simp [hspace]

theorem namedPath_marker (name rest : Text) (hrest : lineFeed ∉ rest) :
    namedPath (txt "+++ " ++ (quoted (bSlash ++ name) ++ rest) ++ [lineFeed]) = some (unlabelled (quoted (bSlash ++ name) ++ rest)) := by
  have hfeed : lineFeed ∉ quoted (bSlash ++ name) ++ rest := by
    intro hmem
    cases List.mem_append.mp hmem with
    | inl hmem => exact (quoted_printable _).notMem_feed hmem
    | inr hmem => exact hrest hmem
  have hdrop : (txt "+++ " ++ (quoted (bSlash ++ name) ++ rest) ++ [lineFeed]).drop 4 = quoted (bSlash ++ name) ++ rest ++ [lineFeed] := by
    rw [List.append_assoc]
    rfl
  have hdev : ¬quoted (bSlash ++ name) ++ rest = devNull := by
    intro hsame
    have hhead := congrArg List.head? hsame
    cases hany : (bSlash ++ name).any needsQuoting with
    | false =>
      rw [quoted, quotedIf_plain hany] at hhead
      have hletter : bSlash.head? = devNull.head? := hhead
      exact absurd hletter (by decide)
    | true =>
      rw [quoted, quotedIf_unusual hany] at hhead
      have hletter : some quotationMark = devNull.head? := hhead
      exact absurd hletter (by decide)
  rw [namedPath, if_pos (by rw [List.append_assoc]; exact List.prefix_append _ _), hdrop, stripFeeds_feed hfeed]
  dsimp only
  rw [if_neg hdev, unlabelled, bSlash]
  split
  · rfl
  · rfl

/-! ## The front of a section -/

/-- A prefix of neither is no prefix of a longer text. -/
theorem not_prefix_append {p q : Text} (hpq : ¬p <+: q) (hqp : ¬q <+: p) (t : Text) : ¬p <+: q ++ t := by
  intro h
  cases List.prefix_or_prefix_of_prefix h (List.prefix_append q t) with
  | inl h => exact hpq h
  | inr h => exact hqp h

def Section.front (s : Section) : List Text := s.extended.map ExtendedHeader.print ++ s.markers

/-- The pieces behind the header. -/
def Section.rest (s : Section) : List Text := s.front.map (· ++ [lineFeed]) ++ s.hunkPieces

theorem Section.toLabel_printable (s : Section) : Printable s.toLabel := by
  rw [toLabel]
  split
  · exact printable_of_all (by decide)
  · exact quoted_printable _

theorem Section.fromLabel_printable (s : Section) : Printable s.fromLabel := by
  rw [fromLabel]
  split
  · exact printable_of_all (by decide)
  · exact quoted_printable _

theorem tabbed_unbroken {label : Text} (h : Printable label) : Unbroken (tabbed label) := by
  rw [tabbed]
  split
  · have htab : Unbroken [tab] := by
      intro c hc
      obtain rfl := List.mem_singleton.mp hc
      decide
    exact h.unbroken.append htab
  · exact h.unbroken

theorem Section.header_unbroken (s : Section) : Unbroken s.header := by
  have hfixed : Printable diffFileHeader := printable_of_all (by decide)
  have hblank : Printable (txt " ") := printable_of_all (by decide)
  exact (((hfixed.append (quoted_printable _)).append hblank).append (quoted_printable _)).unbroken

theorem Section.front_unbroken (s : Section) : ∀ l ∈ s.front, Unbroken l := by
  intro l hl
  cases List.mem_append.mp hl with
  | inl hl =>
    obtain ⟨e, -, rfl⟩ := List.mem_map.mp hl
    have hkey : Printable e.key.text := by
      cases e.key
      all_goals exact printable_of_all (by decide)
    exact (hkey.append e.printable).unbroken
  | inr hl =>
    rw [markers] at hl
    split at hl
    · simp at hl
    · obtain rfl := List.mem_singleton.mp hl
      have hfiles : Printable (txt "Binary files ") := printable_of_all (by decide)
      have hand : Printable (txt " and ") := printable_of_all (by decide)
      have hdiffer : Printable (txt " differ") := printable_of_all (by decide)
      exact ((((hfiles.append s.fromLabel_printable).append hand).append s.toLabel_printable).append hdiffer).unbroken
    · have hminus : Printable (txt "--- ") := printable_of_all (by decide)
      have hplus : Printable (txt "+++ ") := printable_of_all (by decide)
      rcases List.mem_cons.mp hl with rfl | hl
      · exact hminus.unbroken.append (tabbed_unbroken s.fromLabel_printable)
      · obtain rfl := List.mem_singleton.mp hl
        exact hplus.unbroken.append (tabbed_unbroken s.toLabel_printable)

theorem Section.pieces_lines (s : Section) : s.lines.flatMap pieces = (s.header ++ [lineFeed]) :: s.rest := by
  have hfront : s.front.flatMap pieces = s.front.map (· ++ [lineFeed]) := by
    rw [List.map_eq_flatMap]
    exact List.flatMap_congr fun l hl => pieces_unbroken (s.front_unbroken l hl)
  rw [lines, List.flatMap_cons, pieces_unbroken s.header_unbroken, List.flatMap_append, ← front, hfront, rest, hunkPieces]
  rfl

theorem Section.front_clean (s : Section) : ∀ l ∈ s.front, ∀ t, ¬diffFileHeader <+: l ++ t := by
  intro l hl t
  cases List.mem_append.mp hl with
  | inl hl =>
    obtain ⟨e, -, rfl⟩ := List.mem_map.mp hl
    rw [ExtendedHeader.print, List.append_assoc]
    cases e.key
    all_goals exact not_prefix_append (by decide) (by decide) _
  | inr hl =>
    rw [markers] at hl
    split at hl
    · simp at hl
    · obtain rfl := List.mem_singleton.mp hl
      simp only [List.append_assoc]
      exact not_prefix_append (by decide) (by decide) _
    · rcases List.mem_cons.mp hl with rfl | hl
      · rw [List.append_assoc]
        exact not_prefix_append (by decide) (by decide) _
      · obtain rfl := List.mem_singleton.mp hl
        rw [List.append_assoc]
        exact not_prefix_append (by decide) (by decide) _

theorem namedPath_other {q t : Text} (hpq : ¬txt "+++ " <+: q) (hqp : ¬q <+: txt "+++ ") : namedPath (q ++ t) = none := by
  rw [namedPath, if_neg (not_prefix_append hpq hqp t)]

theorem filterMap_extended (s : Section) : ((s.extended.map ExtendedHeader.print).map (· ++ [lineFeed])).filterMap namedPath = [] := by
  rw [List.filterMap_eq_nil_iff]
  intro l hl
  obtain ⟨m, hm, rfl⟩ := List.mem_map.mp hl
  obtain ⟨e, -, rfl⟩ := List.mem_map.mp hm
  rw [ExtendedHeader.print, List.append_assoc]
  cases e.key
  all_goals exact namedPath_other (by decide) (by decide)

/-- Without a hunk that says otherwise, exactly a plain name is found. -/
theorem shown_front_iff (s : Section) :
    shownPath (((s.front.map (· ++ [lineFeed])).filterMap namedPath).getLastD (headerPath (s.header ++ [lineFeed]))) = s.newName ↔
      Plain s.newName := by
  have hheader := shown_headerPath_iff s
  rw [Section.front, List.map_append, List.filterMap_append, filterMap_extended, List.nil_append, Section.markers]
  split
  · exact hheader
  · have hbinary : namedPath (txt "Binary files " ++ (s.fromLabel ++ (txt " and " ++ (s.toLabel ++ (txt " differ" ++ [lineFeed]))))) = none :=
      namedPath_other (by decide) (by decide)
    simp only [List.map_cons, List.map_nil, List.append_assoc, List.filterMap_cons_none hbinary, List.filterMap_nil]
    exact hheader
  · have hold : namedPath (txt "--- " ++ tabbed s.fromLabel ++ [lineFeed]) = none := by
      rw [List.append_assoc]
      exact namedPath_other (by decide) (by decide)
    rw [List.map_cons, List.map_cons, List.map_nil, List.filterMap_cons_none hold, Section.toLabel]
    split
    · have hnone : namedPath (txt "+++ " ++ tabbed devNull ++ [lineFeed]) = none := by decide
      rw [List.filterMap_cons_none hnone]
      exact hheader
    · have htab : tabbed (quoted (txt "b/" ++ s.newName)) =
          quoted (bSlash ++ s.newName) ++ if space ∈ quoted (bSlash ++ s.newName) then [tab] else [] := by
        rw [tabbed, bSlash]
        split
        · rfl
        · exact (List.append_nil _).symm
      have hrest : lineFeed ∉ if space ∈ quoted (bSlash ++ s.newName) then [tab] else [] := by
        split
        · decide
        · exact List.not_mem_nil
      rw [htab, List.filterMap_cons_some (namedPath_marker s.newName _ hrest), List.filterMap_nil]
      refine (shown_unlabelled_iff s.named _).trans ?_
      rw [Plain, and_comm]
      refine and_congr_left fun hplain => ?_
      have hlabel : quoted (bSlash ++ s.newName) = bSlash ++ s.newName := by
        refine quotedIf_plain ?_
        rw [List.any_append, hplain]
        decide
      have hslash : space ∉ bSlash := by decide
      rw [hlabel]
      simp [hslash]

/-! ## The splitter on sections -/

theorem shown_rest_iff (s : Section) :
    shownPath ((s.rest.filterMap namedPath).getLastD (headerPath (s.header ++ [lineFeed]))) = s.newName ↔
      match (s.hunkPieces.filterMap namedPath).getLast? with
      | some named => shownPath named = s.newName
      | none => Plain s.newName := by
  rw [Section.rest, List.filterMap_append]
  cases hlast : (s.hunkPieces.filterMap namedPath).getLast? with
  | none =>
    rw [List.getLast?_eq_none_iff] at hlast
    rw [hlast, List.append_nil]
    exact shown_front_iff s
  | some named =>
    rw [List.getLastD_eq_getLast?, List.getLast?_append, hlast]
    rfl

def Section.headerLike (s : Section) : ℕ := s.rest.countP fun p => decide (diffFileHeader <+: p)

theorem Section.headerLike_eq_zero (s : Section) : s.headerLike = 0 ↔ ∀ p ∈ s.rest, ¬diffFileHeader <+: p := by
  simp [headerLike, List.countP_eq_zero]

theorem length_foldl_sections (sections : List Section) (s : Splitting) :
    ((sections.flatMap fun x => (x.header ++ [lineFeed]) :: x.rest).foldl Splitting.add s).flush.chunks.length =
      s.flush.chunks.length + (sections.length + (sections.map Section.headerLike).sum) := by
  induction sections generalizing s with
  | nil => simp
  | cons x sections ih =>
    have hh : diffFileHeader <+: x.header ++ [lineFeed] := by
      simp only [Section.header, List.append_assoc]
      exact List.prefix_append _ _
    have hbuffer : (s.add (x.header ++ [lineFeed])).buffer ≠ [] := by simp [Splitting.add, hh]
    have hone : (s.add (x.header ++ [lineFeed])).flush.chunks.length = s.flush.chunks.length + 1 := by
      simp [Splitting.add, hh, Splitting.flush]
    rw [List.flatMap_cons, List.foldl_append, ih, List.foldl_cons, length_foldl_add x.rest hbuffer, hone, List.map_cons,
      List.sum_cons, List.length_cons, Section.headerLike]
    omega

theorem flatten_rest (s : Section) : ((s.header ++ [lineFeed]) :: s.rest).flatten = s.text := by
  have hjoin : (splitlinesKeepends s.text).flatten = s.text := flatMap_linesOf id s.text
  rwa [Section.text, splitlinesKeepends_printed, s.pieces_lines] at hjoin

theorem foldl_sections {sections : List Section} (hclean : ∀ x ∈ sections, ∀ p ∈ x.rest, ¬diffFileHeader <+: p) (s : Splitting) :
    ((sections.flatMap fun x => (x.header ++ [lineFeed]) :: x.rest).foldl Splitting.add s).flush.chunks =
      s.flush.chunks ++ sections.map fun x =>
        (shownPath ((x.rest.filterMap namedPath).getLastD (headerPath (x.header ++ [lineFeed]))), x.text) := by
  induction sections generalizing s with
  | nil => simp
  | cons x sections ih =>
    rw [List.forall_mem_cons] at hclean
    have hh : diffFileHeader <+: x.header ++ [lineFeed] := by
      simp only [Section.header, List.append_assoc]
      exact List.prefix_append _ _
    rw [List.flatMap_cons, List.foldl_append, ih hclean.2, foldl_add_section hh hclean.1, flatten_rest, List.map_cons,
      List.append_assoc]
    rfl

theorem splitDiffByFile_combined (sections : List Section) : splitDiffByFile (combined sections) =
    ((sections.flatMap fun x => (x.header ++ [lineFeed]) :: x.rest).foldl Splitting.add {}).flush.chunks := by
  have hlines : combined sections = printed (sections.flatMap Section.lines) := by
    rw [combined, printed, List.flatMap_assoc]
    rfl
  have hpieces : (sections.flatMap Section.lines).flatMap pieces = sections.flatMap fun x => (x.header ++ [lineFeed]) :: x.rest := by
    rw [List.flatMap_assoc]
    exact List.flatMap_congr fun x _ => x.pieces_lines
  rw [splitDiffByFile, hlines, splitlinesKeepends_printed, hpieces]

theorem Section.rest_clean_iff (s : Section) : (∀ p ∈ s.rest, ¬diffFileHeader <+: p) ↔ ∀ p ∈ s.hunkPieces, ¬diffFileHeader <+: p := by
  rw [rest, List.forall_mem_append]
  refine and_iff_right ?_
  intro p hp
  obtain ⟨l, hl, rfl⟩ := List.mem_map.mp hp
  exact s.front_clean l hl _

/-- The sections are told apart and named exactly when all of them are recognised. -/
theorem splitDiffByFile_iff (sections : List Section) :
    splitDiffByFile (combined sections) = sections.map (fun s => (s.newName, s.text)) ↔ ∀ s ∈ sections, s.Recognised := by
  rw [splitDiffByFile_combined]
  constructor
  · intro hsame s hs
    have hlength := congrArg List.length hsame
    rw [length_foldl_sections, List.length_map] at hlength
    have hnil : ({} : Splitting).flush.chunks = [] := rfl
    rw [hnil, List.length_nil] at hlength
    have hzero : (sections.map Section.headerLike).sum = 0 := by omega
    have hclean : ∀ x ∈ sections, ∀ p ∈ x.rest, ¬diffFileHeader <+: p := by
      intro x hx
      exact x.headerLike_eq_zero.mp (List.sum_eq_zero_iff_forall_eq_nat.mp hzero _ (List.mem_map_of_mem hx))
    rw [foldl_sections hclean, hnil, List.nil_append, List.map_inj_left] at hsame
    exact ⟨s.rest_clean_iff.mp (hclean s hs), (shown_rest_iff s).mp (congrArg Prod.fst (hsame s hs))⟩
  · intro hall
    have hclean : ∀ x ∈ sections, ∀ p ∈ x.rest, ¬diffFileHeader <+: p := fun x hx => x.rest_clean_iff.mpr (hall x hx).noHeader
    rw [foldl_sections hclean]
    refine List.map_congr_left fun s hs => ?_
    rw [(shown_rest_iff s).mpr (hall s hs).path]

/-- A file with one line added. -/
def lineAdded (name : Text) (named : name ≠ []) (line : FileLine) : Section where
  oldName := name
  newName := name
  change := .modified
  extended := []
  body := .patch [⟨1, 1, none, [.added line]⟩]
  named := named
  sameName _ := rfl

/-- A line that imitates a marker, a name with a space, a header behind a form feed. -/
theorem imitated_headers :
    (splitDiffByFile (combined [lineAdded (txt "a.md") (by decide) ⟨txt "++ x", by decide⟩])).map Prod.fst = [txt "x"] ∧
      (splitDiffByFile (combined [lineAdded (txt "foo bar") (by decide) ⟨txt "y", by decide⟩])).map Prod.fst = [txt "foo bar\t"] ∧
      (splitDiffByFile (combined [lineAdded (txt "a.md") (by decide) ⟨0x0C :: txt "diff --git y", by decide⟩])).map Prod.fst =
        [txt "a.md", txt "y"] ∧
      ¬∀ sections, (splitDiffByFile (combined sections)).map Prod.fst = sections.map Section.newName := by
  have hmarker : (splitDiffByFile (combined [lineAdded (txt "a.md") (by decide) ⟨txt "++ x", by decide⟩])).map Prod.fst = [txt "x"] := by
    decide +kernel
  refine ⟨hmarker, by decide +kernel, by decide +kernel, fun hall => ?_⟩
  have hname := hmarker.symm.trans (hall _)
  exact absurd hname (by decide)

end WebOauthMcp.DiffSections
