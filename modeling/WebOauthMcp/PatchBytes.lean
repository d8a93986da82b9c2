import WebOauthMcp.PatchSequencing

/-!
# The octets an update leaves

An update decodes a file, edits its lines and writes them back joined by `\n`. The lines
of the octets themselves say what a lossless edit would write: the same splices, every
kept line with the octets and the ending it had. The two agree exactly when every line
left is valid UTF-8 and ended as the join ends it.
-/

namespace WebOauthMcp.PatchBytes
open CodePoints Utf8Units LineSplitting FileTree PatchGrammar PatchPlanning PatchExecution
open PatchSequencing ExceptSteps

/-- A line of a file with the octets of its content and its ending. -/
abbrev RawLine := Line Utf8Unit

def rawLines (raw : Bytes) : List RawLine := linesOf Utf8Unit.text (decodeUnits raw)

def lineText (l : RawLine) : Text := l.content.map Utf8Unit.text

def newline : Utf8Unit := .ofChar lineFeed

/-- The line that a `+` line of a hunk adds. -/
def insertedLine (t : Text) : RawLine := ⟨t.map .ofChar, [newline]⟩

/-- The lines a hunk matched, with its `-` lines taken out and its `+` lines put in. -/
def splice : List DiffLine → List RawLine → List RawLine
  | [], _ => []
  | ⟨.addition, text⟩ :: ds, ls => insertedLine text :: splice ds ls
  | ⟨.removal, _⟩ :: ds, ls => splice ds ls.tail
  | ⟨.context, _⟩ :: ds, l :: ls => l :: splice ds ls
  | ⟨.context, _⟩ :: ds, [] => splice ds []

/-- One hunk on the lines of the file, where its old lines match exactly once. -/
def spliceHunk (lines : List RawLine) (hunk : UpdateHunk) : Option (List RawLine) :=
  match findSequenceMatches (lines.map lineText) (oldLines hunk) with
  | [i] => some (lines.take i ++ splice hunk.lines ((lines.drop i).take (oldLines hunk).length) ++
      lines.drop (i + (oldLines hunk).length))
  | _ => none

def spliceHunks (lines : List RawLine) : List UpdateHunk → Option (List RawLine)
  | [] => some lines
  | hunk :: hunks => (spliceHunk lines hunk).bind fun lines => spliceHunks lines hunks

/-- The file has lines and the last of them is ended. -/
def isEnded (raw : Bytes) : Bool := (rawLines raw).getLast?.any fun l => !l.ending.isEmpty

/-- Only the last line of a file can be unended, and it stays so: a line that something
now follows gets an ending, and the last line of an unended file loses its own. -/
def settle (ended : Bool) : List RawLine → List RawLine
  | [] => []
  | [l] => [⟨l.content, if ended then (if l.ending.isEmpty then [newline] else l.ending) else []⟩]
  | l :: ls => ⟨l.content, if l.ending.isEmpty then [newline] else l.ending⟩ :: settle ended ls

/-- The units of a list of lines in a row. -/
def unitsOf (lines : List RawLine) : List Utf8Unit := lines.flatMap Line.items

/-- The octets of the file with only the lines of the hunks removed and inserted. -/
def expectedBytes (raw : Bytes) (lines : List RawLine) : Bytes := rawOf (unitsOf (settle (isEnded raw) lines))

/-- The join writes these lines as they are: valid UTF-8, ended by `\\n` where it puts one. -/
def Joinable (ended trailingNewline : Bool) : List RawLine → Prop
  | [] => True
  | [l] => (∀ u ∈ l.content, u.WellFormed) ∧
      (ended = true → trailingNewline = true ∧ (l.ending = [] ∨ l.ending = [newline]))
  | l :: ls => (∀ u ∈ l.content, u.WellFormed) ∧ (l.ending = [] ∨ l.ending = [newline]) ∧
      Joinable ended trailingNewline ls

/-! ## The splices on text and on octets -/

theorem splitlines_decodeReplace (raw : Bytes) : splitlines (decodeReplace raw) = (rawLines raw).map lineText := by
  unfold splitlines decodeReplace rawLines lineText
  rw [linesOf_map]
  simp [Line.map, Function.comp_def]

private theorem lineText_insertedLine (t : Text) : lineText (insertedLine t) = t := by
  simp [lineText, insertedLine, Function.comp_def, Utf8Unit.text, Utf8Unit.ofChar]

/-- Old and new lines of a hunk body. -/
private def oldOf (ds : List DiffLine) : List Text := (ds.filter fun l => l.kind ≠ .addition).map DiffLine.text
private def newOf (ds : List DiffLine) : List Text := (ds.filter fun l => l.kind ≠ .removal).map DiffLine.text

private theorem splice_text (ds : List DiffLine) (ls : List RawLine) (h : ls.map lineText = oldOf ds) :
    (splice ds ls).map lineText = newOf ds := by
  induction ds generalizing ls with
  | nil => rfl
  | cons d ds ih =>
    obtain ⟨kind, text⟩ := d
    cases kind with
    | addition =>
      have hrest := ih ls (by simpa [oldOf] using h)
      simp [splice, newOf, lineText_insertedLine] at hrest ⊢
      exact hrest
    | removal =>
      cases ls with
      | nil => simp [oldOf] at h
      | cons l ls =>
        have hrest := ih ls (by simpa [oldOf] using (List.cons.inj h).2)
        simpa [splice, newOf] using hrest
    | context =>
      cases ls with
      | nil => simp [oldOf] at h
      | cons l ls =>
        have hcons : lineText l = text ∧ ls.map lineText = oldOf ds := by simpa [oldOf] using h
        have hrest := ih ls hcons.2
        simp only [splice, List.map_cons, hrest, hcons.1]
        simp [newOf]

theorem applyHunk_map (lines : List RawLine) (hunk : UpdateHunk) (cursor : ℕ) (path : Path) (index : ℕ) :
    (applyHunk (lines.map lineText) hunk cursor path index).toOption.map Prod.fst =
      (spliceHunk lines hunk).map fun ls => ls.map lineText := by
  simp only [applyHunk, spliceHunk]
  cases hm : findSequenceMatches (lines.map lineText) (oldLines hunk) with
  | nil => simp [Except.toOption]
  | cons i rest =>
    cases rest with
    | cons j rest => simp [Except.toOption]
    | nil =>
      have hmatch := (mem_findSequenceMatches.mp (hm ▸ List.mem_singleton_self i)).2
      have hsplice : (splice hunk.lines ((lines.drop i).take (oldLines hunk).length)).map lineText =
          newLines hunk :=
        splice_text hunk.lines _ (by rw [List.map_take, List.map_drop, hmatch]; rfl)
      simp [Except.toOption, hsplice, List.map_take, List.map_drop]

theorem applyHunks_map (path : Path) (hunks : List UpdateHunk) (index : ℕ) (lines : List RawLine)
    (cursor : ℕ) : (applyHunks path hunks index (lines.map lineText) cursor).toOption =
      (spliceHunks lines hunks).map fun ls => ls.map lineText := by
  induction hunks generalizing index lines cursor with
  | nil => rfl
  | cons hunk hunks ih =>
    have hone := applyHunk_map lines hunk cursor path index
    simp only [applyHunks, spliceHunks]
    cases hs : spliceHunk lines hunk with
    | none =>
      rw [hs] at hone
      cases ha : applyHunk (lines.map lineText) hunk cursor path index with
      | error e => rfl
      | ok r => simp [ha, Except.toOption] at hone
    | some ls =>
      rw [hs] at hone
      cases ha : applyHunk (lines.map lineText) hunk cursor path index with
      | error e => simp [ha, Except.toOption] at hone
      | ok r =>
        have hr : r.1 = ls.map lineText := by simpa [ha, Except.toOption] using hone
        obtain ⟨lines', cursor'⟩ := r
        obtain rfl := hr
        exact ih (index + 1) ls cursor'

/-! ## Lines that read back as they are -/

/-- The units of a line break. -/
def EndingUnits (e : List Utf8Unit) : Prop :=
  (∃ c, isLineBreak c = true ∧ e = [.ofChar c]) ∨ e = [.ofChar carriageReturn, .ofChar lineFeed]

/-- A line whose octets are read back unit by unit, behind any line before it. -/
structure OwnUnits (l : RawLine) : Prop where
  ending : l.ending = [] ∨ EndingUnits l.ending
  content : isEncodable (lineText l) = true → decodeUnits (rawOf l.content) = l.content

theorem endingUnits_newline : EndingUnits [newline] := Or.inl ⟨lineFeed, by decide, rfl⟩

private theorem EndingUnits.read {e : List Utf8Unit} (h : EndingUnits e) (rest : Bytes) :
    StartsUnit (rawOf e ++ rest) ∧ decodeUnits (rawOf e ++ rest) = e ++ decodeUnits rest := by
  rcases h with ⟨c, hc, rfl⟩ | rfl
  · simp only [rawOf_cons, rawOf_nil, List.append_nil]
    exact ⟨startsUnit_utf8Bytes_append c rest, decodeUnits_utf8Bytes_append c (isSurrogate_of_isLineBreak hc) rest⟩
  · simp only [rawOf_cons, rawOf_nil, List.append_nil, List.append_assoc]
    refine ⟨startsUnit_utf8Bytes_append carriageReturn (utf8Bytes lineFeed ++ rest), ?_⟩
    have hcr := decodeUnits_utf8Bytes_append carriageReturn (by decide) (utf8Bytes lineFeed ++ rest)
    rw [decodeUnits_utf8Bytes_append lineFeed (by decide) rest] at hcr
    exact hcr

private theorem text_eq_lineBreak {raw : Bytes} {u : Utf8Unit} (hu : u ∈ decodeUnits raw)
    (h : isLineBreak u.text = true) : u = .ofChar u.text := by
  cases hc : u.char with
  | none =>
    simp only [Utf8Unit.text, hc, Option.getD_none] at h
    exact absurd h (by decide)
  | some c => simpa [Utf8Unit.text, hc] using (decodeUnits_char raw u hu c hc).1

private theorem rawLines_flatMap (raw : Bytes) : (rawLines raw).flatMap Line.items = decodeUnits raw :=
  flatMap_linesOf _ _

private theorem isEnding_units {raw : Bytes} {e : List Utf8Unit} (hmem : ∀ u ∈ e, u ∈ decodeUnits raw)
    (h : IsEnding Utf8Unit.text e) : EndingUnits e := by
  rcases h with ⟨a, rfl, ha⟩ | ⟨a, b, rfl, ha, hb⟩
  · exact Or.inl ⟨a.text, ha, by rw [← text_eq_lineBreak (hmem a (by simp)) ha]⟩
  · refine Or.inr ?_
    have ha' := text_eq_lineBreak (hmem a (by simp)) (by rw [ha]; decide)
    have hb' := text_eq_lineBreak (hmem b (by simp)) (by rw [hb]; decide)
    rw [ha', hb', ha, hb]

/-- Every line of a file but its last is ended, and none that anything follows is not. -/
private theorem ended_split {key : Utf8Unit → CodePoint} {ls ms : List RawLine} {l : RawLine}
    (h : Ended key (ls ++ l :: ms)) : (l.ending = [] ∧ l.content ≠ [] ∧ ms = []) ∨ IsEnding key l.ending := by
  induction ls with
  | nil =>
    cases ms with
    | nil =>
      rcases h with h | h
      · exact Or.inl ⟨h.1, h.2, rfl⟩
      · exact Or.inr h
    | cons m ms => exact Or.inr h.1
  | cons k ls ih =>
    refine ih ?_
    cases ls with
    | nil => exact h.2
    | cons j ls => exact h.2

theorem rawLines_ownUnits (raw : Bytes) : ∀ l ∈ rawLines raw, OwnUnits l := by
  intro l hl
  obtain ⟨ls, ms, hsplit⟩ := List.append_of_mem hl
  have hended := linesOf_ended Utf8Unit.text (decodeUnits raw)
  have hunits : decodeUnits raw =
      ls.flatMap Line.items ++ (l.content ++ (l.ending ++ ms.flatMap Line.items)) := by
    rw [← rawLines_flatMap, hsplit]
    simp [Line.items]
  have hmem : ∀ u ∈ l.ending, u ∈ decodeUnits raw := by
    intro u hu
    rw [hunits]
    simp [hu]
  change Ended Utf8Unit.text (rawLines raw) at hended
  rw [hsplit] at hended
  have hending : (l.ending = [] ∧ ms = []) ∨ EndingUnits l.ending := by
    rcases ended_split hended with h | h
    · exact Or.inl ⟨h.1, h.2.2⟩
    · exact Or.inr (isEnding_units hmem h)
  refine ⟨hending.imp And.left id, fun _ => ?_⟩
  have hsuffix := decodeUnits_suffix hunits
  rcases hending with ⟨he, rfl⟩ | he
  · simpa [he] using hsuffix
  · have hbehind : decodeUnits raw = (ls.flatMap Line.items ++ (l.content ++ l.ending)) ++
        ms.flatMap Line.items := by
      rw [hunits]
      simp
    have hrest := decodeUnits_suffix hbehind
    obtain ⟨hstart, hread⟩ := he.read (rawOf (ms.flatMap Line.items))
    rw [rawOf_append, rawOf_append, decodeUnits_append _ _ hstart, hread, hrest] at hsuffix
    exact List.append_cancel_right hsuffix

private theorem insertedLine_ownUnits (t : Text) : OwnUnits (insertedLine t) := by
  refine ⟨Or.inr endingUnits_newline, fun h => ?_⟩
  rw [lineText_insertedLine] at h
  have hraw : rawOf (insertedLine t).content = t.flatMap utf8Bytes := by
    simp [rawOf, insertedLine, List.flatMap_map, Utf8Unit.ofChar]
  rw [hraw, decodeUnits_encoded t h]
  rfl

private theorem splice_mem (ds : List DiffLine) (ls : List RawLine) :
    ∀ l ∈ splice ds ls, l ∈ ls ∨ ∃ t, l = insertedLine t := by
  induction ds generalizing ls with
  | nil => simp [splice]
  | cons d ds ih =>
    obtain ⟨kind, text⟩ := d
    intro l hl
    cases kind with
    | addition =>
      rcases List.mem_cons.mp hl with rfl | hl
      · exact Or.inr ⟨text, rfl⟩
      · exact ih ls l hl
    | removal => exact (ih ls.tail l hl).imp_left List.mem_of_mem_tail
    | context =>
      cases ls with
      | nil => exact ih [] l hl
      | cons k ls =>
        rcases List.mem_cons.mp hl with rfl | hl
        · exact Or.inl (by simp)
        · exact (ih ls l hl).imp_left (List.mem_cons_of_mem k)

/-- Every line left is one of the file or one the hunks insert. -/
theorem spliceHunks_mem {hunks : List UpdateHunk} {lines left : List RawLine}
    (h : spliceHunks lines hunks = some left) : ∀ l ∈ left, l ∈ lines ∨ ∃ t, l = insertedLine t := by
  induction hunks generalizing lines with
  | nil =>
    obtain rfl := Option.some.inj h
    exact fun l hl => Or.inl hl
  | cons hunk hunks ih =>
    obtain ⟨next, hnext, hrest⟩ := Option.bind_eq_some_iff.mp h
    have hone : ∀ l ∈ next, l ∈ lines ∨ ∃ t, l = insertedLine t := by
      unfold spliceHunk at hnext
      split at hnext
      · obtain rfl := Option.some.inj hnext
        intro l hl
        simp only [List.mem_append] at hl
        rcases hl with (hl | hl) | hl
        · exact Or.inl (List.mem_of_mem_take hl)
        · exact (splice_mem _ _ l hl).imp_left fun hl => List.mem_of_mem_drop (List.mem_of_mem_take hl)
        · exact Or.inl (List.mem_of_mem_drop hl)
      · simp at hnext
    intro l hl
    rcases ih hrest l hl with hl | hl
    · exact hone l hl
    · exact Or.inr hl

/-! ## The join against the lossless edit -/

private theorem joinWithNewline_singleton (t : Text) (nl : Bool) :
    joinWithNewline [t] nl = t ++ if nl then [lineFeed] else [] := by
  simp [joinWithNewline, joinLines]

private theorem joinWithNewline_cons_cons (s t : Text) (ts : List Text) (nl : Bool) :
    joinWithNewline (s :: t :: ts) nl = s ++ lineFeed :: joinWithNewline (t :: ts) nl := by
  simp [joinWithNewline, joinLines, List.intercalate, List.intersperse]

private theorem isEncodable_joinWithNewline (ts : List Text) (nl : Bool) :
    isEncodable (joinWithNewline ts nl) = true ↔ ∀ t ∈ ts, isEncodable t = true := by
  have hlf : isSurrogate lineFeed = false := by decide
  induction ts with
  | nil => simp [joinWithNewline]
  | cons t ts ih =>
    cases ts with
    | nil =>
      rw [joinWithNewline_singleton]
      cases nl <;> simp [hlf]
    | cons t' ts =>
      have hrest : isEncodable (joinWithNewline (t' :: ts) nl) = true ↔
          ∀ u ∈ t' :: ts, isEncodable u = true := ih
      rw [joinWithNewline_cons_cons, List.forall_mem_cons, ← hrest]
      simp [hlf]

/-- The ending a line gets when another one follows it. -/
private def settledEnding (l : RawLine) : List Utf8Unit := if l.ending.isEmpty then [newline] else l.ending

private theorem unitsOf_settle_singleton (ended : Bool) (l : RawLine) :
    unitsOf (settle ended [l]) = l.content ++ if ended then settledEnding l else [] := by
  simp [unitsOf, settle, Line.items, settledEnding]

private theorem unitsOf_settle_cons_cons (ended : Bool) (l m : RawLine) (ls : List RawLine) :
    unitsOf (settle ended (l :: m :: ls)) =
      l.content ++ (settledEnding l ++ unitsOf (settle ended (m :: ls))) := by
  simp [unitsOf, settle, Line.items, settledEnding]

private theorem OwnUnits.settled {l : RawLine} (h : OwnUnits l) : EndingUnits (settledEnding l) := by
  unfold settledEnding
  rcases h.ending with he | he
  · simpa [he] using endingUnits_newline
  · split_ifs
    · exact endingUnits_newline
    · exact he

/-- The settled lines read back as the units they are made of. -/
private theorem decodeUnits_settle (ended : Bool) (ls : List RawLine) (hown : ∀ l ∈ ls, OwnUnits l)
    (henc : ∀ l ∈ ls, isEncodable (lineText l) = true) :
    decodeUnits (rawOf (unitsOf (settle ended ls))) = unitsOf (settle ended ls) := by
  induction ls with
  | nil => rfl
  | cons l ls ih =>
    have hl := hown l (by simp)
    have hcontent := hl.content (henc l (by simp))
    cases ls with
    | nil =>
      rw [unitsOf_settle_singleton]
      cases ended with
      | false => simpa using hcontent
      | true =>
        obtain ⟨hstart, hread⟩ := hl.settled.read []
        rw [List.append_nil] at hstart hread
        simp only [if_true, rawOf_append, decodeUnits_append _ _ hstart, hread, hcontent,
          decodeUnits_nil, List.append_nil]
    | cons m ls =>
      obtain ⟨hstart, hread⟩ := hl.settled.read (rawOf (unitsOf (settle ended (m :: ls))))
      rw [unitsOf_settle_cons_cons, rawOf_append, rawOf_append, decodeUnits_append _ _ hstart, hread,
        hcontent, ih (fun l hl => hown l (List.mem_cons_of_mem _ hl))
          fun l hl => henc l (List.mem_cons_of_mem _ hl)]

private theorem wellFormed_of_map {l : RawLine} (h : (lineText l).map Utf8Unit.ofChar = l.content)
    (henc : isEncodable (lineText l) = true) : ∀ u ∈ l.content, u.WellFormed := by
  intro u hu
  rw [← h] at hu
  obtain ⟨c, hc, rfl⟩ := List.mem_map.mp hu
  exact ⟨c, rfl, (isEncodable_iff _).mp henc c hc⟩

private theorem map_of_wellFormed {l : RawLine} (h : ∀ u ∈ l.content, u.WellFormed) :
    (lineText l).map Utf8Unit.ofChar = l.content ∧ isEncodable (lineText l) = true := by
  refine ⟨?_, (isEncodable_iff _).mpr fun c hc => ?_⟩
  · rw [lineText, List.map_map]
    refine (List.map_congr_left fun u hu => ?_).trans (List.map_id _)
    obtain ⟨c, rfl, -⟩ := h u hu
    rfl
  · obtain ⟨u, hu, rfl⟩ := List.mem_map.mp hc
    obtain ⟨c, rfl, hs⟩ := h u hu
    exact hs

/-- What the join puts behind a line is that line's ending only if that is `\n` or none. -/
private theorem settledEnding_eq {l : RawLine} {us vs : List Utf8Unit} (hl : OwnUnits l)
    (h : newline :: us = settledEnding l ++ vs) : (l.ending = [] ∨ l.ending = [newline]) ∧ us = vs := by
  rcases hl.settled with ⟨c, -, he⟩ | he
  · rw [he] at h
    obtain ⟨hc, hus⟩ := List.cons.inj h
    refine ⟨?_, hus⟩
    unfold settledEnding at he
    split_ifs at he with hemp
    · exact Or.inl (List.isEmpty_iff.mp hemp)
    · exact Or.inr (by rw [he, ← hc])
  · rw [he] at h
    exact absurd (List.cons.inj h).1 (by decide +kernel)

private theorem settledEnding_of_joinable {l : RawLine} (h : l.ending = [] ∨ l.ending = [newline]) :
    settledEnding l = [newline] := by
  rcases h with h | h <;> simp [settledEnding, h]

/-- The joined text has the units of the settled lines exactly when they are joinable. -/
private theorem join_units_iff {ended nl : Bool} (hnl : nl = true → ended = true) (ls : List RawLine)
    (hown : ∀ l ∈ ls, OwnUnits l) :
    (isEncodable (joinWithNewline (ls.map lineText) nl) = true ∧
      (joinWithNewline (ls.map lineText) nl).map Utf8Unit.ofChar = unitsOf (settle ended ls)) ↔
      Joinable ended nl ls := by
  induction ls with
  | nil => simp [joinWithNewline, unitsOf, settle, Joinable]
  | cons l ls ih =>
    have hl := hown l (by simp)
    have hlen : ((lineText l).map Utf8Unit.ofChar).length = l.content.length := by simp [lineText]
    cases ls with
    | nil =>
      rw [List.map_cons, List.map_nil, isEncodable_joinWithNewline, joinWithNewline_singleton,
        unitsOf_settle_singleton, List.map_append]
      simp only [List.mem_singleton, forall_eq, Joinable]
      constructor
      · rintro ⟨henc, h⟩
        obtain ⟨hcontent, htail⟩ := List.append_inj h hlen
        refine ⟨wellFormed_of_map hcontent henc, ?_⟩
        rintro rfl
        cases nl with
        | false =>
          have hne : settledEnding l = [] := by simpa using htail.symm
          rcases hl.settled with ⟨c, -, he⟩ | he <;> rw [he] at hne <;> cases hne
        | true =>
          have he : newline :: [] = settledEnding l ++ [] := by simpa [newline] using htail
          exact ⟨rfl, (settledEnding_eq hl he).1⟩
      · rintro ⟨hwf, hend⟩
        obtain ⟨hcontent, henc⟩ := map_of_wellFormed hwf
        refine ⟨henc, ?_⟩
        rw [hcontent]
        cases ended with
        | true =>
          obtain ⟨rfl, he⟩ := hend rfl
          simp [settledEnding_of_joinable he, newline]
        | false =>
          have hfalse : nl = false := by simpa using mt hnl (by simp)
          simp [hfalse]
    | cons m ls =>
      have ih := ih fun l hl => hown l (List.mem_cons_of_mem _ hl)
      rw [List.map_cons] at ih
      have hjoin : Joinable ended nl (l :: m :: ls) ↔ (∀ u ∈ l.content, u.WellFormed) ∧
          (l.ending = [] ∨ l.ending = [newline]) ∧ Joinable ended nl (m :: ls) := Iff.rfl
      rw [List.map_cons, List.map_cons, joinWithNewline_cons_cons, unitsOf_settle_cons_cons, hjoin, ← ih]
      simp only [isEncodable_append, isEncodable_cons, List.map_append, List.map_cons, Bool.and_eq_true]
      constructor
      · rintro ⟨⟨henc, -, hrest⟩, h⟩
        obtain ⟨hcontent, htail⟩ := List.append_inj h hlen
        obtain ⟨he, hunits⟩ := settledEnding_eq hl htail
        exact ⟨wellFormed_of_map hcontent henc, he, hrest, hunits⟩
      · rintro ⟨hwf, he, hrest, hunits⟩
        obtain ⟨hcontent, henc⟩ := map_of_wellFormed hwf
        refine ⟨⟨henc, by decide, hrest⟩, ?_⟩
        rw [hcontent, hunits, settledEnding_of_joinable he]
        rfl

/-- The join writes exactly the octets of the lossless edit when the lines are joinable. -/
theorem encode_join_iff {ended nl : Bool} (hnl : nl = true → ended = true) (ls : List RawLine)
    (hown : ∀ l ∈ ls, OwnUnits l) :
    encodeUtf8 (joinWithNewline (ls.map lineText) nl) = some (rawOf (unitsOf (settle ended ls))) ↔
      Joinable ended nl ls := by
  have hraw : ∀ t : Text, rawOf (t.map Utf8Unit.ofChar) = t.flatMap utf8Bytes := by
    intro t
    simp [rawOf, List.flatMap_map, Utf8Unit.ofChar]
  rw [encodeUtf8_eq_some_iff, ← join_units_iff hnl ls hown]
  refine and_congr_right fun henc => ⟨fun h => ?_, fun h => ?_⟩
  · have hlines := (isEncodable_joinWithNewline _ nl).mp henc
    have hdecoded := decodeUnits_settle ended ls hown fun l hl => hlines _ (List.mem_map_of_mem hl)
    rw [h, decodeUnits_encoded _ henc] at hdecoded
    rw [hdecoded]
  · rw [← h, hraw]

theorem isEnded_of_endsWithNewline {raw : Bytes} (h : endsWithNewline (decodeReplace raw) = true) :
    isEnded raw = true := by
  simp only [endsWithNewline, decodeReplace, ← rawLines_flatMap, decide_eq_true_eq] at h
  rcases List.eq_nil_or_concat (rawLines raw) with hnil | ⟨ls, l, hlast⟩
  · simp [hnil] at h
  · rw [List.concat_eq_append] at hlast
    have hended := linesOf_ended Utf8Unit.text (decodeUnits raw)
    change Ended Utf8Unit.text (rawLines raw) at hended
    have hbreak := linesOf_content_noBreak Utf8Unit.text (decodeUnits raw) l
      (by change l ∈ rawLines raw; simp [hlast])
    simp only [isEnded, hlast, List.getLast?_append, List.getLast?_singleton, Option.some_or, Option.any_some,
      Bool.not_eq_true']
    cases he : l.ending with
    | cons u us => rfl
    | nil =>
      rw [hlast] at hended
      rcases ended_split hended with ⟨-, hne, -⟩ | hend
      · rcases List.eq_nil_or_concat l.content with hc | ⟨us, u, hc⟩
        · exact absurd hc hne
        · rw [List.concat_eq_append] at hc
          have hu := hbreak u (by simp [hc])
          have hlf : u.text = lineFeed := by simpa [hlast, Line.items, he, hc] using h
          rw [hlf] at hu
          exact absurd hu (by decide)
      · rcases hend with ⟨a, ha, -⟩ | ⟨a, b, ha, -⟩ <;> simp [he] at ha

/-! ## The octets an update patch writes -/

theorem updatedBytes_eq {path : Path} {hunks : List UpdateHunk} {raw : Bytes} {lines : List RawLine}
    (htext : isText raw = true) (hmatch : spliceHunks (rawLines raw) hunks = some lines) :
    updatedBytes path hunks raw =
      encodeUtf8 (joinWithNewline (lines.map lineText) (endsWithNewline (decodeReplace raw))) := by
  have happly := applyHunks_map path hunks 0 (rawLines raw) 0
  rw [hmatch, ← splitlines_decodeReplace] at happly
  unfold updatedBytes
  rw [readText_ok.mpr ⟨htext, rfl⟩]
  simp only [updatedText]
  cases ha : applyHunks path hunks 0 (splitlines (decodeReplace raw)) 0 with
  | error e => simp [ha, Except.toOption] at happly
  | ok ls =>
    obtain rfl : ls = lines.map lineText := by simpa [ha, Except.toOption] using happly
    rfl

/-- Whether an update writes the octets of the lossless edit. -/
theorem updatedBytes_preserves_iff (path : Path) {hunks : List UpdateHunk} {raw : Bytes}
    {lines : List RawLine} (htext : isText raw = true)
    (hmatch : spliceHunks (rawLines raw) hunks = some lines) :
    updatedBytes path hunks raw = some (expectedBytes raw lines) ↔
      Joinable (isEnded raw) (endsWithNewline (decodeReplace raw)) lines := by
  rw [updatedBytes_eq htext hmatch]
  refine encode_join_iff isEnded_of_endsWithNewline lines fun l hl => ?_
  rcases spliceHunks_mem hmatch l hl with hl | ⟨t, rfl⟩
  · exact rawLines_ownUnits raw l hl
  · exact insertedLine_ownUnits t

private theorem resolveStep_update {env : PatchEnv} {name : Text} {moveTo : Option Text}
    {hunks : List UpdateHunk} {step : Step} (h : resolveStep env (.updateFile name moveTo hunks) = .ok step) :
    (∃ p, step = .update p hunks) ∨ ∃ p q, step = .move p q hunks := by
  simp only [resolveStep, bind_eq_ok] at h
  obtain ⟨p, -, target, -, h⟩ := h
  cases target with
  | none => exact Or.inl ⟨p, (Except.ok.inj h).symm⟩
  | some target =>
    have hs := Except.ok.inj h
    split_ifs at hs
    · exact Or.inl ⟨p, hs.symm⟩
    · exact Or.inr ⟨p, target, hs.symm⟩

/-- The tree takes what an update or a move writes. -/
private theorem exec_update {step : Step} {path : Path} {disk : Disk} {raw : Bytes}
    (hkind : (∃ p hunks, step = .update p hunks) ∨ ∃ p q hunks, step = .move p q hunks)
    (hsource : step.source = some path) (hne : step.source ≠ step.created)
    (hfile : disk.files path = some raw)
    (hmove : ∀ target, step.created = some target →
      disk.node target = none ∧ (disk.mkdirs target.tail).isSome = true) (bytes : Bytes) :
    ∃ disk', step.exec bytes disk = some disk' ∧
      disk'.files (step.created.getD path) = some bytes := by
  have hnode := (disk.files_eq_some_iff path raw).mp hfile
  rcases hkind with ⟨p, hunks, rfl⟩ | ⟨p, q, hunks, rfl⟩
  · obtain rfl := Option.some.inj hsource
    cases p with
    | nil => simp [disk.root] at hnode
    | cons n p =>
      have hparent := disk.parent n p _ hnode
      obtain ⟨disk', hw⟩ := Option.isSome_iff_exists.mp
        ((Tree.write_isSome_iff disk (n :: p) bytes).mpr ⟨by simp, by simp [hnode], hparent⟩)
      refine ⟨disk', by simp only [Step.exec, List.tail_cons, Tree.mkdirs_of_dir hparent,
        Option.bind_some, hw], ?_⟩
      simp [Step.created, Tree.write_files hw]
  · obtain rfl := Option.some.inj hsource
    obtain ⟨hq, hmk⟩ := hmove q rfl
    obtain ⟨made, hmade⟩ := Option.isSome_iff_exists.mp hmk
    have hqp : q ≠ p := fun h => hne (by simp [Step.source, Step.created, h])
    cases q with
    | nil => simp [disk.root] at hq
    | cons n q =>
      obtain ⟨hdir, hbelow⟩ := Tree.mkdirs_dir hmade
      obtain ⟨written, hw⟩ := Option.isSome_iff_exists.mp
        ((Tree.write_isSome_iff made (n :: q) bytes).mpr
          ⟨by simp, by simp [hbelow (n :: q) (by simp), hq], hdir⟩)
      have hfiles := (Tree.write_files hw).trans (by rw [Tree.mkdirs_files hmade])
      obtain ⟨disk', hu⟩ := Option.isSome_iff_exists.mp ((Tree.unlink_isSome_iff written p).mpr
        ⟨raw, (written.files_eq_some_iff p raw).mp (by rw [hfiles, Function.update_of_ne hqp.symm, hfile])⟩)
      refine ⟨disk', by simp only [Step.exec, hmade, Option.bind_some, hw, hu], ?_⟩
      simp [Step.created, Tree.unlink_files hu, hfiles, Function.update_of_ne hqp]

/-- One hunk that replaces the line `z` by `w`. -/
def replaceLine : List UpdateHunk := [⟨[⟨.removal, txt "z"⟩, ⟨.addition, txt "w"⟩], 3⟩]

def replaceIn (raw : Bytes) : PatchOutcome × Disk :=
  applyOperations plainEnv noFaults .apply [.updateFile (txt "a") none replaceLine]
    (Tree.ofFiles [([txt "a"], raw)])

/-- The lines `x` and `z`, each ended by `ending`. -/
def twoLines (ending : Bytes) : Bytes := [0x78] ++ ending ++ [0x7A] ++ ending

end WebOauthMcp.PatchBytes
