import WebOauthMcp.ContentSearch
import WebOauthMcp.GitOutput

/-!
# Line numbers

The search counts line feeds, `read_text`, `read` and the symbols of a script count the pieces
of `str.splitlines`. A number that one of them reports is used with another.
-/

namespace WebOauthMcp.LineNumbers
open CodePoints LineSplitting ContentSearch GitOutput

/-! ## The numbers -/

/-- The number of the piece that holds a position. -/
def pieceNumber : List Text → ℕ → ℕ
  | [], _ => 1
  | piece :: pieces, p => if p < piece.length then 1 else pieceNumber pieces (p - piece.length) + 1

/-- The `start_line` from which `read_text` and `read` show the character. -/
def readLine (t : Text) (p : ℕ) : ℕ := pieceNumber (splitlinesKeepends t) p

/-- A match as ripgrep reports it: the event holds whole lines, in one of them the match starts,
at a character or at the end of a file that no line feed ends. -/
structure FileMatch (o : ContextOptions) (t : Text) where
  before : Text
  inside : Text
  matched : Text
  behind : Text
  after : Text
  whole : t = before ++ (inside ++ matched ++ behind) ++ after
  starts : before = [] ∨ before.getLast? = some lineFeed
  ends : after = [] ∨ (inside ++ matched ++ behind).getLast? = some lineFeed
  oneLine : o.multiline = false → lineFeed ∉ (inside ++ matched ++ behind).dropLast
  encodable : isEncodable (inside ++ matched ++ behind) = true
  started : inside.length < (inside ++ matched ++ behind).length ∨ inside ≠ [] ∧ inside.getLast? ≠ some lineFeed

namespace FileMatch
variable {o : ContextOptions} {t : Text} (m : FileMatch o t)

def event : Text := m.inside ++ m.matched ++ m.behind

/-- Ripgrep counts the line feeds in front of the event. -/
def eventLine : ℕ := m.before.count lineFeed + 1

def submatch : Submatch m.event where
  start := (m.inside.flatMap utf8Bytes).length
  stop := ((m.inside ++ m.matched).flatMap utf8Bytes).length
  matched := m.matched
  encodable := m.encodable
  ordered := by simp
  within := by simp [event]

/-- The character that the match starts at, or the last one. -/
def position : ℕ := m.before.length + min m.inside.length (m.event.length - 1)

/-- The line numbers that the search reports. -/
def searchLines (recent : List (ℕ × Text)) (path : Text) : List ℕ :=
  (matchesOf o recent path m.eventLine m.event [m.submatch]).map Pending.lineNumber

end FileMatch

/-- What a pattern finds in a line. -/
structure JsMatch (line : Text) where
  start : ℕ
  name : Text
  inLine : start < line.length

structure JsSymbol where
  name : Text
  kind : Text
  file : Text
  line : ℕ

/-- `JS_SYMBOL_PATTERNS`, by what they find. -/
abbrev JsPatterns := List (Text × ((line : Text) → List (JsMatch line)))

def symbolsIn (patterns : JsPatterns) (file : Text) (number : ℕ) (line : Text) : List (JsMatch line × JsSymbol) :=
  patterns.flatMap fun pattern => (pattern.2 line).map fun m => (m, ⟨m.name, pattern.1, file, number⟩)

/-- `_js_symbols`, from a line on. -/
def jsSymbolsFrom (patterns : JsPatterns) (file : Text) : ℕ → List Text → List JsSymbol
  | _, [] => []
  | number, line :: lines => (symbolsIn patterns file number line).map Prod.snd ++ jsSymbolsFrom patterns file (number + 1) lines

def jsSymbols (patterns : JsPatterns) (file text : Text) : List JsSymbol := jsSymbolsFrom patterns file 1 (splitlines text)

/-- The symbols and where in the text they were found. -/
def locatedFrom (patterns : JsPatterns) (file : Text) : ℕ → ℕ → List (Line CodePoint) → List (ℕ × JsSymbol)
  | _, _, [] => []
  | offset, number, line :: lines =>
    ((symbolsIn patterns file number line.content).map fun found => (offset + found.1.start, found.2)) ++
      locatedFrom patterns file (offset + line.items.length) (number + 1) lines

def located (patterns : JsPatterns) (file text : Text) : List (ℕ × JsSymbol) := locatedFrom patterns file 0 1 (linesOf id text)

theorem located_symbols (patterns : JsPatterns) (file text : Text) : (located patterns file text).map Prod.snd = jsSymbols patterns file text := by
  have hall : ∀ (lines : List (Line CodePoint)) (offset number : ℕ),
      (locatedFrom patterns file offset number lines).map Prod.snd = jsSymbolsFrom patterns file number (lines.map Line.content) := by
    intro lines
    induction lines with
    | nil => exact fun _ _ => rfl
    | cons line lines ih =>
      intro offset number
      rw [locatedFrom, List.map_append, List.map_map, ih, List.map_cons, jsSymbolsFrom]
      rfl
  exact hall (linesOf id text) 0 1

/-- Search, readers and symbols mean the same line. -/
structure SameLines (t : Text) : Prop where
  searched : ∀ (o : ContextOptions) (m : FileMatch o t) (recent : List (ℕ × Text)) (path : Text),
    m.searchLines recent path = [readLine t m.position]
  mapped : ∀ (patterns : JsPatterns) (file : Text), ∀ found ∈ located patterns file t, found.2.line = readLine t found.1

/-- Only line feeds break lines, alone or behind a CR, but for the last character. -/
def OnlyFeeds (t : Text) : Prop := ∀ u b v, t = u ++ b :: v → isLineBreak b = true →
  b = lineFeed ∨ v = [] ∨ b = carriageReturn ∧ v.head? = some lineFeed

/-! ## Pieces and line feeds -/

theorem pieceNumber_piece {piece : Text} {p : ℕ} (h : p < piece.length) (pieces : List Text) : pieceNumber (piece :: pieces) p = 1 := if_pos h

theorem pieceNumber_later {piece : Text} {p : ℕ} (h : ¬p < piece.length) (pieces : List Text) :
    pieceNumber (piece :: pieces) p = pieceNumber pieces (p - piece.length) + 1 := if_neg h

theorem keepends_content {c : CodePoint} (hc : isLineBreak c = false) (rest : Text) :
    splitlinesKeepends (c :: rest) = match splitlinesKeepends rest with
      | [] => [[c]]
      | l :: ls => (c :: l) :: ls := by
  have hline := linesOf_content id c rest hc
  rw [splitlinesKeepends, hline, splitlinesKeepends]
  cases linesOf id rest with
  | nil => rfl
  | cons l ls => rfl

theorem keepends_break {c : CodePoint} (hc : isLineBreak c = true) {rest : Text}
    (hcr : ∀ d ds, rest = d :: ds → ¬(c = carriageReturn ∧ d = lineFeed)) :
    splitlinesKeepends (c :: rest) = [c] :: splitlinesKeepends rest := by
  have hline := linesOf_break id c rest hc hcr
  rw [splitlinesKeepends, hline]
  rfl

theorem keepends_crlf (rest : Text) :
    splitlinesKeepends (carriageReturn :: lineFeed :: rest) = [carriageReturn, lineFeed] :: splitlinesKeepends rest := by
  have hline := linesOf_crlf id carriageReturn lineFeed rest rfl rfl
  rw [splitlinesKeepends, hline]
  rfl

theorem readLine_zero (t : Text) : readLine t 0 = 1 := by
  rw [readLine]
  induction t using splitlines_induction with
  | nil => rfl
  | content c rest hc _ =>
    rw [keepends_content hc]
    split
    · exact pieceNumber_piece (by simp) _
    · exact pieceNumber_piece (by simp) _
  | crlf rest _ =>
    rw [keepends_crlf]
    exact pieceNumber_piece (by simp) _
  | ending c rest hc hcr _ =>
    rw [keepends_break hc hcr]
    exact pieceNumber_piece (by simp) _

theorem readLine_content {c : CodePoint} (hc : isLineBreak c = false) {rest : Text} {p : ℕ} (hp : p < rest.length) :
    readLine (c :: rest) (p + 1) = readLine rest p := by
  rw [readLine, keepends_content hc, readLine]
  cases hpieces : splitlinesKeepends rest with
  | nil =>
    have hjoin : (splitlinesKeepends rest).flatten = rest := flatMap_linesOf id rest
    rw [hpieces] at hjoin
    rw [← hjoin] at hp
    exact absurd hp (by simp)
  | cons l ls =>
    dsimp only
    rw [pieceNumber, pieceNumber, List.length_cons]
    by_cases hl : p < l.length
    · rw [if_pos hl, if_pos (by omega)]
    · rw [if_neg hl, if_neg (by omega), Nat.add_sub_add_right]

theorem readLine_break {c : CodePoint} (hc : isLineBreak c = true) {rest : Text}
    (hcr : ∀ d ds, rest = d :: ds → ¬(c = carriageReturn ∧ d = lineFeed)) (p : ℕ) : readLine (c :: rest) (p + 1) = readLine rest p + 1 := by
  rw [readLine, keepends_break hc hcr, pieceNumber_later (by simp)]
  rfl

theorem readLine_crlf (rest : Text) (p : ℕ) : readLine (carriageReturn :: lineFeed :: rest) (p + 2) = readLine rest p + 1 := by
  rw [readLine, keepends_crlf, pieceNumber_later (by simp)]
  rfl

/-- The line feeds in front of every character make its line number. -/
def CountsLines (t : Text) : Prop := ∀ p < t.length, (t.take p).count lineFeed + 1 = readLine t p

theorem countsLines_content {c : CodePoint} (hc : isLineBreak c = false) (rest : Text) : CountsLines (c :: rest) ↔ CountsLines rest := by
  have hother : ¬c = lineFeed := by
    rintro rfl
    revert hc
    decide
  constructor
  · intro h p hp
    have hnext := h (p + 1) (by simpa using hp)
    rwa [readLine_content hc hp, List.take_succ_cons, List.count_cons_of_ne hother] at hnext
  · intro h p hp
    cases p with
    | zero => exact (readLine_zero _).symm
    | succ p =>
      have hrest : p < rest.length := by simpa using hp
      rw [readLine_content hc hrest, List.take_succ_cons, List.count_cons_of_ne hother]
      exact h p hrest

theorem countsLines_crlf (rest : Text) : CountsLines (carriageReturn :: lineFeed :: rest) ↔ CountsLines rest := by
  have hother : ¬carriageReturn = lineFeed := by decide
  constructor
  · intro h p hp
    have hnext := h (p + 2) (by simpa using hp)
    rw [readLine_crlf, List.take_succ_cons, List.take_succ_cons, List.count_cons_of_ne hother, List.count_cons_self] at hnext
    omega
  · intro h p hp
    match p with
    | 0 => exact (readLine_zero _).symm
    | 1 =>
      rw [readLine, keepends_crlf, pieceNumber_piece (by simp), List.take_succ_cons, List.count_cons_of_ne hother]
      rfl
    | p + 2 =>
      have hrest : p < rest.length := by simpa using hp
      rw [readLine_crlf, List.take_succ_cons, List.take_succ_cons, List.count_cons_of_ne hother, List.count_cons_self, h p hrest]

theorem countsLines_break {c : CodePoint} (hc : isLineBreak c = true) {rest : Text}
    (hcr : ∀ d ds, rest = d :: ds → ¬(c = carriageReturn ∧ d = lineFeed)) :
    CountsLines (c :: rest) ↔ (c = lineFeed ∨ rest = []) ∧ CountsLines rest := by
  by_cases hfeed : c = lineFeed
  · subst hfeed
    rw [and_iff_right (Or.inl rfl)]
    constructor
    · intro h p hp
      have hnext := h (p + 1) (by simpa using hp)
      rw [readLine_break hc hcr, List.take_succ_cons, List.count_cons_self] at hnext
      omega
    · intro h p hp
      cases p with
      | zero => exact (readLine_zero _).symm
      | succ p =>
        have hrest : p < rest.length := by simpa using hp
        rw [readLine_break hc hcr, List.take_succ_cons, List.count_cons_self, h p hrest]
  · cases rest with
    | nil =>
      refine iff_of_true (fun p hp => ?_) ⟨Or.inr rfl, nofun⟩
      obtain rfl : p = 0 := by simpa using hp
      exact (readLine_zero _).symm
    | cons d ds =>
      refine iff_of_false (fun h => ?_) (by simp [hfeed])
      have hnext := h 1 (by simp)
      rw [readLine_break hc hcr, readLine_zero, List.take_succ_cons, List.count_cons_of_ne hfeed] at hnext
      exact absurd hnext (by simp)

theorem onlyFeeds_cons (c : CodePoint) (rest : Text) : OnlyFeeds (c :: rest) ↔
    (isLineBreak c = true → c = lineFeed ∨ rest = [] ∨ c = carriageReturn ∧ rest.head? = some lineFeed) ∧ OnlyFeeds rest := by
  constructor
  · exact fun h => ⟨h [] c rest rfl, fun u b v hsplit hb => h (c :: u) b v (by rw [hsplit]; rfl) hb⟩
  · rintro ⟨hfirst, hrest⟩ u b v hsplit hb
    cases u with
    | nil =>
      obtain ⟨rfl, rfl⟩ := List.cons.inj hsplit
      exact hfirst hb
    | cons a u => exact hrest u b v (List.cons.inj hsplit).2 hb

theorem countsLines_iff (t : Text) : CountsLines t ↔ OnlyFeeds t := by
  induction t using splitlines_induction with
  | nil => exact iff_of_true nofun fun u b v h => absurd h (by simp)
  | content c rest hc ih =>
    rw [countsLines_content hc, onlyFeeds_cons, ← ih, hc]
    simp
  | crlf rest ih =>
    have hfeed : isLineBreak lineFeed = true := by decide
    rw [countsLines_crlf, onlyFeeds_cons, onlyFeeds_cons, ← ih]
    simp
  | ending c rest hc hcr ih =>
    have hpair : ¬(c = carriageReturn ∧ rest.head? = some lineFeed) := by
      rintro ⟨hreturn, hhead⟩
      cases rest with
      | nil => exact absurd hhead nofun
      | cons d ds => exact hcr d ds rfl ⟨hreturn, Option.some.inj hhead⟩
    rw [countsLines_break hc hcr, onlyFeeds_cons, ← ih]
    simp [hc, hpair]

/-! ## Symbols and matches -/

/-- A symbol is on the line that the readers show it on. -/
theorem line_of_located (patterns : JsPatterns) (file : Text) {lines : List (Line CodePoint)} {offset number : ℕ} {found : ℕ × JsSymbol}
    (h : found ∈ locatedFrom patterns file offset number lines) :
    offset ≤ found.1 ∧ found.2.line + 1 = number + pieceNumber (lines.map Line.items) (found.1 - offset) := by
  induction lines generalizing offset number with
  | nil => exact absurd h List.not_mem_nil
  | cons line lines ih =>
    rw [locatedFrom] at h
    cases List.mem_append.mp h with
    | inl h =>
      obtain ⟨⟨m, symbol⟩, hsymbol, rfl⟩ := List.mem_map.mp h
      obtain ⟨pattern, -, hm⟩ := List.mem_flatMap.mp hsymbol
      obtain ⟨m', -, hpair⟩ := List.mem_map.mp hm
      obtain ⟨rfl, rfl⟩ := Prod.mk.inj hpair
      have hin : m'.start < line.items.length := Nat.lt_of_lt_of_le m'.inLine (by simp [Line.items])
      refine ⟨Nat.le_add_right _ _, ?_⟩
      rw [List.map_cons, Nat.add_sub_cancel_left, pieceNumber_piece hin]
    | inr h =>
      obtain ⟨hle, hline⟩ := ih h
      have hlater : ¬found.1 - offset < line.items.length := by omega
      refine ⟨by omega, ?_⟩
      rw [hline, List.map_cons, pieceNumber_later hlater, Nat.sub_add_eq]
      omega

theorem located_line (patterns : JsPatterns) (file t : Text) : ∀ found ∈ located patterns file t, found.2.line = readLine t found.1 := by
  intro found h
  have hline := (line_of_located patterns file h).2
  rw [Nat.sub_zero] at hline
  rw [readLine, splitlinesKeepends]
  omega

/-- An octet below 0x80 is counted as its character. -/
theorem count_utf8Bytes (t : Text) : (t.flatMap utf8Bytes).count (0x0A : Byte) = t.count lineFeed := by
  induction t with
  | nil => rfl
  | cons c t ih =>
    rw [List.flatMap_cons, List.count_append, ih, List.count_cons, Nat.add_comm]
    refine congrArg (t.count lineFeed + ·) ?_
    by_cases hc : c = lineFeed
    · subst hc
      decide
    · have hnone : (0x0A : Byte) ∉ utf8Bytes c := by
        intro hmem
        exact hc (Fin.ext (mem_utf8Bytes_of_lt c 0x0A (by decide) hmem).symm)
      rw [List.count_eq_zero.mpr hnone]
      simp [hc]

namespace FileMatch
variable {o : ContextOptions} {t : Text} (m : FileMatch o t)

theorem event_ne_nil : m.event ≠ [] := by
  intro hnil
  have hlength := congrArg List.length hnil
  cases m.started with
  | inl h =>
    rw [event] at hlength
    rw [hlength] at h
    exact absurd h (Nat.not_lt_zero _)
  | inr h =>
    rw [event, List.append_assoc] at hnil
    exact h.1 (List.append_eq_nil_iff.mp hnil).1

theorem inside_prefix : m.inside <+: m.event := by
  rw [event, List.append_assoc]
  exact List.prefix_append _ _

/-- A match at the end starts behind a character that is no line feed. -/
theorem inside_eq_event (h : ¬m.inside.length < m.event.length) : m.inside = m.event ∧ m.event.getLast? ≠ some lineFeed := by
  have hsame := m.inside_prefix.eq_of_length (Nat.le_antisymm m.inside_prefix.length_le (Nat.not_lt.mp h))
  have hlast := (m.started.resolve_left h).2
  rw [hsame] at hlast
  exact ⟨hsame, hlast⟩

theorem count_dropLast {u : Text} (h : u.getLast? ≠ some lineFeed) : u.dropLast.count lineFeed = u.count lineFeed := by
  rcases List.eq_nil_or_concat u with rfl | ⟨front, c, rfl⟩
  · rfl
  · rw [List.concat_eq_append] at h ⊢
    have hc : ¬c = lineFeed := by simpa using h
    rw [List.dropLast_concat, List.count_append, List.count_singleton]
    simp [hc]

theorem count_position : (t.take m.position).count lineFeed = m.before.count lineFeed + m.inside.count lineFeed := by
  have htake : t.take m.position = m.before ++ m.event.take (min m.inside.length (m.event.length - 1)) := by
    have hwhole : t = m.before ++ (m.event ++ m.after) := by
      rw [← List.append_assoc]
      exact m.whole
    have hshort : min m.inside.length (m.event.length - 1) ≤ m.event.length := by omega
    refine (congrArg (List.take m.position) hwhole).trans ?_
    rw [position, List.take_length_add_append, List.take_append_of_le_length hshort]
  rw [htake, List.count_append]
  refine congrArg (m.before.count lineFeed + ·) ?_
  by_cases hinside : m.inside.length < m.event.length
  · have hmin : min m.inside.length (m.event.length - 1) = m.inside.length := by omega
    rw [hmin, ← List.prefix_iff_eq_take.mp m.inside_prefix]
  · obtain ⟨hsame, hlast⟩ := m.inside_eq_event hinside
    have hmin : min m.inside.length (m.event.length - 1) = m.event.length - 1 := by omega
    rw [hmin, ← List.dropLast_eq_take, count_dropLast hlast, hsame]

theorem position_lt : m.position < t.length := by
  have hsome := List.length_pos_iff.mpr m.event_ne_nil
  have hlength := congrArg List.length m.whole
  rw [List.length_append, List.length_append] at hlength
  have hevent : (m.inside ++ m.matched ++ m.behind).length = m.event.length := rfl
  rw [hevent] at hlength
  rw [position]
  omega

/-- Without multiline matches the event is one line. -/
theorem count_inside (h : o.multiline = false) : m.inside.count lineFeed = 0 := by
  have hone : lineFeed ∉ m.event.dropLast := m.oneLine h
  rw [List.count_eq_zero]
  intro hmem
  by_cases hinside : m.inside.length < m.event.length
  · refine hone ?_
    have hprefix := List.prefix_of_prefix_length_le m.inside_prefix (List.dropLast_prefix m.event) (by rw [List.length_dropLast]; omega)
    exact hprefix.subset hmem
  · obtain ⟨hsame, hlast⟩ := m.inside_eq_event hinside
    have hnone := List.count_eq_zero.mpr hone
    rw [count_dropLast hlast, ← hsame] at hnone
    exact List.count_eq_zero.mp hnone hmem

/-- The search reports one number: the line feeds in front of the match, and one. -/
theorem searchLines_eq (recent : List (ℕ × Text)) (path : Text) :
    m.searchLines recent path = [(t.take m.position).count lineFeed + 1] := by
  rw [m.count_position, searchLines, matchesOf]
  split
  · have hbytes : ((m.event.flatMap utf8Bytes).take (m.inside.flatMap utf8Bytes).length) = m.inside.flatMap utf8Bytes := by
      rw [event, List.append_assoc, List.flatMap_append, List.take_left]
    have hstart : (submatchDetails m.eventLine m.submatch).1 = m.before.count lineFeed + m.inside.count lineFeed + 1 := by
      have hcount : ((m.event.flatMap utf8Bytes).take m.submatch.start).count (0x0A : Byte) = m.inside.count lineFeed := by
        rw [submatch, hbytes, count_utf8Bytes]
      rw [submatchDetails, hcount, eventLine]
      omega
    exact congrArg (fun n => [n]) hstart
  · next hplain =>
    rw [Bool.or_eq_true, not_or, Bool.not_eq_true] at hplain
    rw [m.count_inside hplain.1]
    rfl

end FileMatch

/-! ## One numbering -/

/-- What a file decodes to. -/
abbrev FileText := {t : Text // isEncodable t = true}

theorem exists_line_start (u : Text) : ∃ before inside, u = before ++ inside ∧ (before = [] ∨ before.getLast? = some lineFeed) := by
  by_cases hfeed : lineFeed ∈ u
  · obtain ⟨front, back, hsplit, -⟩ := List.eq_append_cons_of_mem hfeed
    exact ⟨front ++ [lineFeed], back, by rw [hsplit]; simp, Or.inr (by simp)⟩
  · exact ⟨[], u, rfl, Or.inl rfl⟩

def multilineOptions : ContextOptions := ⟨0, 0, true, false⟩

/-- Every character is the start of a match. -/
theorem exists_match (t : FileText) {p : ℕ} (hp : p < t.val.length) : ∃ m : FileMatch multilineOptions t.val, m.position = p := by
  obtain ⟨before, inside, hsplit, hstart⟩ := exists_line_start (t.val.take p)
  have hbehind : t.val.drop p ≠ [] := by simpa using hp
  have hlonger : inside.length < (inside ++ [] ++ t.val.drop p).length := by
    have hpos := List.length_pos_iff.mpr hbehind
    rw [List.append_nil, List.length_append]
    omega
  have hwhole : t.val = before ++ (inside ++ [] ++ t.val.drop p) ++ [] := by
    rw [List.append_nil, List.append_nil, ← List.append_assoc, ← hsplit, List.take_append_drop]
  refine ⟨⟨before, inside, [], t.val.drop p, [], hwhole, hstart, Or.inl rfl, nofun, ?_, Or.inl hlonger⟩, ?_⟩
  · refine isEncodable_sublist (fun c hc => ?_) t.property
    rw [hwhole]
    simp only [List.mem_append] at hc ⊢
    tauto
  · have hlength := congrArg List.length hsplit
    rw [List.length_append, List.length_take] at hlength
    simp only [FileMatch.position, FileMatch.event]
    omega

/-- The numbers mean the same line everywhere exactly when only line feeds break the lines. -/
theorem sameLines_iff (t : FileText) : SameLines t.val ↔ OnlyFeeds t.val := by
  rw [← countsLines_iff]
  constructor
  · intro h p hp
    obtain ⟨m, rfl⟩ := exists_match t hp
    have hsame := h.searched multilineOptions m [] []
    rw [m.searchLines_eq] at hsame
    exact (List.cons.inj hsame).1
  · intro h
    refine ⟨fun o m recent path => ?_, fun patterns file => located_line patterns file t.val⟩
    rw [m.searchLines_eq, h m.position m.position_lt]

def formFeedText : FileText := ⟨txt "a\x0cb\nc", by decide⟩

def lastMatch : FileMatch multilineOptions formFeedText.val where
  before := txt "a\x0cb\n"
  inside := []
  matched := txt "c"
  behind := []
  after := []
  whole := by decide
  starts := Or.inr (by decide)
  ends := Or.inl rfl
  oneLine := nofun
  encodable := by decide
  started := Or.inl (by decide)

/-- Behind a form feed the search reports line two for what the readers show as line three. -/
theorem form_feed_shifts : lastMatch.searchLines [] [] = [2] ∧ readLine formFeedText.val lastMatch.position = 3 ∧
    ¬SameLines formFeedText.val := by
  have hsearch : lastMatch.searchLines [] [] = [2] := by decide +kernel
  have hread : readLine formFeedText.val lastMatch.position = 3 := by decide +kernel
  refine ⟨hsearch, hread, fun h => ?_⟩
  have hsame := h.searched multilineOptions lastMatch [] []
  rw [hsearch, hread] at hsame
  exact absurd hsame (by decide)

end WebOauthMcp.LineNumbers
