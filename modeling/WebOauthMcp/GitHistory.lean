import WebOauthMcp.GitOutput
import WebOauthMcp.Words
import Mathlib.Logic.Function.Basic

/-!
# Blame and log

`git_blame` reads porcelain output line by line: a header opens a record, keys tell about its
commit, the line behind a tab closes it. `git_log` splits one line a commit at `%x1f`. Both
read pieces, and a record may be cut into several.
-/

namespace WebOauthMcp.GitHistory
open CodePoints LineSplitting Words GitOutput

/-! ## Blame -/

/-- What is known of a commit, and the line it was last named for. -/
structure BlameInfo where
  finalLine : ℤ := 0
  author : Text := []
  authorTime : Text := []
  summary : Text := []
  filename : Text := []
  previous : Text := []

structure BlameEntry where
  line : ℤ
  commit : Text
  shortCommit : Text
  author : Text
  authorTime : Text
  summary : Text
  content : Text
  deriving DecidableEq

/-- `current[key] = value`, for the keys that are kept. -/
def BlameInfo.set (info : BlameInfo) (key value : Text) : BlameInfo :=
  if key = txt "author" then { info with author := value }
  else if key = txt "author-time" then { info with authorTime := value }
  else if key = txt "summary" then { info with summary := value }
  else if key = txt "filename" then { info with filename := value }
  else if key = txt "previous" then { info with previous := value }
  else info

/-- The loop of `git_blame`: what is known by commit, and the open commit. -/
structure Reading where
  entries : List BlameEntry := []
  known : Text → BlameInfo := fun _ => {}
  current : Option Text := none

def isSpaceChar (c : CodePoint) : Bool := c = space

def Reading.headed (s : Reading) (sha : Text) (n : ℤ) : Reading :=
  { s with known := Function.update s.known sha { s.known sha with finalLine := n }, current := some sha }

def Reading.keyed (s : Reading) (sha raw : Text) : Reading :=
  let key := raw.takeWhile fun c => !isSpaceChar c
  let value := (raw.dropWhile fun c => !isSpaceChar c).drop 1
  { s with known := Function.update s.known sha ((s.known sha).set key value) }

def Reading.entry (s : Reading) (sha raw : Text) : BlameEntry where
  line := (s.known sha).finalLine
  commit := sha
  shortCommit := sha.take 7
  author := (s.known sha).author
  authorTime := (s.known sha).authorTime
  summary := (s.known sha).summary
  content := raw.drop 1

def Reading.closed (s : Reading) (sha raw : Text) : Reading := { s with entries := s.entries ++ [s.entry sha raw], current := none }

/-- One piece; `none` is the `ValueError` of `int`. -/
def Reading.step (int : Text → Option ℤ) (s : Reading) (raw : Text) : Option Reading :=
  match s.current with
  | none =>
    match raw.splitOn space with
    | sha :: _ :: final :: _ => (int final).map (s.headed sha)
    | _ => some s
  | some sha => if [tab] <+: raw then some (s.closed sha raw) else some (s.keyed sha raw)

def Reading.run (int : Text → Option ℤ) (s : Reading) (pieces : List Text) : Option Reading := pieces.foldlM (Reading.step int) s

/-- The entries of `git_blame`. -/
def blameEntries (int : Text → Option ℤ) (stdout : Text) : Option (List BlameEntry) :=
  (Reading.run int {} (splitlines (universalNewlines stdout))).map Reading.entries

inductive MetaKey
  | author | authorMail | authorTime | authorTz | committer | committerMail | committerTime | committerTz
  | summary | previous | filename
  deriving DecidableEq

def MetaKey.text : MetaKey → Text
  | .author => txt "author"
  | .authorMail => txt "author-mail"
  | .authorTime => txt "author-time"
  | .authorTz => txt "author-tz"
  | .committer => txt "committer"
  | .committerMail => txt "committer-mail"
  | .committerTime => txt "committer-time"
  | .committerTz => txt "committer-tz"
  | .summary => txt "summary"
  | .previous => txt "previous"
  | .filename => txt "filename"

inductive MetaLine
  | boundary
  | field (key : MetaKey) (value : FileLine)

def MetaLine.print : MetaLine → Text
  | .boundary => txt "boundary"
  | .field key value => key.text ++ txt " " ++ value.text

def isHex (c : CodePoint) : Bool := (txt "0123456789abcdef").contains c

/-- A blamed line; its metadata lines stand where the commit is named first. -/
structure BlameRecord where
  commit : Text
  hex : commit.all isHex = true
  originalLine : ℕ
  finalLine : ℕ
  groupSize : Option ℕ
  metadata : List MetaLine
  content : FileLine

def BlameRecord.header (r : BlameRecord) : Text :=
  r.commit ++ txt " " ++ decimal r.originalLine ++ txt " " ++ decimal r.finalLine ++
    (r.groupSize.map fun n => txt " " ++ decimal n).getD []

def BlameRecord.contentLine (r : BlameRecord) : Text := tab :: r.content.text

def BlameRecord.lines (r : BlameRecord) : List Text := r.header :: (r.metadata.map MetaLine.print ++ [r.contentLine])

/-- `git blame --porcelain`. -/
def blameOutput (records : List BlameRecord) : Text := printed (records.flatMap BlameRecord.lines)

/-- Too short for a header. -/
def Short (piece : Text) : Prop := (piece.splitOn space).length < 3

instance (piece : Text) : Decidable (Short piece) := inferInstanceAs (Decidable ((piece.splitOn space).length < 3))

/-- A header whose line number is read. -/
def HeaderLike (int : Text → Option ℤ) (piece : Text) : Prop :=
  match piece.splitOn space with
  | _ :: _ :: final :: _ => (int final).isSome = true
  | _ => False

def BlameRecord.metaPieces (r : BlameRecord) : List Text := (r.metadata.map MetaLine.print).flatMap cut

/-- Behind a break, the metadata repeats the line of the content, and no later piece of the
record opens another one; the last piece of all may. -/
def BlameRecord.Repeats (int : Text → Option ℤ) (r : BlameRecord) (final : Prop) : Prop :=
  ∃ front back, r.metaPieces = front ++ r.contentLine :: back ∧ (∀ p ∈ front, ¬[tab] <+: p) ∧ (∀ p ∈ back, Short p) ∧
    (Short r.contentLine ∨ final ∧ HeaderLike int r.contentLine)

/-- The content has no line break, and no piece of the metadata starts like a content. -/
structure BlameRecord.Readable (int : Text → Option ℤ) (r : BlameRecord) (final : Prop) : Prop where
  content : Unbroken r.content.text
  metadata : (∀ p ∈ r.metaPieces, ¬[tab] <+: p) ∨ r.Repeats int final

/-- What a reader expects of an entry. -/
def BlameEntry.shown (e : BlameEntry) : ℤ × Text × Text := (e.line, e.commit, e.content)
def BlameRecord.shown (r : BlameRecord) : ℤ × Text × Text := (r.finalLine, r.commit, r.content.text)

section
variable {int : Text → Option ℤ} {s t : Reading} {sha raw : Text} {ps qs : List Text}

theorem run_cons : Reading.run int s (raw :: ps) = (Reading.step int s raw).bind fun u => Reading.run int u ps := rfl

theorem run_append : Reading.run int s (ps ++ qs) = (Reading.run int s ps).bind fun u => Reading.run int u qs := List.foldlM_append

theorem step_open (hs : s.current = some sha) :
    Reading.step int s raw = if [tab] <+: raw then some (s.closed sha raw) else some (s.keyed sha raw) := by
  rw [Reading.step, hs]

theorem step_short (hs : s.current = none) (hraw : Short raw) : Reading.step int s raw = some s := by
  rw [Reading.step, hs]
  dsimp only
  split
  · next hsplit =>
    rw [Short, hsplit] at hraw
    simp only [List.length_cons] at hraw
    omega
  · rfl

/-- A piece that is not too short opens a record, if anything. -/
theorem step_long (hs : s.current = none) (hraw : ¬Short raw) (h : Reading.step int s raw = some t) :
    HeaderLike int raw ∧ t.entries = s.entries ∧ ∃ commit, (raw.splitOn space).head? = some commit ∧ t.current = some commit := by
  rw [Reading.step, hs] at h
  dsimp only at h
  split at h
  · next commit _ final _ hsplit =>
    obtain ⟨n, hn, rfl⟩ := Option.map_eq_some_iff.mp h
    refine ⟨?_, rfl, commit, by rw [hsplit]; rfl, rfl⟩
    rw [HeaderLike, hsplit]
    exact Option.isSome_of_eq_some hn
  · next hsplit =>
    refine absurd ?_ hraw
    rw [Short]
    rcases hlist : raw.splitOn space with _ | ⟨a, _ | ⟨b, _ | ⟨c, rest⟩⟩⟩
    · simp
    · simp
    · simp
    · exact absurd hlist (hsplit a b c rest)

theorem entries_step (h : Reading.step int s raw = some t) : s.entries <+: t.entries := by
  rw [Reading.step] at h
  split at h
  · split at h
    · obtain ⟨n, -, rfl⟩ := Option.map_eq_some_iff.mp h
      exact List.prefix_refl _
    · obtain rfl := Option.some.inj h
      exact List.prefix_refl _
  · split at h
    · obtain rfl := Option.some.inj h
      exact List.prefix_append _ _
    · obtain rfl := Option.some.inj h
      exact List.prefix_refl _

/-- Entries are only added. -/
theorem entries_run (h : Reading.run int s ps = some t) : s.entries <+: t.entries := by
  induction ps generalizing s with
  | nil =>
    obtain rfl := Option.some.inj h
    exact List.prefix_refl _
  | cons p ps ih =>
    rw [run_cons, Option.bind_eq_some_iff] at h
    obtain ⟨u, hu, h⟩ := h
    exact (entries_step hu).trans (ih h)

variable (int) in
/-- Keys leave the open record open, and its number as it is. -/
theorem run_keys (hs : s.current = some sha) (hkeys : ∀ p ∈ ps, ¬[tab] <+: p) :
    ∃ u, Reading.run int s ps = some u ∧ u.current = some sha ∧ u.entries = s.entries ∧
      (u.known sha).finalLine = (s.known sha).finalLine := by
  induction ps generalizing s with
  | nil => exact ⟨s, rfl, hs, rfl, rfl⟩
  | cons p ps ih =>
    rw [List.forall_mem_cons] at hkeys
    have hset : ∀ (info : BlameInfo) (key value : Text), (info.set key value).finalLine = info.finalLine := by
      intro info key value
      rw [BlameInfo.set]
      split_ifs
      all_goals rfl
    obtain ⟨u, hrun, hcurrent, hentries, hnumber⟩ := ih (s := s.keyed sha p) hs hkeys.2
    refine ⟨u, ?_, hcurrent, hentries, hnumber.trans ?_⟩
    · rw [run_cons, step_open hs, if_neg hkeys.1, Option.bind_some, hrun]
    · simp [Reading.keyed, hset]

variable (int) in
/-- An open record is closed by the first piece behind a tab. -/
theorem run_closes (hs : s.current = some sha) (hkeys : ∀ p ∈ ps, ¬[tab] <+: p) (hraw : [tab] <+: raw) :
    ∃ u, Reading.run int s (ps ++ [raw]) = some u ∧ u.current = none ∧
      ∃ e : BlameEntry, u.entries = s.entries ++ [e] ∧ e.shown = ((s.known sha).finalLine, sha, raw.drop 1) := by
  obtain ⟨u, hrun, hcurrent, hentries, hnumber⟩ := run_keys int hs hkeys
  refine ⟨u.closed sha raw, ?_, rfl, u.entry sha raw, ?_, ?_⟩
  · rw [run_append, hrun, Option.bind_some, run_cons, step_open hcurrent, if_pos hraw]
    rfl
  · rw [Reading.closed, hentries]
  · rw [← hnumber]
    rfl

/-- Where pieces hold one behind a tab, it is the first that counts. -/
theorem exists_first_tab (h : ∃ p ∈ ps, [tab] <+: p) : ∃ front raw back, ps = front ++ raw :: back ∧ (∀ p ∈ front, ¬[tab] <+: p) ∧ [tab] <+: raw := by
  obtain ⟨p, hp, htab⟩ := h
  cases hfind : ps.find? fun p => decide ([tab] <+: p) with
  | none => exact absurd (decide_eq_true htab) (by simpa using List.find?_eq_none.mp hfind p hp)
  | some raw =>
    obtain ⟨hraw, front, back, rfl, hfront⟩ := List.find?_eq_some_iff_append.mp hfind
    exact ⟨front, raw, back, rfl, fun q hq => by simpa using hfront q hq, of_decide_eq_true hraw⟩

theorem run_emits (hs : s.current = some sha) (hps : ∃ p ∈ ps, [tab] <+: p) (h : Reading.run int s ps = some t) :
    ∃ e : BlameEntry, e.commit = sha ∧ s.entries ++ [e] <+: t.entries := by
  obtain ⟨front, raw, back, rfl, hfront, hraw⟩ := exists_first_tab hps
  obtain ⟨u, hrun, -, e, hentries, hshown⟩ := run_closes int hs hfront hraw
  rw [List.append_cons, run_append, hrun, Option.bind_some] at h
  refine ⟨e, congrArg (fun x => x.2.1) hshown, ?_⟩
  rw [← hentries]
  exact entries_run h

theorem run_short (hs : s.current = none) (hps : ∀ p ∈ ps, Short p) : Reading.run int s ps = some s := by
  induction ps with
  | nil => rfl
  | cons p ps ih =>
    rw [List.forall_mem_cons] at hps
    rw [run_cons, step_short hs hps.1, Option.bind_some, ih hps.2]

/-- Pieces that add no entry are too short to open a record, but for the last one. -/
theorem run_quiet (hs : s.current = none) (hraw : [tab] <+: raw) (h : Reading.run int s (ps ++ [raw]) = some t)
    (hsame : t.entries.length = s.entries.length) : (∀ p ∈ ps, Short p) ∧
      (Short raw ∧ t = s ∨ HeaderLike int raw ∧ t.entries = s.entries ∧
        ∃ commit, (raw.splitOn space).head? = some commit ∧ t.current = some commit) := by
  induction ps with
  | nil =>
    refine ⟨nofun, ?_⟩
    rw [List.nil_append, run_cons, Option.bind_eq_some_iff] at h
    obtain ⟨u, hu, h⟩ := h
    obtain rfl := Option.some.inj h
    by_cases hshort : Short raw
    · rw [step_short hs hshort] at hu
      exact Or.inl ⟨hshort, (Option.some.inj hu).symm⟩
    · exact Or.inr (step_long hs hshort hu)
  | cons p ps ih =>
    rw [List.cons_append, run_cons, Option.bind_eq_some_iff] at h
    obtain ⟨u, hu, h⟩ := h
    by_cases hshort : Short p
    · rw [step_short hs hshort] at hu
      obtain rfl := Option.some.inj hu
      obtain ⟨hps, hlast⟩ := ih h
      exact ⟨List.forall_mem_cons.mpr ⟨hshort, hps⟩, hlast⟩
    · obtain ⟨-, hentries, commit, -, hcurrent⟩ := step_long hs hshort hu
      obtain ⟨e, -, hgrown⟩ := run_emits hcurrent ⟨raw, List.mem_append_right _ (List.mem_singleton.mpr rfl), hraw⟩ h
      have hlength := hgrown.length_le
      rw [List.length_append, hentries, List.length_singleton] at hlength
      omega

end

/-! ## Records -/

theorem space_notMem_decimal (n : ℕ) : space ∉ decimal n := notMem_decimal (by decide) n

theorem hex_range {c : CodePoint} (h : isHex c = true) : 0x30 ≤ c.val ∧ c.val < 0x7F := by
  have hall : (txt "0123456789abcdef").all (fun d => decide (0x30 ≤ d.val ∧ d.val < 0x7F)) = true := by decide
  simpa using List.all_eq_true.mp hall c (by simpa [isHex] using h)

namespace BlameRecord
variable (r : BlameRecord)

def pieces : List Text := r.lines.flatMap cut

theorem commit_range : ∀ c ∈ r.commit, 0x30 ≤ c.val ∧ c.val < 0x7F := fun c hc => hex_range (List.all_eq_true.mp r.hex c hc)

theorem space_notMem_commit : space ∉ r.commit := by
  intro hmem
  exact absurd (r.commit_range space hmem).1 (by decide)

theorem tab_notMem_commit : tab ∉ r.commit := by
  intro hmem
  exact absurd (r.commit_range tab hmem).1 (by decide)

theorem header_printable : Printable r.header := by
  have hcommit : Printable r.commit := by
    intro c hc
    have hrange := r.commit_range c hc
    omega
  have hblank : Printable (txt " ") := printable_of_all (by decide)
  have hgroup : Printable ((r.groupSize.map fun n => txt " " ++ decimal n).getD []) := by
    cases r.groupSize with
    | none => exact printable_of_all (by decide)
    | some n => exact hblank.append (decimal_printable n)
  exact ((((hcommit.append hblank).append (decimal_printable _)).append hblank).append (decimal_printable _)).append hgroup

theorem header_unbroken : Unbroken r.header := r.header_printable.unbroken

theorem pieces_eq : r.pieces = r.header :: (r.metaPieces ++ cut r.contentLine) := by
  rw [pieces, lines, List.flatMap_cons, cut_unbroken r.header_unbroken, List.flatMap_append, List.flatMap_singleton, metaPieces]
  rfl

theorem splitOn_header : ∃ rest, r.header.splitOn space = r.commit :: decimal r.originalLine :: decimal r.finalLine :: rest := by
  have hblank : txt " " = [space] := by decide
  have hlast : ∃ rest, (decimal r.finalLine ++ (r.groupSize.map fun n => [space] ++ decimal n).getD []).splitOn space =
      decimal r.finalLine :: rest := by
    cases r.groupSize with
    | none =>
      refine ⟨[], ?_⟩
      rw [Option.map_none, Option.getD_none, List.append_nil, List.splitOn_eq_singleton (space_notMem_decimal _)]
    | some n =>
      refine ⟨(decimal n).splitOn space, ?_⟩
      rw [Option.map_some, Option.getD_some]
      exact List.splitOn_append_cons_self_of_not_mem (space_notMem_decimal _) _
  obtain ⟨rest, hrest⟩ := hlast
  refine ⟨rest, ?_⟩
  simp only [List.singleton_append] at hrest
  rw [header, hblank]
  simp only [List.append_assoc, List.cons_append, List.nil_append]
  rw [List.splitOn_append_cons_self_of_not_mem r.space_notMem_commit, List.splitOn_append_cons_self_of_not_mem (space_notMem_decimal _),
    hrest]

/-- The header opens its record. -/
theorem step_header {int : Text → Option ℤ} (hint : int (decimal r.finalLine) = some (r.finalLine : ℤ)) {s : Reading} (hs : s.current = none) :
    Reading.step int s r.header = some (s.headed r.commit r.finalLine) := by
  obtain ⟨rest, hsplit⟩ := r.splitOn_header
  rw [Reading.step, hs]
  dsimp only
  rw [hsplit]
  dsimp only
  rw [hint, Option.map_some]

theorem tab_mem_cut : ∃ p ∈ cut r.contentLine, [tab] <+: p := by
  obtain ⟨piece, rest, -, hcut⟩ := cut_cons (c := tab) (by decide) r.content.text
  refine ⟨tab :: piece, ?_, List.prefix_append [tab] piece⟩
  rw [contentLine, hcut]
  exact List.mem_cons_self ..

/-- Every record adds an entry, wherever its pieces are read from. -/
theorem run_pieces {int : Text → Option ℤ} (hint : int (decimal r.finalLine) = some (r.finalLine : ℤ)) {s t : Reading}
    (h : Reading.run int s r.pieces = some t) : s.entries.length < t.entries.length := by
  have htab : ∃ p ∈ r.metaPieces ++ cut r.contentLine, [tab] <+: p := by
    obtain ⟨p, hp, hstart⟩ := r.tab_mem_cut
    exact ⟨p, List.mem_append_right _ hp, hstart⟩
  have hopen : ∃ sha u, Reading.run int s r.pieces = Reading.run int u (r.metaPieces ++ cut r.contentLine) ∧ u.current = some sha ∧
      u.entries = s.entries := by
    cases hs : s.current with
    | none =>
      refine ⟨r.commit, s.headed r.commit r.finalLine, ?_, rfl, rfl⟩
      rw [r.pieces_eq, run_cons, r.step_header hint hs, Option.bind_some]
    | some sha =>
      have hheader : ¬[tab] <+: r.header := by
        intro hstart
        have hrange := r.header_printable tab (hstart.subset (List.mem_singleton.mpr rfl))
        exact absurd hrange.1 (by decide)
      refine ⟨sha, s.keyed sha r.header, ?_, hs, rfl⟩
      rw [r.pieces_eq, run_cons, step_open hs, if_neg hheader, Option.bind_some]
  obtain ⟨sha, u, hrun, hcurrent, hentries⟩ := hopen
  rw [hrun] at h
  obtain ⟨e, -, hgrown⟩ := run_emits hcurrent htab h
  have hlength := hgrown.length_le
  rw [List.length_append, List.length_singleton, hentries] at hlength
  omega

theorem tab_prefix_contentLine : [tab] <+: r.contentLine := List.prefix_append [tab] r.content.text

theorem tab_mem_head {token : Text} (h : (r.contentLine.splitOn space).head? = some token) : tab ∈ token := by
  have hother : (tab == space) = false := by decide
  rw [contentLine, List.splitOn_cons_eq_if_modifyHead, hother, if_neg (by decide)] at h
  cases hlist : r.content.text.splitOn space with
  | nil => exact absurd hlist (List.splitOn_ne_nil _ _)
  | cons first rest =>
    rw [hlist, List.modifyHead_cons, List.head?_cons] at h
    rw [← Option.some.inj h]
    exact List.mem_cons_self ..

theorem contentLine_unbroken_iff : Unbroken r.contentLine ↔ Unbroken r.content.text := by
  have htab : isLineBreak tab = false := by decide
  simp [Unbroken, contentLine, htab]

/-- Up to the first piece behind a tab, a record is read as it should be. -/
theorem run_front {int : Text → Option ℤ} (hint : int (decimal r.finalLine) = some (r.finalLine : ℤ)) {s : Reading} (hs : s.current = none)
    {front : List Text} (hfront : ∀ p ∈ front, ¬[tab] <+: p) {raw : Text} (hraw : [tab] <+: raw) :
    ∃ u, Reading.run int s (r.header :: (front ++ [raw])) = some u ∧ u.current = none ∧
      ∃ e : BlameEntry, u.entries = s.entries ++ [e] ∧ e.shown = ((r.finalLine : ℤ), r.commit, raw.drop 1) := by
  have hcurrent : (s.headed r.commit r.finalLine).current = some r.commit := rfl
  obtain ⟨u, hrun, hnone, e, hentries, hshown⟩ := run_closes int hcurrent hfront hraw
  refine ⟨u, ?_, hnone, e, hentries, ?_⟩
  · rw [run_cons, r.step_header hint hs, Option.bind_some, hrun]
  · rw [hshown]
    simp [Reading.headed]

/-- A record that adds its entry and no other. -/
theorem read_record {int : Text → Option ℤ} (hint : int (decimal r.finalLine) = some (r.finalLine : ℤ)) {s u : Reading} (hs : s.current = none)
    (hu : Reading.run int s r.pieces = some u) (hshown : u.entries.map BlameEntry.shown = s.entries.map BlameEntry.shown ++ [r.shown]) :
    Unbroken r.content.text ∧ ((∀ p ∈ r.metaPieces, ¬[tab] <+: p) ∧ u.current = none ∨
      ∃ front back, r.metaPieces = front ++ r.contentLine :: back ∧ (∀ p ∈ front, ¬[tab] <+: p) ∧ (∀ p ∈ back, Short p) ∧
        (Short r.contentLine ∧ u.current = none ∨
          HeaderLike int r.contentLine ∧ ∃ commit, (r.contentLine.splitOn space).head? = some commit ∧ u.current = some commit)) := by
  have htab : ∃ p ∈ r.metaPieces ++ cut r.contentLine, [tab] <+: p := by
    obtain ⟨p, hp, hstart⟩ := r.tab_mem_cut
    exact ⟨p, List.mem_append_right _ hp, hstart⟩
  obtain ⟨front, raw, back, hbody, hfront, hraw⟩ := exists_first_tab htab
  obtain ⟨v, hrun, hnone, e, hentries, heshown⟩ := r.run_front hint hs hfront hraw
  rw [r.pieces_eq, hbody, List.append_cons, ← List.cons_append, run_append, hrun, Option.bind_some] at hu
  have hlength : u.entries.length = v.entries.length := by
    have hcount := congrArg List.length hshown
    rw [hentries]
    simpa using hcount
  have hsame : u.entries = v.entries := (entries_run hu).eq_of_length hlength.symm |>.symm
  have hcontent : raw = r.contentLine := by
    rw [hsame, hentries, List.map_append, List.append_cancel_left_eq, List.map_singleton, heshown] at hshown
    obtain ⟨rest, rfl⟩ := hraw
    have hrest : rest = r.content.text := congrArg (fun x => x.2.2) (List.cons.inj hshown).1
    rw [hrest]
    rfl
  have hunbroken : Unbroken r.contentLine := by
    have hmem : raw ∈ r.metaPieces ++ cut r.contentLine := by
      rw [hbody]
      simp
    rw [hcontent] at hmem
    cases List.mem_append.mp hmem with
    | inl hmem =>
      obtain ⟨l, -, hl⟩ := List.mem_flatMap.mp hmem
      exact unbroken_of_mem_cut hl
    | inr hmem => exact unbroken_of_mem_cut hmem
  refine ⟨r.contentLine_unbroken_iff.mp hunbroken, ?_⟩
  rw [cut_unbroken hunbroken, hcontent] at hbody
  rcases List.eq_nil_or_concat back with rfl | ⟨back, last, rfl⟩
  · obtain rfl := Option.some.inj hu
    refine Or.inl ⟨?_, hnone⟩
    rw [List.append_cancel_right hbody]
    exact hfront
  · rw [List.concat_eq_append, ← List.cons_append, ← List.append_assoc] at hbody
    obtain ⟨hpieces, hlast⟩ := List.append_inj' hbody rfl
    obtain rfl : r.contentLine = last := (List.cons.inj hlast).1
    rw [List.concat_eq_append] at hu
    obtain ⟨hback, hend⟩ := run_quiet hnone r.tab_prefix_contentLine hu hlength
    refine Or.inr ⟨front, back, hpieces, hfront, hback, ?_⟩
    cases hend with
    | inl hend =>
      obtain ⟨hshort, rfl⟩ := hend
      exact Or.inl ⟨hshort, hnone⟩
    | inr hend => exact Or.inr ⟨hend.1, hend.2.2⟩

/-- A readable record is read. -/
theorem run_readable {int : Text → Option ℤ} (hint : int (decimal r.finalLine) = some (r.finalLine : ℤ)) {s : Reading} (hs : s.current = none)
    {final : Prop} (h : r.Readable int final) : ∃ u, Reading.run int s r.pieces = some u ∧
      u.entries.map BlameEntry.shown = s.entries.map BlameEntry.shown ++ [r.shown] ∧ (u.current = none ∨ final) := by
  have hcut : cut r.contentLine = [r.contentLine] := cut_unbroken (r.contentLine_unbroken_iff.mpr h.content)
  cases h.metadata with
  | inl hkeys =>
    obtain ⟨u, hrun, hnone, e, hentries, hshown⟩ := r.run_front hint hs hkeys r.tab_prefix_contentLine
    refine ⟨u, ?_, ?_, Or.inl hnone⟩
    · rw [r.pieces_eq, hcut, hrun]
    · rw [hentries, List.map_append, List.map_singleton, hshown]
      rfl
  | inr hrepeats =>
    obtain ⟨front, back, hpieces, hfront, hback, hlast⟩ := hrepeats
    obtain ⟨u, hrun, hnone, e, hentries, hshown⟩ := r.run_front hint hs hfront r.tab_prefix_contentLine
    have hall : Reading.run int s r.pieces = Reading.run int u [r.contentLine] := by
      have hsplit : r.header :: (front ++ r.contentLine :: back ++ [r.contentLine]) =
          r.header :: (front ++ [r.contentLine]) ++ (back ++ [r.contentLine]) := by simp
      rw [r.pieces_eq, hcut, hpieces, hsplit, run_append, hrun, Option.bind_some, run_append, run_short hnone hback, Option.bind_some]
    have hmap : u.entries.map BlameEntry.shown = s.entries.map BlameEntry.shown ++ [r.shown] := by
      rw [hentries, List.map_append, List.map_singleton, hshown]
      rfl
    by_cases hshort : Short r.contentLine
    · refine ⟨u, ?_, hmap, Or.inl hnone⟩
      rw [hall, run_cons, step_short hnone hshort]
      rfl
    · obtain ⟨hfinal, hheader⟩ := hlast.resolve_left hshort
      rw [HeaderLike] at hheader
      split at hheader
      · next commit _ number _ hsplit =>
        obtain ⟨n, hn⟩ := Option.isSome_iff_exists.mp hheader
        refine ⟨u.headed commit n, ?_, hmap, Or.inr hfinal⟩
        rw [hall, run_cons, Reading.step, hnone]
        dsimp only
        rw [hsplit]
        dsimp only
        rw [hn]
        rfl
      · exact absurd hheader id

end BlameRecord

/-- From any state, the records add an entry each at least. -/
theorem length_run_records {int : Text → Option ℤ} {records : List BlameRecord}
    (hint : ∀ r ∈ records, int (decimal r.finalLine) = some (r.finalLine : ℤ)) {s t : Reading}
    (h : Reading.run int s (records.flatMap BlameRecord.pieces) = some t) : s.entries.length + records.length ≤ t.entries.length := by
  induction records generalizing s with
  | nil =>
    obtain rfl := Option.some.inj h
    exact Nat.le_refl _
  | cons r records ih =>
    rw [List.forall_mem_cons] at hint
    rw [List.flatMap_cons, run_append, Option.bind_eq_some_iff] at h
    obtain ⟨u, hu, h⟩ := h
    have hone := r.run_pieces hint.1 hu
    have hrest := ih hint.2 h
    rw [List.length_cons]
    omega

/-- Each record is readable, the last one as the last. -/
def AllReadable (int : Text → Option ℤ) : List BlameRecord → Prop
  | [] => True
  | r :: records => r.Readable int (records = []) ∧ AllReadable int records

theorem run_records_iff {int : Text → Option ℤ} {records : List BlameRecord}
    (hint : ∀ r ∈ records, int (decimal r.finalLine) = some (r.finalLine : ℤ)) {s : Reading} (hs : s.current = none) :
    (∃ t, Reading.run int s (records.flatMap BlameRecord.pieces) = some t ∧
      t.entries.map BlameEntry.shown = s.entries.map BlameEntry.shown ++ records.map BlameRecord.shown) ↔ AllReadable int records := by
  induction records generalizing s with
  | nil => exact iff_of_true ⟨s, rfl, (List.append_nil _).symm⟩ trivial
  | cons r records ih =>
    rw [List.forall_mem_cons] at hint
    have hsplit : s.entries.map BlameEntry.shown ++ (r :: records).map BlameRecord.shown =
        s.entries.map BlameEntry.shown ++ [r.shown] ++ records.map BlameRecord.shown := List.append_cons ..
    rw [List.flatMap_cons, AllReadable, hsplit]
    constructor
    · rintro ⟨t, hrun, hshown⟩
      rw [run_append, Option.bind_eq_some_iff] at hrun
      obtain ⟨u, hu, ht⟩ := hrun
      have hone := r.run_pieces hint.1 hu
      have hrest := length_run_records hint.2 ht
      have hcount := congrArg List.length hshown
      simp only [List.length_map, List.length_append, List.length_singleton] at hcount
      -- the counts leave one entry for this record
      have hmap : u.entries.map BlameEntry.shown = s.entries.map BlameEntry.shown ++ [r.shown] := by
        have hleft : u.entries.map BlameEntry.shown <+: t.entries.map BlameEntry.shown := (entries_run ht).map _
        have hright : s.entries.map BlameEntry.shown ++ [r.shown] <+: t.entries.map BlameEntry.shown := by
          rw [hshown]
          exact List.prefix_append _ _
        refine (List.prefix_of_prefix_length_le hleft hright ?_).eq_of_length ?_
        · simp only [List.length_map, List.length_append, List.length_singleton]
          omega
        · simp only [List.length_map, List.length_append, List.length_singleton]
          omega
      obtain ⟨hcontent, hend⟩ := r.read_record hint.1 hs hu hmap
      have hnext : t.entries.map BlameEntry.shown = u.entries.map BlameEntry.shown ++ records.map BlameRecord.shown := by
        rw [hshown, hmap]
      cases hend with
      | inl hend => exact ⟨⟨hcontent, Or.inl hend.1⟩, (ih hint.2 hend.2).mp ⟨t, ht, hnext⟩⟩
      | inr hend =>
        obtain ⟨front, back, hpieces, hfront, hback, hlast⟩ := hend
        cases hlast with
        | inl hlast =>
          exact ⟨⟨hcontent, Or.inr ⟨front, back, hpieces, hfront, hback, Or.inl hlast.1⟩⟩, (ih hint.2 hlast.2).mp ⟨t, ht, hnext⟩⟩
        | inr hlast =>
          obtain ⟨hheader, commit, hcommit, hcurrent⟩ := hlast
          cases records with
          | nil => exact ⟨⟨hcontent, Or.inr ⟨front, back, hpieces, hfront, hback, Or.inr ⟨rfl, hheader⟩⟩⟩, trivial⟩
          | cons r' records =>
            obtain ⟨p, hp, htab⟩ := r'.tab_mem_cut
            have hmem : p ∈ (r' :: records).flatMap BlameRecord.pieces := by
              rw [List.flatMap_cons, r'.pieces_eq]
              simp [hp]
            obtain ⟨e, rfl, rest, hgrown⟩ := run_emits hcurrent ⟨p, hmem, htab⟩ ht
            rw [← hgrown, List.map_append, List.map_append, List.append_assoc, List.append_cancel_left_eq] at hnext
            have hname : e.commit = r'.commit := congrArg (fun x => x.2.1) (List.cons.inj hnext).1
            exact absurd (hname ▸ r.tab_mem_head hcommit) r'.tab_notMem_commit
    · rintro ⟨hreadable, hrecords⟩
      obtain ⟨u, hu, hmap, hend⟩ := r.run_readable hint.1 hs hreadable
      cases hend with
      | inl hnone =>
        obtain ⟨t, ht, hshown⟩ := (ih hint.2 hnone).mpr hrecords
        refine ⟨t, ?_, ?_⟩
        · rw [run_append, hu, Option.bind_some, ht]
        · rw [hshown, hmap]
      | inr hfinal =>
        subst hfinal
        refine ⟨u, ?_, ?_⟩
        · rw [run_append, hu]
          rfl
        · rw [hmap]
          exact (List.append_nil _).symm

theorem blameEntries_iff {int : Text → Option ℤ} {records : List BlameRecord}
    (hint : ∀ r ∈ records, int (decimal r.finalLine) = some (r.finalLine : ℤ)) :
    (blameEntries int (blameOutput records)).map (fun es => es.map BlameEntry.shown) = some (records.map BlameRecord.shown) ↔
      AllReadable int records := by
  have hpieces : (records.flatMap BlameRecord.lines).flatMap cut = records.flatMap BlameRecord.pieces := by
    rw [List.flatMap_assoc]
    rfl
  have hiff := run_records_iff (s := {}) hint rfl
  rw [blameEntries, splitlines_universalNewlines, blameOutput, splitlines_printed, hpieces, Option.map_map, Option.map_eq_some_iff, ← hiff]
  rfl

/-! ## Log -/

def unitSeparator : CodePoint := 0x1F

/-- An entry of `git_log`. -/
structure LogEntry where
  commit : Text
  shortCommit : Text
  summary : Text
  author : Text
  committedAt : Text
  deriving DecidableEq

/-- One piece; `none` is the `ValueError` of unpacking. -/
def parseLog (line : Text) : Option LogEntry :=
  match line.splitOn unitSeparator with
  | [commit, shortCommit, summary, author, committedAt] => some ⟨commit, shortCommit, summary, author, committedAt⟩
  | _ => none

/-- The entries of `git_log`. -/
def logEntries (stdout : Text) : Option (List LogEntry) := (splitlines (universalNewlines stdout)).mapM parseLog

/-- A commit as `--pretty=format:%H%x1f%h%x1f%s%x1f%an%x1f%aI` shows it. -/
structure LogRecord where
  commit : Text
  shortCommit : Text
  summary : FileLine
  author : FileLine
  committedAt : Text
  plain : Printable commit ∧ Printable shortCommit ∧ Printable committedAt
  dated : committedAt ≠ []

def LogRecord.print (r : LogRecord) : Text :=
  r.commit ++ unitSeparator :: (r.shortCommit ++ unitSeparator :: (r.summary.text ++ unitSeparator ::
    (r.author.text ++ unitSeparator :: r.committedAt)))

def LogRecord.entry (r : LogRecord) : LogEntry := ⟨r.commit, r.shortCommit, r.summary.text, r.author.text, r.committedAt⟩

/-- `git log`; with `format:` the line feeds separate. -/
def logOutput (records : List LogRecord) : Text := joinLines (records.map LogRecord.print)

/-- Summary and author have no line break and no separator. -/
structure LogRecord.Readable (r : LogRecord) : Prop where
  summary : Unbroken r.summary.text
  author : Unbroken r.author.text
  summarySeparator : unitSeparator ∉ r.summary.text
  authorSeparator : unitSeparator ∉ r.author.text

theorem mapM_eq_some {α β : Type} {f : α → Option β} {xs : List α} {ys : List β} :
    xs.mapM f = some ys ↔ List.Forall₂ (fun x y => f x = some y) xs ys := by
  induction xs generalizing ys with
  | nil => simp [eq_comm]
  | cons x xs ih =>
    simp only [List.mapM_cons, Option.bind_eq_bind, Option.bind_eq_some_iff, List.forall₂_cons_left_iff]
    constructor
    · rintro ⟨y, hy, zs, hzs, h⟩
      exact ⟨y, zs, hy, ih.mp hzs, (Option.some.inj h).symm⟩
    · rintro ⟨y, zs, hy, hzs, rfl⟩
      exact ⟨y, hy, zs, ih.mpr hzs, rfl⟩

theorem mapM_mem {α β : Type} {f : α → Option β} {xs : List α} {ys : List β} (h : xs.mapM f = some ys) : ∀ x ∈ xs, ∃ y, f x = some y := by
  have hall := mapM_eq_some.mp h
  clear h
  induction hall with
  | nil => exact nofun
  | cons hxy _ ih => exact List.forall_mem_cons.mpr ⟨⟨_, hxy⟩, ih⟩

theorem length_splitOn (t : Text) (c : CodePoint) : (t.splitOn c).length = t.count c + 1 := by
  induction t with
  | nil => rfl
  | cons a t ih =>
    rw [List.splitOn_cons_eq_if_modifyHead, List.count_cons]
    split
    · rw [List.length_cons, ih]
    · rw [List.length_modifyHead, ih, Nat.add_zero]

namespace LogRecord
variable (r : LogRecord)

theorem separator_notMem {t : Text} (h : Printable t) : unitSeparator ∉ t := by
  intro hmem
  exact absurd (h unitSeparator hmem).1 (by decide)

theorem splitOn_print (h : r.Readable) :
    r.print.splitOn unitSeparator = [r.commit, r.shortCommit, r.summary.text, r.author.text, r.committedAt] := by
  rw [print, List.splitOn_append_cons_self_of_not_mem (separator_notMem r.plain.1),
    List.splitOn_append_cons_self_of_not_mem (separator_notMem r.plain.2.1), List.splitOn_append_cons_self_of_not_mem h.summarySeparator,
    List.splitOn_append_cons_self_of_not_mem h.authorSeparator, List.splitOn_eq_singleton (separator_notMem r.plain.2.2)]

theorem parseLog_print (h : r.Readable) : parseLog r.print = some r.entry := by
  rw [parseLog, r.splitOn_print h]
  rfl

theorem ended : ∃ front c, r.print = front ++ [c] ∧ isLineBreak c = false := by
  obtain ⟨front, c, hdate⟩ := (List.eq_nil_or_concat r.committedAt).resolve_left r.dated
  refine ⟨r.commit ++ unitSeparator :: (r.shortCommit ++ unitSeparator :: (r.summary.text ++ unitSeparator ::
    (r.author.text ++ unitSeparator :: front))), c, ?_, ?_⟩
  · simp [print, hdate]
  · have hprintable : Printable r.committedAt := r.plain.2.2
    exact hprintable.unbroken c (by simp [hdate])

theorem unbroken_print_iff : Unbroken r.print ↔ Unbroken r.summary.text ∧ Unbroken r.author.text := by
  have hseparator : isLineBreak unitSeparator = false := by decide
  have hcommit := r.plain.1.unbroken
  have hshort := r.plain.2.1.unbroken
  have hdate := r.plain.2.2.unbroken
  unfold Unbroken at *
  simp only [print, List.forall_mem_append, List.forall_mem_cons]
  tauto

/-- A line that is read has its four separators and no other. -/
theorem separators_of_parseLog {e : LogEntry} (h : parseLog r.print = some e) :
    unitSeparator ∉ r.summary.text ∧ unitSeparator ∉ r.author.text := by
  have hfields : (r.print.splitOn unitSeparator).length = 5 := by
    rw [parseLog] at h
    split at h
    · next hsplit => rw [hsplit]; rfl
    · exact absurd h nofun
  rw [length_splitOn, print] at hfields
  simp only [List.count_append, List.count_cons_self] at hfields
  constructor
  · rw [← List.count_eq_zero]
    omega
  · rw [← List.count_eq_zero]
    omega

end LogRecord

theorem mapM_print {records : List LogRecord} (h : ∀ r ∈ records, r.Readable) :
    (records.map LogRecord.print).mapM parseLog = some (records.map LogRecord.entry) := by
  rw [mapM_eq_some, List.forall₂_map_left_iff, List.forall₂_map_right_iff, List.forall₂_same]
  exact fun r hr => r.parseLog_print (h r hr)

/-- Every commit is read with all its fields. -/
theorem logEntries_readable {records : List LogRecord} (h : ∀ r ∈ records, r.Readable) :
    logEntries (logOutput records) = some (records.map LogRecord.entry) := by
  have hcut : (records.map LogRecord.print).flatMap cut = records.map LogRecord.print := by
    rw [List.flatMap_map, List.map_eq_flatMap]
    exact List.flatMap_congr fun r hr => cut_unbroken (r.unbroken_print_iff.mpr ⟨(h r hr).summary, (h r hr).author⟩)
  rw [logEntries, splitlines_universalNewlines, logOutput, splitlines_joinLines (List.forall_mem_map.mpr fun r _ => r.ended), hcut, mapM_print h]

theorem logEntries_iff (records : List LogRecord) :
    (logEntries (logOutput records)).map (fun es => es.map LogEntry.summary) = some (records.map fun r => r.summary.text) ↔
      ∀ r ∈ records, r.Readable := by
  constructor
  · intro hread
    obtain ⟨es, hes, hsummaries⟩ := Option.map_eq_some_iff.mp hread
    rw [logEntries, splitlines_universalNewlines, logOutput, splitlines_joinLines (List.forall_mem_map.mpr fun r _ => r.ended)] at hes
    have hlength : ((records.map LogRecord.print).flatMap cut).length = (records.map LogRecord.print).length := by
      rw [(mapM_eq_some.mp hes).length_eq, List.length_map, ← List.length_map (f := LogEntry.summary), hsummaries, List.length_map]
    have hunbroken : ∀ r ∈ records, Unbroken r.print := by
      intro r hr
      exact unbroken_of_length_cut r.ended (length_of_flatMap cut_ne_nil hlength _ (List.mem_map_of_mem hr))
    have hcut : (records.map LogRecord.print).flatMap cut = records.map LogRecord.print := by
      rw [List.flatMap_map, List.map_eq_flatMap]
      exact List.flatMap_congr fun r hr => cut_unbroken (hunbroken r hr)
    rw [hcut] at hes
    intro r hr
    obtain ⟨e, he⟩ := mapM_mem hes _ (List.mem_map_of_mem hr)
    obtain ⟨hsummary, hauthor⟩ := r.unbroken_print_iff.mp (hunbroken r hr)
    obtain ⟨hfirst, hsecond⟩ := r.separators_of_parseLog he
    exact ⟨hsummary, hauthor, hfirst, hsecond⟩
  · intro hall
    rw [logEntries_readable hall, Option.map_some, List.map_map]
    rfl

/-- Blame and log are read as git prints them exactly when every record is readable. -/
theorem history_read_iff (int : Text → Option ℤ) (blamed : List BlameRecord) (commits : List LogRecord)
    (hint : ∀ r ∈ blamed, int (decimal r.finalLine) = some (r.finalLine : ℤ)) :
    ((blameEntries int (blameOutput blamed)).map (fun es => es.map BlameEntry.shown) = some (blamed.map BlameRecord.shown) ↔
      AllReadable int blamed) ∧
    ((logEntries (logOutput commits)).map (fun es => es.map LogEntry.summary) = some (commits.map fun r => r.summary.text) ↔
      ∀ r ∈ commits, r.Readable) := ⟨blameEntries_iff hint, logEntries_iff commits⟩

/-- ASCII digits, as `int` reads them. -/
def asciiInt (t : Text) : Option ℤ :=
  if t ≠ [] ∧ t.all (fun c => 0x30 ≤ c.val && c.val ≤ 0x39) then some (t.foldl (fun n c => 10 * n + (c.val - 0x30 : ℤ)) 0) else none

def blamedLine (content : FileLine) : BlameRecord where
  commit := txt "5e1d3f0"
  hex := by decide
  originalLine := 1
  finalLine := 1
  groupSize := some 1
  metadata := [.field .author ⟨txt "Ann", by decide⟩, .field .summary ⟨txt "first", by decide⟩]
  content := content

def logged (summary : FileLine) : LogRecord where
  commit := txt "5e1d3f0a"
  shortCommit := txt "5e1d3f0"
  summary := summary
  author := ⟨txt "Ann", by decide⟩
  committedAt := txt "2024-05-01T10:00:00+00:00"
  plain := ⟨printable_of_all (by decide), printable_of_all (by decide), printable_of_all (by decide)⟩
  dated := by decide

/-- The entries hold for a plain line and a plain summary. -/
theorem plain_history_read :
    (blameEntries asciiInt (blameOutput [blamedLine ⟨txt "x = 1", by decide⟩])).map (fun es => es.map BlameEntry.shown) =
        some ([blamedLine ⟨txt "x = 1", by decide⟩].map BlameRecord.shown) ∧
      (logEntries (logOutput [logged ⟨txt "fix", by decide⟩])).map (fun es => es.map LogEntry.summary) = some [txt "fix"] := by
  have hint : ∀ r ∈ [blamedLine ⟨txt "x = 1", by decide⟩], asciiInt (decimal r.finalLine) = some (r.finalLine : ℤ) := by decide +kernel
  have hblame : AllReadable asciiInt [blamedLine ⟨txt "x = 1", by decide⟩] := by
    refine ⟨⟨?_, Or.inl ?_⟩, trivial⟩
    · exact (printable_of_all (by decide)).unbroken
    · decide +kernel
  have hlog : ∀ r ∈ [logged ⟨txt "fix", by decide⟩], r.Readable := by
    refine List.forall_mem_singleton.mpr ⟨?_, ?_, by decide, by decide⟩
    · exact (printable_of_all (by decide)).unbroken
    · exact (printable_of_all (by decide)).unbroken
  obtain ⟨hleft, hright⟩ := history_read_iff asciiInt [blamedLine ⟨txt "x = 1", by decide⟩] [logged ⟨txt "fix", by decide⟩] hint
  exact ⟨hleft.mpr hblame, hright.mpr hlog⟩

/-- A form feed cuts a content, what follows may be read as a header, and a summary may have too
many fields or too few. -/
theorem broken_history :
    (blameEntries asciiInt (blameOutput [blamedLine ⟨txt "a\x0cb", by decide⟩])).map (fun es => es.map BlameEntry.content) = some [txt "a"] ∧
      blameEntries asciiInt (blameOutput [blamedLine ⟨txt "a\x0cb c d", by decide⟩]) = none ∧
      logEntries (logOutput [logged ⟨txt "a\x0cb", by decide⟩]) = none ∧
      logEntries (logOutput [logged ⟨txt "a\x1fb", by decide⟩]) = none := by
  decide +kernel

end WebOauthMcp.GitHistory
