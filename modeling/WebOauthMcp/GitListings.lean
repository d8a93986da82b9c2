import WebOauthMcp.GitHistory

/-!
# Names in git's listings

`git_status` takes the names out of the short format, where renames show two names around an
arrow and unusual names stand between quotation marks; the filter of `list_files` takes them out
of `git ls-files`. Neither reads the quoting back.
-/

namespace WebOauthMcp.GitListings
open CodePoints LineSplitting Words GitOutput GitHistory

/-! ## Status -/

def arrow : Text := txt " -> "
def question : CodePoint := 0x3F
def branchMark : Text := txt "## "

/-- What stands behind the first arrow. -/
def behindArrow : Text → Option Text
  | [] => none
  | c :: t => if arrow <+: c :: t then some ((c :: t).drop arrow.length) else behindArrow t

/-- `raw_path.split(" -> ", 1)[-1]`. -/
def lastName (t : Text) : Text := (behindArrow t).getD t

structure StatusEntry where
  path : Text
  indexStatus : CodePoint
  worktreeStatus : CodePoint
  deriving DecidableEq

def StatusEntry.isUntracked (e : StatusEntry) : Bool := e.indexStatus = question && e.worktreeStatus = question

/-- A line; `none` is the `IndexError` on a code of fewer than two characters. -/
def parseStatus (line : Text) : Option StatusEntry :=
  match line with
  | x :: y :: rest => some ⟨lastName (rest.drop 1), x, y⟩
  | _ => none

structure StatusReply where
  staged : List Text
  unstaged : List Text
  untracked : List Text
  entries : List StatusEntry
  deriving DecidableEq

def statusReply (entries : List StatusEntry) : StatusReply where
  staged := (entries.filter fun e => !e.isUntracked && decide (e.indexStatus ≠ space)).map StatusEntry.path
  unstaged := (entries.filter fun e => !e.isUntracked && decide (e.worktreeStatus ≠ space)).map StatusEntry.path
  untracked := (entries.filter StatusEntry.isUntracked).map StatusEntry.path
  entries := entries

def isBranchLine (line : Text) : Bool := decide (branchMark <+: line)

/-- `git_status`. -/
def gitStatus (stdout : Text) : Option StatusReply :=
  (((splitlines (universalNewlines stdout)).filter fun l => !isBranchLine l).mapM parseStatus).map statusReply

inductive StatusLetter
  | unmodified | modified | typeChanged | added | deleted | renamed | copied | unmerged
  deriving DecidableEq

def StatusLetter.char : StatusLetter → CodePoint
  | .unmodified => space
  | .modified => 0x4D
  | .typeChanged => 0x54
  | .added => 0x41
  | .deleted => 0x44
  | .renamed => 0x52
  | .copied => 0x43
  | .unmerged => 0x55

def StatusLetter.moves : StatusLetter → Bool
  | .renamed => true
  | .copied => true
  | _ => false

/-- A changed file; the old name is known for renames and copies. -/
inductive FileChange
  | untracked (name : Text)
  | tracked (index worktree : StatusLetter) (name : Text)
  | moved (index worktree : StatusLetter) (moves : (index.moves || worktree.moves) = true) (source name : Text)

/-- In the short format a space calls for quotation marks too. -/
def statusQuoted (name : Text) : Text := quotedIf (fun c => needsQuoting c || isSpaceChar c) name

def FileChange.name : FileChange → Text
  | .untracked name => name
  | .tracked _ _ name => name
  | .moved _ _ _ _ name => name

def FileChange.code : FileChange → CodePoint × CodePoint
  | .untracked _ => (question, question)
  | .tracked x y _ => (x.char, y.char)
  | .moved x y _ _ _ => (x.char, y.char)

def FileChange.field : FileChange → Text
  | .untracked name => statusQuoted name
  | .tracked _ _ name => statusQuoted name
  | .moved _ _ _ source name => statusQuoted source ++ arrow ++ statusQuoted name

def FileChange.print (c : FileChange) : Text := c.code.1 :: c.code.2 :: space :: c.field

def branchLine (branch : FileLine) : Text := branchMark ++ branch.text

/-- `git status --short --branch`. -/
def statusOutput (branch : FileLine) (changes : List FileChange) : Text := printed (branchLine branch :: changes.map FileChange.print)

def FileChange.stagedName : FileChange → Option Text
  | .untracked _ => none
  | .tracked x _ name => if x = .unmodified then none else some name
  | .moved x _ _ _ name => if x = .unmodified then none else some name

def FileChange.unstagedName : FileChange → Option Text
  | .untracked _ => none
  | .tracked _ y name => if y = .unmodified then none else some name
  | .moved _ y _ _ name => if y = .unmodified then none else some name

def FileChange.untrackedName : FileChange → Option Text
  | .untracked name => some name
  | _ => none

/-- Every change once, under its name, where it belongs. -/
def expectedStatus (changes : List FileChange) : StatusReply where
  staged := changes.filterMap FileChange.stagedName
  unstaged := changes.filterMap FileChange.unstagedName
  untracked := changes.filterMap FileChange.untrackedName
  entries := changes.map fun c => ⟨c.name, c.code.1, c.code.2⟩

/-- No space, nothing that is quoted. -/
def PlainName (name : Text) : Prop := name.any (fun c => needsQuoting c || isSpaceChar c) = false

/-- The name is plain, and an old name is not printed with an arrow. -/
def FileChange.Readable : FileChange → Prop
  | .untracked name => PlainName name
  | .tracked _ _ name => PlainName name
  | .moved _ _ _ source name => PlainName name ∧ ¬arrow <:+: statusQuoted source

/-! ## Names around arrows -/

section
variable {t u : Text}

theorem behindArrow_eq_none (h : ¬arrow <:+: t) : behindArrow t = none := by
  induction t with
  | nil => rfl
  | cons c t ih =>
    rw [behindArrow, if_neg fun hstart => h hstart.isInfix]
    exact ih fun hinside => h (hinside.trans (List.suffix_cons c t).isInfix)

theorem behindArrow_eq_some {rest : Text} (h : behindArrow t = some rest) : ∃ front, t = front ++ arrow ++ rest := by
  induction t with
  | nil => exact absurd h nofun
  | cons c t ih =>
    rw [behindArrow] at h
    split at h
    · next hstart =>
      refine ⟨[], ?_⟩
      rw [← Option.some.inj h, List.nil_append]
      obtain ⟨tail, htail⟩ := hstart
      rw [← htail, List.drop_left]
    · obtain ⟨front, hfront⟩ := ih h
      exact ⟨c :: front, by rw [hfront]; rfl⟩

/-- The first arrow decides. -/
theorem behindArrow_append (h : arrow <:+: t) (u : Text) : ∃ rest, behindArrow (t ++ u) = some (rest ++ u) := by
  induction t with
  | nil => exact absurd h (by decide)
  | cons c t ih =>
    by_cases hstart : arrow <+: c :: t
    · obtain ⟨rest, hrest⟩ := hstart
      refine ⟨rest, ?_⟩
      have hmore : arrow <+: c :: (t ++ u) := by
        rw [← List.cons_append, ← hrest, List.append_assoc]
        exact List.prefix_append _ _
      rw [List.cons_append, behindArrow, if_pos hmore, ← List.cons_append, ← hrest, List.append_assoc, List.drop_left]
    · have hinside := (List.infix_cons_iff.mp h).resolve_left hstart
      obtain ⟨rest, hrest⟩ := ih hinside
      have hlonger : ¬arrow <+: c :: (t ++ u) := by
        intro hmore
        have hlength := hinside.length_le
        refine hstart (List.prefix_of_prefix_length_le hmore (List.prefix_append (c :: t) u) ?_)
        rw [List.length_cons]
        omega
      exact ⟨rest, by rw [List.cons_append, behindArrow, if_neg hlonger, hrest]⟩

/-- An arrow behind a text that holds none, nor the start of one at its end. -/
theorem behindArrow_first (h : ¬arrow <:+: t) (hend : ¬txt " ->" <:+ t) (u : Text) : behindArrow (t ++ (arrow ++ u)) = some u := by
  induction t with
  | nil =>
    have hstart : arrow <+: arrow ++ u := List.prefix_append _ _
    have harrow : arrow ++ u = space :: (txt "-> " ++ u) := rfl
    rw [List.nil_append, harrow, behindArrow, ← harrow, if_pos hstart, List.drop_left]
  | cons c t ih =>
    rw [List.infix_cons_iff, not_or] at h
    have hlater : ¬arrow <+: c :: (t ++ (arrow ++ u)) := by
      intro hstart
      by_cases hlong : arrow.length ≤ (c :: t).length
      · exact h.1 (List.prefix_of_prefix_length_le hstart (List.prefix_append (c :: t) _) hlong)
      · have harrow : arrow = [0x20, 0x2D, 0x3E, 0x20] := by decide
        rw [harrow] at hstart hlong
        rcases t with _ | ⟨d, _ | ⟨e, _ | ⟨f, rest⟩⟩⟩
        · simp [List.cons_prefix_cons] at hstart
        · simp [List.cons_prefix_cons] at hstart
        · have hends : txt " ->" = [0x20, 0x2D, 0x3E] := by decide
          simp only [List.cons_append, List.cons_prefix_cons] at hstart
          obtain ⟨rfl, rfl, rfl, -⟩ := hstart
          exact hend (by rw [hends])
        · simp at hlong
    rw [List.cons_append, behindArrow, if_neg hlater]
    exact ih h.2 fun hsuffix => hend (hsuffix.trans (List.suffix_cons c t))

end

/-! ## Spaces in quoted names -/

/-- Quoting keeps the number of spaces. -/
theorem count_space_escaped (t : Text) : ((t.flatMap utf8Bytes).flatMap escapeByte).count space = t.count space := by
  have hbyte : ∀ b : Byte, (escapeByte b).count space = if b.val = 0x20 then 1 else 0 := by decide +kernel
  induction t with
  | nil => rfl
  | cons c t ih =>
    rw [List.flatMap_cons, List.flatMap_append, List.count_append, ih, List.count_cons, Nat.add_comm]
    refine congrArg (t.count space + ·) ?_
    by_cases hc : c = space
    · subst hc
      decide
    · have hnone : space ∉ (utf8Bytes c).flatMap escapeByte := by
        intro hmem
        obtain ⟨b, hb, hspace⟩ := List.mem_flatMap.mp hmem
        have hcount := hbyte b
        have hpos := List.count_pos_iff.mpr hspace
        split at hcount
        · next hval => exact hc (Fin.ext ((mem_utf8Bytes_of_lt c b (by omega) hb).symm.trans hval))
        · omega
      rw [List.count_eq_zero.mpr hnone]
      simp [hc]

theorem count_space_statusQuoted (name : Text) : (statusQuoted name).count space = name.count space := by
  cases hany : name.any fun c => needsQuoting c || isSpaceChar c with
  | false => rw [statusQuoted, quotedIf_plain hany]
  | true =>
    have hmark : ¬quotationMark = space := by decide
    rw [statusQuoted, quotedIf_unusual hany, List.count_cons, List.count_append, count_space_escaped]
    simp [hmark]

theorem statusQuoted_plain {name : Text} (h : PlainName name) : statusQuoted name = name := quotedIf_plain h

theorem length_statusQuoted {name : Text} (h : ¬PlainName name) : name.length + 2 ≤ (statusQuoted name).length :=
  length_quotedIf (Bool.eq_true_of_not_eq_false h)

theorem space_notMem_plain {name : Text} (h : PlainName name) : space ∉ name := by
  intro hmem
  have hspace := List.any_eq_false.mp h space hmem
  exact hspace (by decide)

theorem lastName_statusQuoted_iff (name : Text) : lastName (statusQuoted name) = name ↔ PlainName name := by
  constructor
  · intro hsame
    by_contra hplain
    have hlonger := length_statusQuoted hplain
    rw [lastName] at hsame
    cases hbehind : behindArrow (statusQuoted name) with
    | none =>
      rw [hbehind, Option.getD_none] at hsame
      rw [hsame] at hlonger
      omega
    | some rest =>
      -- a rest that is the name would have lost two spaces
      obtain ⟨front, hfront⟩ := behindArrow_eq_some hbehind
      rw [hbehind, Option.getD_some] at hsame
      have hcount := congrArg (List.count space) hfront
      have harrow : arrow.count space = 2 := by decide
      rw [count_space_statusQuoted, List.count_append, List.count_append, hsame, harrow] at hcount
      omega
  · intro hplain
    have harrow : ¬arrow <:+: name := fun hinside => space_notMem_plain hplain (hinside.subset (by decide))
    rw [statusQuoted_plain hplain, lastName, behindArrow_eq_none harrow, Option.getD_none]

theorem statusQuoted_end (name : Text) : ¬txt " ->" <:+ statusQuoted name := by
  intro hends
  by_cases hplain : PlainName name
  · rw [statusQuoted_plain hplain] at hends
    exact space_notMem_plain hplain (hends.subset (by decide))
  · have hany : name.any (fun c => needsQuoting c || isSpaceChar c) = true := Bool.eq_true_of_not_eq_false hplain
    rw [statusQuoted, quotedIf_unusual hany] at hends
    obtain ⟨front, hfront⟩ := hends
    have hlast := congrArg List.getLast? hfront
    rw [← List.cons_append, List.getLast?_append, List.getLast?_append] at hlast
    have hletter : (txt " ->").getLast? = some quotationMark := hlast
    exact absurd hletter (by decide)

/-- The path is the name exactly for readable changes. -/
theorem lastName_field_iff (c : FileChange) : lastName c.field = c.name ↔ c.Readable := by
  cases c with
  | untracked name => exact lastName_statusQuoted_iff name
  | tracked x y name => exact lastName_statusQuoted_iff name
  | moved x y moves source name =>
    rw [FileChange.field, FileChange.name, FileChange.Readable, List.append_assoc]
    by_cases harrow : arrow <:+: statusQuoted source
    · refine iff_of_false (fun hsame => ?_) fun h => h.2 harrow
      obtain ⟨rest, hrest⟩ := behindArrow_append harrow (arrow ++ statusQuoted name)
      rw [lastName, hrest, Option.getD_some] at hsame
      have hlength := congrArg List.length hsame
      have hfour : arrow.length = 4 := by decide
      have hname : name.length ≤ (statusQuoted name).length := by
        by_cases hplain : PlainName name
        · rw [statusQuoted_plain hplain]
        · exact Nat.le_of_add_right_le (length_statusQuoted hplain)
      rw [List.length_append, List.length_append, hfour] at hlength
      omega
    · rw [lastName, behindArrow_first harrow (statusQuoted_end source), Option.getD_some, and_iff_left harrow]
      constructor
      · intro hsame
        by_contra hplain
        have hlonger := length_statusQuoted hplain
        rw [hsame] at hlonger
        omega
      · exact statusQuoted_plain

/-! ## The reply of `git_status` -/

theorem FileChange.parseStatus_print (c : FileChange) : parseStatus c.print = some ⟨lastName c.field, c.code.1, c.code.2⟩ := rfl

theorem StatusLetter.char_range (x : StatusLetter) : 0x20 ≤ x.char.val ∧ x.char.val < 0x7F := by
  cases x
  all_goals decide

theorem statusQuoted_printable (name : Text) : Printable (statusQuoted name) := quotedIf_printable fun c h => by simp [h]

theorem FileChange.print_printable (c : FileChange) : Printable c.print := by
  have hcode : Printable [c.code.1, c.code.2, space] := by
    have hspace : 0x20 ≤ space.val ∧ space.val < 0x7F := by decide
    have hquestion : 0x20 ≤ question.val ∧ question.val < 0x7F := by decide
    cases c with
    | untracked name => simp [Printable, code, hspace, hquestion]
    | tracked x y name => simp [Printable, code, hspace, x.char_range, y.char_range]
    | moved x y moves source name => simp [Printable, code, hspace, x.char_range, y.char_range]
  have hfield : Printable c.field := by
    have harrow : Printable arrow := printable_of_all (by decide)
    cases c with
    | untracked name => exact statusQuoted_printable name
    | tracked x y name => exact statusQuoted_printable name
    | moved x y moves source name => exact ((statusQuoted_printable source).append harrow).append (statusQuoted_printable name)
  exact hcode.append hfield

theorem FileChange.not_branchLine (c : FileChange) : isBranchLine c.print = false := by
  have hmark : branchMark = [0x23, 0x23, 0x20] := by decide
  have hcode : ¬0x23 = c.code.1 := by
    cases c with
    | untracked name =>
      simp only [code]
      decide
    | tracked x y name =>
      cases x
      all_goals
        simp only [code]
        decide
    | moved x y moves source name =>
      cases x
      all_goals
        simp only [code]
        decide
  rw [isBranchLine, hmark, decide_eq_false_iff_not, print, List.cons_prefix_cons]
  exact fun h => hcode h.1

def FileChange.entry (c : FileChange) : StatusEntry := ⟨c.name, c.code.1, c.code.2⟩

theorem map_filter_entry {P : StatusEntry → Bool} {f : FileChange → Option Text} (h : ∀ c, f c = if P c.entry then some c.name else none)
    (changes : List FileChange) : ((changes.map FileChange.entry).filter P).map StatusEntry.path = changes.filterMap f := by
  induction changes with
  | nil => rfl
  | cons c changes ih =>
    rw [List.map_cons, List.filter_cons]
    split
    · next hkept => rw [List.map_cons, ih, List.filterMap_cons_some ((h c).trans (if_pos hkept)), FileChange.entry]
    · next hdropped => rw [ih, List.filterMap_cons_none ((h c).trans (if_neg hdropped))]

/-- What is staged, unstaged and untracked is read off the codes. -/
theorem statusReply_expected (changes : List FileChange) : statusReply (changes.map FileChange.entry) = expectedStatus changes := by
  have hletter : ∀ x : StatusLetter, x.char = space ↔ x = .unmodified := by
    intro x
    cases x
    all_goals decide
  have hquestion : ∀ x : StatusLetter, ¬x.char = question := by
    intro x
    cases x
    all_goals decide
  rw [statusReply, expectedStatus, StatusReply.mk.injEq]
  refine ⟨map_filter_entry ?_ changes, map_filter_entry ?_ changes, map_filter_entry ?_ changes, rfl⟩
  · intro c
    cases c
    all_goals simp [FileChange.stagedName, FileChange.entry, FileChange.code, FileChange.name, StatusEntry.isUntracked, hletter, hquestion]
  · intro c
    cases c
    all_goals simp [FileChange.unstagedName, FileChange.entry, FileChange.code, FileChange.name, StatusEntry.isUntracked, hletter, hquestion]
  · intro c
    cases c
    all_goals simp [FileChange.untrackedName, FileChange.entry, FileChange.code, FileChange.name, StatusEntry.isUntracked, hquestion]

/-- The status is read as git prints it exactly when no piece behind the branch stands for a file
and every change is readable. -/
theorem gitStatus_iff (branch : FileLine) (changes : List FileChange) :
    gitStatus (statusOutput branch changes) = some (expectedStatus changes) ↔
      (∀ p ∈ cut (branchLine branch), branchMark <+: p) ∧ ∀ c ∈ changes, c.Readable := by
  have hlines : (changes.map FileChange.print).flatMap cut = changes.map FileChange.print := by
    rw [List.flatMap_map, List.map_eq_flatMap]
    exact List.flatMap_congr fun c _ => cut_unbroken c.print_printable.unbroken
  have hfilter : (changes.map FileChange.print).filter (fun l => !isBranchLine l) = changes.map FileChange.print := by
    rw [List.filter_eq_self]
    intro l hl
    obtain ⟨c, -, rfl⟩ := List.mem_map.mp hl
    rw [c.not_branchLine]
    rfl
  have hparse : (changes.map FileChange.print).mapM parseStatus = some (changes.map fun c => ⟨lastName c.field, c.code.1, c.code.2⟩) := by
    rw [mapM_eq_some, List.forall₂_map_left_iff, List.forall₂_map_right_iff, List.forall₂_same]
    exact fun c _ => c.parseStatus_print
  rw [gitStatus, splitlines_universalNewlines, statusOutput, splitlines_printed, List.flatMap_cons, hlines, List.filter_append, hfilter,
    List.mapM_append, hparse]
  constructor
  · intro hread
    obtain ⟨entries, hentries, hreply⟩ := Option.map_eq_some_iff.mp hread
    simp only [Option.bind_eq_bind, Option.bind_eq_some_iff, Option.bind_some] at hentries
    obtain ⟨extra, hextra, hall⟩ := hentries
    obtain rfl := Option.some.inj hall
    have hsame : extra ++ (changes.map fun c => ⟨lastName c.field, c.code.1, c.code.2⟩) = changes.map FileChange.entry :=
      congrArg StatusReply.entries hreply
    have hnone : extra = [] := by
      have hlength := congrArg List.length hsame
      rw [List.length_append, List.length_map, List.length_map] at hlength
      exact List.length_eq_zero_iff.mp (by omega)
    rw [hnone] at hextra hsame
    have hpieces : (cut (branchLine branch)).filter (fun l => !isBranchLine l) = [] :=
      List.length_eq_zero_iff.mp (mapM_eq_some.mp hextra).length_eq
    refine ⟨fun p hp => ?_, fun c hc => ?_⟩
    · simpa [isBranchLine] using List.filter_eq_nil_iff.mp hpieces p hp
    · rw [List.nil_append, List.map_inj_left] at hsame
      exact (lastName_field_iff c).mp (congrArg StatusEntry.path (hsame c hc))
  · rintro ⟨hbranch, hreadable⟩
    have hpieces : (cut (branchLine branch)).filter (fun l => !isBranchLine l) = [] := by
      rw [List.filter_eq_nil_iff]
      intro p hp
      simpa [isBranchLine] using hbranch p hp
    have hentries : (changes.map fun c => (⟨lastName c.field, c.code.1, c.code.2⟩ : StatusEntry)) = changes.map FileChange.entry := by
      refine List.map_congr_left fun c hc => ?_
      rw [(lastName_field_iff c).mpr (hreadable c hc)]
      rfl
    rw [hpieces, hentries, ← statusReply_expected]
    rfl

end WebOauthMcp.GitListings
