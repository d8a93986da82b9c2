import WebOauthMcp.GitListings

/-!
# The paths that git lists

`list_files` and the glob search show what is in a set of paths: the files `git ls-files` names
and the directories above them, inside the repository. A path is the list of its components; no
link is followed.
-/

namespace WebOauthMcp.AllowedPaths
open CodePoints LineSplitting Words GitOutput GitHistory GitListings

abbrev Path := List Text

def slash : CodePoint := 0x2F
def here : Text := txt "."
def above : Text := txt ".."

/-! ## The set -/

/-- The components of a path. -/
def parts (line : Text) : Path := (line.splitOn slash).filter fun c => c ≠ [] ∧ c ≠ here

/-- `root / line`. -/
def joinPath (root : Path) (line : Text) : Path := if [slash] <+: line then parts line else root ++ parts line

/-- `path.resolve()` where nothing is a link. -/
def resolve (p : Path) : Path := p.foldl (fun q c => if c = above then q.dropLast else q ++ [c]) []

/-- `path.parents`, the nearest first. -/
def parents (p : Path) : List Path := (List.range p.length).reverse.map fun n => p.take n

/-- The parents that are added: up to the root of the repository. -/
def upTo (root : Path) : List Path → List Path
  | [] => []
  | p :: ps => if p = root then [p] else p :: upTo root ps

def withParents (root full : Path) : List Path := full :: upTo root (parents full)

/-- `_git_tracked_allowed_paths`, from what `git ls-files` prints. -/
def allowedPaths (repoRoot : Path) (stdout : Text) : List Path :=
  ((splitlines (universalNewlines stdout)).filter fun l => l ≠ []).flatMap fun line =>
    withParents (resolve repoRoot) (resolve (joinPath (resolve repoRoot) line))

/-- What a directory can hold. -/
abbrev Clean (c : Text) : Prop := c ≠ [] ∧ c ≠ here ∧ c ≠ above ∧ slash ∉ c

/-- The name of a file in a repository. -/
structure FileName where
  parts : List Text
  named : parts ≠ []
  clean : ∀ c ∈ parts, Clean c

def FileName.text (n : FileName) : Text := List.intercalate [slash] n.parts

/-- `git ls-files --cached --others --exclude-standard`. -/
def lsFiles (names : List FileName) : Text := printed (names.map fun n => quoted n.text)

/-- A file or a directory above it, inside the repository. -/
def Listed (root : Path) (names : List FileName) (p : Path) : Prop := ∃ n ∈ names, root <+: p ∧ p <+: root ++ n.parts

/-! ## The walk -/

/-- What a directory holds, in the order of the names. -/
inductive Tree
  | nil
  | file (name : {c : Text // Clean c}) (rest : Tree)
  | dir (name : {c : Text // Clean c}) (content rest : Tree)

/-- What `_iter_filtered` goes by; the patterns are taken as what they match. -/
structure Filter where
  includeHidden : Bool
  excludeDirNames : List Text
  matchesExcludePattern : Path → Bool
  allowed : Option (List Path)

def Filter.entryAllowed (f : Filter) (entry : Path) : Bool :=
  match f.allowed with
  | none => true
  | some allowed => decide (resolve entry ∈ allowed)

def Filter.keeps (f : Filter) (base : Path) (name : Text) : Bool :=
  (f.includeHidden || decide (¬here <+: name)) && !f.matchesExcludePattern (base ++ [name]) && f.entryAllowed (base ++ [name])

def Filter.keepsDir (f : Filter) (base : Path) (name : Text) : Bool := !f.excludeDirNames.contains name && f.keeps base name

/-- The names in a directory, and which of them are directories. -/
def Tree.entries : Tree → List ({c : Text // Clean c} × Bool)
  | .nil => []
  | .file name rest => (name, false) :: rest.entries
  | .dir name _ rest => (name, true) :: rest.entries

/-- The entries of a directory that are kept, all or those of a kind. -/
def Filter.shown (f : Filter) (base : Path) (kind : Bool → Bool) (t : Tree) : List Path :=
  (t.entries.filter fun e => kind e.2 && if e.2 then f.keepsDir base e.1 else f.keeps base e.1).map fun e => base ++ [e.1.val]

def Filter.dirs (f : Filter) (base : Path) (t : Tree) : List Path := f.shown base (fun isDir => isDir) t

def Filter.files (f : Filter) (base : Path) (t : Tree) : List Path := f.shown base (fun isDir => !isDir) t

/-- What the directories hold that are not pruned. -/
def Filter.below (f : Filter) (base : Path) : Tree → List Path
  | .nil => []
  | .file _ rest => f.below base rest
  | .dir name content rest =>
    (if f.keepsDir base name then
      f.dirs (base ++ [name.val]) content ++ f.files (base ++ [name.val]) content ++ f.below (base ++ [name.val]) content
    else []) ++ f.below base rest

/-- `_iter_filtered`. -/
def iterFiltered (f : Filter) (recursive : Bool) (base : Path) (t : Tree) : List Path :=
  if recursive then f.dirs base t ++ f.files base t ++ f.below base t else f.shown base (fun _ => true) t

/-- What a search starts at. -/
inductive Start
  | file (name : {c : Text // Clean c})
  | directory (t : Tree)

/-- `_iter_matching_entries`, up to the order: below a directory, or the file itself. -/
def matchingEntries (f : Filter) (globMatches : Path → Bool) (base : Path) : Start → List Path
  | .file name => if f.keeps base name && globMatches (base ++ [name.val]) then [base ++ [name.val]] else []
  | .directory t => (iterFiltered f true base t).filter globMatches

/-! ## Names as paths -/

theorem resolve_append (p q : Path) (hq : ∀ c ∈ q, c ≠ above) : resolve (p ++ q) = resolve p ++ q := by
  rw [resolve, List.foldl_append, ← resolve]
  induction q using List.reverseRecOn with
  | nil => exact (List.append_nil _).symm
  | append_singleton q c ih =>
    rw [List.forall_mem_append] at hq
    rw [List.foldl_append, ih hq.1, List.foldl_cons, List.foldl_nil, if_neg (hq.2 c (List.mem_singleton.mpr rfl)), List.append_assoc]

theorem above_notMem_resolve (p : Path) : above ∉ resolve p := by
  induction p using List.reverseRecOn with
  | nil => exact List.not_mem_nil
  | append_singleton p c ih =>
    rw [resolve, List.foldl_append, ← resolve, List.foldl_cons, List.foldl_nil]
    split
    · exact fun hmem => ih (List.mem_of_mem_dropLast hmem)
    · next hc =>
      intro hmem
      cases List.mem_append.mp hmem with
      | inl hmem => exact ih hmem
      | inr hmem => exact hc (List.mem_singleton.mp hmem).symm

theorem resolve_resolve (p : Path) : resolve (resolve p) = resolve p := by
  have happend := resolve_append [] (resolve p) fun c hc hsame => above_notMem_resolve p (hsame ▸ hc)
  rwa [List.nil_append] at happend

namespace FileName
variable (n : FileName)

theorem parts_text : AllowedPaths.parts n.text = n.parts := by
  rw [AllowedPaths.parts, text, List.splitOn_intercalate slash (fun c hc => (n.clean c hc).2.2.2) n.named, List.filter_eq_self]
  intro c hc
  simpa using ⟨(n.clean c hc).1, (n.clean c hc).2.1⟩

theorem exists_letter : ∃ a c, ¬a = slash ∧ n.text = a :: c := by
  obtain ⟨first, rest, hparts⟩ := List.exists_cons_of_ne_nil n.named
  obtain ⟨hsome, -, -, hfree⟩ := n.clean first (by simp [hparts])
  obtain ⟨a, c, rfl⟩ := List.exists_cons_of_ne_nil hsome
  rw [List.mem_cons, not_or] at hfree
  cases rest with
  | nil => exact ⟨a, c, fun h => hfree.1 h.symm, by simp [text, hparts, List.intercalate]⟩
  | cons second rest =>
    exact ⟨a, c ++ slash :: List.intercalate [slash] (second :: rest), fun h => hfree.1 h.symm, by simp [text, hparts, List.intercalate]⟩

/-- A name is a path below the root. -/
theorem resolve_joinPath (repoRoot : Path) : resolve (joinPath (resolve repoRoot) n.text) = resolve repoRoot ++ n.parts := by
  obtain ⟨a, c, ha, htext⟩ := n.exists_letter
  have hrelative : ¬[slash] <+: n.text := by
    rw [htext]
    exact fun hstart => ha (List.cons_prefix_cons.mp hstart).1.symm
  rw [joinPath, if_neg hrelative, parts_text, resolve_append _ _ fun c hc => (n.clean c hc).2.2.1, resolve_resolve]

end FileName

theorem parents_concat (p : Path) (c : Text) : parents (p ++ [c]) = p :: parents p := by
  rw [parents, List.length_append, List.length_singleton, List.range_succ, List.reverse_append, List.reverse_singleton,
    List.singleton_append, List.map_cons, List.take_left, parents]
  refine congrArg (p :: ·) (List.map_congr_left fun k hk => ?_)
  rw [List.mem_reverse, List.mem_range] at hk
  rw [List.take_append_of_le_length (by omega)]

theorem mem_upTo (root rest : Path) (c : Text) {p : Path} : p ∈ upTo root (parents (root ++ rest ++ [c])) ↔ root <+: p ∧ p <+: root ++ rest := by
  induction rest using List.reverseRecOn generalizing c with
  | nil =>
    rw [List.append_nil, parents_concat, upTo, if_pos rfl, List.mem_singleton]
    constructor
    · rintro rfl
      exact ⟨List.prefix_refl _, List.prefix_refl _⟩
    · rintro ⟨hleft, hright⟩
      exact (List.IsPrefix.eq_of_length hleft (Nat.le_antisymm hleft.length_le hright.length_le)).symm
  | append_singleton rest d ih =>
    have hlonger : ¬root ++ (rest ++ [d]) = root := by simp
    rw [parents_concat, upTo, if_neg hlonger, List.mem_cons, ← List.append_assoc, ih, List.prefix_concat_iff]
    constructor
    · rintro (rfl | ⟨hleft, hright⟩)
      · exact ⟨(List.prefix_append root rest).trans (List.prefix_append _ _), Or.inl rfl⟩
      · exact ⟨hleft, Or.inr hright⟩
    · rintro ⟨hleft, hright⟩
      exact hright.imp_right fun hright => ⟨hleft, hright⟩

theorem mem_withParents (root : Path) (n : FileName) {p : Path} : p ∈ withParents root (root ++ n.parts) ↔ root <+: p ∧ p <+: root ++ n.parts := by
  obtain ⟨rest, c, hparts⟩ := (List.eq_nil_or_concat n.parts).resolve_left n.named
  rw [withParents, hparts, List.concat_eq_append, ← List.append_assoc, List.mem_cons, mem_upTo, List.prefix_concat_iff]
  constructor
  · rintro (rfl | ⟨hleft, hright⟩)
    · exact ⟨(List.prefix_append root rest).trans (List.prefix_append _ _), Or.inl rfl⟩
    · exact ⟨hleft, Or.inr hright⟩
  · rintro ⟨hleft, hright⟩
    exact hright.imp_right fun hright => ⟨hleft, hright⟩

/-! ## Quoted names -/

def escaped (t : Text) : Text := (t.flatMap utf8Bytes).flatMap escapeByte

theorem escaped_append (t u : Text) : escaped (t ++ u) = escaped t ++ escaped u := by
  rw [escaped, List.flatMap_append, List.flatMap_append]
  rfl

theorem escaped_intercalate (cs : List Text) : escaped (List.intercalate [slash] cs) = List.intercalate [slash] (cs.map escaped) := by
  have hslash : escaped [slash] = [slash] := by decide
  induction cs with
  | nil => rfl
  | cons c cs ih =>
    cases cs with
    | nil => simp [List.intercalate]
    | cons d cs =>
      rw [List.intercalate_cons_cons, escaped_append, escaped_append, hslash, ih]
      simp only [List.map_cons, List.intercalate_cons_cons]

/-- A character that is only escaped as itself stands where it stood. -/
theorem mem_of_mem_escaped {k : CodePoint} (hk : k.val < 0x80) (hbyte : ∀ b : Byte, k ∈ escapeByte b → b.val = k.val) {t : Text}
    (h : k ∈ escaped t) : k ∈ t := by
  obtain ⟨b, hb, hmem⟩ := List.mem_flatMap.mp h
  obtain ⟨c, hc, hb⟩ := List.mem_flatMap.mp hb
  have hval := hbyte b hmem
  have hsame : c = k := Fin.ext ((mem_utf8Bytes_of_lt c b (by omega) hb).symm.trans hval)
  rwa [← hsame]

theorem escaped_ne_nil {t : Text} (h : t ≠ []) : escaped t ≠ [] := by
  obtain ⟨c, rest, rfl⟩ := List.exists_cons_of_ne_nil h
  obtain ⟨b, bs, hb⟩ := List.exists_cons_of_ne_nil (utf8Bytes_ne_nil c)
  rw [escaped, List.flatMap_cons, hb]
  simp [escapeByte_ne_nil]

def dot : CodePoint := 0x2E

/-- Nothing else is escaped as dots. -/
theorem escaped_dots {t : Text} (h : ∀ k ∈ escaped t, k = dot) : escaped t = t := by
  have hbyte : ∀ b : Byte, (escapeByte b).all (fun k => decide (k = dot)) = true → b.val = 0x2E := by decide +kernel
  have hself : (utf8Bytes dot).flatMap escapeByte = [dot] := by decide
  induction t with
  | nil => rfl
  | cons c t ih =>
    have hsplit : escaped (c :: t) = (utf8Bytes c).flatMap escapeByte ++ escaped t := by
      rw [escaped, List.flatMap_cons, List.flatMap_append]
      rfl
    rw [hsplit, List.forall_mem_append] at h
    obtain ⟨b, bs, hb⟩ := List.exists_cons_of_ne_nil (utf8Bytes_ne_nil c)
    have hval : b.val = 0x2E := by
      refine hbyte b (List.all_eq_true.mpr fun k hk => decide_eq_true (h.1 k ?_))
      rw [hb, List.flatMap_cons]
      exact List.mem_append_left _ hk
    have hdot : c = dot := Fin.ext ((mem_utf8Bytes_of_lt c b (by omega) (by simp [hb])).symm.trans hval)
    rw [hsplit, ih h.2, hdot, hself]
    rfl

theorem slash_byte : ∀ b : Byte, slash ∈ escapeByte b → b.val = slash.val := by decide +kernel

/-- Escaping leaves a component a component. -/
theorem escaped_clean {c : Text} (h : Clean c) : Clean (escaped c) := by
  obtain ⟨hsome, hhere, habove, hslash⟩ := h
  have hone : here = [dot] := by decide
  have htwo : above = [dot, dot] := by decide
  refine ⟨escaped_ne_nil hsome, fun hsame => ?_, fun hsame => ?_, fun hmem => hslash (mem_of_mem_escaped (by decide) slash_byte hmem)⟩
  · have hself := escaped_dots (t := c) (by simp [hsame, hone])
    exact hhere (hself.symm.trans hsame)
  · have hself := escaped_dots (t := c) (by simp [hsame, htwo])
    exact habove (hself.symm.trans hsame)

/-- A mark behind the last component. -/
def closed : List Text → List Text
  | [] => []
  | [c] => [c ++ [quotationMark]]
  | c :: d :: cs => c :: closed (d :: cs)

/-- Marks around all components. -/
def marked (cs : List Text) : List Text := (closed cs).modifyHead (quotationMark :: ·)

theorem closed_ne_nil {cs : List Text} (h : cs ≠ []) : closed cs ≠ [] := by
  cases cs using closed.induct with
  | case1 => exact absurd rfl h
  | case2 c => exact List.cons_ne_nil _ _
  | case3 c d cs => exact List.cons_ne_nil _ _

theorem intercalate_closed {cs : List Text} (h : cs ≠ []) :
    List.intercalate [slash] (closed cs) = List.intercalate [slash] cs ++ [quotationMark] := by
  induction cs using closed.induct with
  | case1 => exact absurd rfl h
  | case2 c => simp [closed, List.intercalate]
  | case3 c d cs ih =>
    have hnext : d :: cs ≠ [] := List.cons_ne_nil _ _
    rw [closed, List.intercalate_cons_of_ne_nil (closed_ne_nil hnext), ih hnext, List.intercalate_cons_cons]
    simp

theorem intercalate_marked {cs : List Text} (h : cs ≠ []) :
    List.intercalate [slash] (marked cs) = quotationMark :: (List.intercalate [slash] cs ++ [quotationMark]) := by
  obtain ⟨c, rest, hclosed⟩ := List.exists_cons_of_ne_nil (closed_ne_nil h)
  rw [← intercalate_closed h, marked, hclosed, List.modifyHead_cons, List.intercalate_cons_cons_left]

theorem mem_closed {cs : List Text} {x : Text} (h : x ∈ closed cs) : x ∈ cs ∨ ∃ c ∈ cs, x = c ++ [quotationMark] := by
  induction cs using closed.induct with
  | case1 => exact absurd h List.not_mem_nil
  | case2 c => exact Or.inr ⟨c, List.mem_singleton.mpr rfl, List.mem_singleton.mp h⟩
  | case3 c d cs ih =>
    rw [closed] at h
    cases List.mem_cons.mp h with
    | inl h => exact Or.inl (h ▸ List.mem_cons_self ..)
    | inr h =>
      cases ih h with
      | inl h => exact Or.inl (List.mem_cons_of_mem _ h)
      | inr h =>
        obtain ⟨c', hc', rfl⟩ := h
        exact Or.inr ⟨c', List.mem_cons_of_mem _ hc', rfl⟩

/-- A component is as it was, or holds a mark. -/
theorem mem_marked {cs : List Text} (hfree : ∀ c ∈ cs, slash ∉ c) {x : Text} (h : x ∈ marked cs) :
    x ∈ cs ∨ quotationMark ∈ x ∧ slash ∉ x := by
  have hmark : ¬slash = quotationMark := by decide
  have hclosed : ∀ y ∈ closed cs, slash ∉ y ∧ (y ∈ cs ∨ quotationMark ∈ y) := by
    intro y hy
    cases mem_closed hy with
    | inl hy => exact ⟨hfree y hy, Or.inl hy⟩
    | inr hy =>
      obtain ⟨c, hc, rfl⟩ := hy
      exact ⟨by simp [hfree c hc, hmark], Or.inr (by simp)⟩
  rw [marked] at h
  cases hlist : closed cs with
  | nil => simp [hlist] at h
  | cons c rest =>
    rw [hlist, List.forall_mem_cons] at hclosed
    rw [hlist, List.modifyHead_cons] at h
    cases List.mem_cons.mp h with
    | inl h =>
      rw [h]
      exact Or.inr ⟨List.mem_cons_self .., by simp [hclosed.1.1, hmark]⟩
    | inr h => exact (hclosed.2 x h).2.imp_right fun hx => ⟨hx, (hclosed.2 x h).1⟩

/-- A name in quotation marks is the name of another file. -/
theorem FileName.exists_quoted (n : FileName) : ∃ m : FileName, m.text = quoted n.text ∧
    (n.text.any needsQuoting = true → quotationMark ∈ m.text) := by
  cases hany : n.text.any needsQuoting with
  | false => exact ⟨n, (quotedIf_plain hany).symm, nofun⟩
  | true =>
    have hnamed : n.parts.map escaped ≠ [] := by simpa using n.named
    have hclean : ∀ c ∈ n.parts.map escaped, Clean c := by
      intro c hc
      obtain ⟨d, hd, rfl⟩ := List.mem_map.mp hc
      exact escaped_clean (n.clean d hd)
    have htext : List.intercalate [slash] (marked (n.parts.map escaped)) = quoted n.text := by
      rw [intercalate_marked hnamed, ← escaped_intercalate, quoted, quotedIf_unusual hany]
      rfl
    refine ⟨⟨marked (n.parts.map escaped), ?_, ?_⟩, htext, fun _ => ?_⟩
    · intro hnil
      rw [hnil, quoted, quotedIf_unusual hany] at htext
      exact absurd htext nofun
    · intro c hc
      cases mem_marked (fun c hc => (hclean c hc).2.2.2) hc with
      | inl hc => exact hclean c hc
      | inr hc =>
        refine ⟨List.ne_nil_of_mem hc.1, fun hsame => ?_, fun hsame => ?_, hc.2⟩
        · exact absurd (hsame ▸ hc.1) (by decide)
        · exact absurd (hsame ▸ hc.1) (by decide)
    · rw [FileName.text, htext, quoted, quotedIf_unusual hany]
      exact List.mem_cons_self ..

/-! ## What is allowed -/

theorem mem_allowedPaths (repoRoot : Path) (names : List FileName) {p : Path} :
    p ∈ allowedPaths repoRoot (lsFiles names) ↔
      ∃ n ∈ names, ∃ m : FileName, m.text = quoted n.text ∧ resolve repoRoot <+: p ∧ p <+: resolve repoRoot ++ m.parts := by
  have hcut : (names.map fun n => quoted n.text).flatMap cut = names.map fun n => quoted n.text := by
    rw [List.flatMap_map, List.map_eq_flatMap]
    exact List.flatMap_congr fun n _ => cut_unbroken (quoted_printable n.text).unbroken
  have hfilter : (names.map fun n => quoted n.text).filter (fun l => l ≠ []) = names.map fun n => quoted n.text := by
    rw [List.filter_eq_self]
    intro l hl
    obtain ⟨n, -, rfl⟩ := List.mem_map.mp hl
    obtain ⟨m, hm, -⟩ := n.exists_quoted
    obtain ⟨a, c, -, htext⟩ := m.exists_letter
    rw [← hm, htext]
    simp
  rw [allowedPaths, splitlines_universalNewlines, lsFiles, splitlines_printed, hcut, hfilter, List.mem_flatMap]
  constructor
  · rintro ⟨l, hl, hp⟩
    obtain ⟨n, hn, rfl⟩ := List.mem_map.mp hl
    obtain ⟨m, hm, -⟩ := n.exists_quoted
    rw [← hm, m.resolve_joinPath, mem_withParents] at hp
    exact ⟨n, hn, m, hm, hp⟩
  · rintro ⟨n, hn, m, hm, hp⟩
    refine ⟨quoted n.text, List.mem_map_of_mem hn, ?_⟩
    rw [← hm, m.resolve_joinPath, mem_withParents]
    exact hp

theorem FileName.parts_eq_of_text {m n : FileName} (h : m.text = n.text) : m.parts = n.parts := by
  rw [← m.parts_text, h, n.parts_text]

theorem allowed_of_plain (repoRoot : Path) {names : List FileName} (hplain : ∀ n ∈ names, n.text.any needsQuoting = false) (p : Path) :
    p ∈ allowedPaths repoRoot (lsFiles names) ↔ Listed (resolve repoRoot) names p := by
  rw [mem_allowedPaths, Listed]
  refine exists_congr fun n => and_congr_right fun hn => ?_
  have hquoted : quoted n.text = n.text := quotedIf_plain (hplain n hn)
  constructor
  · rintro ⟨m, hm, hp⟩
    rwa [FileName.parts_eq_of_text (hm.trans hquoted)] at hp
  · intro hp
    exact ⟨n, hquoted.symm, hp⟩

theorem intercalate_prefix (ds cs : List Text) : List.intercalate [slash] ds <+: List.intercalate [slash] (ds ++ cs) := by
  induction ds with
  | nil => exact List.nil_prefix
  | cons d ds ih =>
    cases ds with
    | nil =>
      cases cs with
      | nil => simp
      | cons c cs =>
        rw [List.intercalate_singleton, List.singleton_append, List.intercalate_cons_cons, List.append_assoc]
        exact List.prefix_append _ _
    | cons e ds =>
      rw [List.cons_append, List.cons_append, List.intercalate_cons_cons, List.intercalate_cons_cons]
      exact (List.prefix_append_right_inj _).mpr ih

/-- A quoted name in the set calls for a longer name that is quoted as well. -/
theorem exists_longer {repoRoot : Path} {names : List FileName}
    (hlisted : ∀ p, p ∈ allowedPaths repoRoot (lsFiles names) ↔ Listed (resolve repoRoot) names p) {n : FileName} (hn : n ∈ names)
    (hquote : n.text.any needsQuoting = true) : ∃ n' ∈ names, n'.text.any needsQuoting = true ∧ n.text.length < n'.text.length := by
  obtain ⟨m, hm, hmark⟩ := n.exists_quoted
  have hallowed : resolve repoRoot ++ m.parts ∈ allowedPaths repoRoot (lsFiles names) :=
    (mem_allowedPaths repoRoot names).mpr ⟨n, hn, m, hm, List.prefix_append _ _, List.prefix_refl _⟩
  obtain ⟨n', hn', -, hprefix⟩ := (hlisted _).mp hallowed
  rw [List.prefix_append_right_inj] at hprefix
  obtain ⟨rest, hrest⟩ := hprefix
  have htext : m.text <+: n'.text := by
    rw [FileName.text, FileName.text, ← hrest]
    exact intercalate_prefix m.parts rest
  refine ⟨n', hn', ?_, ?_⟩
  · exact List.any_eq_true.mpr ⟨quotationMark, htext.subset (hmark hquote), by decide⟩
  · have hlonger := length_quotedIf hquote
    have hlength := htext.length_le
    rw [hm, quoted] at hlength
    omega

/-- The set is what it is for exactly when no listed name is quoted. -/
theorem allowed_iff (repoRoot : Path) (names : List FileName) :
    (∀ p, p ∈ allowedPaths repoRoot (lsFiles names) ↔ Listed (resolve repoRoot) names p) ↔ ∀ n ∈ names, n.text.any needsQuoting = false := by
  constructor
  · intro hlisted
    by_contra hnot
    have hunbounded : ∀ k, ∃ n ∈ names, n.text.any needsQuoting = true ∧ k ≤ n.text.length := by
      intro k
      induction k with
      | zero =>
        simp only [not_forall, Bool.not_eq_false] at hnot
        obtain ⟨n, hn, hquote⟩ := hnot
        exact ⟨n, hn, hquote, Nat.zero_le _⟩
      | succ k ih =>
        obtain ⟨n, hn, hquote, hlength⟩ := ih
        obtain ⟨n', hn', hquote', hlonger⟩ := exists_longer hlisted hn hquote
        exact ⟨n', hn', hquote', by omega⟩
    obtain ⟨n, hn, -, hlength⟩ := hunbounded ((names.map fun n => n.text.length).sum + 1)
    obtain ⟨front, back, rfl⟩ := List.append_of_mem hn
    simp only [List.map_append, List.map_cons, List.sum_append, List.sum_cons] at hlength
    omega
  · exact allowed_of_plain repoRoot

/-! ## Nothing that is listed is hidden -/

section
variable {f : Filter} {root base : Path} {names : List FileName} {allowed : List Path} {p : Path}

/-- The filter without the set. -/
def Filter.unfiltered (f : Filter) : Filter := { f with allowed := none }

theorem keeps_of_allowed {name : Text} (hallowed : f.allowed = some allowed) (hmem : resolve (base ++ [name]) ∈ allowed)
    (h : f.unfiltered.keeps base name = true) : f.keeps base name = true := by
  rw [Filter.keeps, Bool.and_eq_true] at h ⊢
  exact ⟨h.1, by simp [Filter.entryAllowed, hallowed, hmem]⟩

theorem keepsDir_of_allowed {name : Text} (hallowed : f.allowed = some allowed) (hmem : resolve (base ++ [name]) ∈ allowed)
    (h : f.unfiltered.keepsDir base name = true) : f.keepsDir base name = true := by
  rw [Filter.keepsDir, Bool.and_eq_true] at h ⊢
  exact ⟨h.1, keeps_of_allowed hallowed hmem h.2⟩

theorem exists_of_mem_shown {kind : Bool → Bool} {t : Tree} (h : p ∈ f.shown base kind t) : ∃ c, p = base ++ [c] ∧ Clean c := by
  obtain ⟨e, -, rfl⟩ := List.mem_map.mp h
  exact ⟨e.1, rfl, e.1.property⟩

theorem mem_shown_of_allowed {kind : Bool → Bool} {t : Tree} (hallowed : f.allowed = some allowed) (hmem : resolve p ∈ allowed)
    (h : p ∈ f.unfiltered.shown base kind t) : p ∈ f.shown base kind t := by
  obtain ⟨e, he, rfl⟩ := List.mem_map.mp h
  rw [List.mem_filter, Bool.and_eq_true] at he
  obtain ⟨hentry, hkind, hkeeps⟩ := he
  refine List.mem_map.mpr ⟨e, List.mem_filter.mpr ⟨hentry, ?_⟩, rfl⟩
  rw [hkind, Bool.true_and]
  split
  · next hdir =>
    rw [if_pos hdir] at hkeeps
    exact keepsDir_of_allowed hallowed hmem hkeeps
  · next hfile =>
    rw [if_neg hfile] at hkeeps
    exact keeps_of_allowed hallowed hmem hkeeps

/-- A path below the start, by clean components. -/
def Below (base p : Path) : Prop := ∃ rest, p = base ++ rest ∧ ∀ c ∈ rest, Clean c

theorem below_of_mem_shown {kind : Bool → Bool} {t : Tree} (h : p ∈ f.shown base kind t) : Below base p := by
  obtain ⟨c, rfl, hc⟩ := exists_of_mem_shown h
  exact ⟨[c], rfl, List.forall_mem_singleton.mpr hc⟩

theorem Below.step {c : Text} (hc : Clean c) (h : Below (base ++ [c]) p) : Below base p := by
  obtain ⟨rest, rfl, hrest⟩ := h
  exact ⟨c :: rest, by simp, List.forall_mem_cons.mpr ⟨hc, hrest⟩⟩

theorem Below.isPrefix (h : Below base p) : base <+: p := by
  obtain ⟨rest, rfl, -⟩ := h
  exact List.prefix_append _ _

/-- What the walk yields stands below its start. -/
theorem below_of_mem_below {t : Tree} (h : p ∈ f.below base t) : Below base p := by
  induction t generalizing base with
  | nil => exact absurd h List.not_mem_nil
  | file name rest ih => exact ih h
  | dir name content rest hcontent hrest =>
    rw [Filter.below] at h
    cases List.mem_append.mp h with
    | inl h =>
      split at h
      · refine Below.step name.property ?_
        rw [List.mem_append, List.mem_append] at h
        rcases h with (h | h) | h
        · exact below_of_mem_shown h
        · exact below_of_mem_shown h
        · exact hcontent h
      · exact absurd h List.not_mem_nil
    | inr h => exact hrest h

theorem below_of_mem_iterFiltered {recursive : Bool} {t : Tree} (h : p ∈ iterFiltered f recursive base t) : Below base p := by
  rw [iterFiltered] at h
  split at h
  · rw [List.mem_append, List.mem_append] at h
    rcases h with (h | h) | h
    · exact below_of_mem_shown h
    · exact below_of_mem_shown h
    · exact below_of_mem_below h
  · exact below_of_mem_shown h

/-- Every path from the start down to a path is allowed. -/
def AllowedDown (allowed : List Path) (base p : Path) : Prop := ∀ q, base <+: q → q ≠ base → q <+: p → resolve q ∈ allowed

theorem AllowedDown.next {c : Text} (h : AllowedDown allowed base p) (hp : base ++ [c] <+: p) :
    resolve (base ++ [c]) ∈ allowed ∧ AllowedDown allowed (base ++ [c]) p := by
  refine ⟨h _ (List.prefix_append _ _) (by simp) hp, fun q hq hne hqp => h q ((List.prefix_append _ _).trans hq) ?_ hqp⟩
  rintro rfl
  have hlength := hq.length_le
  rw [List.length_append, List.length_singleton] at hlength
  omega

theorem AllowedDown.mem_shown {kind : Bool → Bool} {t : Tree} (hallowed : f.allowed = some allowed) (hdown : AllowedDown allowed base p)
    (h : p ∈ f.unfiltered.shown base kind t) : p ∈ f.shown base kind t := by
  obtain ⟨c, rfl, -⟩ := exists_of_mem_shown h
  exact mem_shown_of_allowed hallowed (hdown.next (List.prefix_refl _)).1 h

theorem AllowedDown.mem_below {t : Tree} (hallowed : f.allowed = some allowed) (hdown : AllowedDown allowed base p)
    (h : p ∈ f.unfiltered.below base t) : p ∈ f.below base t := by
  induction t generalizing base with
  | nil => exact absurd h List.not_mem_nil
  | file name rest ih => exact ih hdown h
  | dir name content rest hcontent hrest =>
    rw [Filter.below, List.mem_append] at h ⊢
    refine h.imp (fun h => ?_) (hrest hdown)
    split at h
    · next hkeeps =>
      have hp : base ++ [name.val] <+: p := by
        rw [List.mem_append, List.mem_append] at h
        rcases h with (h | h) | h
        · exact (below_of_mem_shown h).isPrefix
        · exact (below_of_mem_shown h).isPrefix
        · exact (below_of_mem_below h).isPrefix
      obtain ⟨hname, hinside⟩ := hdown.next hp
      rw [if_pos (keepsDir_of_allowed hallowed hname hkeeps)]
      rw [List.mem_append, List.mem_append] at h ⊢
      exact h.imp (fun h => h.imp (hinside.mem_shown hallowed) (hinside.mem_shown hallowed)) (hcontent hinside)
    · exact absurd h List.not_mem_nil

theorem AllowedDown.mem_iterFiltered {recursive : Bool} {t : Tree} (hallowed : f.allowed = some allowed) (hdown : AllowedDown allowed base p)
    (h : p ∈ iterFiltered f.unfiltered recursive base t) : p ∈ iterFiltered f recursive base t := by
  rw [iterFiltered] at h ⊢
  split at h
  · next hrecursive =>
    rw [if_pos hrecursive]
    rw [List.mem_append, List.mem_append] at h ⊢
    exact h.imp (fun h => h.imp (hdown.mem_shown hallowed) (hdown.mem_shown hallowed)) (hdown.mem_below hallowed)
  · next hdirect =>
    rw [if_neg hdirect]
    exact hdown.mem_shown hallowed h

/-- On the way down to a listed file everything is listed. -/
theorem allowedDown_of_listed {n : FileName} (hn : n ∈ names) (hset : ∀ q, Listed root names q → q ∈ allowed) (hbase : root <+: resolve base)
    (hp : Below base p) (hresolve : resolve p = root ++ n.parts) : AllowedDown allowed base p := by
  obtain ⟨rest, rfl, hrest⟩ := hp
  intro q hq _ hqp
  obtain ⟨front, rfl⟩ := hq
  rw [List.prefix_append_right_inj] at hqp
  have hfront : resolve (base ++ front) = resolve base ++ front := resolve_append base front fun c hc => (hrest c (hqp.subset hc)).2.2.1
  have hall : resolve (base ++ rest) = resolve base ++ rest := resolve_append base rest fun c hc => (hrest c hc).2.2.1
  refine hset _ ⟨n, hn, ?_, ?_⟩
  · rw [hfront]
    exact hbase.trans (List.prefix_append _ _)
  · rw [hfront, ← hresolve, hall, List.prefix_append_right_inj]
    exact hqp

end

/-- The set is exact, and neither the walk nor the search hides a listed file that they would
show without it. -/
structure Survives (repoRoot : Path) (names : List FileName) : Prop where
  exact : ∀ p, p ∈ allowedPaths repoRoot (lsFiles names) ↔ Listed (resolve repoRoot) names p
  walked : ∀ (f : Filter) (recursive : Bool) (base : Path) (t : Tree), f.allowed = some (allowedPaths repoRoot (lsFiles names)) →
    resolve repoRoot <+: resolve base → ∀ n ∈ names, ∀ p, resolve p = resolve repoRoot ++ n.parts →
      p ∈ iterFiltered f.unfiltered recursive base t → p ∈ iterFiltered f recursive base t
  searched : ∀ (f : Filter) (globMatches : Path → Bool) (base : Path) (start : Start),
    f.allowed = some (allowedPaths repoRoot (lsFiles names)) → resolve repoRoot <+: resolve base → ∀ n ∈ names, ∀ p,
      resolve p = resolve repoRoot ++ n.parts → p ∈ matchingEntries f.unfiltered globMatches base start → p ∈ matchingEntries f globMatches base start

theorem survives_iff (repoRoot : Path) (names : List FileName) : Survives repoRoot names ↔ ∀ n ∈ names, n.text.any needsQuoting = false := by
  refine ⟨fun h => (allowed_iff repoRoot names).mp h.exact, fun hplain => ?_⟩
  have hexact := (allowed_iff repoRoot names).mpr hplain
  have hset : ∀ q, Listed (resolve repoRoot) names q → q ∈ allowedPaths repoRoot (lsFiles names) := fun q => (hexact q).mpr
  have hwalked : ∀ (f : Filter) (recursive : Bool) (base : Path) (t : Tree), f.allowed = some (allowedPaths repoRoot (lsFiles names)) →
      resolve repoRoot <+: resolve base → ∀ n ∈ names, ∀ p, resolve p = resolve repoRoot ++ n.parts →
        p ∈ iterFiltered f.unfiltered recursive base t → p ∈ iterFiltered f recursive base t := by
    intro f recursive base t hallowed hbase n hn p hresolve hp
    exact (allowedDown_of_listed hn hset hbase (below_of_mem_iterFiltered hp) hresolve).mem_iterFiltered hallowed hp
  refine ⟨hexact, hwalked, ?_⟩
  intro f globMatches base start hallowed hbase n hn p hresolve hp
  cases start with
  | file name =>
    rw [matchingEntries] at hp ⊢
    split at hp
    · next hkeeps =>
      obtain rfl := List.mem_singleton.mp hp
      rw [Bool.and_eq_true] at hkeeps
      have hmem : resolve (base ++ [name.val]) ∈ allowedPaths repoRoot (lsFiles names) := by
        refine hset _ ⟨n, hn, ?_, ?_⟩
        · rw [hresolve]
          exact List.prefix_append _ _
        · rw [hresolve]
      rw [keeps_of_allowed hallowed hmem hkeeps.1, hkeeps.2]
      exact List.mem_singleton.mpr rfl
    · exact absurd hp List.not_mem_nil
  | directory t =>
    rw [matchingEntries, List.mem_filter] at hp ⊢
    exact ⟨hwalked f true base t hallowed hbase n hn p hresolve hp.1, hp.2⟩

def mainBranch : FileLine := ⟨txt "main", by decide⟩

def accented : FileName where
  parts := [[0xE9]]
  named := by decide
  clean := by decide

end WebOauthMcp.AllowedPaths
