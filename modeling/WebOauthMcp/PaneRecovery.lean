import Mathlib.Data.List.Infix
import WebOauthMcp.TmuxPanes

/-!
# What is recovered from the table of panes

The table is split at more characters than tmux ends its lines with, and at the unit separator
wherever there is one. A table is recovered exactly when no field gets in the way.
-/

namespace WebOauthMcp.PaneRecovery
open CodePoints Utf8Units LineSplitting Words TextScans ExceptSteps GitOutput TmuxPanes

variable {d : Delimiter}

/-! ## The table as text -/

theorem isEncodable_text (d : Delimiter) : isEncodable d.text = true := by cases d <;> decide

theorem text_ne_nil (d : Delimiter) : d.text ≠ [] := by cases d <;> decide

theorem startsUnit_bytes (d : Delimiter) (rest : Bytes) : StartsUnit (d.bytes ++ rest) := by
  obtain ⟨c, t, hd⟩ := List.exists_cons_of_ne_nil (text_ne_nil d)
  rw [Delimiter.bytes, hd, List.flatMap_cons, List.append_assoc]
  exact startsUnit_utf8Bytes_append c _

theorem decodeReplace_feed (rest : Bytes) : decodeReplace (0x0A :: rest) = lineFeed :: decodeReplace rest :=
  decodeReplace_encoded_append [lineFeed] (by decide) rest

theorem startsUnit_feed (rest : Bytes) : StartsUnit (0x0A :: rest) := startsUnit_utf8Bytes_append lineFeed rest

theorem decodeReplace_intercalate (d : Delimiter) (fs : List Bytes) {rest : Bytes} (h : StartsUnit rest) :
    decodeReplace (List.intercalate d.bytes fs ++ rest) = List.intercalate d.text (fs.map decodeReplace) ++ decodeReplace rest := by
  induction fs with
  | nil => rfl
  | cons f fs ih =>
    cases fs with
    | nil =>
      rw [List.map_singleton, List.intercalate_singleton, List.intercalate_singleton]
      exact decodeReplace_append f rest h
    | cons g fs =>
      rw [List.map_cons, List.map_cons, List.intercalate_cons_cons, List.intercalate_cons_cons, ← List.map_cons, List.append_assoc,
        List.append_assoc, decodeReplace_append f _ (startsUnit_bytes d _), Delimiter.bytes,
        decodeReplace_encoded_append d.text (isEncodable_text d), ← Delimiter.bytes, ih, List.append_assoc, List.append_assoc]

/-- The line of a pane. -/
def line (p : PrintedPane d) : Text := List.intercalate d.text p.texts.toList

theorem decodeReplace_printPanes (panes : List (PrintedPane d)) : decodeReplace (printPanes panes) = printed (panes.map line) := by
  induction panes with
  | nil => rfl
  | cons p panes ih =>
    have hprinted : printed (line p :: panes.map line) = line p ++ (lineFeed :: printed (panes.map line)) := by
      rw [printed, List.flatMap_cons, List.append_assoc, List.singleton_append]
      rfl
    rw [printPanes, List.flatMap_cons, ← printPanes, List.append_assoc, List.singleton_append,
      decodeReplace_intercalate d _ (startsUnit_feed _), decodeReplace_feed, ih, List.map_cons, hprinted, line, PrintedPane.texts, toList_map]

theorem mem_texts {p : PrintedPane d} {t : Text} (h : t ∈ p.texts.toList) : lineFeed ∉ t ∧ ¬d.text <:+: t := by
  rw [PrintedPane.texts, toList_map] at h
  obtain ⟨f, hf, rfl⟩ := List.mem_map.mp h
  constructor
  · intro hmem
    obtain ⟨s, u, heq⟩ := List.append_of_mem hmem
    have hstands : [lineFeed] <:+: decodeReplace f := ⟨s, u, by rw [heq]; simp⟩
    have hbyte : [(0x0A : Byte)] <:+: f := encoded_infix_of_decodeReplace (by decide) hstands
    exact p.noFeed f hf (hbyte.subset (List.mem_singleton.mpr rfl))
  · intro hstands
    exact p.noDelimiter f hf (encoded_infix_of_decodeReplace (by cases d <;> decide) hstands)

/-! ## Pieces of a line -/

/-- Nothing but line breaks. -/
def Breaks (t : Text) : Prop := ∀ c ∈ t, isLineBreak c = true

theorem cut_front {u : Text} (hu : Unbroken u) (t : Text) : ∃ piece rest, cut t = piece :: rest ∧ cut (u ++ t) = (u ++ piece) :: rest := by
  induction u with
  | nil =>
    obtain ⟨piece, rest, h⟩ := List.exists_cons_of_ne_nil (cut_ne_nil t)
    exact ⟨piece, rest, h, h⟩
  | cons c u ih =>
    rw [Unbroken, List.forall_mem_cons] at hu
    obtain ⟨piece, rest, ht, hcut⟩ := ih hu.2
    obtain ⟨piece', rest', hcut', hcons⟩ := cut_cons hu.1 (u ++ t)
    rw [hcut] at hcut'
    obtain ⟨rfl, rfl⟩ := List.cons.inj hcut'
    exact ⟨piece, rest, ht, hcons⟩

/-- Behind a line, breaks leave empty pieces. -/
theorem cut_breaks {t : Text} (h : Breaks t) : ∀ piece ∈ cut t, piece = [] := by
  intro piece hpiece
  have hunbroken := unbroken_of_mem_cut hpiece
  obtain ⟨l, hl, rfl⟩ := List.mem_map.mp hpiece
  refine List.eq_nil_iff_forall_not_mem.mpr fun c hc => ?_
  have hmem : c ∈ t ++ [lineFeed] := by
    rw [← flatMap_linesOf id (t ++ [lineFeed])]
    exact List.mem_flatMap.mpr ⟨l, hl, List.mem_append_left _ hc⟩
  have hbreak : isLineBreak c = true := by
    cases List.mem_append.mp hmem with
    | inl hmem => exact h c hmem
    | inr hmem =>
      rw [List.mem_singleton.mp hmem]
      decide
  exact Bool.eq_false_iff.mp (hunbroken c hc) hbreak

/-- The pieces of a line that are not skipped. -/
def kept (t : Text) : List Text := (cut t).filter fun l => decide (l ≠ [])

theorem kept_breaks {u t : Text} (hne : u ≠ []) (hu : Unbroken u) (ht : Breaks t) : kept (u ++ t) = [u] := by
  obtain ⟨piece, rest, hcut, hjoin⟩ := cut_front hu t
  have hempty := cut_breaks ht
  rw [hcut, List.forall_mem_cons] at hempty
  obtain ⟨rfl, hrest⟩ := hempty
  have hnone : rest.filter (fun l => decide (l ≠ [])) = [] := by
    rw [List.filter_eq_nil_iff]
    exact fun l hl => by simp [hrest l hl]
  rw [kept, hjoin, List.append_nil, List.filter_cons_of_pos (by simpa using hne), hnone]

theorem lines_around {ls : List (Line CodePoint)} (hends : ∀ l ∈ ls, Breaks l.ending) {piece : Text}
    (h : (ls.map Line.content).filter (fun l => decide (l ≠ [])) = [piece]) :
    ∃ lead tail, ls.flatMap Line.items = lead ++ (piece ++ tail) ∧ Breaks lead ∧ Breaks tail := by
  induction ls with
  | nil => simp at h
  | cons l ls ih =>
    rw [List.forall_mem_cons] at hends
    rw [List.map_cons] at h
    by_cases hcontent : l.content = []
    · rw [hcontent, List.filter_cons_of_neg (by simp)] at h
      obtain ⟨lead, tail, heq, hlead, htail⟩ := ih hends.2 h
      refine ⟨l.ending ++ lead, tail, ?_, List.forall_mem_append.mpr ⟨hends.1, hlead⟩, htail⟩
      rw [List.flatMap_cons, heq, Line.items, hcontent, List.nil_append, List.append_assoc]
    · rw [List.filter_cons_of_pos (by simpa using hcontent)] at h
      obtain ⟨rfl, hnone⟩ := List.cons.inj h
      refine ⟨[], l.ending ++ ls.flatMap Line.items, ?_, List.forall_mem_nil _, List.forall_mem_append.mpr ⟨hends.1, fun c hc => ?_⟩⟩
      · rw [List.flatMap_cons, Line.items, List.append_assoc, List.nil_append]
      · obtain ⟨m, hm, hc⟩ := List.mem_flatMap.mp hc
        have hempty : m.content = [] := by
          have hskipped := List.filter_eq_nil_iff.mp hnone m.content (List.mem_map_of_mem hm)
          simpa using hskipped
        rw [Line.items, hempty, List.nil_append] at hc
        exact hends.2 m hm c hc

/-- A line with one piece that is not skipped has nothing but breaks around it. -/
theorem breaks_around {t piece : Text} (h : kept t = [piece]) :
    ∃ lead tail, t = lead ++ (piece ++ tail) ∧ Breaks lead ∧ Breaks tail ∧ Unbroken piece := by
  have hmem : piece ∈ kept t := by
    rw [h]
    exact List.mem_singleton.mpr rfl
  have hunbroken := unbroken_of_mem_cut (List.mem_filter.mp hmem).1
  obtain ⟨lead, tail, heq, hlead, htail⟩ := lines_around (isLineBreak_of_ended (linesOf_ended id (t ++ [lineFeed]))) h
  rw [flatMap_linesOf] at heq
  cases List.eq_nil_or_concat tail with
  | inl hnil =>
    -- the piece would end with the line feed
    have hne : piece ≠ [] := by simpa using (List.mem_filter.mp hmem).2
    obtain ⟨front, c, rfl⟩ := (List.eq_nil_or_concat piece).resolve_left hne
    rw [List.concat_eq_append] at heq hunbroken
    rw [hnil, List.append_nil, ← List.append_assoc] at heq
    obtain rfl := (List.cons.inj (List.append_inj' heq rfl).2).1
    exact absurd (hunbroken lineFeed (by simp)) (by decide)
  | inr hlast =>
    obtain ⟨tail', c, rfl⟩ := hlast
    rw [List.concat_eq_append] at heq htail
    rw [← List.append_assoc, ← List.append_assoc] at heq
    obtain ⟨rfl, -⟩ := List.append_inj' heq rfl
    refine ⟨lead, tail', by rw [List.append_assoc], hlead, (List.forall_mem_append.mp htail).1, hunbroken⟩

/-! ## Legible panes -/

/-- A pane whose fields do not get in the way: no line breaks, but at the end of the last field
behind anything but a single 1, and no unit separator where tmux prints its escape. -/
structure Legible (d : Delimiter) (p : Pane Text) : Prop where
  sessionName : Unbroken p.sessionName
  middle : ∀ t ∈ p.middle, Unbroken t
  managed : ∃ g tail, p.m5localManaged = g ++ tail ∧ Unbroken g ∧ Breaks tail ∧ (tail = [] ∨ g ≠ txt "1")
  separator : d = .escaped → ∀ t ∈ p.toList, fieldSeparator ∉ t

/-- A pane without what is cut off at its ends. -/
def trimmed (p : Pane Text) (first last : Text) : Pane Text := { p with sessionName := first, m5localManaged := last }

theorem mem_intercalate {α : Type} {sep : List α} {xs : List (List α)} {a : α} (h : a ∈ List.intercalate sep xs) :
    a ∈ sep ∨ ∃ x ∈ xs, a ∈ x := by
  induction xs with
  | nil => exact absurd h List.not_mem_nil
  | cons x xs ih =>
    cases xs with
    | nil =>
      rw [List.intercalate_singleton] at h
      exact .inr ⟨x, List.mem_singleton.mpr rfl, h⟩
    | cons y ys =>
      rw [List.intercalate_cons_cons, List.append_assoc, List.mem_append, List.mem_append] at h
      obtain hx | hsep | htail := h
      · exact .inr ⟨x, List.mem_cons_self, hx⟩
      · exact .inl hsep
      · exact (ih htail).imp_right fun ⟨z, hz, hmem⟩ => ⟨z, List.mem_cons_of_mem x hz, hmem⟩

theorem intercalate_append {α : Type} (sep : List α) (xs : List (List α)) (a b : List α) :
    List.intercalate sep (xs ++ [a ++ b]) = List.intercalate sep (xs ++ [a]) ++ b := by
  induction xs with
  | nil => rw [List.nil_append, List.nil_append, List.intercalate_singleton, List.intercalate_singleton]
  | cons x xs ih =>
    have hne : ∀ y : List α, xs ++ [y] ≠ [] := fun y => by simp
    rw [List.cons_append, List.cons_append, List.intercalate_cons_of_ne_nil (hne _), List.intercalate_cons_of_ne_nil (hne _), ih]
    simp only [List.append_assoc]

theorem text_unbroken (d : Delimiter) : Unbroken d.text := by
  cases d with
  | raw => exact List.forall_mem_singleton.mpr (by decide)
  | escaped =>
    have hall : escapedSeparator.all (fun c => !isLineBreak c) = true := by decide
    exact fun c hc => by simpa using List.all_eq_true.mp hall c hc

theorem intercalate_unbroken (d : Delimiter) {fs : List Text} (h : ∀ t ∈ fs, Unbroken t) : Unbroken (List.intercalate d.text fs) := by
  intro c hc
  obtain hsep | ⟨t, ht, hmem⟩ := mem_intercalate hc
  · exact text_unbroken d c hsep
  · exact h t ht c hmem

theorem unbordered_text (d : Delimiter) : Unbordered d.text := by
  cases d with
  | raw => exact unbordered_singleton fieldSeparator
  | escaped =>
    have hall : ∀ q ∈ escapedSeparator.inits, q <:+ escapedSeparator → q = [] ∨ q = escapedSeparator := by decide
    exact fun q hq => hall q ((List.mem_inits _ _).mpr hq)

/-- The fields of a line are found again. -/
theorem splitTmuxFields_intercalate {p : Pane Text} (hdelimiter : ∀ t ∈ p.toList, ¬d.text <:+: t)
    (hseparator : d = .escaped → ∀ t ∈ p.toList, fieldSeparator ∉ t) :
    splitTmuxFields (List.intercalate d.text p.toList) = p.toList := by
  have hsplit := strSplit_intercalate (text_ne_nil d) (unbordered_text d) (List.cons_ne_nil _ _ : p.toList ≠ []) hdelimiter
  rw [splitTmuxFields]
  cases d with
  | raw =>
    have hmem : fieldSeparator ∈ List.intercalate Delimiter.raw.text p.toList := by
      rw [Pane.toList, List.intercalate_cons_of_ne_nil (by simp)]
      simp [Delimiter.text]
    rw [if_pos hmem]
    exact hsplit
  | escaped =>
    have hnone : fieldSeparator ∉ List.intercalate Delimiter.escaped.text p.toList := by
      intro hmem
      obtain hsep | ⟨t, ht, hmem⟩ := mem_intercalate hmem
      · revert hsep
        decide
      · exact hseparator rfl t ht hmem
    rw [if_neg hnone]
    exact hsplit

theorem parseRow_intercalate (int : Text → Option ℤ) {p : Pane Text} (hdelimiter : ∀ t ∈ p.toList, ¬d.text <:+: t)
    (hseparator : d = .escaped → ∀ t ∈ p.toList, fieldSeparator ∉ t) :
    parseRow int (List.intercalate d.text p.toList) = .ok (rowOf int p) := by
  rw [parseRow, splitTmuxFields_intercalate hdelimiter hseparator, ofList_toList]

theorem line_trimmed (p : PrintedPane d) {last tail : Text} (h : p.texts.m5localManaged = last ++ tail) :
    line p = List.intercalate d.text (trimmed p.texts p.texts.sessionName last).toList ++ tail := by
  rw [line, Pane.toList, h, ← List.cons_append, intercalate_append]
  rfl

/-! ## Legible tables are recovered -/

theorem kept_line (p : PrintedPane d) {last tail : Text} (h : p.texts.m5localManaged = last ++ tail) (hname : Unbroken p.texts.sessionName)
    (hmiddle : ∀ t ∈ p.texts.middle, Unbroken t) (hlast : Unbroken last) (htail : Breaks tail) :
    kept (line p) = [List.intercalate d.text (trimmed p.texts p.texts.sessionName last).toList] := by
  rw [line_trimmed p h]
  refine kept_breaks ?_ (intercalate_unbroken d ?_) htail
  · obtain ⟨c, t, hd⟩ := List.exists_cons_of_ne_nil (text_ne_nil d)
    rw [Pane.toList, List.intercalate_cons_of_ne_nil (by simp), hd]
    simp
  · refine List.forall_mem_cons.mpr ⟨hname, List.forall_mem_append.mpr ⟨hmiddle, List.forall_mem_singleton.mpr hlast⟩⟩

theorem infix_of_prefix_field {w s t : Text} (h : ¬w <:+: s ++ t) : ¬w <:+: s := fun hs => h (hs.trans (List.prefix_append s t).isInfix)

/-- The last field is read as if nothing was cut off behind it. -/
theorem boolValue_append {g tail : Text} (htail : Breaks tail) (h : tail = [] ∨ g ≠ txt "1") : boolValue (g ++ tail) = boolValue g := by
  cases h with
  | inl hnil => rw [hnil, List.append_nil]
  | inr hne =>
    rw [boolValue, boolValue, decide_eq_false hne, decide_eq_false_iff_not]
    intro heq
    cases List.eq_nil_or_concat tail with
    | inl hnil =>
      rw [hnil, List.append_nil] at heq
      exact hne heq
    | inr hlast =>
      obtain ⟨front, c, rfl⟩ := hlast
      rw [List.concat_eq_append] at heq htail
      have hbreak := htail c (by simp)
      have hone : c ∈ txt "1" := by
        rw [← heq]
        simp
      rw [List.mem_singleton.mp hone] at hbreak
      exact absurd hbreak (by decide)

theorem parseRow_kept (int : Text → Option ℤ) {p : PrintedPane d} (h : Legible d p.texts) :
    ∃ piece, kept (line p) = [piece] ∧ parseRow int piece = .ok (rowOf int p.texts) := by
  obtain ⟨g, tail, heq, hg, htail, hone⟩ := h.managed
  refine ⟨_, kept_line p heq h.sessionName h.middle hg htail, ?_⟩
  have hfields : ∀ t ∈ (trimmed p.texts p.texts.sessionName g).toList, t ∈ p.texts.toList ∨ t = g := by
    intro t ht
    rw [Pane.toList, List.mem_cons, List.mem_append, List.mem_singleton] at ht
    rw [Pane.toList, List.mem_cons, List.mem_append]
    exact ht.elim (fun h => .inl (.inl h)) fun h => h.elim (fun h => .inl (.inr (.inl h))) .inr
  have hmanaged : g ++ tail ∈ p.texts.toList := by
    rw [← heq, Pane.toList]
    simp
  rw [parseRow_intercalate int]
  · rw [rowOf, rowOf, heq, boolValue_append htail hone]
    rfl
  · intro t ht
    cases hfields t ht with
    | inl hmem => exact (mem_texts hmem).2
    | inr hlast =>
      rw [hlast]
      exact infix_of_prefix_field (mem_texts hmanaged).2
  · intro hescaped t ht hmem
    cases hfields t ht with
    | inl hfield => exact h.separator hescaped t hfield hmem
    | inr hlast =>
      rw [hlast] at hmem
      exact h.separator hescaped _ hmanaged (List.mem_append_left tail hmem)

theorem parseRows_printPanes (int : Text → Option ℤ) (panes : List (PrintedPane d)) : parseRows int (printPanes panes) =
    ((panes.flatMap fun p => kept (line p)).mapM (parseRow int)).map fun rows => rows.mergeSort rowLe := by
  rw [parseRows, decodeReplace_printPanes, splitlines_printed, List.filter_flatMap, List.flatMap_map]
  rfl

/-! The order of the rows. -/

theorem inOrder_total (r s : Row) : (inOrder r s || inOrder s r) = true := by
  simp only [inOrder, Bool.or_eq_true]
  grind

theorem inOrder_trans {r s t : Row} (hrs : inOrder r s = true) (hst : inOrder s t = true) : inOrder r t = true := by
  simp only [inOrder] at *
  grind

theorem rowLe_total (r s : Row) : (rowLe r s || rowLe s r) = true := by
  rw [rowLe, rowLe]
  by_cases h : r.sessionName = s.sessionName
  · rw [if_pos h, if_pos h.symm]
    exact inOrder_total r s
  · rw [if_neg h, if_neg (Ne.symm h)]
    exact textLe_total _ _

theorem rowLe_trans (r s t : Row) (hrs : rowLe r s = true) (hst : rowLe s t = true) : rowLe r t = true := by
  rw [rowLe] at hrs hst ⊢
  by_cases hr : r.sessionName = s.sessionName
  · rw [if_pos hr] at hrs
    by_cases hs : s.sessionName = t.sessionName
    · rw [if_pos hs] at hst
      rw [if_pos (hr.trans hs)]
      exact inOrder_trans hrs hst
    · rw [if_neg hs] at hst
      rw [hr, if_neg hs]
      exact hst
  · rw [if_neg hr] at hrs
    by_cases hs : s.sessionName = t.sessionName
    · rw [← hs, if_neg hr]
      exact hrs
    · rw [if_neg hs] at hst
      have hne : r.sessionName ≠ t.sessionName := fun heq => by
        rw [heq] at hrs
        exact hs (textLe_antisymm _ _ hst hrs)
      rw [if_neg hne]
      exact textLe_trans _ _ _ hrs hst

/-- The rows of a group are some of the rows, in their order. -/
theorem groupRows_sublist (rows : List Row) : ∀ group ∈ groupRows rows, group.2.Sublist rows := by
  have hstep : ∀ (groups : List (Text × List Row)) (done rows : List Row), (∀ g ∈ groups, g.2.Sublist done) →
      ∀ g ∈ rows.foldl addToGroup groups, g.2.Sublist (done ++ rows) := by
    intro groups done rows
    induction rows generalizing groups done with
    | nil => exact fun h g hg => (h g hg).trans (List.sublist_append_left done [])
    | cons row rows ih =>
      intro h g hg
      have hadded : ∀ g ∈ addToGroup groups row, g.2.Sublist (done ++ [row]) := by
        intro g hg
        rw [addToGroup] at hg
        split at hg
        · obtain ⟨g', hg', rfl⟩ := List.mem_map.mp hg
          split
          · exact (h g' hg').append_right [row]
          · exact (h g' hg').trans (List.sublist_append_left done [row])
        · cases List.mem_append.mp hg with
          | inl hg => exact (h g hg).trans (List.sublist_append_left done [row])
          | inr hg =>
            rw [List.mem_singleton.mp hg]
            exact List.sublist_append_right done [row]
      have hrest := ih _ _ hadded g hg
      rwa [List.append_assoc, List.singleton_append] at hrest
  have hall := hstep [] [] rows (List.forall_mem_nil _)
  rwa [List.nil_append] at hall

theorem groups_inOrder (rows : List Row) : ∀ group ∈ groupRows (rows.mergeSort rowLe),
    group.2.Pairwise fun r s => r.sessionName = s.sessionName → inOrder r s = true := by
  intro group hgroup
  have hsorted := (List.pairwise_mergeSort rowLe_trans rowLe_total rows).sublist (groupRows_sublist _ group hgroup)
  refine hsorted.imp fun hle heq => ?_
  rwa [rowLe, if_pos heq] at hle

theorem recovered_of_legible (int : Text → Option ℤ) {panes : List (PrintedPane d)} (h : ∀ p ∈ panes, Legible d p.texts) :
    Recovered int panes := by
  have hrows : (panes.flatMap fun p => kept (line p)).mapM (parseRow int) = .ok (panes.map fun p => rowOf int p.texts) := by
    induction panes with
    | nil => rfl
    | cons p panes ih =>
      rw [List.forall_mem_cons] at h
      obtain ⟨piece, hkept, hparse⟩ := parseRow_kept int h.1
      have htail := mapM_eq_ok.mp (ih h.2)
      rw [List.flatMap_cons, hkept, List.singleton_append, List.map_cons]
      exact mapM_eq_ok.mpr (.cons hparse htail)
  refine ⟨(panes.map fun p => rowOf int p.texts).mergeSort rowLe, ?_, List.mergeSort_perm _ _, groups_inOrder _⟩
  rw [parseRows_printPanes, hrows]
  rfl

/-! ## Recovered tables are legible -/

theorem mem_intercalate_of_mem {α : Type} {sep : List α} {xs : List (List α)} {x : List α} (hx : x ∈ xs) {a : α} (ha : a ∈ x) :
    a ∈ List.intercalate sep xs := by
  induction xs with
  | nil => exact absurd hx List.not_mem_nil
  | cons y ys ih =>
    cases ys with
    | nil =>
      rw [List.intercalate_singleton, ← List.mem_singleton.mp hx]
      exact ha
    | cons z zs =>
      rw [List.intercalate_cons_cons, List.append_assoc, List.mem_append, List.mem_append]
      cases List.mem_cons.mp hx with
      | inl heq => exact .inl (heq ▸ ha)
      | inr hmem => exact .inr (.inr (ih hmem))

theorem mem_cut {t : Text} {c : CodePoint} (hc : isLineBreak c = false) (hmem : c ∈ t) : ∃ piece ∈ cut t, c ∈ piece := by
  have hall : c ∈ (linesOf id (t ++ [lineFeed])).flatMap Line.items := by
    rw [flatMap_linesOf]
    exact List.mem_append_left _ hmem
  obtain ⟨l, hl, hcl⟩ := List.mem_flatMap.mp hall
  cases List.mem_append.mp hcl with
  | inl hcontent => exact ⟨l.content, List.mem_map_of_mem hl, hcontent⟩
  | inr hending => exact absurd (isLineBreak_of_ended (linesOf_ended id _) l hl c hending) (Bool.eq_false_iff.mp hc)

/-- The first character of the delimiter. -/
theorem text_head (d : Delimiter) : ∃ c t, d.text = c :: t ∧ isLineBreak c = false := by
  obtain ⟨c, t, hd⟩ := List.exists_cons_of_ne_nil (text_ne_nil d)
  exact ⟨c, t, hd, text_unbroken d c (by rw [hd]; exact List.mem_cons_self)⟩

theorem line_eq (p : PrintedPane d) :
    line p = p.texts.sessionName ++ (d.text ++ List.intercalate d.text (p.texts.middle ++ [p.texts.m5localManaged])) := by
  rw [line, Pane.toList, List.intercalate_cons_of_ne_nil (by simp), List.append_assoc]

theorem kept_line_ne_nil (p : PrintedPane d) : kept (line p) ≠ [] := by
  obtain ⟨c, t, hd, hc⟩ := text_head d
  have hmem : c ∈ line p := by
    rw [line_eq, hd]
    simp
  obtain ⟨piece, hpiece, hcp⟩ := mem_cut hc hmem
  have hkept : piece ∈ kept (line p) := List.mem_filter.mpr ⟨hpiece, by simpa using List.ne_nil_of_mem hcp⟩
  exact List.ne_nil_of_mem hkept

theorem intercalate_closed {α : Type} (sep : List α) {xs : List (List α)} (hne : xs ≠ []) :
    ∃ front, List.intercalate sep (xs ++ [[]]) = front ++ sep := by
  induction xs with
  | nil => exact absurd rfl hne
  | cons x xs ih =>
    rw [List.cons_append, List.intercalate_cons_of_ne_nil (by simp)]
    by_cases hxs : xs = []
    · exact ⟨x, by rw [hxs, List.nil_append, List.intercalate_singleton, List.append_nil]⟩
    · obtain ⟨front, hfront⟩ := ih hxs
      exact ⟨x ++ sep ++ front, by rw [hfront, List.append_assoc (x ++ sep)]⟩

/-- Breaks in front of a text and characters that are none. -/
theorem breaks_prefix {lead s t rest : Text} {c : CodePoint} (hc : isLineBreak c = false) (hlead : Breaks lead)
    (h : lead ++ rest = s ++ c :: t) : ∃ first, s = lead ++ first ∧ rest = first ++ c :: t := by
  obtain ⟨a, hs, hrest⟩ | ⟨b, rfl, hb⟩ := List.append_eq_append_iff.mp h
  · exact ⟨a, hs, hrest⟩
  · cases b with
    | nil => exact ⟨[], by simp, by simpa using hb.symm⟩
    | cons x b =>
      obtain ⟨rfl, -⟩ := List.cons.inj hb
      exact absurd (hlead c (by simp)) (Bool.eq_false_iff.mp hc)

/-- Breaks behind a text and characters that are none. -/
theorem breaks_suffix {tail s t rest : Text} {c : CodePoint} (hc : isLineBreak c = false) (htail : Breaks tail)
    (h : rest ++ tail = s ++ [c] ++ t) : ∃ last, t = last ++ tail ∧ rest = s ++ [c] ++ last := by
  obtain ⟨a, ha, rfl⟩ | ⟨b, rfl, hb⟩ := List.append_eq_append_iff.mp h
  · cases List.eq_nil_or_concat a with
    | inl hnil => exact ⟨[], by rw [hnil]; simp, by rw [ha, hnil]; simp⟩
    | inr hlast =>
      obtain ⟨front, x, rfl⟩ := hlast
      rw [List.concat_eq_append] at ha htail
      rw [← List.append_assoc] at ha
      obtain ⟨-, heq⟩ := List.append_inj' ha rfl
      obtain ⟨rfl, -⟩ := List.cons.inj heq
      exact absurd (htail c (by simp)) (Bool.eq_false_iff.mp hc)
  · exact ⟨b, hb, rfl⟩

theorem text_last (d : Delimiter) : ∃ t c, d.text = t ++ [c] ∧ isLineBreak c = false := by
  obtain ⟨t, c, hd⟩ := (List.eq_nil_or_concat d.text).resolve_left (text_ne_nil d)
  rw [List.concat_eq_append] at hd
  exact ⟨t, c, hd, text_unbroken d c (by rw [hd]; simp)⟩

/-- What is left of the line of a pane: breaks are gone in front of its first field and behind its last. -/
theorem kept_shape {p : PrintedPane d} {piece : Text} (h : kept (line p) = [piece]) : ∃ first last lead tail,
    p.texts.sessionName = lead ++ first ∧ p.texts.m5localManaged = last ++ tail ∧ Breaks tail ∧
      piece = List.intercalate d.text (trimmed p.texts first last).toList ∧ Unbroken piece := by
  obtain ⟨lead, tail, heq, hlead, htail, hunbroken⟩ := breaks_around h
  obtain ⟨c, t, hd, hc⟩ := text_head d
  rw [line_eq, hd, List.cons_append] at heq
  obtain ⟨first, hfirst, hpiece⟩ := breaks_prefix hc hlead heq.symm
  obtain ⟨t', c', hd', hc'⟩ := text_last d
  have hmiddle : p.texts.middle ≠ [] := List.cons_ne_nil _ _
  obtain ⟨front, hfront⟩ := intercalate_closed d.text hmiddle
  have hjoin : ∀ last, List.intercalate d.text (p.texts.middle ++ [last]) = front ++ d.text ++ last := fun last => by
    rw [← hfront]
    exact intercalate_append d.text p.texts.middle [] last
  rw [← List.cons_append, ← hd, hjoin, hd'] at hpiece
  have hend : piece ++ tail = first ++ (t' ++ [c']) ++ front ++ t' ++ [c'] ++ p.texts.m5localManaged := by
    rw [hpiece]
    simp only [List.append_assoc]
  obtain ⟨last, hlast, hfields⟩ := breaks_suffix hc' htail hend
  refine ⟨first, last, lead, tail, hfirst, hlast, htail, ?_, hunbroken⟩
  have htrimmed : (trimmed p.texts first last).toList = first :: (p.texts.middle ++ [last]) := rfl
  rw [htrimmed, List.intercalate_cons_of_ne_nil (by simp), hjoin, hfields, hd']
  simp only [List.append_assoc]

/-- What is known of a row that was parsed from the line of a pane. -/
structure ParsedFrom (int : Text → Option ℤ) (p : PrintedPane d) (r : Row) (first last lead tail : Text) : Prop where
  sessionName : p.texts.sessionName = lead ++ first
  managed : p.texts.m5localManaged = last ++ tail
  tail : Breaks tail
  unbroken : Unbroken (List.intercalate d.text (trimmed p.texts first last).toList)
  parsed : parseRow int (List.intercalate d.text (trimmed p.texts first last).toList) = .ok r

theorem forall₂_pieces {α β γ : Type} {f : α → List β} {R : β → γ → Prop} {xs : List α} {zs : List γ}
    (hf : ∀ x ∈ xs, (f x).length = 1) (h : List.Forall₂ R (xs.flatMap f) zs) : List.Forall₂ (fun x z => ∃ y, f x = [y] ∧ R y z) xs zs := by
  induction xs generalizing zs with
  | nil =>
    cases h
    exact .nil
  | cons x xs ih =>
    rw [List.forall_mem_cons] at hf
    obtain ⟨y, hy⟩ := List.length_eq_one_iff.mp hf.1
    rw [List.flatMap_cons, hy, List.singleton_append] at h
    cases h with
    | cons hyz hrest => exact .cons ⟨y, hy, hyz⟩ (ih hf.2 hrest)

/-- A table with as many rows as panes has a row for each. -/
theorem rows_parsed {int : Text → Option ℤ} {panes : List (PrintedPane d)} (h : Recovered int panes) :
    ∃ parsed : List Row, parsed.Perm (panes.map fun p => rowOf int p.texts) ∧
      List.Forall₂ (fun p r => ∃ first last lead tail, ParsedFrom int p r first last lead tail) panes parsed := by
  obtain ⟨rows, hrows, hperm, -⟩ := h
  rw [parseRows_printPanes, map_ok_iff] at hrows
  obtain ⟨parsed, hparsed, rfl⟩ := hrows
  have hperm' := (List.mergeSort_perm parsed rowLe).symm.trans hperm
  have hall := mapM_eq_ok.mp hparsed
  have hlength := hall.length_eq
  rw [hperm'.length_eq, List.length_map] at hlength
  refine ⟨parsed, hperm', (forall₂_pieces (length_of_flatMap kept_line_ne_nil hlength) hall).imp ?_⟩
  rintro p r ⟨piece, hkept, hr⟩
  obtain ⟨first, last, lead, tail, hfirst, hlast, htail, rfl, hunbroken⟩ := kept_shape hkept
  exact ⟨first, last, lead, tail, hfirst, hlast, htail, hunbroken, hr⟩

section
variable {int : Text → Option ℤ} {p : PrintedPane d} {r : Row} {first last lead tail : Text}

theorem ParsedFrom.noDelimiter (h : ParsedFrom int p r first last lead tail) :
    ∀ t ∈ (trimmed p.texts first last).toList, ¬d.text <:+: t := by
  have hname : lead ++ first ∈ p.texts.toList := by
    rw [← h.sessionName]
    exact List.mem_cons_self
  have hmanaged : last ++ tail ∈ p.texts.toList := by
    rw [← h.managed, Pane.toList]
    simp
  refine List.forall_mem_cons.mpr ⟨fun hstands => ?_, List.forall_mem_append.mpr ⟨fun t ht => ?_, List.forall_mem_singleton.mpr ?_⟩⟩
  · exact (mem_texts hname).2 (hstands.trans (List.suffix_append lead first).isInfix)
  · exact (mem_texts (List.mem_cons_of_mem _ (List.mem_append_left _ ht))).2
  · exact infix_of_prefix_field (mem_texts hmanaged).2

/-- Without a unit separator the fields are the trimmed ones. -/
theorem ParsedFrom.row_eq (h : ParsedFrom int p r first last lead tail)
    (hseparator : d = .escaped → fieldSeparator ∉ List.intercalate d.text (trimmed p.texts first last).toList) :
    r = rowOf int (trimmed p.texts first last) := by
  have hparsed := h.parsed
  rw [parseRow_intercalate int h.noDelimiter fun hescaped t ht hmem => hseparator hescaped (mem_intercalate_of_mem ht hmem)] at hparsed
  exact (Except.ok.inj hparsed).symm

/-- With one, the name of the session is what stands in front of it. -/
theorem parseRow_separator {text : Text} (h : parseRow int text = .ok r) (hmem : fieldSeparator ∈ text) :
    ∃ rest, text = r.sessionName ++ fieldSeparator :: rest ∧ fieldSeparator ∉ r.sessionName := by
  obtain ⟨s, rest, rfl, hs⟩ := List.eq_append_cons_of_mem hmem
  have hsplit : splitTmuxFields (s ++ fieldSeparator :: rest) = s :: strSplit [fieldSeparator] rest := by
    have hstands : ¬[fieldSeparator] <:+: s := fun hstands => hs (hstands.subset (List.mem_singleton.mpr rfl))
    rw [splitTmuxFields, if_pos hmem]
    exact strSplit_front (List.cons_ne_nil _ _) (unbordered_singleton fieldSeparator) hstands rest
  rw [parseRow, hsplit] at h
  split at h
  · cases h
  · next raw hraw =>
    cases h
    have hname : raw.sessionName = s := (List.cons.inj (toList_of_ofList hraw)).1
    exact ⟨rest, by rw [rowOf, hname], by rw [rowOf, hname]; exact hs⟩

/-- The name of a session that was parsed has neither breaks nor separators. -/
theorem ParsedFrom.name_plain (h : ParsedFrom int p r first last lead tail) :
    Unbroken r.sessionName ∧ fieldSeparator ∉ r.sessionName := by
  by_cases hmem : d = .escaped ∧ fieldSeparator ∈ List.intercalate d.text (trimmed p.texts first last).toList
  · obtain ⟨rest, heq, hnone⟩ := parseRow_separator h.parsed hmem.2
    have hunbroken := h.unbroken
    rw [heq] at hunbroken
    exact ⟨fun c hc => hunbroken c (List.mem_append_left _ hc), hnone⟩
  · have hseparator : d = .escaped → fieldSeparator ∉ List.intercalate d.text (trimmed p.texts first last).toList :=
      fun hescaped hsep => hmem ⟨hescaped, hsep⟩
    have hfirst : first ∈ (trimmed p.texts first last).toList := List.mem_cons_self
    have hname : r.sessionName = first := by
      rw [h.row_eq hseparator]
      rfl
    rw [hname]
    refine ⟨fun c hc => h.unbroken c (mem_intercalate_of_mem hfirst hc), fun hsep => ?_⟩
    cases d with
    | raw =>
      obtain ⟨s, t, heq⟩ := List.append_of_mem hsep
      exact h.noDelimiter first hfirst ⟨s, t, by rw [heq]; simp [Delimiter.text]⟩
    | escaped => exact hseparator rfl (mem_intercalate_of_mem hfirst hsep)

/-- A separator behind the name of the session takes the delimiter into it. -/
theorem ParsedFrom.name_delimiter (h : ParsedFrom int p r first last lead tail) (hescaped : d = .escaped)
    (hmem : fieldSeparator ∈ List.intercalate d.text (trimmed p.texts first last).toList) (hfirst : fieldSeparator ∉ first) :
    d.text <:+: r.sessionName := by
  obtain ⟨rest, heq, -⟩ := parseRow_separator h.parsed hmem
  have hshape : List.intercalate d.text (trimmed p.texts first last).toList =
      (first ++ d.text) ++ List.intercalate d.text (p.texts.middle ++ [last]) := by
    rw [Pane.toList, List.intercalate_cons_of_ne_nil (by simp)]
    rfl
  rw [hshape] at heq
  obtain ⟨a, ha, -⟩ | ⟨b, hb, hrest⟩ := List.append_eq_append_iff.mp heq
  · rw [ha]
    exact ⟨first, a, rfl⟩
  · cases b with
    | nil =>
      rw [List.append_nil] at hb
      rw [← hb]
      exact (List.suffix_append first d.text).isInfix
    | cons x b =>
      obtain ⟨rfl, -⟩ := List.cons.inj hrest
      have hmem : fieldSeparator ∈ first ++ d.text := by
        rw [hb]
        simp
      cases List.mem_append.mp hmem with
      | inl hmem => exact absurd hmem hfirst
      | inr hmem =>
        subst hescaped
        exact absurd hmem (by decide)

end

/-- Where one property implies another item by item, and both hold as often, they agree. -/
theorem forall₂_count {α β : Type} {P : α → Bool} {Q : β → Bool} {xs : List α} {ys : List β}
    (h : List.Forall₂ (fun x y => P x = true → Q y = true) xs ys) :
    xs.countP P ≤ ys.countP Q ∧ (ys.countP Q ≤ xs.countP P → List.Forall₂ (fun x y => Q y = true → P x = true) xs ys) := by
  induction h with
  | nil => exact ⟨Nat.le_refl _, fun _ => .nil⟩
  | @cons x y xs ys hxy _ ih =>
    rw [List.countP_cons, List.countP_cons]
    obtain ⟨hle, hagree⟩ := ih
    cases hP : P x with
    | true =>
      rw [hxy hP]
      exact ⟨by simpa using hle, fun hcount => .cons (fun _ => hP) (hagree (by simpa using hcount))⟩
    | false =>
      cases hQ : Q y with
      | true => exact ⟨by simp; omega, fun hcount => by simp at hcount; omega⟩
      | false => exact ⟨by simpa using hle, fun hcount => .cons (fun htrue => by rw [hQ] at htrue; cases htrue) (hagree (by simpa using hcount))⟩

/-- What the row of a pane has kept of its last field. -/
theorem last_of_one {last tail : Text} (htail : Breaks tail) (h : boolValue (last ++ tail) = true) : boolValue last = true := by
  have heq := of_decide_eq_true h
  cases tail with
  | nil => rwa [List.append_nil] at h
  | cons c tail =>
    have hone : c ∈ txt "1" := by
      rw [← heq]
      simp
    have hbreak := htail c List.mem_cons_self
    rw [List.mem_singleton.mp hone] at hbreak
    exact absurd hbreak (by decide)

/-- The row of a pane has the trimmed fields, and no separator got in the way. -/
def ReadsTrimmed (int : Text → Option ℤ) (p : PrintedPane d) (r : Row) : Prop :=
  ∃ first last lead tail, ParsedFrom int p r first last lead tail ∧ r = rowOf int (trimmed p.texts first last) ∧
    (d = .escaped → fieldSeparator ∉ List.intercalate d.text (trimmed p.texts first last).toList)

theorem ReadsTrimmed.legible {int : Text → Option ℤ} {p : PrintedPane d} {r : Row} (h : ReadsTrimmed int p r)
    (hname : Unbroken p.texts.sessionName ∧ fieldSeparator ∉ p.texts.sessionName)
    (hone : r.m5localManaged = true → (rowOf int p.texts).m5localManaged = true) : Legible d p.texts := by
  obtain ⟨first, last, lead, tail, hparsed, rfl, hseparator⟩ := h
  have hlast : last ∈ (trimmed p.texts first last).toList := by
    rw [Pane.toList]
    simp [trimmed]
  have hmiddle : ∀ t ∈ p.texts.middle, t ∈ (trimmed p.texts first last).toList := fun t ht =>
    List.mem_cons_of_mem _ (List.mem_append_left _ ht)
  refine ⟨hname.1, fun t ht c hc => hparsed.unbroken c (mem_intercalate_of_mem (hmiddle t ht) hc),
    ⟨last, tail, hparsed.managed, fun c hc => hparsed.unbroken c (mem_intercalate_of_mem hlast hc), hparsed.tail, ?_⟩, ?_⟩
  · by_cases heq : last = txt "1"
    · have hmanaged : p.texts.m5localManaged = txt "1" := of_decide_eq_true (hone (decide_eq_true heq))
      rw [hparsed.managed, ← heq] at hmanaged
      exact .inl (List.append_right_eq_self.mp hmanaged)
    · exact .inr heq
  · intro hescaped
    have hplain := hseparator hescaped
    refine List.forall_mem_cons.mpr ⟨hname.2, List.forall_mem_append.mpr ⟨fun t ht hmem => ?_, List.forall_mem_singleton.mpr ?_⟩⟩
    · exact hplain (mem_intercalate_of_mem (hmiddle t ht) hmem)
    · rw [hparsed.managed, List.mem_append, not_or]
      exact ⟨fun hmem => hplain (mem_intercalate_of_mem hlast hmem), fun hmem => absurd (hparsed.tail _ hmem) (by decide)⟩

theorem legible_of_recovered {int : Text → Option ℤ} {panes : List (PrintedPane d)} (h : Recovered int panes) :
    ∀ p ∈ panes, Legible d p.texts := by
  obtain ⟨parsed, hperm, hall⟩ := rows_parsed h
  -- every name of a session is the name of a parsed row, and the other way round
  have hnames : ∀ p ∈ panes, Unbroken p.texts.sessionName ∧ fieldSeparator ∉ p.texts.sessionName := by
    intro p hp
    have hmem : rowOf int p.texts ∈ parsed := hperm.mem_iff.mpr (List.mem_map_of_mem hp)
    obtain ⟨q, -, first, last, lead, tail, hq⟩ := forall₂_exists_left hall _ hmem
    exact hq.name_plain
  have hdelimiters : ∀ r ∈ parsed, ¬d.text <:+: r.sessionName := by
    intro r hr
    obtain ⟨q, -, rfl⟩ := List.mem_map.mp (hperm.mem_iff.mp hr)
    exact (mem_texts (List.mem_cons_self : q.texts.sessionName ∈ q.texts.toList)).2
  have hrows : List.Forall₂ (ReadsTrimmed int) panes parsed := by
    refine forall₂_imp_mem hall ?_
    rintro p hp r hr ⟨first, last, lead, tail, hparsed⟩
    have hseparator : d = .escaped → fieldSeparator ∉ List.intercalate d.text (trimmed p.texts first last).toList := by
      intro hescaped hmem
      have hname := (hnames p hp).2
      rw [hparsed.sessionName, List.mem_append, not_or] at hname
      exact hdelimiters r hr (hparsed.name_delimiter hescaped hmem hname.2)
    exact ⟨first, last, lead, tail, hparsed, hparsed.row_eq hseparator, hseparator⟩
  -- a last field that is 1 is read as 1, and there are as many
  have hmanaged : List.Forall₂ (fun p r => (rowOf int (PrintedPane.texts p)).m5localManaged = true → r.m5localManaged = true) panes parsed := by
    refine hrows.imp ?_
    rintro p r ⟨first, last, lead, tail, hparsed, rfl, -⟩ hone
    rw [rowOf, hparsed.managed] at hone
    exact last_of_one hparsed.tail hone
  have hcount : parsed.countP Row.m5localManaged ≤ panes.countP fun p => (rowOf int p.texts).m5localManaged := by
    rw [hperm.countP_eq, List.countP_map]
    exact Nat.le_refl _
  have hagree := (forall₂_count hmanaged).2 hcount
  have hlegible : List.Forall₂ (fun p _ => p ∈ panes → Legible d (PrintedPane.texts p)) panes parsed :=
    hrows.mp (fun p r hread hone hp => hread.legible (hnames p hp) hone) hagree
  intro p hp
  obtain ⟨r, -, hr⟩ := forall₂_exists_left hlegible.flip p hp
  exact hr hp

/-- A table is recovered exactly when each of its panes is legible. -/
theorem panes_recovered_iff (int : Text → Option ℤ) (d : Delimiter) (panes : List (PrintedPane d)) :
    Recovered int panes ↔ ∀ p ∈ panes, Legible d p.texts := ⟨legible_of_recovered, recovered_of_legible int⟩

/-- A pane of the session `probe`, with a form feed in the name of its window. -/
def formFeedFields : Pane Bytes where
  sessionName := (txt "probe").flatMap utf8Bytes
  sessionId := (txt "$1").flatMap utf8Bytes
  sessionAttached := (txt "0").flatMap utf8Bytes
  sessionWindows := (txt "1").flatMap utf8Bytes
  sessionCreated := (txt "123").flatMap utf8Bytes
  windowId := (txt "@1").flatMap utf8Bytes
  windowIndex := (txt "0").flatMap utf8Bytes
  windowName := (txt "a").flatMap utf8Bytes ++ 0x0C :: (txt "b").flatMap utf8Bytes
  paneId := (txt "%1").flatMap utf8Bytes
  paneIndex := (txt "0").flatMap utf8Bytes
  paneActive := (txt "1").flatMap utf8Bytes
  panePid := (txt "100").flatMap utf8Bytes
  paneCurrentCommand := (txt "python").flatMap utf8Bytes
  paneCurrentPath := (txt "/tmp").flatMap utf8Bytes
  paneDead := (txt "0").flatMap utf8Bytes
  paneDeadStatus := []
  paneDeadSignal := []
  paneWidth := (txt "100").flatMap utf8Bytes
  paneHeight := (txt "30").flatMap utf8Bytes
  m5localManaged := (txt "1").flatMap utf8Bytes

theorem formFeedFields_noFeed : ∀ f ∈ formFeedFields.toList, (0x0A : Byte) ∉ f := by decide

theorem formFeedFields_noDelimiter : ∀ f ∈ formFeedFields.toList, ¬Delimiter.raw.bytes <:+: f := by decide

def formFeedPane : PrintedPane .raw := ⟨formFeedFields, formFeedFields_noFeed, formFeedFields_noDelimiter⟩

/-- One such pane is enough. -/
theorem form_feed_hides_panes : ¬Recovered (fun _ => none) [formFeedPane] := by
  intro h
  have hlegible := legible_of_recovered h formFeedPane List.mem_cons_self
  have hname : formFeedPane.texts.windowName ∈ formFeedPane.texts.middle := by simp [Pane.middle]
  have hfeed : (0x0C : CodePoint) ∈ formFeedPane.texts.windowName := by decide
  exact absurd (hlegible.middle _ hname _ hfeed) (by decide)

end WebOauthMcp.PaneRecovery
