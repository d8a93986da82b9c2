import WebOauthMcp.SearchedFiles

/-!
# Context from a stream

The lines before a match are remembered as they pass, those behind it are added as they come. The
lines of a match's own event are neither: they are recorded when the match waits already.
-/

namespace WebOauthMcp.StreamedContext
open CodePoints JsonText ExceptSteps ResponseBudget SearchPages LineSplitting BoundedQueues ContentSearch NumberedLists SearchedFiles

variable {f : SearchedFile} {o : ContextOptions} {c d : Chunk f} {front rest cs : List (Chunk f)}

/-! ## The lines that the events bring -/

/-- The lines of some events, with their numbers. -/
def table (cs : List (Chunk f)) : List (ℕ × Text) := cs.flatMap fun c => c.block.numbered

def Ordered (cs : List (Chunk f)) : Prop := cs.Pairwise fun c d => c.block.behind ≤ d.block.lineNumber

theorem table_append (front rest : List (Chunk f)) : table (front ++ rest) = table front ++ table rest := List.flatMap_append

theorem table_cons (c : Chunk f) (rest : List (Chunk f)) : table (c :: rest) = c.block.numbered ++ table rest := List.flatMap_cons

theorem mem_table {r : ℕ × Text} (h : r ∈ table cs) : ∃ c ∈ cs, c.block.Holds r.1 := by
  obtain ⟨c, hc, hr⟩ := List.mem_flatMap.mp h
  exact ⟨c, hc, c.block.mem_numbered hr⟩

theorem table_sublist (h : Ordered cs) {k : ℕ} (hk : ∀ c ∈ cs, k ≤ c.block.first) :
    (table cs).Sublist ((numbered 1 f.contents).drop k) := by
  induction cs generalizing k with
  | nil => exact List.nil_sublist _
  | cons c cs ih =>
    obtain ⟨hfirst, hrest⟩ := List.pairwise_cons.mp h
    have hlater : ∀ d ∈ cs, c.block.first + c.block.count ≤ d.block.first := by
      intro d hd
      have hbehind := hfirst d hd
      rw [Block.behind, Block.lineNumber, Block.lineNumber] at hbehind
      omega
    obtain ⟨gap, hgap⟩ := Nat.exists_eq_add_of_le (hk c (List.mem_cons_self ..))
    have hfrom : ((numbered 1 f.contents).drop c.block.first).Sublist ((numbered 1 f.contents).drop k) := by
      rw [hgap, ← List.drop_drop]
      exact List.drop_sublist _ _
    have hown := ih hrest hlater
    rw [← List.drop_drop] at hown
    have hboth := (List.Sublist.refl (((numbered 1 f.contents).drop c.block.first).take c.block.count)).append hown
    rw [List.take_append_drop] at hboth
    rw [table_cons, c.block.numbered_eq]
    exact hboth.trans hfrom

theorem table_sublist_file (h : Ordered cs) : (table cs).Sublist (numbered 1 f.contents) := table_sublist h fun _ _ => Nat.zero_le _

theorem ascending_table (h : Ordered cs) : Ascending (table cs) := (ascending_numbered 1 f.contents).sublist (table_sublist_file h)

/-- A line of the file is in the table when an event holds it. -/
theorem mem_table_iff (h : Ordered cs) {r : ℕ × Text} (hr : r ∈ numbered 1 f.contents) :
    r ∈ table cs ↔ ∃ c ∈ cs, c.block.Holds r.1 := by
  refine ⟨mem_table, ?_⟩
  rintro ⟨c, hc, hholds⟩
  have hlower := hholds.1
  have hupper := hholds.2
  rw [Block.behind, ← c.block.length_contents] at hupper
  obtain ⟨line, hline⟩ : ∃ line, (r.1, line) ∈ c.block.numbered := exists_numbered hlower hupper
  have hmem : (r.1, line) ∈ table cs := List.mem_flatMap.mpr ⟨c, hc, hline⟩
  have hfile := (table_sublist_file h).subset hmem
  have hsame : (r.1, line) = r := (ascending_numbered 1 f.contents).eq_of_fst hfile hr rfl
  rw [← hsame]
  exact hmem

/-! ## What is remembered -/

/-- The lines of the events so far, but for those too far in front of what is to come. -/
def Remembers (o : ContextOptions) (front rest : List (Chunk f)) (recent : List (ℕ × Text)) : Prop :=
  ∃ k, recent = ((table front).filter fun r => !decide (r.1 < k)) ∧ ∀ d ∈ rest, k ≤ max (d.block.lineNumber - o.before) 1

/-- The lines in front of a match that are remembered when its event comes. -/
def contextSeen (o : ContextOptions) (front : List (Chunk f)) (startLine : ℕ) : List Text :=
  ((table front).filter (within (max (startLine - o.before) 1) startLine)).map Prod.snd

theorem recordRecent_new {recent : List (ℕ × Text)} {n : ℕ} (h : ∀ r ∈ recent, r.1 < n) (line : Text) :
    recordRecent recent n line = recent ++ [(n, line)] := by
  have hnone : ¬(recent.any fun r => decide (r.1 = n)) = true := by
    intro hany
    obtain ⟨r, hr, heq⟩ := List.any_eq_true.mp hany
    exact Nat.ne_of_lt (h r hr) (of_decide_eq_true heq)
  rw [recordRecent, if_neg hnone]

theorem recordLines_new {recent : List (ℕ × Text)} {n : ℕ} (h : ∀ r ∈ recent, r.1 < n) (lines : List Text) :
    recordLines recent n lines = recent ++ numbered n lines := by
  induction lines generalizing recent n with
  | nil => exact (List.append_nil _).symm
  | cons line lines ih =>
    have hnext : ∀ r ∈ recent ++ [(n, line)], r.1 < n + 1 := by
      intro r hr
      cases List.mem_append.mp hr with
      | inl hold => exact Nat.lt_succ_of_lt (h r hold)
      | inr hnew =>
        rw [List.mem_singleton.mp hnew]
        exact Nat.lt_succ_self n
    rw [recordLines, recordRecent_new h, ih hnext, List.append_assoc, List.singleton_append, numbered]

theorem front_below (h : Ordered (front ++ c :: rest)) {r : ℕ × Text} (hr : r ∈ table front) : r.1 < c.block.lineNumber := by
  obtain ⟨d, hd, hholds⟩ := mem_table hr
  have hbetween := (List.pairwise_append.mp h).2.2 d hd c (List.mem_cons_self ..)
  exact Nat.lt_of_lt_of_le hholds.2 hbetween

theorem ordered_front (h : Ordered (front ++ rest)) : Ordered front := (List.pairwise_append.mp h).1

theorem rest_behind (h : Ordered (front ++ c :: rest)) {d : Chunk f} (hd : d ∈ rest) : c.block.behind ≤ d.block.lineNumber :=
  (List.pairwise_cons.mp (List.pairwise_append.mp h).2.1).1 d hd

theorem contextBefore_eq {recent : List (ℕ × Text)} (h : Ordered (front ++ c :: rest)) (hrecent : Remembers o front (c :: rest) recent)
    {startLine : ℕ} (hstart : c.block.lineNumber ≤ startLine) : contextBefore o recent startLine = contextSeen o front startLine := by
  obtain ⟨k, rfl, hk⟩ := hrecent
  have hkept := hk c (List.mem_cons_self ..)
  have hpos : 0 < c.block.lineNumber := Nat.succ_pos _
  have hfirst : max (startLine - o.before) 1 + (startLine - max (startLine - o.before) 1) = startLine := by omega
  have hfind := filterMap_find ((ascending_table (ordered_front h)).sublist (List.filter_sublist (p := fun r => !decide (r.1 < k))))
    (max (startLine - o.before) 1) (startLine - max (startLine - o.before) 1)
  rw [hfirst, List.filter_filter] at hfind
  refine hfind.trans (congrArg _ (List.filter_congr fun r _ => ?_))
  rw [within, ← decide_not, ← Bool.decide_and, decide_eq_decide]
  omega

/-- An event is remembered with its lines. -/
theorem Remembers.step {recent : List (ℕ × Text)} (h : Ordered (front ++ c :: rest)) (hrecent : Remembers o front (c :: rest) recent) :
    Remembers o (front ++ [c]) rest
      (trimRecent o (c.block.lineNumber + c.block.contents.length - 1) (recordLines recent c.block.lineNumber c.block.contents)) := by
  obtain ⟨k, rfl, hk⟩ := hrecent
  have hkept := hk c (List.mem_cons_self ..)
  have hpos : 0 < c.block.lineNumber := Nat.succ_pos _
  have hsome := c.block.some
  have hlength := c.block.length_contents
  have hbehind : c.block.lineNumber + c.block.contents.length - 1 + 1 = c.block.behind := by
    rw [Block.behind]
    omega
  have hnew : recordLines ((table front).filter fun r => !decide (r.1 < k)) c.block.lineNumber c.block.contents =
      ((table front).filter fun r => !decide (r.1 < k)) ++ c.block.numbered :=
    recordLines_new (fun r hr => front_below h (List.mem_of_mem_filter hr)) c.block.contents
  have hown : (c.block.numbered.filter fun r => !decide (r.1 < k)) = c.block.numbered := by
    refine List.filter_eq_self.mpr fun r hr => ?_
    have hlower := (c.block.mem_numbered hr).1
    rw [Bool.not_eq_true', decide_eq_false_iff_not]
    omega
  have htable : recordLines ((table front).filter fun r => !decide (r.1 < k)) c.block.lineNumber c.block.contents =
      (table (front ++ [c])).filter fun r => !decide (r.1 < k) := by
    rw [hnew, table_append, List.filter_append, table_cons, List.filter_append, hown]
    exact congrArg _ (List.append_nil _).symm
  have hsplit : Ordered ((front ++ [c]) ++ rest) := by
    rw [List.append_assoc]
    exact h
  have hordered : Ordered (front ++ [c]) := ordered_front hsplit
  have hascending := (ascending_table hordered).sublist (List.filter_sublist (p := fun r => !decide (r.1 < k)))
  refine ⟨max (c.block.behind - o.before) 1, ?_, fun d hd => ?_⟩
  · rw [trimRecent, htable, hbehind, dropWhile_eq_filter (hascending.below _), List.filter_filter]
    refine List.filter_congr fun r _ => ?_
    rw [← decide_not, ← decide_not, ← Bool.decide_and, decide_eq_decide, Block.behind]
    omega
  · have hlater := rest_behind h hd
    omega

/-! ## Its operations -/

/-- A match, as it is queued. -/
def queuedHit (o : ContextOptions) (front : List (Chunk f)) (m : Found) : Pending := m.pending f o (contextSeen o front m.startLine) []

/-- The operations of an event, with the events in front of it. -/
def chunkOps (o : ContextOptions) (front : List (Chunk f)) (c : Chunk f) : List MatchOp :=
  .signal (.passed c.block.lineNumber) :: .signal (.lines c.block.lineNumber c.block.contents) ::
    (((c.hits o).map (queuedHit o front)).map .queue ++ [.signal (.passed c.block.behind)])

def opsAlong (o : ContextOptions) : List (Chunk f) → List (Chunk f) → List MatchOp
  | _, [] => [.signal .fileDone]
  | front, c :: rest => chunkOps o front c ++ opsAlong o (front ++ [c]) rest

/-- Each event has one line, where the mode wants it. -/
def SingleLine (o : ContextOptions) (c : Chunk f) : Prop :=
  (o.multiline || o.onlyMatching) = false → ∀ b spans, c = .found b spans → b.count = 1

theorem eventOps_chunk {recent : List (ℕ × Text)} (hone : SingleLine o c) (h : Ordered (front ++ c :: rest))
    (hrecent : Remembers o front (c :: rest) recent) : eventOps o ⟨some f.path, recent⟩ c.event =
      (chunkOps o front c, ⟨some f.path,
        trimRecent o (c.block.lineNumber + c.block.contents.length - 1) (recordLines recent c.block.lineNumber c.block.contents)⟩) := by
  have hsome := c.block.some
  have hlength := c.block.length_contents
  have hbehind : c.block.lineNumber + c.block.contents.length - 1 + 1 = c.block.behind := by
    rw [Block.behind]
    omega
  have hstay : (Cursor.enter ⟨some f.path, recent⟩ f.path) = ⟨some f.path, recent⟩ := if_pos rfl
  have hqueued : (c.hits o).map (fun m => m.pending f o (contextBefore o recent m.startLine) []) = (c.hits o).map (queuedHit o front) :=
    List.map_congr_left fun m hm => by rw [contextBefore_eq h hrecent (hit_bounds hm).1, queuedHit]
  have hlines : ∀ found : List (ℕ × Text) → List Pending, found recent = (c.hits o).map (queuedHit o front) →
      lineOps ⟨some f.path, recent⟩ f.path c.block.lineNumber c.block.text found = chunkOps o front c := by
    intro found hfound
    rw [lineOps, if_pos rfl, hstay, hfound, c.block.eventLines_text, hbehind, chunkOps]
    rfl
  cases c with
  | found b spans =>
    have hops := hlines (fun recent => matchesOf o recent f.path b.lineNumber b.text (spans.map fun m => m.submatch (encodable_block b)))
      ((matchesOf_eq (fun hmode => hone hmode b spans rfl) recent).trans hqueued)
    rw [Chunk.event, eventOps, hstay, Cursor.leave, b.eventLines_text]
    exact congrArg (·, _) hops
  | context b =>
    have hops := hlines (fun _ => []) rfl
    rw [Chunk.event, eventOps, hstay, Cursor.leave, b.eventLines_text]
    exact congrArg (·, _) hops

theorem operations_along {recent : List (ℕ × Text)} (hone : ∀ c ∈ rest, SingleLine o c) (h : Ordered (front ++ rest))
    (hrecent : Remembers o front rest recent) :
    operations o ⟨some f.path, recent⟩ (rest.map Chunk.event ++ [.fileEnd, .other]) = opsAlong o front rest := by
  induction rest generalizing front recent with
  | nil => rfl
  | cons c rest ih =>
    obtain ⟨hfirst, hothers⟩ := List.forall_mem_cons.mp hone
    have hsplit : Ordered ((front ++ [c]) ++ rest) := by
      rw [List.append_assoc]
      exact h
    rw [List.map_cons, List.cons_append, operations, eventOps_chunk hfirst h hrecent, ih hothers hsplit (hrecent.step h), opsAlong]

/-- The first event comes with a new file. -/
theorem emit_ops {s : Stream} (hone : ∀ c ∈ s.chunks, SingleLine s.options c) :
    emit contextQueue maxPendingMatches [] s.ops = emit contextQueue maxPendingMatches [] (opsAlong s.options [] s.chunks) := by
  have hrecent : Remembers s.options [] s.chunks [] := ⟨0, rfl, fun _ _ => Nat.zero_le _⟩
  have hordered : Ordered ([] ++ s.chunks) := s.ordered
  have halong := operations_along hone hordered hrecent
  have hnew : ∀ (c : Chunk s.file) (events : List Event), operations s.options {} (c.event :: events) =
      .signal .fileDone :: operations s.options ⟨some s.file.path, []⟩ (c.event :: events) := by
    intro c events
    have hnone : ¬(none : Option Text) = some s.file.path := (Option.some_ne_none _).symm
    cases c with
    | found b spans => simp [operations, Chunk.event, eventOps, lineOps, Cursor.enter, hnone]
    | context b => simp [operations, Chunk.event, eventOps, lineOps, Cursor.enter, hnone]
  have hbegin : s.ops = operations s.options {} (s.chunks.map Chunk.event ++ [.fileEnd, .other]) := rfl
  rw [← halong, hbegin]
  cases s.chunks with
  | nil => rfl
  | cons c rest =>
    rw [List.map_cons, List.cons_append, hnew]
    rfl

/-! ## What is added -/

/-- The lines behind a match that the events behind its own bring. -/
def contextAdded (o : ContextOptions) (rest : List (Chunk f)) (endLine : ℕ) : List Text :=
  ((table rest).filter (within (endLine + 1) (endLine + o.after + 1))).map Prod.snd

/-- The lines behind a waiting match, out of some. -/
def wanted (m : Pending) (rs : List (ℕ × Text)) : List Text := (rs.filter (within (m.endLine + 1) (m.contextThrough + 1))).map Prod.snd

theorem wanted_append (m : Pending) (rs ss : List (ℕ × Text)) : wanted m (rs ++ ss) = wanted m rs ++ wanted m ss := by
  rw [wanted, List.filter_append, List.map_append]
  rfl

theorem wanted_far {m : Pending} {rs : List (ℕ × Text)} (h : ∀ r ∈ rs, m.contextThrough < r.1) : wanted m rs = [] := by
  rw [wanted, List.map_eq_nil_iff, List.filter_eq_nil_iff]
  intro r hr hin
  have hfar := h r hr
  have hrange := within_iff.mp hin
  omega

/-- New lines are added where they are wanted. -/
theorem addContext_new {m : Pending} {n : ℕ} (h : ∀ k ∈ m.contextLineNumbers, k < n) (lines : List Text) : ∃ ns,
    addContext n lines m = { m with contextAfter := m.contextAfter ++ wanted m (numbered n lines), contextLineNumbers := ns } ∧
      ∀ k ∈ ns, k < n + lines.length := by
  induction lines generalizing n m with
  | nil => exact ⟨m.contextLineNumbers, by rw [addContext, numbered, wanted, List.filter_nil, List.map_nil, List.append_nil], h⟩
  | cons line lines ih =>
    have hnew : n ∉ m.contextLineNumbers := fun hmem => Nat.lt_irrefl n (h n hmem)
    have hlength : n + (line :: lines).length = n + 1 + lines.length := by
      rw [List.length_cons]
      omega
    rw [addContext, numbered, hlength]
    by_cases hin : m.endLine < n ∧ n ≤ m.contextThrough
    · have hnumbers : ∀ k ∈ n :: m.contextLineNumbers, k < n + 1 := by
        intro k hk
        cases List.mem_cons.mp hk with
        | inl heq => exact heq ▸ Nat.lt_succ_self n
        | inr hold => exact Nat.lt_succ_of_lt (h k hold)
      let next : Pending := { m with contextAfter := m.contextAfter ++ [line], contextLineNumbers := n :: m.contextLineNumbers }
      obtain ⟨ns, hadd, hns⟩ := ih (show ∀ k ∈ next.contextLineNumbers, k < n + 1 from hnumbers)
      have hfirst : wanted m ((n, line) :: numbered (n + 1) lines) = line :: wanted m (numbered (n + 1) lines) := by
        rw [wanted, List.filter_cons_of_pos (within_iff.mpr ⟨hin.1, Nat.lt_succ_of_le hin.2⟩)]
        rfl
      refine ⟨ns, ?_, hns⟩
      rw [if_pos ⟨hin.1, hin.2, hnew⟩, hfirst]
      refine hadd.trans ?_
      show ({ m with contextAfter := m.contextAfter ++ [line] ++ wanted m (numbered (n + 1) lines), contextLineNumbers := ns } : Pending) = _
      rw [List.append_assoc, List.singleton_append]
    · obtain ⟨ns, hadd, hns⟩ := ih fun k hk => Nat.lt_succ_of_lt (h k hk)
      have hfirst : wanted m ((n, line) :: numbered (n + 1) lines) = wanted m (numbered (n + 1) lines) := by
        rw [wanted, List.filter_cons_of_neg fun hrange => hin ⟨(within_iff.mp hrange).1, Nat.le_of_lt_succ (within_iff.mp hrange).2⟩]
        rfl
      refine ⟨ns, ?_, hns⟩
      rw [if_neg fun hcond => hin ⟨hcond.1, hcond.2.1⟩, hfirst]
      exact hadd

theorem ordered_rest (h : Ordered (c :: rest)) : Ordered rest := (List.pairwise_cons.mp h).2

theorem behind_le (h : Ordered (c :: rest)) {r : ℕ × Text} (hr : r ∈ table rest) : c.block.behind ≤ r.1 := by
  obtain ⟨d, hd, hholds⟩ := mem_table hr
  exact Nat.le_trans ((List.pairwise_cons.mp h).1 d hd) hholds.1

/-- A match leaves with the lines that are wanted from the events to come. -/
theorem completed_along (h : Ordered rest) {m : Pending} (hnew : ∀ k ∈ m.contextLineNumbers, ∀ d ∈ rest, k < d.block.lineNumber) :
    (completed contextQueue m (opsAlong o front rest)).item = { m with contextAfter := m.contextAfter ++ wanted m (table rest) }.item := by
  induction rest generalizing front m with
  | nil =>
    have hdone : completed contextQueue m (opsAlong o front []) = m := rfl
    rw [hdone, table, List.flatMap_nil, wanted, List.filter_nil, List.map_nil, List.append_nil]
  | cons c rest ih =>
    have hstep : completed contextQueue m (opsAlong o front (c :: rest)) =
        if decide (m.contextThrough < c.block.lineNumber) then m
        else if decide ((addContext c.block.lineNumber c.block.contents m).contextThrough < c.block.behind) then
          addContext c.block.lineNumber c.block.contents m
        else completed contextQueue (addContext c.block.lineNumber c.block.contents m) (opsAlong o (front ++ [c]) rest) := by
      let next := addContext c.block.lineNumber c.block.contents m
      have hqueues := completed_queues (d := contextQueue) next ((c.hits o).map (queuedHit o front))
        (.signal (.passed c.block.behind) :: opsAlong o (front ++ [c]) rest)
      have hsignals : completed contextQueue m (opsAlong o front (c :: rest)) = if decide (m.contextThrough < c.block.lineNumber) then m
          else completed contextQueue next ((((c.hits o).map (queuedHit o front)).map .queue ++ [.signal (.passed c.block.behind)]) ++
            opsAlong o (front ++ [c]) rest) := rfl
      rw [hsignals, List.append_assoc, List.singleton_append, hqueues]
      rfl
    rw [hstep, table_cons, wanted_append]
    split
    · next hfar =>
      have hfar := of_decide_eq_true hfar
      have hown : wanted m c.block.numbered = [] :=
        wanted_far fun r hr => Nat.lt_of_lt_of_le hfar (c.block.mem_numbered hr).1
      have hlater : wanted m (table rest) = [] := by
        refine wanted_far fun r hr => Nat.lt_of_lt_of_le hfar (Nat.le_trans ?_ (behind_le h hr))
        exact Nat.le_add_right _ _
      rw [hown, hlater, List.append_nil, List.append_nil]
    · obtain ⟨ns, hadd, hns⟩ := addContext_new (fun k hk => hnew k hk c (List.mem_cons_self ..)) c.block.contents
      rw [hadd, ← List.append_assoc]
      split
      · next hdone =>
        have hlater : wanted m (table rest) = [] := wanted_far fun r hr => Nat.lt_of_lt_of_le (of_decide_eq_true hdone) (behind_le h hr)
        rw [hlater, List.append_nil]
        rfl
      · rw [c.block.length_contents] at hns
        refine (ih (ordered_rest h) fun k hk d hd => ?_).trans rfl
        exact Nat.lt_of_lt_of_le (hns k hk) ((List.pairwise_cons.mp h).1 d hd)

theorem hits_flat (h : ∀ b spans, c = .found b spans → ∀ m ∈ spans, lineFeed ∉ m.matched) {m : Found}
    (hm : m ∈ c.hits o) : m.startLine = m.endLine := by
  cases c with
  | context b => exact absurd hm List.not_mem_nil
  | found b spans =>
    rw [Chunk.hits] at hm
    split at hm
    · obtain ⟨span, hspan, rfl⟩ := List.mem_map.mp hm
      have hnone := List.count_eq_zero.mpr (h b spans rfl span hspan)
      show b.lineAt span.start = b.lineAt span.stop
      rw [Block.lineAt, Block.lineAt, take_stop, List.count_append, hnone, Nat.add_zero]
    · obtain ⟨line, -, rfl⟩ := List.mem_map.mp hm
      rfl

/-! ## What leaves -/

/-- The answers to the matches of the events to come. -/
def answers (o : ContextOptions) : List (Chunk f) → List (Chunk f) → List Json
  | _, [] => []
  | front, c :: rest =>
    (c.hits o).map (fun m => (m.pending f o (contextSeen o front m.startLine) (contextAdded o rest m.endLine)).item) ++
      answers o (front ++ [c]) rest

/-- Without `multiline` a match starts and ends on one line. -/
def Flat (o : ContextOptions) (c : Chunk f) : Prop := o.multiline = false → ∀ m ∈ c.hits o, m.startLine = m.endLine

theorem endLine_pending {before after : List Text} {m : Found} (hflat : o.multiline = false → m.startLine = m.endLine) :
    (m.pending f o before after).endLine = m.endLine := by
  rw [Pending.endLine, Found.pending]
  cases ho : o.multiline with
  | true => rfl
  | false => exact hflat ho

theorem results_along (h : Ordered rest) (hflat : ∀ c ∈ rest, Flat o c) :
    (results contextQueue (opsAlong o front rest)).map Pending.item = answers o front rest := by
  induction rest generalizing front with
  | nil => rfl
  | cons c rest ih =>
    obtain ⟨hfirst, hothers⟩ := List.forall_mem_cons.mp hflat
    have hstep : results contextQueue (opsAlong o front (c :: rest)) =
        ((c.hits o).map (queuedHit o front)).map
            (fun m => completed contextQueue m (.signal (.passed c.block.behind) :: opsAlong o (front ++ [c]) rest)) ++
          results contextQueue (opsAlong o (front ++ [c]) rest) := by
      have hqueues := results_queues (d := contextQueue) ((c.hits o).map (queuedHit o front))
        (.signal (.passed c.block.behind) :: opsAlong o (front ++ [c]) rest)
      have hsignals : results contextQueue (opsAlong o front (c :: rest)) =
          results contextQueue ((((c.hits o).map (queuedHit o front)).map .queue ++ [.signal (.passed c.block.behind)]) ++
            opsAlong o (front ++ [c]) rest) := rfl
      rw [hsignals, List.append_assoc, List.singleton_append, hqueues]
      rfl
    rw [hstep, List.map_append, ih (ordered_rest h) hothers, answers, List.map_map, List.map_map]
    refine congrArg (· ++ _) (List.map_congr_left fun m hm => ?_)
    have hend : (queuedHit o front m).endLine = m.endLine := endLine_pending fun ho => hfirst ho m hm
    have hwanted : wanted (queuedHit o front m) (table rest) = contextAdded o rest m.endLine := by
      rw [wanted, hend]
      rfl
    have hleaves : (completed contextQueue (queuedHit o front m) (.signal (.passed c.block.behind) :: opsAlong o (front ++ [c]) rest)).item =
        { queuedHit o front m with contextAfter := wanted (queuedHit o front m) (table rest) }.item := by
      show (if decide ((queuedHit o front m).contextThrough < c.block.behind) = true then queuedHit o front m
        else completed contextQueue (queuedHit o front m) (opsAlong o (front ++ [c]) rest)).item = _
      split
      · next hdone =>
        have hnone : wanted (queuedHit o front m) (table rest) = [] :=
          wanted_far fun r hr => Nat.lt_of_lt_of_le (of_decide_eq_true hdone) (behind_le h hr)
        rw [hnone]
        rfl
      · refine (completed_along (ordered_rest h) fun k hk => absurd hk List.not_mem_nil).trans rfl
    refine hleaves.trans ?_
    rw [hwanted]
    rfl

/-! ## Room for those that wait -/

/-- Up to which lines the matches of some events wait. -/
def throughs (o : ContextOptions) (cs : List (Chunk f)) : List ℕ := (cs.flatMap fun c => c.hits o).map fun m => m.endLine + o.after

theorem throughs_append (front rest : List (Chunk f)) : throughs o (front ++ rest) = throughs o front ++ throughs o rest := by
  rw [throughs, List.flatMap_append, List.map_append]
  rfl

theorem throughs_single (c : Chunk f) : throughs o [c] = (c.hits o).map fun m => m.endLine + o.after := by
  rw [throughs, List.flatMap_singleton]

/-- The matches of an event are in the order in which they end. -/
def InOrder (c : Chunk f) : Prop := ∀ b spans, c = .found b spans → spans.Pairwise fun m n => m.stop ≤ n.start

theorem throughs_sorted (h : Ordered cs) (horder : ∀ c ∈ cs, InOrder c) : (throughs o cs).Pairwise (· ≤ ·) := by
  refine List.pairwise_map.mpr (List.pairwise_flatMap.mpr ⟨fun c hc => ?_, h.imp fun {c d} hcd m hm n hn => ?_⟩)
  · exact (hits_sorted (horder c hc)).imp fun hle => Nat.add_le_add_right hle _
  · have hbefore := (hit_bounds hm).2.2
    have hstart := hit_bounds hn
    omega

theorem throughs_queued (front rest : List (Chunk f)) :
    (queued (opsAlong o front rest)).map Pending.contextThrough = throughs o rest := by
  induction rest generalizing front with
  | nil => rfl
  | cons c rest ih =>
    have hstep : queued (opsAlong o front (c :: rest)) = (c.hits o).map (queuedHit o front) ++ queued (opsAlong o (front ++ [c]) rest) := by
      have hsignals : queued (opsAlong o front (c :: rest)) =
          queued ((((c.hits o).map (queuedHit o front)).map .queue ++ [.signal (.passed c.block.behind)]) ++ opsAlong o (front ++ [c]) rest) := rfl
      rw [hsignals, List.append_assoc, queued_map_append]
      rfl
    have hsplit : throughs o (c :: rest) = throughs o [c] ++ throughs o rest := throughs_append [c] rest
    rw [hstep, List.map_append, ih, hsplit, throughs_single, List.map_map]
    rfl

/-- Those that wait when an event comes, with those of the event. -/
def Roomy (o : ContextOptions) (cap : ℕ) (front : List (Chunk f)) (c : Chunk f) : Prop :=
  ((front.flatMap fun d => d.hits o).filter fun m => decide (c.block.lineNumber ≤ m.endLine + o.after)).length + (c.hits o).length ≤ cap

theorem length_waiting (n : ℕ) (front : List (Chunk f)) : ((throughs o front).filter fun t => !decide (t < n)).length =
    ((front.flatMap fun d => d.hits o).filter fun m => decide (n ≤ m.endLine + o.after)).length := by
  rw [throughs, List.filter_map, List.length_map]
  refine congrArg List.length (List.filter_congr fun m _ => ?_)
  rw [Function.comp, ← decide_not, decide_eq_decide, Nat.not_lt]

theorem emit_passed {cap : ℕ} (waiting : List Pending) (n : ℕ) (ops : List MatchOp) :
    (emit contextQueue cap waiting (.signal (.passed n) :: ops)).2 =
      (emit contextQueue cap (waiting.dropWhile fun m => decide (m.contextThrough < n)) ops).2 := by
  have hsame : contextQueue.change (.passed n) = id := rfl
  rw [emit, hsame, List.map_id]
  rfl

theorem emit_lines {cap : ℕ} (waiting : List Pending) (n : ℕ) (lines : List Text) (ops : List MatchOp) :
    (emit contextQueue cap waiting (.signal (.lines n lines) :: ops)).2 =
      (emit contextQueue cap (waiting.map (addContext n lines)) ops).2 := by
  have hall : waiting.dropWhile (contextQueue.frees (.lines n lines)) = waiting := by cases waiting <;> rfl
  rw [emit, hall]
  rfl

theorem through_dropWhile {ms : List Pending} (h : (ms.map Pending.contextThrough).Pairwise (· ≤ ·)) (n : ℕ) :
    (ms.dropWhile fun m => decide (m.contextThrough < n)).map Pending.contextThrough =
      (ms.map Pending.contextThrough).filter fun t => !decide (t < n) := by
  have hbelow : ms.Pairwise fun a b => decide (b.contextThrough < n) = true → decide (a.contextThrough < n) = true :=
    (List.pairwise_map.mp h).imp fun hle hb => decide_eq_true (Nat.lt_of_le_of_lt hle (of_decide_eq_true hb))
  rw [dropWhile_eq_filter hbelow, List.filter_map]
  rfl

theorem filter_above {ts : List ℕ} {k n : ℕ} (h : k ≤ n) :
    (ts.filter fun t => !decide (t < k)).filter (fun t => !decide (t < n)) = ts.filter fun t => !decide (t < n) := by
  rw [List.filter_filter]
  refine List.filter_congr fun t _ => ?_
  rw [← decide_not, ← decide_not, ← Bool.decide_and, decide_eq_decide]
  omega

/-- The queue is full when one more match would be too many. -/
theorem crowded_along {cap : ℕ} {waiting : List Pending} {k : ℕ} (h : Ordered (front ++ rest)) (horder : ∀ c ∈ front ++ rest, InOrder c)
    (hcap : waiting.length ≤ cap) (hwaiting : waiting.map Pending.contextThrough = (throughs o front).filter fun t => !decide (t < k))
    (hk : ∀ c ∈ rest, k ≤ c.block.lineNumber) : (emit contextQueue cap waiting (opsAlong o front rest)).2 = false ↔
      ∀ mid c more, rest = mid ++ c :: more → Roomy o cap (front ++ mid) c := by
  induction rest generalizing front waiting k with
  | nil => exact iff_of_true rfl fun mid c more hsplit => absurd hsplit (by simp)
  | cons c rest ih =>
    have hassoc : (front ++ [c]) ++ rest = front ++ c :: rest := by rw [List.append_assoc, List.singleton_append]
    let kept := waiting.dropWhile fun m => decide (m.contextThrough < c.block.lineNumber)
    let next := (kept.map (addContext c.block.lineNumber c.block.contents) ++ (c.hits o).map (queuedHit o front))
    let left := next.dropWhile fun m => decide (m.contextThrough < c.block.behind)
    have hsorted : (throughs o (front ++ [c])).Pairwise (· ≤ ·) :=
      throughs_sorted (ordered_front (hassoc ▸ h)) fun d hd => horder d (hassoc ▸ List.mem_append_left _ hd)
    rw [throughs_append] at hsorted
    have hfront : (throughs o front).Pairwise (· ≤ ·) := (List.pairwise_append.mp hsorted).1
    have hkept : kept.map Pending.contextThrough = (throughs o front).filter fun t => !decide (t < c.block.lineNumber) := by
      have hordered : (waiting.map Pending.contextThrough).Pairwise (· ≤ ·) := hwaiting ▸ hfront.sublist List.filter_sublist
      rw [through_dropWhile hordered, hwaiting, filter_above (hk c (List.mem_cons_self ..))]
    have hnext : next.map Pending.contextThrough = ((throughs o front).filter fun t => !decide (t < c.block.lineNumber)) ++ throughs o [c] := by
      have hsame : Pending.contextThrough ∘ addContext c.block.lineNumber c.block.contents = Pending.contextThrough := by
        funext m
        exact contextThrough_addContext _ _ m
      rw [List.map_append, List.map_map, hsame, hkept, throughs_single, List.map_map]
      rfl
    have hleft : left.map Pending.contextThrough = (throughs o (front ++ [c])).filter fun t => !decide (t < c.block.behind) := by
      have hordered : (next.map Pending.contextThrough).Pairwise (· ≤ ·) :=
        hnext ▸ hsorted.sublist (List.filter_sublist.append (List.Sublist.refl _))
      have hle : c.block.lineNumber ≤ c.block.behind := Nat.le_add_right _ _
      rw [through_dropWhile hordered, hnext, List.filter_append, filter_above hle, throughs_append, List.filter_append]
    have hlength : next.length = ((front.flatMap fun d => d.hits o).filter fun m => decide (c.block.lineNumber ≤ m.endLine + o.after)).length +
        (c.hits o).length := by
      have hall : next.length = (next.map Pending.contextThrough).length := (List.length_map _).symm
      rw [hall, hnext, List.length_append, length_waiting, throughs_single, List.length_map]
    have hstep : (emit contextQueue cap waiting (opsAlong o front (c :: rest))).2 =
        if next.length ≤ cap then (emit contextQueue cap left (opsAlong o (front ++ [c]) rest)).2 else true := by
      have hshort : (kept.map (addContext c.block.lineNumber c.block.contents)).length ≤ cap := by
        rw [List.length_map]
        exact Nat.le_trans (List.dropWhile_sublist _).length_le hcap
      have hsum : (kept.map (addContext c.block.lineNumber c.block.contents)).length + ((c.hits o).map (queuedHit o front)).length =
          next.length :=
        List.length_append.symm
      rw [opsAlong, chunkOps, List.cons_append, List.cons_append, emit_passed, emit_lines, List.append_assoc, emit_queues hshort, hsum]
      split
      · exact emit_passed _ _ _
      · rfl
    have hsplits : (∀ mid d more, c :: rest = mid ++ d :: more → Roomy o cap (front ++ mid) d) ↔
        Roomy o cap front c ∧ ∀ mid d more, rest = mid ++ d :: more → Roomy o cap ((front ++ [c]) ++ mid) d := by
      rw [forall_splits_cons (P := fun mid d _ => Roomy o cap (front ++ mid) d)]
      simp only [List.append_nil, List.append_assoc, List.singleton_append]
    rw [hstep, hsplits]
    split
    · next hroom =>
      have hshort : left.length ≤ cap := Nat.le_trans (List.dropWhile_sublist _).length_le hroom
      refine (ih (hassoc ▸ h) (hassoc ▸ horder) hshort hleft fun d hd => rest_behind h hd).trans ?_
      have hown : Roomy o cap front c := hlength.symm.trans_le hroom
      exact (and_iff_right hown).symm
    · next hfull => exact iff_of_false Bool.true_eq_false.mp fun hall => hfull (hlength.trans_le hall.1)

/-! ## When nothing is missing -/

theorem length_file (f : SearchedFile) : f.contents.length = f.lines.length := List.length_map _

theorem linesBefore_eq (f : SearchedFile) (n k : ℕ) :
    f.linesBefore n k = ((numbered 1 f.contents).filter (within (max (n - k) 1) n)).map Prod.snd := by
  have hdrop : max (n - k) 1 - 1 = n - 1 - k := by omega
  have htake : n - max (n - k) 1 = n - 1 - (n - 1 - k) := by omega
  rw [filter_within (Nat.le_max_right _ _), hdrop, htake, SearchedFile.linesBefore, List.drop_take]

theorem linesAfter_eq (f : SearchedFile) (n k : ℕ) :
    f.linesAfter n k = ((numbered 1 f.contents).filter (within (n + 1) (n + k + 1))).map Prod.snd := by
  have htake : n + k + 1 - (n + 1) = k := by omega
  rw [filter_within (Nat.le_add_left _ _), Nat.add_sub_cancel, htake, SearchedFile.linesAfter]

/-- The lines of a range that some events bring are those of the file when the events hold them all. -/
theorem range_eq_iff (h : Ordered cs) (first last : ℕ) :
    ((table cs).filter (within first last)).map Prod.snd = ((numbered 1 f.contents).filter (within first last)).map Prod.snd ↔
      ∀ n, 0 < n → n ≤ f.lines.length → first ≤ n → n < last → ∃ c ∈ cs, c.block.Holds n := by
  have hfile := ascending_numbered 1 f.contents
  have hsub : ((table cs).filter (within first last)).Sublist ((numbered 1 f.contents).filter (within first last)) :=
    (table_sublist_file h).filter _
  refine (map_eq_iff_of_sublist hsub (hfile.sublist List.filter_sublist).nodup).trans ?_
  constructor
  · intro hall n hpos hlast hfirst hlt
    have hupper : n < 1 + f.contents.length := by
      rw [length_file]
      omega
    obtain ⟨line, hline⟩ := exists_numbered hpos hupper
    have hmem := hall _ (List.mem_filter.mpr ⟨hline, within_iff.mpr ⟨hfirst, hlt⟩⟩)
    exact mem_table (List.mem_filter.mp hmem).1
  · intro hall r hr
    obtain ⟨hr, hin⟩ := List.mem_filter.mp hr
    have hbounds := mem_numbered hr
    rw [length_file] at hbounds
    have hrange := within_iff.mp hin
    have hheld := hall r.1 (by omega) (by omega) hrange.1 hrange.2
    exact List.mem_filter.mpr ⟨(mem_table_iff h hr).mpr hheld, hin⟩

theorem contextSeen_iff (h : Ordered (front ++ c :: rest)) {m : Found} (hm : m ∈ c.hits o) :
    contextSeen o front m.startLine = f.linesBefore m.startLine o.before ↔
      ∀ n, 0 < n → n ≤ f.lines.length → n < m.startLine → m.startLine ≤ n + o.before →
        ¬c.block.Holds n ∧ ∃ d ∈ front ++ c :: rest, d.block.Holds n := by
  obtain ⟨hstart, hend, hbehind⟩ := hit_bounds hm
  rw [contextSeen, linesBefore_eq, range_eq_iff (ordered_front h)]
  constructor
  · intro hall n hpos hlast hlt hreach
    obtain ⟨d, hd, hholds⟩ := hall n hpos hlast (by omega) hlt
    have hbetween := (List.pairwise_append.mp h).2.2 d hd c (List.mem_cons_self ..)
    refine ⟨fun hown => ?_, d, List.mem_append_left _ hd, hholds⟩
    exact absurd (Nat.lt_of_lt_of_le hholds.2 hbetween) (Nat.not_lt.mpr hown.1)
  · intro hall n hpos hlast hfirst hlt
    obtain ⟨hown, d, hd, hholds⟩ := hall n hpos hlast hlt (by omega)
    cases List.mem_append.mp hd with
    | inl hfront => exact ⟨d, hfront, hholds⟩
    | inr hlater =>
      cases List.mem_cons.mp hlater with
      | inl heq => exact absurd (heq ▸ hholds) hown
      | inr hrest =>
        have hafter := rest_behind h hrest
        have hlower := hholds.1
        omega

theorem contextAdded_iff (h : Ordered (front ++ c :: rest)) {m : Found} (hm : m ∈ c.hits o) :
    contextAdded o rest m.endLine = f.linesAfter m.endLine o.after ↔
      ∀ n, 0 < n → n ≤ f.lines.length → m.endLine < n → n ≤ m.endLine + o.after →
        ¬c.block.Holds n ∧ ∃ d ∈ front ++ c :: rest, d.block.Holds n := by
  obtain ⟨hstart, hend, hbehind⟩ := hit_bounds hm
  rw [contextAdded, linesAfter_eq, range_eq_iff (ordered_rest (List.pairwise_append.mp h).2.1)]
  constructor
  · intro hall n hpos hlast hlt hreach
    obtain ⟨d, hd, hholds⟩ := hall n hpos hlast hlt (Nat.lt_succ_of_le hreach)
    refine ⟨fun hown => ?_, d, List.mem_append_right _ (List.mem_cons_of_mem _ hd), hholds⟩
    exact absurd (Nat.lt_of_lt_of_le hown.2 (rest_behind h hd)) (Nat.not_lt.mpr hholds.1)
  · intro hall n hpos hlast hfirst hlt
    obtain ⟨hown, d, hd, hholds⟩ := hall n hpos hlast hfirst (Nat.le_of_lt_succ hlt)
    cases List.mem_append.mp hd with
    | inl hfront =>
      have hbetween := (List.pairwise_append.mp h).2.2 d hfront c (List.mem_cons_self ..)
      have hupper := hholds.2
      omega
    | inr hlater =>
      cases List.mem_cons.mp hlater with
      | inl heq => exact absurd (heq ▸ hholds) hown
      | inr hrest => exact ⟨d, hrest, hholds⟩

/-- The answer to a match, with its context. -/
theorem item_eq_iff {m : Found} {before before' after after' : List Text} :
    (m.pending f o before after).item = (m.pending f o before' after').item ↔ before = before' ∧ after = after' := by
  constructor
  · intro h
    have hstr : ∀ {a b : List Text}, a.map Json.str = b.map .str → a = b := fun hmap =>
      (List.map_inj_right fun _ _ heq => Json.str.inj heq).mp hmap
    have hfields := List.append_inj_left (Json.obj.inj h) rfl
    simp only [Found.pending, List.cons.injEq, Prod.mk.injEq, Json.arr.injEq, true_and, and_true] at hfields
    exact ⟨hstr hfields.1, hstr hfields.2⟩
  · rintro ⟨rfl, rfl⟩
    rfl

theorem answers_iff (front rest : List (Chunk f)) :
    answers o front rest = (rest.flatMap fun c => c.hits o).map
        (fun m => (m.pending f o (f.linesBefore m.startLine o.before) (f.linesAfter m.endLine o.after)).item) ↔
      ∀ mid c more, rest = mid ++ c :: more → ∀ m ∈ c.hits o,
        contextSeen o (front ++ mid) m.startLine = f.linesBefore m.startLine o.before ∧
          contextAdded o more m.endLine = f.linesAfter m.endLine o.after := by
  induction rest generalizing front with
  | nil => exact iff_of_true rfl fun mid c more hsplit => absurd hsplit (by simp)
  | cons c rest ih =>
    have hparts : ∀ {xs ys as bs : List Json}, xs.length = ys.length → (xs ++ as = ys ++ bs ↔ xs = ys ∧ as = bs) := by
      intro xs ys as bs hlength
      exact ⟨fun h => List.append_inj h hlength, fun h => by rw [h.1, h.2]⟩
    rw [answers, List.flatMap_cons, List.map_append, hparts (by rw [List.length_map, List.length_map]), ih, List.map_inj_left,
      forall_splits_cons (P := fun mid c more => ∀ m ∈ c.hits o,
        contextSeen o (front ++ mid) m.startLine = f.linesBefore m.startLine o.before ∧
          contextAdded o more m.endLine = f.linesAfter m.endLine o.after)]
    simp only [item_eq_iff, List.append_nil, List.append_assoc, List.singleton_append]

theorem length_answers (front rest : List (Chunk f)) : (answers o front rest).length = (rest.flatMap fun c => c.hits o).length := by
  induction rest generalizing front with
  | nil => rfl
  | cons c rest ih => rw [answers, List.length_append, List.length_map, ih, List.flatMap_cons, List.length_append]

/-! ## Lines that share an event -/

theorem queued_event (c : Chunk f) (cursor : Cursor) : (queued (eventOps o cursor c.event).1).length ≤ (c.hits o).length ∧
    (¬SingleLine o c → (queued (eventOps o cursor c.event).1).length < (c.hits o).length) := by
  have hlines : ∀ (path : Text) (lineNumber : ℕ) (text : Text) (found : List (ℕ × Text) → List Pending),
      queued (lineOps cursor path lineNumber text found) = found (cursor.enter path).recentLines := by
    intro path lineNumber text found
    rw [lineOps, queued_append, queued_signal, queued_signal, queued_map_append]
    split
    · exact List.append_nil _
    · exact List.append_nil _
  cases c with
  | context b =>
    rw [Chunk.event, eventOps, hlines]
    exact ⟨Nat.zero_le _, fun hmany => absurd (fun _ b spans heq => by cases heq) hmany⟩
  | found b spans =>
    rw [Chunk.event, eventOps, hlines, Chunk.hits, matchesOf]
    have hcount : (numbered b.lineNumber b.contents).length = b.count := (length_numbered _ _).trans b.length_contents
    split
    · next hmode =>
      rw [List.length_map, List.length_map, List.length_map]
      exact ⟨Nat.le_refl _, fun hmany => absurd (fun hnone => absurd hmode (Bool.eq_false_iff.mp hnone)) hmany⟩
    · rw [List.length_map, hcount]
      refine ⟨b.some, fun hmany => Nat.lt_of_le_of_ne b.some fun hone => hmany fun _ b' spans' heq => ?_⟩
      cases heq
      exact hone.symm

theorem queued_lines (cs : List (Chunk f)) (cursor : Cursor) :
    (queued (operations o cursor (cs.map Chunk.event ++ [.fileEnd, .other]))).length ≤ (cs.flatMap fun c => c.hits o).length ∧
      ((∃ c ∈ cs, ¬SingleLine o c) →
        (queued (operations o cursor (cs.map Chunk.event ++ [.fileEnd, .other]))).length < (cs.flatMap fun c => c.hits o).length) := by
  induction cs generalizing cursor with
  | nil =>
    refine ⟨Nat.le_refl _, ?_⟩
    rintro ⟨c, hc, -⟩
    exact absurd hc List.not_mem_nil
  | cons c cs ih =>
    obtain ⟨hle, hlt⟩ := queued_event (o := o) c cursor
    obtain ⟨hrest, hrestLt⟩ := ih (eventOps o cursor c.event).2
    rw [List.map_cons, List.cons_append, operations, queued_append, List.length_append, List.flatMap_cons, List.length_append]
    refine ⟨Nat.add_le_add hle hrest, ?_⟩
    rintro ⟨d, hd, hmany⟩
    cases List.mem_cons.mp hd with
    | inl heq => exact Nat.add_lt_add_of_lt_of_le (hlt (heq ▸ hmany)) hrest
    | inr hlater => exact Nat.add_lt_add_of_le_of_lt hle (hrestLt ⟨d, hlater, hmany⟩)

/-! ## The collector and the reference -/

section
variable {s : Stream}

theorem singleLines_iff : s.SingleLines ↔ ∀ c ∈ s.chunks, SingleLine s.options c := by
  constructor
  · exact fun h _ hc hmode b spans heq => h hmode b spans (heq ▸ hc)
  · intro h hmode b spans hmem
    exact h _ hmem hmode b spans rfl

theorem hits_inOrder : ∀ c ∈ s.chunks, InOrder c := fun _ hc b spans heq => s.inOrder b spans (heq ▸ hc)

theorem hits_oneLine : ∀ c ∈ s.chunks, Flat s.options c := fun _ hc ho _ hm =>
  hits_flat (fun b spans heq => s.oneLine ho b spans (heq ▸ hc)) hm

theorem apart_iff : s.Apart ↔ ∀ mid c more, s.chunks = mid ++ c :: more → ∀ m ∈ c.hits s.options,
    contextSeen s.options mid m.startLine = s.file.linesBefore m.startLine s.options.before ∧
      contextAdded s.options more m.endLine = s.file.linesAfter m.endLine s.options.after := by
  have hone : ∀ mid c more, s.chunks = mid ++ c :: more → ∀ m ∈ c.hits s.options,
      ((contextSeen s.options mid m.startLine = s.file.linesBefore m.startLine s.options.before ∧
        contextAdded s.options more m.endLine = s.file.linesAfter m.endLine s.options.after) ↔
      ∀ n, 0 < n → n ≤ s.file.lines.length →
        (n < m.startLine ∧ m.startLine ≤ n + s.options.before ∨ m.endLine < n ∧ n ≤ m.endLine + s.options.after) →
          ¬c.block.Holds n ∧ ∃ d ∈ s.chunks, d.block.Holds n) := by
    intro mid c more hsplit m hm
    have hordered : Ordered (mid ++ c :: more) := hsplit ▸ s.ordered
    rw [contextSeen_iff hordered hm, contextAdded_iff hordered hm, ← hsplit]
    constructor
    · rintro ⟨hbefore, hafter⟩ n hpos hlast hcontext
      cases hcontext with
      | inl hfront => exact hbefore n hpos hlast hfront.1 hfront.2
      | inr hback => exact hafter n hpos hlast hback.1 hback.2
    · intro h
      exact ⟨fun n hpos hlast hlt hreach => h n hpos hlast (Or.inl ⟨hlt, hreach⟩),
        fun n hpos hlast hlt hreach => h n hpos hlast (Or.inr ⟨hlt, hreach⟩)⟩
  constructor
  · intro h mid c more hsplit m hm
    have hc : c ∈ s.chunks := hsplit ▸ List.mem_append_right _ (List.mem_cons_self ..)
    exact (hone mid c more hsplit m hm).mpr (h c hc m hm)
  · intro h c hc m hm
    obtain ⟨mid, more, hsplit⟩ := List.append_of_mem hc
    exact (hone mid c more hsplit m hm).mp (h mid c more hsplit m hm)

/-- Where each event has one line where it should, the answers leave unless the queue is full. -/
theorem handed_spec (hone : s.SingleLines) : (s.crowded = false ↔ s.Sparse) ∧ s.handed <+: answers s.options [] s.chunks ∧
    s.crowded = decide (s.handed.length < (answers s.options [] s.chunks).length) := by
  have hcap : 0 < maxPendingMatches := by decide
  have hordered : Ordered ([] ++ s.chunks) := s.ordered
  have hops := emit_ops (singleLines_iff.mp hone)
  have horderly : Orderly contextQueue (opsAlong s.options [] s.chunks) :=
    orderly_of_sorted ((throughs_queued [] s.chunks).symm ▸ throughs_sorted s.ordered hits_inOrder)
  obtain ⟨hfront, hfull⟩ := emit_spec hcap queue_nil horderly
  have hall : (outlook contextQueue [] (opsAlong s.options [] s.chunks)).map Pending.item = answers s.options [] s.chunks :=
    results_along s.ordered hits_oneLine
  have hroom : (emit contextQueue maxPendingMatches [] (opsAlong s.options [] s.chunks)).2 = false ↔ s.Sparse :=
    crowded_along (k := 0) hordered hits_inOrder (Nat.zero_le _) rfl fun _ _ => Nat.zero_le _
  rw [Stream.crowded, Stream.handed, hops, ← hall, List.length_map, List.length_map]
  exact ⟨hroom, hfront.map _, hfull⟩

/-- A line of an event that matches is a match of its own, but only the first is queued. -/
theorem handed_short (hmany : ¬s.SingleLines) : s.handed.length < s.hits.length := by
  have hsome : ∃ c ∈ s.chunks, ¬SingleLine s.options c := by
    by_contra hnone
    exact hmany (singleLines_iff.mpr fun c hc => by_contra fun hc' => hnone ⟨c, hc, hc'⟩)
  have hqueued : (queued s.ops).length < s.hits.length := (queued_lines s.chunks {}).2 hsome
  have hemitted : (emit contextQueue maxPendingMatches [] s.ops).1.length ≤ 0 + (queued s.ops).length := length_emit_le [] s.ops
  rw [Stream.handed, List.length_map]
  omega

end

/-- The collector hands each match to the page with its context exactly when whole lines come one
by one, no more than a thousand matches wait, and no line of a context comes with the event of its
match. -/
theorem streamed_context_iff (s : Stream) :
    (∀ (enc : TokenEncoding) (p : PageSetup), p.offset = 0 →
      s.collect enc p = addAll enc p s.handed {} >>= fun page => pure (settle s.crowded page)) ∧
      (s.handed = s.reference ↔ s.SingleLines ∧ s.Sparse ∧ s.Apart) := by
  refine ⟨fun enc p hoffset => s.collect_eq enc hoffset, ?_⟩
  by_cases hone : s.SingleLines
  · obtain ⟨hroom, hfront, hfull⟩ := handed_spec hone
    have hanswers : answers s.options [] s.chunks = s.reference ↔ s.Apart := by
      rw [apart_iff]
      exact answers_iff [] s.chunks
    have hlength : (answers s.options [] s.chunks).length = s.reference.length :=
      (length_answers [] s.chunks).trans (List.length_map _).symm
    rw [and_iff_right hone]
    constructor
    · intro h
      have hall : s.handed = answers s.options [] s.chunks := hfront.eq_of_length (by rw [hlength, h])
      refine ⟨hroom.mp ?_, hanswers.mp (hall ▸ h)⟩
      rw [hfull, hall]
      exact decide_eq_false (Nat.lt_irrefl _)
    · rintro ⟨hsparse, hapart⟩
      rw [hroom.mpr hsparse] at hfull
      have hall : s.handed = answers s.options [] s.chunks :=
        hfront.eq_of_length (Nat.le_antisymm hfront.length_le (Nat.not_lt.mp (of_decide_eq_false hfull.symm)))
      rw [hall]
      exact hanswers.mpr hapart
  · have hshort := handed_short hone
    refine iff_of_false (fun h => ?_) fun h => hone h.1
    rw [h, Stream.reference, List.length_map] at hshort
    exact Nat.lt_irrefl _ hshort

/-! ## An event with two matches -/

def letterA : CodePoint := 0x61
def letterB : CodePoint := 0x62

/-- Two lines that match. -/
def twoLines : SearchedFile where
  path := txt "/srv/two.txt"
  text := [letterA, lineFeed, letterB, lineFeed]
  encodable := by decide
  feeds c hc hbreak := by
    have hall : [letterA, lineFeed, letterB, lineFeed].all (fun c => !isLineBreak c || decide (c = lineFeed)) = true := by decide
    simpa [hbreak] using List.all_eq_true.mp hall c hc

def bothLines : Block twoLines := ⟨0, 2, by decide, by decide⟩

def sharedEvent : Stream where
  file := twoLines
  options := ⟨1, 1, true, false⟩
  chunks := [.found bothLines [⟨0, 1, by decide, by decide⟩, ⟨2, 3, by decide, by decide⟩]]
  ordered := List.pairwise_singleton _ _
  inOrder b spans h := by
    cases List.mem_singleton.mp h
    decide
  oneLine h := absurd h (by decide)

/-- Each of the two lines is the context of the other, and neither is shown. -/
theorem shared_event_loses_context : ¬sharedEvent.handed = sharedEvent.reference := by
  intro h
  have hstrings := congrArg (List.map fun j => (strings j).length) h
  revert hstrings
  decide

end WebOauthMcp.StreamedContext
