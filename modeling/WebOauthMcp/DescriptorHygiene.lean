import WebOauthMcp.AtomicWrites

/-!
# Hygiene of descriptors

What a thread relies on is its part of the world: its files, the numbers that stand for its
descriptors, and who closed these. Every act of a thread leaves the parts of the others alone as long
as the error path of an atomic write spares them.
-/

namespace WebOauthMcp.DescriptorHygiene
open CodePoints Words BudgetMetadata ContentIo FaultyPrograms RelyGuarantee AtomicWrites
open ReplaceFiles (Path Node Fault Plan Report ReplaceError Commit written writeResult reportOf)

variable {ι α β : Type}

/-- The part of one thread. -/
structure View (ι : Type) where
  own : Own
  held : ℕ → ℕ → Prop
  closers : ℕ → List ι

def view (i : ι) (s : World ι) : View ι := ⟨s.own i, fun n k => s.table n = some (i, k), fun k => s.closers (i, k)⟩

def Settled (i : ι) (v : View ι) (k : ℕ) : Prop := v.closers k = [i] ∧ v.own.temps k = .missing

/-- Nothing is open, and no temporary file is there. -/
def Idle (i : ι) (v : View ι) : Prop := ∀ k < v.own.opened, Settled i v k

/-- The record of a call is that of an atomic write under some fault. -/
structure Sound (i : ι) (v : View ι) (c : Call) : Prop where
  settled : ∀ k, c.first ≤ k → k < c.last → Settled i v k
  answered : ∃ fault, c.left = written c.raw c.mode fault c.old ∧ c.result = writeResult fault c.old

structure Inv (i : ι) (v : View ι) : Prop where
  bound : ∀ n k, v.held n k → k < v.own.opened
  unclosed : ∀ n k, v.held n k → v.closers k = []
  single : ∀ n m k, v.held n k → v.held m k → n = m
  functional : ∀ n j k, v.held n j → v.held n k → j = k
  closed : ∀ k < v.own.opened, (∃ n, v.held n k) ∨ v.closers k = [i]
  unborn : ∀ k, v.own.opened ≤ k → v.closers k = [] ∧ v.own.temps k = .missing
  calls : ∀ c ∈ v.own.calls, Sound i v c

/-! ## Effects on the part of a thread -/

section
variable {i : ι} {v : View ι}

def View.setOwn (v : View ι) (o : Own) : View ι := { v with own := o }

def View.open (v : View ι) (n : ℕ) (node : Node) : View ι where
  own := { v.own with
    opened := v.own.opened + 1
    temps := Function.update v.own.temps v.own.opened node }
  held m k := if m = n then k = v.own.opened else v.held m k
  closers := v.closers

def View.close (v : View ι) (i : ι) (n k : ℕ) : View ι where
  own := v.own
  held m j := m ≠ n ∧ v.held m j
  closers := Function.update v.closers k (v.closers k ++ [i])

theorem Settled.lt (h : Inv i v) {k : ℕ} (hk : Settled i v k) : k < v.own.opened := by
  by_contra hge
  have hnone := (h.unborn k (Nat.le_of_not_lt hge)).1
  rw [hk.1] at hnone
  exact absurd hnone (by simp)

/-- A descriptor that is open is not settled. -/
theorem Settled.not_held (h : Inv i v) {n k : ℕ} (hk : Settled i v k) : ¬v.held n k := by
  intro hheld
  have hnone := h.unclosed n k hheld
  rw [hk.1] at hnone
  exact absurd hnone (by simp)

theorem Sound.mono {w : View ι} {c : Call} (h : Sound i v c) (hsettled : ∀ k, Settled i v k → Settled i w k) :
    Sound i w c := ⟨fun k hfirst hlast => hsettled k (h.settled k hfirst hlast), h.answered⟩

/-- Other files of the thread, where its settled descriptors stay settled. -/
theorem Inv.setOwn (h : Inv i v) {o : Own} (hopened : o.opened = v.own.opened) (hcalls : o.calls = v.own.calls)
    (htemps : ∀ k, v.own.temps k = .missing → (∀ n, ¬v.held n k) → o.temps k = .missing) : Inv i (v.setOwn o) := by
  have hsettled : ∀ k, Settled i v k → Settled i (v.setOwn o) k := fun k hk =>
    ⟨hk.1, htemps k hk.2 fun n => hk.not_held h⟩
  refine ⟨?_, h.unclosed, h.single, h.functional, ?_, ?_, ?_⟩
  · intro n k hk
    exact (h.bound n k hk).trans_eq hopened.symm
  · intro k hk
    exact h.closed k (hk.trans_eq hopened)
  · intro k hk
    have hborn : v.own.opened ≤ k := hopened.symm.trans_le hk
    refine ⟨(h.unborn k hborn).1, htemps k (h.unborn k hborn).2 fun n hheld => ?_⟩
    exact absurd (h.bound n k hheld) (Nat.not_lt.mpr hborn)
  · intro c hc
    exact (h.calls c (hcalls ▸ hc)).mono hsettled

theorem temps_open (v : View ι) (n : ℕ) (node : Node) : (v.open n node).own.temps v.own.opened = node :=
  Function.update_self _ _ _

theorem temps_open_of_ne {k : ℕ} (hne : k ≠ v.own.opened) (n : ℕ) (node : Node) :
    (v.open n node).own.temps k = v.own.temps k := by
  simp only [View.open, Function.update_of_ne hne]

theorem settled_open (h : Inv i v) (n : ℕ) (node : Node) {k : ℕ} (hk : Settled i v k) : Settled i (v.open n node) k :=
  ⟨hk.1, (temps_open_of_ne (hk.lt h).ne n node).trans hk.2⟩

theorem held_open_iff {n m k : ℕ} {node : Node} :
    (v.open n node).held m k ↔ m = n ∧ k = v.own.opened ∨ m ≠ n ∧ v.held m k := by
  simp only [View.open]
  by_cases hm : m = n <;> simp [hm]

theorem Inv.open (h : Inv i v) {n : ℕ} (hfree : ∀ k, ¬v.held n k) (node : Node) : Inv i (v.open n node) where
  bound m k hk := by
    cases held_open_iff.mp hk with
    | inl hnew => exact hnew.2 ▸ Nat.lt_succ_self _
    | inr hold => exact (h.bound m k hold.2).trans (Nat.lt_succ_self _)
  unclosed m k hk := by
    cases held_open_iff.mp hk with
    | inl hnew => exact hnew.2 ▸ (h.unborn _ (Nat.le_refl _)).1
    | inr hold => exact h.unclosed m k hold.2
  single m m' k hk hk' := by
    obtain ⟨rfl, rfl⟩ | ⟨-, hm⟩ := held_open_iff.mp hk <;> obtain ⟨rfl, hnew⟩ | ⟨-, hm'⟩ := held_open_iff.mp hk'
    · rfl
    · exact absurd (h.bound m' _ hm') (Nat.lt_irrefl _)
    · exact absurd (h.bound m k hm) (hnew ▸ Nat.lt_irrefl _)
    · exact h.single m m' k hm hm'
  functional m j k hj hk := by
    obtain ⟨rfl, rfl⟩ | ⟨hne, hj⟩ := held_open_iff.mp hj <;> obtain ⟨heq, rfl⟩ | ⟨hne', hk⟩ := held_open_iff.mp hk
    · rfl
    · exact absurd rfl hne'
    · exact absurd heq hne
    · exact h.functional m j k hj hk
  closed k hk := by
    by_cases hnew : k = v.own.opened
    · exact .inl ⟨n, held_open_iff.mpr (.inl ⟨rfl, hnew⟩)⟩
    · have hold : k < v.own.opened := Nat.lt_of_le_of_ne (Nat.le_of_lt_succ hk) hnew
      refine (h.closed k hold).imp_left fun hopen => ?_
      obtain ⟨m, hm⟩ := hopen
      have hne : m ≠ n := fun heq => hfree k (heq ▸ hm)
      exact ⟨m, held_open_iff.mpr (.inr ⟨hne, hm⟩)⟩
  unborn k hk := by
    have hborn := h.unborn k (Nat.le_of_succ_le hk)
    exact ⟨hborn.1, (temps_open_of_ne (Nat.ne_of_gt hk) n node).trans hborn.2⟩
  calls c hc := (h.calls c hc).mono fun _ hk => settled_open h n node hk

theorem settled_close (h : Inv i v) {n d : ℕ} (hheld : v.held n d) {k : ℕ} (hk : Settled i v k) :
    Settled i (v.close i n d) k := by
  have hne : k ≠ d := fun heq => hk.not_held h (heq ▸ hheld)
  exact ⟨(Function.update_of_ne hne _ v.closers).trans hk.1, hk.2⟩

/-- What was open is closed once. -/
theorem closers_close (h : Inv i v) {n d : ℕ} (hheld : v.held n d) : (v.close i n d).closers d = [i] := by
  simp only [View.close, Function.update_self, h.unclosed n d hheld, List.nil_append]

theorem Inv.close (h : Inv i v) {n d : ℕ} (hheld : v.held n d) : Inv i (v.close i n d) where
  bound m k hk := h.bound m k hk.2
  unclosed m k hk := by
    have hne : k ≠ d := fun heq => hk.1 (h.single m n k hk.2 (heq ▸ hheld))
    exact (Function.update_of_ne hne _ v.closers).trans (h.unclosed m k hk.2)
  single m m' k hk hk' := h.single m m' k hk.2 hk'.2
  functional m j k hj hk := h.functional m j k hj.2 hk.2
  closed k hk := by
    by_cases hkd : k = d
    · subst hkd
      exact .inr (closers_close h hheld)
    · cases h.closed k hk with
      | inl hopen =>
        obtain ⟨m, hm⟩ := hopen
        have hmn : m ≠ n := fun heq => hkd (h.functional n k d (heq ▸ hm) hheld)
        exact .inl ⟨m, hmn, hm⟩
      | inr hclosed => exact .inr ((Function.update_of_ne hkd _ v.closers).trans hclosed)
  unborn k hk := by
    have hne : k ≠ d := fun heq => absurd (h.bound n d hheld) (Nat.not_lt.mpr (heq ▸ hk))
    exact ⟨(Function.update_of_ne hne _ v.closers).trans (h.unborn k hk).1, (h.unborn k hk).2⟩
  calls c hc := (h.calls c hc).mono fun _ hk => settled_close h hheld hk

end

/-! ## Stages of a call -/

section
variable {i : ι} {v : View ι}

/-- All descriptors but one are settled. -/
structure Apart (i : ι) (v : View ι) (k : ℕ) : Prop where
  others : ∀ j < v.own.opened, j ≠ k → Settled i v j
  born : k < v.own.opened

/-- A descriptor under the number `n` is open, its temporary file satisfies `T`, and the target is as it was. -/
structure Filling (i : ι) (n k : ℕ) (path : Path) (old : Node) (T : Node → Prop) (v : View ι) : Prop where
  apart : Apart i v k
  held : v.held n k
  temp : T (v.own.temps k)
  target : v.own.targets path = old

/-- The same after the descriptor was closed. -/
structure Filled (i : ι) (k : ℕ) (path : Path) (old : Node) (T : Node → Prop) (v : View ι) : Prop where
  apart : Apart i v k
  closed : v.closers k = [i]
  temp : T (v.own.temps k)
  target : v.own.targets path = old

/-- After the rename the new bytes are there, and the temporary file is not. -/
structure Renamed (i : ι) (k : ℕ) (path : Path) (raw : Bytes) (mode : ℕ) (old : Node) (v : View ι) : Prop where
  idle : Idle i v
  born : k < v.own.opened
  replaceable : old ≠ .other
  target : v.own.targets path = .file raw mode

/-- What the target holds when a call raises. -/
def OldOrNew (path : Path) (raw : Bytes) (mode : ℕ) (old : Node) (v : View ι) : Prop :=
  v.own.targets path = old ∨ old ≠ .other ∧ v.own.targets path = .file raw mode

/-- At the error path the descriptor of the temporary file is open or was closed once. -/
structure Broken (i : ι) (n k : ℕ) (path : Path) (raw : Bytes) (mode : ℕ) (old : Node) (v : View ι) : Prop where
  apart : Apart i v k
  own : v.held n k ∨ v.closers k = [i]
  target : OldOrNew path raw mode old v

/-- The number `n` stands for a descriptor without a temporary file, and all others are settled. -/
def Reading (i : ι) (n : ℕ) (v : View ι) : Prop := ∃ d, Apart i v d ∧ v.held n d ∧ v.own.temps d = .missing

theorem Idle.apart (h : Idle i v) {k : ℕ} (hk : k < v.own.opened) : Apart i v k :=
  ⟨fun j hj _ => h j hj, hk⟩

theorem Apart.idle {k : ℕ} (h : Apart i v k) (hk : Settled i v k) : Idle i v := by
  intro j hj
  by_cases hjk : j = k
  · exact hjk ▸ hk
  · exact h.others j hj hjk

/-- A new descriptor beside those that are settled. -/
theorem Idle.open (h : Idle i v) (hinv : Inv i v) (n : ℕ) (node : Node) :
    Apart i (v.open n node) v.own.opened where
  others j hj hne := settled_open hinv n node (h j (Nat.lt_of_le_of_ne (Nat.le_of_lt_succ hj) hne))
  born := Nat.lt_succ_self _

theorem held_open (v : View ι) (n : ℕ) (node : Node) : (v.open n node).held n v.own.opened :=
  held_open_iff.mpr (.inl ⟨rfl, rfl⟩)

theorem Apart.close {n k : ℕ} (h : Apart i v k) (hinv : Inv i v) (hheld : v.held n k) :
    Apart i (v.close i n k) k where
  others j hj hne := settled_close hinv hheld (h.others j hj hne)
  born := h.born

theorem Apart.setTemp {k : ℕ} (h : Apart i v k) (node : Node) :
    Apart i (v.setOwn (v.own.setTemp k node)) k where
  others j hj hne := ⟨(h.others j hj hne).1, (setTemp_of_ne v.own hne node).trans (h.others j hj hne).2⟩
  born := h.born

theorem Inv.setTemp (h : Inv i v) {k : ℕ} {node : Node} (hk : node = .missing ∨ ∃ n, v.held n k) :
    Inv i (v.setOwn (v.own.setTemp k node)) := by
  refine h.setOwn rfl rfl fun j hj hfree => ?_
  by_cases hjk : j = k
  · subst hjk
    refine (setTemp_self v.own j node).trans ?_
    exact hk.resolve_right fun hheld => hfree hheld.choose hheld.choose_spec
  · exact (setTemp_of_ne v.own hjk node).trans hj

variable {path : Path} {raw : Bytes} {mode : ℕ} {old : Node}

/-- What the record of a call says of its result. -/
def Answered (path : Path) (raw : Bytes) (mode : ℕ) (old : Node) (r : Except Text Unit) (v : View ι) : Prop :=
  ∃ fault, v.own.targets path = written raw mode fault old ∧ r = writeResult fault old

theorem written_replaceable (hold : old ≠ .other) {fault : Fault} (hfault : ∀ reason, fault ≠ .before reason) :
    written raw mode fault old = .file raw mode := by
  cases fault with
  | before reason => exact absurd rfl (hfault reason)
  | none =>
    cases old with
    | other => exact absurd rfl hold
    | missing => rfl
    | file _ _ => rfl
  | after reason =>
    cases old with
    | other => exact absurd rfl hold
    | missing => rfl
    | file _ _ => rfl

theorem writeResult_replaceable (hold : old ≠ .other) : writeResult .none old = .ok () := by
  cases old with
  | other => exact absurd rfl hold
  | missing => rfl
  | file _ _ => rfl

theorem answered_ok (h : old ≠ .other ∧ v.own.targets path = .file raw mode) :
    Answered path raw mode old (.ok ()) v := by
  refine ⟨.none, h.2.trans (written_replaceable h.1 ?_).symm, (writeResult_replaceable h.1).symm⟩
  exact fun _ => by simp

theorem answered_error (reason : Text) (h : OldOrNew path raw mode old v) :
    Answered path raw mode old (.error reason) v := by
  cases h with
  | inl hold => exact ⟨.before reason, hold, rfl⟩
  | inr hnew =>
    refine ⟨.after reason, hnew.2.trans (written_replaceable hnew.1 ?_).symm, rfl⟩
    exact fun _ => by simp

theorem Inv.leave (h : Inv i v) (hidle : Idle i v) {e : Entry} {r : Except Text Unit}
    (hanswered : Answered e.path e.raw e.mode e.old r v) : Inv i (v.setOwn (v.own.leave e r)) where
  bound := h.bound
  unclosed := h.unclosed
  single := h.single
  functional := h.functional
  closed := h.closed
  unborn := h.unborn
  calls c hc := by
    cases List.mem_append.mp hc with
    | inl hbefore =>
      have hsound := h.calls c hbefore
      exact ⟨hsound.settled, hsound.answered⟩
    | inr hnew =>
      rw [List.mem_singleton.mp hnew]
      exact ⟨fun k _ hlast => hidle k hlast, hanswered⟩

end

/-! ## Acts on the world -/

/-- Another part for `i`, and the same parts for the others. -/
def Turns (i : ι) (s s' : World ι) (v : View ι) : Prop := view i s' = v ∧ ∀ j, j ≠ i → view j s' = view j s

theorem Turns.refl (i : ι) (s : World ι) : Turns i s s (view i s) := ⟨rfl, fun _ _ => rfl⟩

section
variable [DecidableEq ι] {i : ι} {s : World ι}

theorem turns_setOwn (i : ι) (s : World ι) (o : Own) : Turns i s (s.setOwn i o) ((view i s).setOwn o) := by
  constructor
  · simp only [view, World.setOwn, View.setOwn, Function.update_self]
  · intro j hj
    simp only [view, World.setOwn, Function.update_of_ne hj]

theorem turns_open {n : ℕ} (hfree : s.table n = none) (node : Node) : Turns i s (s.open i n node) ((view i s).open n node) := by
  constructor
  · simp only [view, World.open, View.open, Function.update_self, View.mk.injEq, true_and, and_true]
    funext m k
    by_cases hm : m = n
    · subst hm
      simp only [Function.update_self, if_true, Option.some.injEq, Prod.mk.injEq, true_and]
      exact propext eq_comm
    · rw [Function.update_of_ne hm, if_neg hm]
  · intro j hj
    simp only [view, World.open, Function.update_of_ne hj, View.mk.injEq, true_and, and_true]
    funext m k
    by_cases hm : m = n
    · subst hm
      simp only [Function.update_self, hfree, Option.some.injEq, Prod.mk.injEq, reduceCtorEq, eq_iff_iff, iff_false, not_and]
      exact fun heq => absurd heq.symm hj
    · rw [Function.update_of_ne hm]

theorem turns_close {n d : ℕ} (hheld : (view i s).held n d) : Turns i s (s.close i n) ((view i s).close i n d) := by
  have htable : s.table n = some (i, d) := hheld
  constructor
  · simp only [view, World.close, htable, View.close, View.mk.injEq, true_and]
    constructor
    · funext m k
      by_cases hm : m = n
      · subst hm
        simp
      · simp [hm]
    · funext k
      by_cases hk : k = d
      · subst hk
        simp
      · simp [hk]
  · intro j hj
    simp only [view, World.close, htable, View.mk.injEq, true_and]
    constructor
    · funext m k
      by_cases hm : m = n
      · subst hm
        simp [htable, hj.symm]
      · rw [Function.update_of_ne hm]
    · funext k
      exact Function.update_of_ne (fun heq => hj (congrArg Prod.fst heq)) _ s.closers

theorem close_free {n : ℕ} (hfree : s.table n = none) : s.close i n = s := by
  rw [World.close, hfree]

theorem through_held {n d : ℕ} (hheld : (view i s).held n d) (change : Node → Node) :
    s.through n change = s.setOwn i ((s.own i).setTemp d (change ((s.own i).temps d))) := by
  have htable : s.table n = some (i, d) := hheld
  rw [World.through, htable]

omit [DecidableEq ι] in
theorem descriptorOf_held {n d : ℕ} (hheld : (view i s).held n d) : descriptorOf s n = .ok (i, d) := by
  have htable : s.table n = some (i, d) := hheld
  rw [descriptorOf, htable]

end

/-! ## Programs that keep the invariant -/

def Sane (s : World ι) : Prop := ∀ i, Inv i (view i s)

def relied (i : ι) (s s' : World ι) : Prop := view i s' = view i s

theorem relied_relies : Relies (relied : ι → World ι → World ι → Prop) where
  refl _ _ := rfl
  trans _ _ _ _ hab hbc := hbc.trans hab

section
variable [DecidableEq ι] {i : ι}

def Careful (l : Label ι) (s : World ι) (f : Choice) : Prop := Kernel l s f ∧ Spared l s f

instance (l : Label ι) (s : World ι) (f : Choice) : Decidable (Careful l s f) := inferInstanceAs (Decidable (_ ∧ _))

/-- A program of `i` that begins in a part with `P` and ends in one with `Q`. -/
def Keeps (i : ι) (x : Program ι α) (P : View ι → Prop) (Q : α → View ι → Prop) : Prop :=
  ∀ s, P (view i s) → Upholds Careful Sane (relied i) (Guarantee relied i) x s fun a s' => Q a (view i s')

theorem Keeps.mono {x : Program ι α} {P P' : View ι → Prop} {Q Q' : α → View ι → Prop} (h : Keeps i x P Q)
    (hp : ∀ v, P' v → P v) (hq : ∀ a v, Q a v → Q' a v) : Keeps i x P' Q' :=
  fun s hs => (h s (hp _ hs)).mono fun a s' ha => hq a (view i s') ha

theorem keeps_bind {x : Program ι α} {f : α → Program ι β} {P : View ι → Prop} {R : α → View ι → Prop}
    {Q : β → View ι → Prop} (hx : Keeps i x P R) (hf : ∀ a, Keeps i (f a) (R a) Q) : Keeps i (x >>= f) P Q :=
  fun s hs => upholds_bind ((hx s hs).mono fun a s' ha => hf a s' ha)

theorem keeps_pure {a : α} {P : View ι → Prop} {Q : α → View ι → Prop} (h : ∀ v, P v → Q a v) :
    Keeps i (pure a : Program ι α) P Q := fun s hs => h (view i s) hs

/-- How a system call ends: with a value or with an error. -/
def Ends (R : α → View ι → Prop) (E : View ι → Prop) : Except Text α → View ι → Prop
  | .ok a, v => R a v
  | .error _, v => E v

def KeepsCall (i : ι) (x : Syscall ι α) (P : View ι → Prop) (R : α → View ι → Prop) (E : View ι → Prop) : Prop :=
  Keeps i x.run P (Ends R E)

section
variable {P P' E E' : View ι → Prop} {R R' : α → View ι → Prop}

theorem KeepsCall.mono {x : Syscall ι α} (h : KeepsCall i x P R E) (hp : ∀ v, P' v → P v) (hr : ∀ a v, R a v → R' a v)
    (he : ∀ v, E v → E' v) : KeepsCall i x P' R' E' := by
  refine Keeps.mono h hp fun r v hv => ?_
  cases r with
  | ok a => exact hr a v hv
  | error reason => exact he v hv

theorem keepsCall_bind {x : Syscall ι α} {f : α → Syscall ι β} {S : β → View ι → Prop} (hx : KeepsCall i x P R E)
    (hf : ∀ a, KeepsCall i (f a) (R a) S E) : KeepsCall i (x >>= f) P S E := by
  refine keeps_bind hx fun r => ?_
  cases r with
  | ok a => exact hf a
  | error reason => exact keeps_pure fun v hv => hv

theorem keepsCall_pure {a : α} (h : ∀ v, P v → R a v) : KeepsCall i (pure a : Syscall ι α) P R E := keeps_pure h

theorem keepsCall_throw {reason : Text} (h : ∀ v, P v → E v) : KeepsCall i (throw reason : Syscall ι α) P R E := keeps_pure h

theorem keepsCall_fromExcept (r : Except Text α) : KeepsCall i (fromExcept r : Syscall ι α) (Ends R E r) R E :=
  keeps_pure fun _ hv => hv

theorem keepsCall_attempt {x : Syscall ι α} (h : KeepsCall i x P R E) : KeepsCall i (attempt x) P (Ends R E) E' :=
  keeps_bind h fun _ => keeps_pure fun _ hv => hv

/-- What is known without the part of the thread. -/
theorem keepsCall_given {p : Prop} {x : Syscall ι α} (h : p → KeepsCall i x P R E) :
    KeepsCall i x (fun v => P v ∧ p) R E := fun s hs => h hs.2 s hs.1

/-- One system call. -/
theorem keepsCall_syscall {l : Label ι} {change : Choice → World ι → World ι} {answer : Choice → World ι → Except Text α}
    (h : ∀ s f, P (view i s) → Inv i (view i s) → Careful l s f →
      ∃ v, Turns i s (change f s) v ∧ Inv i v ∧ Ends R E (answer f s) v) :
    KeepsCall i (syscall l change answer) P R E := by
  intro s hs s' f hrely hsane hcareful
  have hP : P (view i s') := Eq.subst (motive := P) (Eq.symm hrely) hs
  obtain ⟨v, hturns, hinv, hends⟩ := h s' f hP (hsane i) hcareful
  refine ⟨fun j => ?_, fun j hj => hturns.2 j hj, ?_⟩
  · by_cases hj : j = i
    · subst hj
      exact hturns.1 ▸ hinv
    · exact hturns.2 j hj ▸ hsane j
  · show Ends R E (answer f s') (view i (change f s'))
    exact hturns.1 ▸ hends

end

/-! ## System calls -/

omit [DecidableEq ι] in
/-- A number that the kernel hands out is no number of the thread. -/
theorem not_held_of_free {s : World ι} {n : ℕ} (hfree : s.table n = none) (k : ℕ) : ¬(view i s).held n k := by
  intro hheld
  exact absurd (hfree.symm.trans hheld) (by simp)

section
variable {path : Path} {raw : Bytes} {mode n k : ℕ} {old : Node} {T : Node → Prop}

theorem keepsCall_mkstemp : KeepsCall i (mkstemp i) (fun v => Idle i v ∧ v.own.targets path = old)
    (fun made => Filling i made.1 made.2 path old fun node => ∃ c m, node = .file c m)
    fun v => Idle i v ∧ v.own.targets path = old := by
  refine keepsCall_syscall fun s f hs hinv hcareful => ?_
  cases hf : f.failure with
  | some reason =>
    rw [effect_failed hf, answer_failed hf]
    exact ⟨view i s, Turns.refl i s, hinv, hs⟩
  | none =>
    rw [effect_done hf, answer_done hf]
    have hfree : s.table f.number = none := hcareful.1 hf
    refine ⟨_, turns_open hfree _, hinv.open (not_held_of_free hfree) _, ?_⟩
    exact ⟨hs.1.open hinv _ _, held_open _ _ _, ⟨[], 0o600, temps_open _ _ _⟩, hs.2⟩

theorem keepsCall_fchmod : KeepsCall i (fchmod n mode) (Filling i n k path old fun node => ∃ c m, node = .file c m)
    (fun _ => Filling i n k path old fun node => ∃ c, node = .file c mode) (Filling i n k path old fun _ => True) := by
  refine keepsCall_syscall fun s f hs hinv hcareful => ?_
  cases hf : f.failure with
  | some reason =>
    rw [effect_failed hf, answer_failed hf]
    exact ⟨view i s, Turns.refl i s, hinv, hs.apart, hs.held, trivial, hs.target⟩
  | none =>
    rw [effect_done hf, answer_done hf, through_held hs.held, descriptorOf_held hs.held]
    refine ⟨_, turns_setOwn i s _, hinv.setTemp (.inr ⟨n, hs.held⟩), hs.apart.setTemp _, hs.held, ?_, hs.target⟩
    obtain ⟨c, m, hnode⟩ := hs.temp
    have hnode' : (s.own i).temps k = .file c m := hnode
    refine ⟨c, (setTemp_self _ _ _).trans ?_⟩
    rw [hnode', withMode]

theorem keepsCall_write : KeepsCall i (write n raw) (Filling i n k path old fun node => ∃ c, node = .file c mode)
    (fun _ => Filling i n k path old fun node => node = .file raw mode) (Filling i n k path old fun _ => True) := by
  refine keepsCall_syscall fun s f hs hinv hcareful => ?_
  rw [through_held hs.held, descriptorOf_held hs.held]
  refine ⟨_, turns_setOwn i s _, hinv.setTemp (.inr ⟨n, hs.held⟩), ?_⟩
  cases hf : f.failure with
  | some reason =>
    rw [answer_failed hf]
    exact ⟨hs.apart.setTemp _, hs.held, trivial, hs.target⟩
  | none =>
    rw [answer_done hf]
    refine ⟨hs.apart.setTemp _, hs.held, ?_, hs.target⟩
    obtain ⟨c, hnode⟩ := hs.temp
    have hnode' : (s.own i).temps k = .file c mode := hnode
    refine (setTemp_self _ _ _).trans ?_
    rw [hnode', Option.isSome_none, if_neg (by decide), withRaw]

/-- An access that only looks. -/
theorem keepsCall_look {P : View ι → Prop} (answer : Choice → World ι → Except Text α) :
    KeepsCall i (syscall .plain (fun _ s => s) answer) P (fun _ => P) P := by
  refine keepsCall_syscall fun s f hs hinv _ => ⟨view i s, Turns.refl i s, hinv, ?_⟩
  cases answer f s with
  | ok a => exact hs
  | error reason => exact hs

/-- Closing a number of the thread itself. -/
theorem keepsCall_osClose {P Q : View ι → Prop}
    (h : ∀ v, Inv i v → P v → ∃ d, v.held n d ∧ Q (v.close i n d)) :
    KeepsCall i (osClose .plain i n) P (fun _ => Q) Q := by
  refine keepsCall_syscall fun s f hs hinv _ => ?_
  obtain ⟨d, hheld, hq⟩ := h (view i s) hinv hs
  refine ⟨_, turns_close hheld, hinv.close hheld, ?_⟩
  cases f.answer ((descriptorOf s n).map fun _ => ()) with
  | ok a => exact hq
  | error reason => exact hq

/-- Whatever the body ends in, its descriptor is closed. -/
theorem keepsCall_closing {body : Syscall ι α} {P Q R E E' : View ι → Prop} (hbody : KeepsCall i body P (fun _ => R) E)
    (hr : ∀ v, Inv i v → R v → ∃ d, v.held n d ∧ Q (v.close i n d))
    (he : ∀ v, Inv i v → E v → ∃ d, v.held n d ∧ E' (v.close i n d)) (hq : ∀ v, Q v → E' v) :
    KeepsCall i (closing i n body) P (fun _ => Q) E' := by
  refine keepsCall_bind (keepsCall_attempt hbody) fun r => ?_
  cases r with
  | ok a =>
    have hclose : KeepsCall i (osClose .plain i n) R (fun _ => Q) E' :=
      (keepsCall_osClose hr).mono (fun _ hv => hv) (fun _ _ hv => hv) hq
    exact keepsCall_bind hclose fun _ => keepsCall_pure fun _ hv => hv
  | error reason =>
    have hclose : KeepsCall i (osClose .plain i n) E (fun _ => E') E' := keepsCall_osClose he
    exact keepsCall_bind hclose fun _ => keepsCall_throw fun _ hv => hv

/-- The temporary file is written and synced, and its descriptor is closed in any case. -/
theorem keepsCall_writing : KeepsCall i (closing i n (do
      write n raw
      fsync n)) (Filling i n k path old fun node => ∃ c, node = .file c mode)
    (fun _ => Filled i k path old fun node => node = .file raw mode) (Filled i k path old fun _ => True) := by
  have hsync : KeepsCall i (fsync n) (Filling i n k path old fun node => node = .file raw mode)
      (fun _ => Filling i n k path old fun node => node = .file raw mode) (Filling i n k path old fun _ => True) :=
    (keepsCall_look _).mono (fun _ hv => hv) (fun _ _ hv => hv) fun _ hv => ⟨hv.apart, hv.held, trivial, hv.target⟩
  refine keepsCall_closing (keepsCall_bind keepsCall_write fun _ => hsync) ?_ ?_ ?_
  · intro v hinv hv
    exact ⟨k, hv.held, hv.apart.close hinv hv.held, closers_close hinv hv.held, hv.temp, hv.target⟩
  · intro v hinv hv
    exact ⟨k, hv.held, hv.apart.close hinv hv.held, closers_close hinv hv.held, trivial, hv.target⟩
  · exact fun v hv => ⟨hv.apart, hv.closed, trivial, hv.target⟩

theorem keepsCall_replace : KeepsCall i (replace i k path) (Filled i k path old fun node => node = .file raw mode)
    (fun _ => Renamed i k path raw mode old) (Filled i k path old fun _ => True) := by
  refine keepsCall_syscall fun s f hs hinv _ => ?_
  have hsame : Filled i k path old (fun _ => True) (view i s) := ⟨hs.apart, hs.closed, trivial, hs.target⟩
  have htemp : (s.own i).temps k = .file raw mode := hs.temp
  have htarget : (s.own i).targets path = old := hs.target
  cases hf : f.failure with
  | some reason =>
    rw [effect_failed hf, answer_failed hf]
    exact ⟨view i s, Turns.refl i s, hinv, hsame⟩
  | none =>
    rw [answer_done hf]
    by_cases hother : old = .other
    · rw [rename_other (htarget.trans hother)]
      simp only [Except.map, effect_refused]
      exact ⟨view i s, Turns.refl i s, hinv, hsame⟩
    · rw [rename_file (fun heq => hother (htarget.symm.trans heq)) htemp]
      simp only [Except.map, effect_done hf]
      refine ⟨_, turns_setOwn i s _, (hinv.setTemp (.inl rfl)).setOwn rfl rfl fun _ hj _ => hj, ?_, hs.apart.born, hother, ?_⟩
      · exact (hs.apart.setTemp .missing).idle ⟨hs.closed, setTemp_self _ _ _⟩
      · exact Function.update_self _ _ _

/-- Opening a path, which has no temporary file. -/
theorem keepsCall_opens {refused : Own → Except Text Unit} {P : View ι → Prop} {R : ℕ → View ι → Prop}
    (h : ∀ v n, Inv i v → P v → R n (v.open n .missing)) : KeepsCall i (opens i refused) P R P := by
  refine keepsCall_syscall fun s f hs hinv hcareful => ?_
  cases hf : f.failure with
  | some reason =>
    rw [effect_failed hf, answer_failed hf]
    exact ⟨view i s, Turns.refl i s, hinv, hs⟩
  | none =>
    rw [answer_done hf]
    cases refused (s.own i) with
    | error reason =>
      simp only [Except.map, effect_refused]
      exact ⟨view i s, Turns.refl i s, hinv, hs⟩
    | ok _ =>
      simp only [Except.map, effect_done hf]
      have hfree : s.table f.number = none := hcareful.1 hf
      exact ⟨_, turns_open hfree _, hinv.open (not_held_of_free hfree) _, h _ _ hinv hs⟩

/-- A path is opened, looked at and closed; `F` is what this leaves alone. -/
theorem keepsCall_using (refused : Own → Except Text Unit) (body : ℕ → Syscall ι α) (F : View ι → Prop)
    (hopen : ∀ v n, F v → F (v.open n .missing)) (hclose : ∀ v n d, F v → F (v.close i n d))
    (hbody : ∀ n, KeepsCall i (body n) (fun v => Reading i n v ∧ F v) (fun _ v => Reading i n v ∧ F v)
      fun v => Reading i n v ∧ F v) :
    KeepsCall i (opens i refused >>= fun n => closing i n (body n)) (fun v => Idle i v ∧ F v)
      (fun _ v => Idle i v ∧ F v) fun v => Idle i v ∧ F v := by
  have hopens : KeepsCall i (opens i refused) (fun v => Idle i v ∧ F v) (fun n v => Reading i n v ∧ F v)
      fun v => Idle i v ∧ F v :=
    keepsCall_opens fun v n hinv hv =>
      ⟨⟨_, hv.1.open hinv n .missing, held_open v n .missing, temps_open v n .missing⟩, hopen v n hv.2⟩
  have hshut : ∀ n v, Inv i v → Reading i n v ∧ F v → ∃ d, v.held n d ∧ Idle i (v.close i n d) ∧ F (v.close i n d) := by
    intro n v hinv hv
    obtain ⟨d, hapart, hheld, htemp⟩ := hv.1
    exact ⟨d, hheld, (hapart.close hinv hheld).idle ⟨closers_close hinv hheld, htemp⟩, hclose v n d hv.2⟩
  exact keepsCall_bind hopens fun n => keepsCall_closing (hbody n) (hshut n) (hshut n) fun _ hv => hv

theorem keepsCall_readBytes : KeepsCall i (readBytes i path) (Idle i) (fun _ => Idle i) (Idle i) := by
  have h := keepsCall_using (i := i) (fun o => (contents (o.targets path)).map fun _ => ())
    (fun _ => readFile i path) (fun _ => True) (fun _ _ _ => trivial) (fun _ _ _ _ => trivial) fun _ => keepsCall_look _
  exact h.mono (fun _ hv => ⟨hv, trivial⟩) (fun _ _ hv => hv.1) fun _ hv => hv.1

theorem keepsCall_syncDirectory : KeepsCall i (opens i (fun _ => .ok ()) >>= fun directory => closing i directory (fsync directory))
    (Renamed i k path raw mode old) (fun _ => Renamed i k path raw mode old) (Renamed i k path raw mode old) := by
  have h := keepsCall_using (i := i) (fun _ => .ok ()) fsync
    (fun v => k < v.own.opened ∧ old ≠ .other ∧ v.own.targets path = .file raw mode)
    (fun _ _ hv => ⟨hv.1.trans (Nat.lt_succ_self _), hv.2⟩) (fun _ _ _ hv => hv) fun _ => keepsCall_look _
  exact h.mono (fun _ hv => ⟨hv.idle, hv.born, hv.replaceable, hv.target⟩)
    (fun _ _ hv => ⟨hv.1, hv.2.1, hv.2.2.1, hv.2.2.2⟩) fun _ hv => ⟨hv.1, hv.2.1, hv.2.2.1, hv.2.2.2⟩

/-! ## `_atomic_write` -/

theorem keepsCall_fill : KeepsCall i (fill i n k path raw mode) (Filling i n k path old fun node => ∃ c m, node = .file c m)
    (fun _ => Renamed i k path raw mode old) (Broken i n k path raw mode old) := by
  have hfilling : ∀ v, Filling i n k path old (fun _ => True) v → Broken i n k path raw mode old v :=
    fun _ hv => ⟨hv.apart, .inl hv.held, .inl hv.target⟩
  have hfilled : ∀ v, Filled i k path old (fun _ => True) v → Broken i n k path raw mode old v :=
    fun _ hv => ⟨hv.apart, .inr hv.closed, .inl hv.target⟩
  have hrenamed : ∀ v, Renamed i k path raw mode old v → Broken i n k path raw mode old v :=
    fun _ hv => ⟨hv.idle.apart hv.born, .inr (hv.idle k hv.born).1, .inr ⟨hv.replaceable, hv.target⟩⟩
  refine keepsCall_bind (keepsCall_fchmod.mono (fun _ hv => hv) (fun _ _ hv => hv) hfilling) fun _ => ?_
  refine keepsCall_bind (keepsCall_writing.mono (fun _ hv => hv) (fun _ _ hv => hv) hfilled) fun _ => ?_
  refine keepsCall_bind (keepsCall_replace.mono (fun _ hv => hv) (fun _ _ hv => hv) hfilled) fun _ => ?_
  exact keepsCall_syncDirectory.mono (fun _ hv => hv) (fun _ _ hv => hv) hrenamed

/-- The error path closes what it has not closed before. If the number stands for nothing any more, or
again for a descriptor of the thread, there is no third case. -/
theorem keepsCall_errorClose : KeepsCall i (osClose (.errorClose i n) i n) (Broken i n k path raw mode old)
    (fun _ v => Apart i v k ∧ v.closers k = [i] ∧ OldOrNew path raw mode old v)
    fun v => Apart i v k ∧ v.closers k = [i] ∧ OldOrNew path raw mode old v := by
  refine keepsCall_syscall fun s f hs hinv hcareful => ?_
  have hends : ∀ {v : View ι} (r : Except Text Unit), Apart i v k ∧ v.closers k = [i] ∧ OldOrNew path raw mode old v →
      Ends (fun _ v => Apart i v k ∧ v.closers k = [i] ∧ OldOrNew path raw mode old v)
        (fun v => Apart i v k ∧ v.closers k = [i] ∧ OldOrNew path raw mode old v) r v := fun r hv => by cases r <;> exact hv
  cases hs.own with
  | inl hheld =>
    exact ⟨_, turns_close hheld, hinv.close hheld, hends _ ⟨hs.apart.close hinv hheld, closers_close hinv hheld, hs.target⟩⟩
  | inr hclosed =>
    have hfree : s.table n = none := by
      cases htable : s.table n with
      | none => rfl
      | some d =>
        have hspared : (s.table n).all (fun d => decide (d.1 = i)) = true := hcareful.2
        rw [htable, Option.all_some, decide_eq_true_iff] at hspared
        have hheld : (view i s).held n d.2 := htable.trans (by rw [← hspared])
        by_cases hd : d.2 = k
        · have hopen := hinv.unclosed n d.2 hheld
          rw [hd, hclosed] at hopen
          exact absurd hopen (by simp)
        · exact absurd hheld ((hs.apart.others d.2 (hinv.bound n d.2 hheld) hd).not_held hinv)
    rw [close_free hfree]
    exact ⟨view i s, Turns.refl i s, hinv, hends _ ⟨hs.apart, hclosed, hs.target⟩⟩

theorem keepsCall_unlink {F : View ι → Prop} (hf : ∀ v, F v → F (v.setOwn (v.own.setTemp k .missing))) :
    KeepsCall i (unlink i k) (fun v => Apart i v k ∧ v.closers k = [i] ∧ F v) (fun _ v => Idle i v ∧ F v)
      fun v => Idle i v ∧ F v := by
  refine keepsCall_syscall fun s f hs hinv _ => ?_
  refine ⟨_, turns_setOwn i s _, hinv.setTemp (.inl rfl), ?_, hf _ hs.2.2⟩
  exact (hs.1.setTemp .missing).idle ⟨hs.2.1, setTemp_self _ _ _⟩

theorem keepsCall_giveUp : KeepsCall i (giveUp i n k) (Broken i n k path raw mode old)
    (fun _ v => Idle i v ∧ OldOrNew path raw mode old v) fun v => Idle i v ∧ OldOrNew path raw mode old v := by
  refine keepsCall_bind (keepsCall_attempt keepsCall_errorClose) fun r => ?_
  refine (keepsCall_unlink fun _ hv => hv).mono (fun v hv => ?_) (fun _ _ hv => hv) fun _ hv => hv
  cases r <;> exact hv

/-- A call that returns has put the new bytes in place; one that raises has left the old or the new ones. -/
theorem keepsCall_writeTemp : KeepsCall i (writeTemp i path raw mode) (fun v => Idle i v ∧ v.own.targets path = old)
    (fun _ v => Idle i v ∧ old ≠ .other ∧ v.own.targets path = .file raw mode)
    fun v => Idle i v ∧ OldOrNew path raw mode old v := by
  refine keepsCall_bind (keepsCall_mkstemp.mono (fun _ hv => hv) (fun _ _ hv => hv) fun _ hv => ⟨hv.1, .inl hv.2⟩) fun made => ?_
  refine keepsCall_bind (keepsCall_attempt keepsCall_fill) fun r => ?_
  cases r with
  | ok _ => exact keepsCall_pure fun _ hv => ⟨hv.idle, hv.replaceable, hv.target⟩
  | error reason => exact keepsCall_bind keepsCall_giveUp fun _ => keepsCall_throw fun _ hv => hv

theorem keepsCall_atomicWrite : KeepsCall i (atomicWrite i path raw mode) (Idle i) (fun _ => Idle i) (Idle i) := by
  have henter : KeepsCall i (enter i path raw mode) (Idle i)
      (fun e v => (Idle i v ∧ v.own.targets path = e.old) ∧ e.path = path ∧ e.raw = raw ∧ e.mode = mode) (Idle i) :=
    keepsCall_syscall fun s f hs hinv _ => ⟨view i s, Turns.refl i s, hinv, ⟨hs, rfl⟩, rfl, rfl, rfl⟩
  refine keepsCall_bind henter fun e => keepsCall_given fun hentry => ?_
  obtain ⟨hpath, hraw, hmode⟩ := hentry
  subst hpath hraw hmode
  refine keepsCall_bind (keepsCall_attempt keepsCall_writeTemp) fun r => ?_
  have hleave : KeepsCall i (leave i e r) (Ends
        (fun _ v => Idle i v ∧ e.old ≠ .other ∧ v.own.targets e.path = .file e.raw e.mode)
        (fun v => Idle i v ∧ OldOrNew e.path e.raw e.mode e.old v) r) (fun _ => Idle i) (Idle i) := by
    refine keepsCall_syscall fun s f hs hinv _ => ?_
    cases r with
    | ok _ => exact ⟨_, turns_setOwn i s _, hinv.leave hs.1 (answered_ok hs.2), hs.1⟩
    | error reason => exact ⟨_, turns_setOwn i s _, hinv.leave hs.1 (answered_error reason hs.2), hs.1⟩
  refine keepsCall_bind hleave fun _ => (keepsCall_fromExcept r).mono (fun v hv => ?_) (fun _ _ hv => hv) fun _ hv => hv
  cases r <;> exact hv

/-! ## Its use, and the other tools -/

variable {revision : Bytes → Text}

theorem keepsCall_writeVerified (expected message : Text) :
    KeepsCall i (writeVerified i revision path raw mode expected message) (Idle i) (fun _ => Idle i) (Idle i) := by
  refine keepsCall_bind keepsCall_atomicWrite fun _ => keepsCall_bind keepsCall_readBytes fun back => ?_
  rw [verify]
  split
  · exact keepsCall_pure fun _ hv => hv
  · exact keepsCall_throw fun _ hv => hv

end

/-- A call that leaves the thread idle in any case. -/
theorem keeps_run {x : Syscall ι α} (h : KeepsCall i x (Idle i) (fun _ => Idle i) (Idle i)) :
    Keeps i x.run (Idle i) fun _ => Idle i := by
  refine Keeps.mono h (fun _ hv => hv) fun r v hv => ?_
  cases r <;> exact hv

theorem keeps_commitPlans (revision : Bytes → Text) (plans attempted : List Plan) :
    Keeps i (commitPlans i revision plans attempted) (Idle i) fun _ => Idle i := by
  induction plans generalizing attempted with
  | nil => exact keeps_pure fun _ hv => hv
  | cons plan plans ih =>
    rw [commitPlans]
    split
    · refine keeps_bind (keeps_run (keepsCall_writeVerified _ _)) fun r => ?_
      cases r with
      | ok _ => exact ih _
      | error reason => exact keeps_pure fun _ hv => hv
    · exact ih _

theorem keeps_rollBack (revision : Bytes → Text) (plans : List Plan) :
    Keeps i (rollBack i revision plans) (Idle i) fun _ => Idle i := by
  induction plans with
  | nil => exact keeps_pure fun _ hv => hv
  | cons plan plans ih =>
    refine keeps_bind (keeps_run (keepsCall_writeVerified _ _)) fun r => ?_
    exact keeps_bind ih fun errors => keeps_pure fun _ hv => hv

theorem keeps_writePlans (revision : Bytes → Text) (plans : List Plan) (report : Report) :
    Keeps i (writePlans i revision plans report) (Idle i) fun _ => Idle i := by
  refine keeps_bind (keeps_commitPlans revision plans []) fun commit => ?_
  cases commit with
  | mk attempted failure =>
    cases failure with
    | none => exact keeps_pure fun _ hv => hv
    | some reason => exact keeps_bind (keeps_rollBack revision _) fun errors => keeps_pure fun _ hv => hv

theorem keepsCall_closeOwn (n : ℕ) : KeepsCall i (closeOwn i n) (fun _ => True) (fun _ _ => True) fun _ => True := by
  refine keepsCall_syscall fun s f _ hinv _ => ?_
  split
  · next hown =>
    cases htable : s.table n with
    | none =>
      rw [htable] at hown
      exact absurd hown (by simp)
    | some d =>
      rw [htable, Option.any_some, decide_eq_true_iff] at hown
      have hheld : (view i s).held n d.2 := htable.trans (by rw [← hown])
      exact ⟨_, turns_close hheld, hinv.close hheld, trivial⟩
  · exact ⟨view i s, Turns.refl i s, hinv, trivial⟩

theorem keeps_tool (t : Tool) : Keeps i (t.program i) (fun _ => True) fun _ _ => True := by
  have hany : ∀ {γ : Type} {x : Syscall ι γ}, KeepsCall i x (fun _ => True) (fun _ _ => True) (fun _ => True) →
      Keeps i x.run (fun _ => True) fun _ _ => True := fun h => Keeps.mono h (fun _ hv => hv) fun _ _ _ => trivial
  induction t with
  | finished => exact keeps_pure fun _ hv => hv
  | opens next ih => exact keeps_bind (hany (keepsCall_opens fun _ _ _ _ => trivial)) fun r => ih r
  | closes n next ih => exact keeps_bind (hany (keepsCall_closeOwn n)) fun _ => ih

/-- What a job leaves behind. -/
def Left (i : ι) : Job → View ι → Prop
  | .replace _ _ _, v => Idle i v
  | .tool _, _ => True

theorem keeps_job (job : Job) : Keeps i (job.program i) (Idle i) fun _ => Left i job := by
  cases job with
  | replace revision plans report => exact keeps_bind (keeps_writePlans revision plans report) fun r => keeps_pure fun _ hv => hv
  | tool t =>
    have htool : Keeps i (t.program i) (Idle i) fun _ _ => True :=
      (keeps_tool t).mono (fun _ _ => trivial) fun _ _ hv => hv
    exact keeps_bind htool fun _ => keeps_pure fun _ hv => hv

end

/-! ## Runs -/

theorem Inv.once {i : ι} {v : View ι} (h : Inv i v) (k : ℕ) : v.closers k = [] ∨ v.closers k = [i] := by
  by_cases hk : k < v.own.opened
  · exact (h.closed k hk).imp_left fun hopen => h.unclosed hopen.choose k hopen.choose_spec
  · exact .inl (h.unborn k (Nat.le_of_not_lt hk)).1

theorem Sound.clean {i : ι} {s : World ι} {c : Call} (h : Sound i (view i s) c) : c.Clean i s where
  closed k hfirst hlast := (h.settled k hfirst hlast).1
  removed k hfirst hlast := (h.settled k hfirst hlast).2
  kept := by
    obtain ⟨fault, hleft, -⟩ := h.answered
    rw [hleft]
    cases fault with
    | before reason => exact .inl rfl
    | none => cases c.old <;> simp [written]
    | after reason => cases c.old <;> simp [written]
  landed hok := by
    obtain ⟨fault, hleft, hresult⟩ := h.answered
    rw [hok] at hresult
    rw [hleft]
    cases fault with
    | before reason => exact absurd hresult.symm error_ne_ok
    | after reason => exact absurd hresult.symm error_ne_ok
    | none =>
      refine written_replaceable (fun hother => ?_) fun _ => by simp
      rw [hother] at hresult
      exact absurd hresult.symm error_ne_ok

theorem sane_start [DecidableEq ι] (jobs : ι → Job) (targets : ι → Path → Node) : Sane (start jobs targets).state :=
  fun _ => {
    bound := fun _ _ hheld => absurd hheld (by simp [view, start])
    unclosed := fun _ _ _ => rfl
    single := fun _ _ _ hheld => absurd hheld (by simp [view, start])
    functional := fun _ _ _ hheld => absurd hheld (by simp [view, start])
    closed := fun _ hk => absurd hk (Nat.not_lt_zero _)
    unborn := fun _ _ => ⟨rfl, rfl⟩
    calls := fun _ hc => absurd hc List.not_mem_nil }

/-- As long as the error path spares the descriptors of other threads, every descriptor is closed once and by
its owner, no temporary file is left, and every target holds the old bytes or the new ones. -/
theorem descriptors_stay_clean [DecidableEq ι] (jobs : ι → Job) (targets : ι → Path → Node)
    {q : System ι (Label ι) (World ι) Choice Reply} (hrun : Runs Careful (start jobs targets) q) : Hygienic jobs q := by
  have hstart : ∀ i, Idle i (view i (start jobs targets).state) := fun i k hk => absurd hk (Nat.not_lt_zero _)
  obtain ⟨hsane, hleft⟩ := runs_results relied_relies (Q := fun i _ s => Left i (jobs i) (view i s))
    (fun i _ s t hst hs => Eq.subst (motive := Left i (jobs i)) (Eq.symm hst) hs) hrun (sane_start jobs targets)
    fun i => keeps_job (jobs i) _ (hstart i)
  refine ⟨fun i k => (hsane i).once k, fun i c hc => ((hsane i).calls c hc).clean, ?_⟩
  intro i revision plans report r hjob hresult
  have hi := hleft i
  rw [System.result] at hresult
  cases hrest : q.rest i with
  | access l change next =>
    rw [hrest] at hresult
    exact absurd hresult (by simp)
  | done a =>
    rw [hrest, hjob] at hi
    exact hi

/-- A close of another thread's descriptor cannot be made good. -/
theorem not_hygienic_of_close [DecidableEq ι] {s : World ι} {i : ι} {n : ℕ} {d : Descriptor ι} (htable : s.table n = some d)
    (hother : d.1 ≠ i) (jobs : ι → Job) (rest : ι → Program ι Reply) : ¬Hygienic jobs ⟨s.close i n, rest⟩ := by
  intro h
  have hclosers : (s.close i n).closers d = s.closers d ++ [i] := by
    simp only [World.close, htable, Function.update_self]
  have hmem : i ∈ (s.close i n).closers d := by
    rw [hclosers]
    exact List.mem_append_right _ (List.mem_singleton.mpr rfl)
  cases h.once d.1 d.2 with
  | inl hnone => exact List.not_mem_nil (hnone ▸ hmem)
  | inr hself => exact hother (List.mem_singleton.mp (hself ▸ hmem)).symm

/-- A write whose file cannot be synced is rolled back, while another tool works. -/
def samplePlan : Plan where
  path := txt "a.txt"
  beforeRaw := []
  beforeRevision := []
  afterRevision := txt "1"
  mode := 0o644
  file := ⟨[1], 1, [1], txt "utf-8", none, .none⟩

def sampleRevision (raw : Bytes) : Text := raw.flatMap fun _ => txt "1"

def sampleJobs : Bool → Job
  | false => .replace sampleRevision [samplePlan] (reportOf [samplePlan] false 1)
  | true => .tool (.opens fun _ => .finished)

def sampleStart : System Bool (Label Bool) (World Bool) Choice Reply := start sampleJobs fun _ _ => .file [] 0o644

def succeed (number : ℕ) : Choice := ⟨none, number, []⟩

def outOfSpace : Choice := ⟨some (txt "No space left on device"), 0, []⟩

/-- The write up to the close of the file that was not synced. -/
def unsynced : List (Bool × Choice) := List.replicate 4 (false, succeed 0) ++ [(false, outOfSpace), (false, succeed 0)]

/-- The tool opens its descriptor before the error path or after it. -/
def spared : List (Bool × Choice) := unsynced ++ (true, succeed 1) :: List.replicate 20 (false, succeed 0)

theorem rolled_back_cleanly : Hygienic sampleJobs (sampleStart.acts spared) :=
  descriptors_stay_clean sampleJobs (fun _ _ => .file [] 0o644) (runs_acts_of_allMeet (by decide +kernel) (Runs.refl _))

/-- The number that the file object has freed goes to the tool, and the error path closes it. -/
def handedOut : List (Bool × Choice) := unsynced ++ [(true, succeed 0), (false, succeed 0)]

theorem error_path_closes_other : ¬∀ q, Runs Kernel sampleStart q → Hygienic sampleJobs q := by
  intro h
  have hrun : Runs Kernel sampleStart (sampleStart.acts handedOut) := runs_acts_of_allMeet (by decide +kernel) (Runs.refl _)
  have hclosers : (sampleStart.acts handedOut).state.closers (true, 0) = [false] := by decide +kernel
  have honce := (h _ hrun).once true 0
  rw [hclosers] at honce
  exact absurd honce (by decide)

end WebOauthMcp.DescriptorHygiene
