import WebOauthMcp.BindingStore

/-!
# Bindings over a run of the manager

A run is described by the maps that the manager has held. Every assignment to the map of
bindings is one step: most are made after a save that succeeded, a touch also after one whose
disk failed, and a runtime is detached without a save.
-/

namespace WebOauthMcp.BindingRuns
open CodePoints Words JsonText JsonDecoding BytePages ExceptSteps CodexRuntimes HttpGate BindingStore

variable {F : Type}

/-! ## Steps -/

def maxRuntimeNameLength : ℕ := 128

/-- `_normalize_name`, unless it raises. -/
def normalizeName : Option Text → Option (Option Text)
  | none => some none
  | some name =>
    if strip name = [] then some none
    else if maxRuntimeNameLength < (strip name).length then none
    else some (some (strip name))

/-- `rt_` with thirty-two hexadecimal digits. -/
def IsRuntimeId (t : Text) : Prop := ∃ hex, t = txt "rt_" ++ hex ∧ hex.length = 32 ∧ ∀ c ∈ hex, (hexValue c).isSome = true

/-- The text of a resolved path. -/
def IsResolved (t : Text) : Prop := ∃ path, t = txt "/" ++ path

/-- The save returns, or raises the error that a touch tolerates. -/
def Tolerated (I : Interpreter F) (bs : Bindings F) : Prop :=
  ∃ disk, (∃ content, save I disk bs = .ok content) ∨ save I disk bs = .error .bindingStore

/-- The assignments to `self._bindings`, with the maps held before, the last one first. -/
inductive BindingStep (I : Interpreter F) : List (Bindings F) → Bindings F → Prop
  /-- A runtime is opened, or an unbound thread is resumed. -/
  | opened {bs past runtimeId threadId cwd sandbox name normalized now content}
    (hid : IsRuntimeId runtimeId) (hthread : strip threadId ≠ []) (hcwd : IsResolved cwd) (hname : normalizeName name = some normalized)
    (hsave : save I true (setField bs (runtimeId, ⟨runtimeId, strip threadId, cwd, sandbox, normalized, .finite now, .finite now, .ready, none⟩)) =
      .ok content) :
    BindingStep I (bs :: past) (setField bs (runtimeId, ⟨runtimeId, strip threadId, cwd, sandbox, normalized, .finite now, .finite now, .ready, none⟩))
  /-- The binding is the one that was held when the call began. -/
  | resumed {bs past held key b threadId cwd now content} (hheld : held ∈ bs :: past) (hb : (key, b) ∈ held)
    (hthread : threadId = b.threadId ∨ ∃ t, strip t ≠ [] ∧ threadId = strip t) (hcwd : IsResolved cwd)
    (hsave : save I true (setField bs (b.runtimeId, { b with threadId, cwd, lastUsedAt := .finite now, status := .ready })) = .ok content) :
    BindingStep I (bs :: past) (setField bs (b.runtimeId, { b with threadId, cwd, lastUsedAt := .finite now, status := .ready }))
  | closed {bs past key b now content} (hb : getField key bs = some b)
    (hsave : save I true (setField bs (key, { b with status := .detached, lastUsedAt := .finite now })) = .ok content) :
    BindingStep I (bs :: past) (setField bs (key, { b with status := .detached, lastUsedAt := .finite now }))
  /-- The number of servers is the length of a list. -/
  | touched {bs past key b now} {count : Option ℕ} (hb : getField key bs = some b) (hcount : ∀ n, count = some n → n < 2 ^ 63)
    (hsave : Tolerated I (setField bs (key, { b with
      lastUsedAt := .finite now, status := .ready, mcpServerCount := count.map .number <|> b.mcpServerCount }))) :
    BindingStep I (bs :: past) (setField bs (key, { b with
      lastUsedAt := .finite now, status := .ready, mcpServerCount := count.map .number <|> b.mcpServerCount }))
  /-- Runtimes whose process is gone, or whose thread is released. -/
  | detached {bs past} (gone : Text × Binding F → Bool) :
    BindingStep I (bs :: past) (bs.map fun e => if gone e then (e.1, e.2.detached) else e)
  /-- Runtimes that expired or were evicted. -/
  | dropped {bs past content} (keep : Text × Binding F → Bool) (hsave : save I true (bs.filter keep) = .ok content) :
    BindingStep I (bs :: past) (bs.filter keep)

/-- The maps of a manager that was started on a file, the last one first. Where the file was not
accepted, every operation is refused. -/
inductive Holds (I : Interpreter F) (content : Option Bytes) : List (Bindings F) → Prop
  | loaded {bs} (h : load I content = .ok bs) : Holds I content [bs]
  | unavailable (h : load I content = .error .bindingStore) : Holds I content [[]]
  | step {past bs} (havailable : load I content ≠ .error .bindingStore) (h : Holds I content past) (hstep : BindingStep I past bs) :
    Holds I content (bs :: past)

/-! ## What is held is kept -/

theorem strip_ne_nil {c : CodePoint} (hc : isSpace c = false) (t : Text) : strip (c :: t) ≠ [] := by
  intro h
  have hall := List.dropWhile_eq_nil_iff.mp (List.reverse_eq_nil_iff.mp h)
  rw [List.dropWhile_cons_of_neg (Bool.eq_false_iff.mp hc)] at hall
  exact Bool.eq_false_iff.mp hc (hall c (by simp))

theorem IsRuntimeId.strip_ne {t : Text} (h : IsRuntimeId t) : strip t ≠ [] := by
  obtain ⟨hex, rfl, -⟩ := h
  exact strip_ne_nil (by decide) _

theorem IsResolved.strip_ne {t : Text} (h : IsResolved t) : strip t ≠ [] := by
  obtain ⟨path, rfl⟩ := h
  exact strip_ne_nil (by decide) _

theorem normalizeName_strip {name : Option Text} {n : Text} (h : normalizeName name = some (some n)) : strip n = n ∧ n ≠ [] := by
  cases name with
  | none => cases h
  | some t =>
    rw [normalizeName] at h
    split at h
    · cases h
    · next hne =>
      split at h
      · cases h
      · cases h
        exact ⟨strip_strip t, hne⟩

theorem strip_strip_ne {t : Text} (h : strip t ≠ []) : strip (strip t) ≠ [] := by rwa [strip_strip]

theorem isPrintable_number {n : ℕ} (h : n < 2 ^ 63) : (ServerCount.number n).isPrintable = true := by
  have hshort := length_decimal_le (by decide) (h.trans (by decide : 2 ^ 63 < 10 ^ 19))
  exact decide_eq_true (hshort.trans (by decide))

theorem kept_put {bs : Bindings F} (h : Kept bs) {key : Text} {b : Binding F} (hkey : key = b.runtimeId) (hb : b.WellFormed) :
    Kept (setField bs (key, b)) := by
  refine ⟨nodup_setField h.distinct _, fun e he => ?_, fun e he => ?_⟩
  · cases mem_setField he with
    | inl heq => exact heq ▸ hkey
    | inr hmem => exact h.keyed e hmem
  · cases mem_setField he with
    | inl heq => exact heq ▸ hb
    | inr hmem => exact h.wellFormed e hmem

theorem kept_get {bs : Bindings F} (h : Kept bs) {key : Text} {b : Binding F} (hb : getField key bs = some b) :
    key = b.runtimeId ∧ b.WellFormed := ⟨h.keyed _ (mem_of_getField hb), h.wellFormed _ (mem_of_getField hb)⟩

/-- What one step makes of maps that are kept. -/
theorem step_kept {I : Interpreter F} {past : List (Bindings F)} {bs : Bindings F} (hstep : BindingStep I past bs)
    (h : ∀ held ∈ past, Kept held) : Kept bs := by
  cases hstep with
  | opened hid hthread hcwd hname hsave =>
    refine kept_put (h _ List.mem_cons_self) rfl ⟨hid.strip_ne, strip_strip_ne hthread, hcwd.strip_ne, fun n hn => ?_, rfl⟩
    exact normalizeName_strip (hname.trans (congrArg some hn))
  | resumed hheld hb hthread hcwd hsave =>
    have hold := (h _ hheld).wellFormed _ hb
    refine kept_put (h _ List.mem_cons_self) rfl ⟨hold.runtimeId, ?_, hcwd.strip_ne, hold.name, hold.mcpServerCount⟩
    obtain rfl | ⟨t, ht, rfl⟩ := hthread
    · exact hold.threadId
    · exact strip_strip_ne ht
  | closed hb hsave =>
    obtain ⟨hkey, hold⟩ := kept_get (h _ List.mem_cons_self) hb
    exact kept_put (h _ List.mem_cons_self) hkey ⟨hold.runtimeId, hold.threadId, hold.cwd, hold.name, hold.mcpServerCount⟩
  | @touched _ _ _ _ _ count hb hcount hsave =>
    obtain ⟨hkey, hold⟩ := kept_get (h _ List.mem_cons_self) hb
    refine kept_put (h _ List.mem_cons_self) hkey ⟨hold.runtimeId, hold.threadId, hold.cwd, hold.name, ?_⟩
    cases count with
    | none => exact hold.mcpServerCount
    | some n => exact isPrintable_number (hcount n rfl)
  | detached gone =>
    have hkept := h _ List.mem_cons_self
    have hkeys : ∀ e : Text × Binding F, (if gone e then (e.1, e.2.detached) else e).1 = e.1 := fun e => by split <;> rfl
    refine ⟨?_, List.forall_mem_map.mpr fun e he => ?_, List.forall_mem_map.mpr fun e he => ?_⟩
    · rw [List.map_map, Function.comp_def]
      simp only [hkeys]
      exact hkept.distinct
    · split
      · exact hkept.keyed e he
      · exact hkept.keyed e he
    · obtain ⟨hruntime, hthread, hcwd, hname, hcount⟩ := hkept.wellFormed e he
      split
      · exact ⟨hruntime, hthread, hcwd, hname, hcount⟩
      · exact hkept.wellFormed e he
  | dropped keep hsave =>
    have hkept := h _ List.mem_cons_self
    refine ⟨hkept.distinct.sublist (List.filter_sublist.map _), fun e he => ?_, fun e he => ?_⟩
    · exact hkept.keyed e (List.mem_filter.mp he).1
    · exact hkept.wellFormed e (List.mem_filter.mp he).1

theorem holds_kept {I : Interpreter F} {content : Option Bytes} {past : List (Bindings F)} (h : Holds I content past) :
    ∀ bs ∈ past, Kept bs := by
  induction h with
  | loaded hload => exact List.forall_mem_singleton.mpr (load_kept hload)
  | unavailable _ => exact List.forall_mem_singleton.mpr ⟨List.nodup_nil, List.forall_mem_nil _, List.forall_mem_nil _⟩
  | step _ _ hstep ih => exact List.forall_mem_cons.mpr ⟨step_kept hstep ih, ih⟩

/-! ## What is held can be encoded -/

theorem encodable_put {bs : Bindings F} (h : Encodable bs) {key : Text} {b : Binding F} (hb : ∀ t ∈ b.texts, isEncodable t = true) :
    Encodable (setField bs (key, b)) := fun e he => by
  cases mem_setField he with
  | inl heq => exact heq ▸ hb
  | inr hmem => exact h e hmem

/-- A step that saves brings no text that cannot be encoded, and the others bring no text. -/
theorem step_encodable {I : Interpreter F} {past : List (Bindings F)} {bs : Bindings F} (hstep : BindingStep I past bs)
    (hkept : Kept bs) (h : ∀ held ∈ past, Encodable held) : Encodable bs := by
  cases hstep with
  | opened _ _ _ _ hsave => exact ((save_eq_ok I hkept).mp hsave).1
  | resumed _ _ _ _ hsave => exact ((save_eq_ok I hkept).mp hsave).1
  | closed _ hsave => exact ((save_eq_ok I hkept).mp hsave).1
  | touched hb _ _ => exact encodable_put (h _ List.mem_cons_self) (h _ List.mem_cons_self _ (mem_of_getField hb))
  | detached gone =>
    refine List.forall_mem_map.mpr fun e he => ?_
    split
    · exact h _ List.mem_cons_self e he
    · exact h _ List.mem_cons_self e he
  | dropped keep _ => exact fun e he => h _ List.mem_cons_self e (List.mem_filter.mp he).1

theorem holds_encodable {I : Interpreter F} {content : Option Bytes} (hstart : ∀ bs, load I content = .ok bs → Encodable bs)
    {past : List (Bindings F)} (h : Holds I content past) : ∀ bs ∈ past, Encodable bs := by
  induction h with
  | loaded hload => exact List.forall_mem_singleton.mpr (hstart _ hload)
  | unavailable _ => exact List.forall_mem_singleton.mpr (List.forall_mem_nil _)
  | step _ hholds hstep ih => exact List.forall_mem_cons.mpr ⟨step_encodable hstep (step_kept hstep (holds_kept hholds)) ih, ih⟩

/-- Every map that is held survives a restart exactly when its texts can be encoded, which they all
can if those of the first file can; and a load survives exactly the contents that are loadable. -/
theorem bindings_survive_restart_iff (I : Interpreter F) (content : Option Bytes) :
    (∀ bs past, Holds I content (bs :: past) → (RoundTrips I bs ↔ Encodable bs)) ∧
      ((∀ bs, load I content = .ok bs → Encodable bs) → ∀ bs past, Holds I content (bs :: past) → RoundTrips I bs) ∧
        (Survives I content ↔ Loadable I content) := by
  have hiff : ∀ bs past, Holds I content (bs :: past) → (RoundTrips I bs ↔ Encodable bs) := fun bs past h =>
    roundTrips_iff I (holds_kept h bs List.mem_cons_self)
  refine ⟨hiff, fun hstart bs past h => (hiff bs past h).mpr ?_, survives_iff I content⟩
  exact holds_encodable hstart h bs List.mem_cons_self

/-! ## Whole floats -/

/-- The floats that are integers. -/
abbrev WholeFloat := { i : ℤ // i.natAbs < overflowBound }

def wholeOfInt (i : ℤ) : Option WholeFloat := if h : i.natAbs < overflowBound then some ⟨i, h⟩ else none

/-- The digits up to the decimal point. -/
def wholeLiteral (t : Text) : FloatValue WholeFloat :=
  let sign := scanSign t
  let n : ℤ := natOf (scanDigits sign.2).1
  (wholeOfInt (if sign.1 = [] then n else -n)).elim (if sign.1 = [] then .infinity else .negInfinity) .finite

theorem wholeLiteral_repr (x : WholeFloat) : wholeLiteral (integer x.1 ++ txt ".0") = .finite x := by
  obtain ⟨i, hi⟩ := x
  have hpoint : StopsDigits (txt ".0") := fun c cs h => by
    cases h
    decide
  have hdigits := scanDigits_append (isDigit_of_mem_decimal i.natAbs) hpoint
  have hwhole : wholeOfInt i = some ⟨i, hi⟩ := dif_pos hi
  have hone : ∀ {sign : Text}, IsSign sign → i = (if sign = [] then (i.natAbs : ℤ) else -(i.natAbs : ℤ)) →
      wholeLiteral (sign ++ (decimal i.natAbs ++ txt ".0")) = .finite ⟨i, hi⟩ := by
    intro sign hsign heq
    rw [wholeLiteral, scanSign_append hsign (isInteger_decimal _)]
    simp only [hdigits, natOf_decimal, ← heq, hwhole, Option.elim_some]
  cases i with
  | ofNat n => exact hone (.inl rfl) rfl
  | negSucc n => exact (congrArg wholeLiteral (List.append_assoc _ _ _)).trans (hone (.inr rfl) rfl)

theorem floatLiteral_integer (i : ℤ) : FloatLiteral (integer i ++ txt ".0") := by
  have hfraction : IsFraction (txt ".0") := .inr ⟨zeroDigit, [], rfl, List.forall_mem_singleton.mpr (by decide)⟩
  obtain ⟨sign, hsign, heq⟩ := integer_eq i
  refine ⟨sign, decimal i.natAbs, txt ".0", [], ?_, hsign, isInteger_decimal _, hfraction, .inl rfl, .inl (by decide)⟩
  rw [heq, List.append_nil, List.append_nil, List.append_assoc]

def wholeFloats : Interpreter WholeFloat where
  repr x := integer x.1 ++ txt ".0"
  literal := wholeLiteral
  ofText _ := none
  ofInt := wholeOfInt
  isOne x := decide (x.1 = 1)
  recursionLimit := 1000
  repr_literal x := floatLiteral_integer x.1
  literal_repr := wholeLiteral_repr
  ofInt_eq_none i := by
    rw [wholeOfInt, dite_eq_right_iff]
    simp
  nested := by decide

/-- A runtime of the sandbox `read-only`, opened at the time zero. -/
def openedBinding : Binding WholeFloat where
  runtimeId := txt "rt_0123456789abcdef0123456789abcdef"
  threadId := strip (txt "thread ")
  cwd := txt "/work"
  sandbox := .readOnly
  name := none
  createdAt := .finite ⟨0, by decide +kernel⟩
  lastUsedAt := .finite ⟨0, by decide +kernel⟩
  status := .ready
  mcpServerCount := none

theorem openedBinding_held : Holds wholeFloats none [[(openedBinding.runtimeId, openedBinding)], []] := by
  have hid : IsRuntimeId (txt "rt_0123456789abcdef0123456789abcdef") :=
    ⟨txt "0123456789abcdef0123456789abcdef", rfl, rfl, List.all_eq_true.mp (by decide)⟩
  have hwell : openedBinding.WellFormed := ⟨by decide, by decide, by decide, fun n hn => (by cases hn), rfl⟩
  have hkept : Kept [(openedBinding.runtimeId, openedBinding)] :=
    ⟨List.nodup_singleton _, List.forall_mem_singleton.mpr rfl, List.forall_mem_singleton.mpr hwell⟩
  have hencodable : Encodable [(openedBinding.runtimeId, openedBinding)] :=
    List.forall_mem_singleton.mpr (List.all_eq_true.mp (by decide : openedBinding.texts.all isEncodable = true))
  have hload : load wholeFloats none = .ok [] := rfl
  refine .step (fun h => ?_) (.loaded hload) ?_
  · cases hload.symm.trans h
  · exact .opened hid (by decide : strip (txt "thread ") ≠ []) ⟨txt "work", rfl⟩ (rfl : normalizeName none = some none)
      ((save_eq_ok wholeFloats hkept).mpr ⟨hencodable, rfl⟩)

/-! A record that overflows. -/

def hugeFields : List (Text × Document WholeFloat) :=
  [(txt "runtime_id", .str (txt "rt_1")), (txt "thread_id", .str (txt "t")), (txt "cwd", .str (txt "/")),
    (txt "sandbox", .str (txt "read-only")), (txt "created_at", .int (10 ^ 309)), (txt "last_used_at", .int 0)]

def hugeDocumentFields : List (Text × Document WholeFloat) :=
  [(txt "schema_version", .int 1), (txt "runtimes", .obj [(txt "rt_1", .obj hugeFields)])]

def hugeContent : Bytes := encoded (dumps wholeFloats.repr (.obj hugeDocumentFields) ++ txt "\n")

theorem nodup_hugeFields : (hugeFields.map Prod.fst).Nodup := by
  have hkeys : [txt "runtime_id", txt "thread_id", txt "cwd", txt "sandbox", txt "created_at", txt "last_used_at"].Nodup := by decide
  exact hkeys

theorem nodup_hugeDocumentFields : (hugeDocumentFields.map Prod.fst).Nodup := by
  have hkeys : [txt "schema_version", txt "runtimes"].Nodup := by decide
  exact hkeys

theorem hugeFields_overflow : Overflows wholeFloats ((sortedFields hugeFields).mergeSort keyLe) := by
  have hget := getField_sorted nodup_hugeFields
  have hhuge : overflowBound ≤ ((10 : ℤ) ^ 309).natAbs := by decide +kernel
  refine ⟨⟨⟨txt "rt_1", (hget _).trans rfl, by decide⟩, ⟨txt "t", (hget _).trans rfl, by decide⟩, ⟨txt "/", (hget _).trans rfl, by decide⟩,
    ⟨.str (txt "read-only"), (hget _).trans rfl⟩, fun d hd => ?_⟩, .int (10 ^ 309), .int 0, (hget _).trans rfl, (hget _).trans rfl,
    .inl ⟨10 ^ 309, rfl, hhuge⟩⟩
  cases ((hget _).symm.trans hd)

theorem hugeDocument_readable : Readable wholeFloats.recursionLimit (.obj hugeDocumentFields) := by
  have hshort : (decimal ((10 : ℤ) ^ 309).natAbs).length ≤ maxStrDigits :=
    (length_decimal_le (by decide) (by decide +kernel : ((10 : ℤ) ^ 309).natAbs < 10 ^ 310)).trans (by decide)
  have hone : (decimal (1 : ℤ).natAbs).length ≤ maxStrDigits := by decide
  have hzero : (decimal (0 : ℤ).natAbs).length ≤ maxStrDigits := by decide
  have hrecord : Readable 998 (.obj hugeFields) := by
    refine ⟨nodup_hugeFields, ?_⟩
    simp only [hugeFields, List.forall_mem_cons]
    exact ⟨trivial, trivial, trivial, trivial, hshort, hzero, List.forall_mem_nil _⟩
  exact ⟨nodup_hugeDocumentFields, List.forall_mem_cons.mpr ⟨hone, List.forall_mem_singleton.mpr ⟨List.nodup_singleton _, List.forall_mem_singleton.mpr hrecord⟩⟩⟩

theorem hugeDocument_texts : ∀ t ∈ texts (.obj hugeDocumentFields), isEncodable t = true := by
  have hall : (texts (.obj hugeDocumentFields)).all isEncodable = true := by decide
  exact List.all_eq_true.mp hall

/-- An integer that is no float is no reason for a `BindingStoreError`. -/
theorem huge_timestamp_escapes : ¬Survives wholeFloats (some hugeContent) := by
  rw [survives_iff]
  intro h
  have hread := readText_dumps wholeFloats hugeDocument_readable hugeDocument_texts
  have hget := getField_sorted nodup_hugeDocumentFields
  have hrecords : storedRecords wholeFloats (sorted (.obj hugeDocumentFields)) =
      some [(txt "rt_1", .obj ((sortedFields hugeFields).mergeSort keyLe))] := by
    have hversion : getField (txt "schema_version") hugeDocumentFields = some (.int 1) := rfl
    have hruntimes : getField (txt "runtimes") hugeDocumentFields = some (.obj [(txt "rt_1", .obj hugeFields)]) := rfl
    rw [sorted, storedRecords, hget, hversion, Option.map_some, Option.any_some, if_pos (by rfl), hget, hruntimes, Option.map_some,
      sorted, map_sortedFields, List.mergeSort_singleton, List.map_singleton, sorted]
  exact (h _ _ rfl hread).timestamps _ _ (jsonLoads_dumps wholeFloats hugeDocument_readable) hrecords [] (txt "rt_1") _ [] rfl
    (List.forall_mem_nil _) hugeFields_overflow

/-- A manager without a file opens a runtime, and a restart brings it back. -/
theorem bindings_survive_restart_opened : RoundTrips wholeFloats [(openedBinding.runtimeId, openedBinding)] :=
  (bindings_survive_restart_iff wholeFloats none).2.1 (fun bs hbs => by
    cases hbs
    exact List.forall_mem_nil _) _ _ openedBinding_held

end WebOauthMcp.BindingRuns
