import Mathlib.Data.List.DropRight
import WebOauthMcp.BytePages
import WebOauthMcp.CodexRuntimes
import WebOauthMcp.GitOutput
import WebOauthMcp.HttpGate
import WebOauthMcp.JsonDecoding

/-!
# The store of the runtime bindings

The bindings of the manager are kept in a JSON file. What is loaded is checked record by
record, and every runtime comes back detached. A stored record may hold more than the
manager ever writes: truth values for numbers, numbers as texts, timestamps of any size.
-/

namespace WebOauthMcp.BindingStore
open CodePoints Utf8Units LineSplitting JsonText ExceptSteps JsonDecoding BytePages CodexRuntimes HttpGate GitOutput

/-- An `int` that is not negative: a number, or a truth value. -/
inductive ServerCount
  | number (n : ℕ)
  | flag (b : Bool)
  deriving DecidableEq

structure Binding (F : Type) where
  runtimeId : Text
  threadId : Text
  cwd : Text
  sandbox : SandboxMode
  name : Option Text
  createdAt : FloatValue F
  lastUsedAt : FloatValue F
  status : RuntimeStatus
  mcpServerCount : Option ServerCount

/-- The bindings by their keys, in the order of the dictionary. -/
abbrev Bindings (F : Type) := List (Text × Binding F)

inductive Raised
  | bindingStore
  | typeError
  | valueError
  | overflowError
  | recursionError
  | unicodeEncodeError
  deriving DecidableEq

variable {F α : Type}

def orRaise (e : Raised) : Option α → Except Raised α
  | none => .error e
  | some a => .ok a

/-! ## Records -/

def sandboxText : SandboxMode → Text
  | .readOnly => txt "read-only"
  | .workspaceWrite => txt "workspace-write"
  | .fullAccess => txt "full-access"

def statusText : RuntimeStatus → Text
  | .ready => txt "ready"
  | .detached => txt "detached"
  | .error => txt "error"

def sandboxModes : List SandboxMode := [.readOnly, .workspaceWrite, .fullAccess]

def runtimeStatuses : List RuntimeStatus := [.ready, .detached, .error]

def ServerCount.document : ServerCount → Document F
  | .number n => .int n
  | .flag b => .bool b

def Binding.fields (b : Binding F) : List (Text × Document F) :=
  [(txt "runtime_id", .str b.runtimeId), (txt "thread_id", .str b.threadId), (txt "cwd", .str b.cwd),
    (txt "sandbox", .str (sandboxText b.sandbox)), (txt "name", b.name.elim .null .str), (txt "created_at", .float b.createdAt),
    (txt "last_used_at", .float b.lastUsedAt), (txt "status", .str (statusText b.status)),
    (txt "mcp_server_count", b.mcpServerCount.elim .null ServerCount.document)]

def Binding.toDict (b : Binding F) : Document F := .obj b.fields

/-- `float` of an integer. -/
def floatOfInt (I : Interpreter F) (i : ℤ) : Except Raised (FloatValue F) :=
  (orRaise .overflowError (I.ofInt i)).map .finite

/-- `float(value)` -/
def toFloat (I : Interpreter F) : Document F → Except Raised (FloatValue F)
  | .bool b => floatOfInt I (if b then 1 else 0)
  | .int i => floatOfInt I i
  | .float x => .ok x
  | .str t => orRaise .valueError (I.ofText t)
  | _ => .error .typeError

def timestampError : Raised → Raised
  | .typeError => .valueError
  | e => e

def timestamps (I : Interpreter F) (createdAt lastUsedAt : Document F) : Except Raised (FloatValue F × FloatValue F) :=
  Except.mapError timestampError do
    let createdAt ← toFloat I createdAt
    let lastUsedAt ← toFloat I lastUsedAt
    pure (createdAt, lastUsedAt)

/-- `isinstance(item, str) and item.strip()` -/
def nonBlank : Document F → Option Text
  | .str t => if strip t = [] then none else some t
  | _ => none

/-- The name of a record; a blank one is none. -/
def readName : Document F → Option (Option Text)
  | .null => some none
  | .str t => some (if strip t = [] then none else some (strip t))
  | _ => none

def readCount : Document F → Option (Option ServerCount)
  | .null => some none
  | .int i => if i < 0 then none else some (some (.number i.toNat))
  | .bool b => some (some (.flag b))
  | _ => none

/-- `if status in {"ready", "error"}: status = "detached"`; lists and objects have no hash. -/
def foldStatus : Document F → Except Raised (Document F)
  | .str t => .ok (.str (if t = txt "ready" ∨ t = txt "error" then txt "detached" else t))
  | .arr _ | .obj _ => .error .typeError
  | d => .ok d

def readStatus : Document F → Option RuntimeStatus
  | .str t => runtimeStatuses.find? fun s => decide (statusText s = t)
  | _ => none

def validateSandbox : Document F → Option SandboxMode
  | .str t => sandboxModes.find? fun m => decide (sandboxText m = t)
  | _ => none

/-- `RuntimeBinding.from_dict`. -/
def fromDict (I : Interpreter F) : Document F → Except Raised (Binding F)
  | .obj fields => do
    let runtimeId ← orRaise .valueError (getField (txt "runtime_id") fields)
    let threadId ← orRaise .valueError (getField (txt "thread_id") fields)
    let cwd ← orRaise .valueError (getField (txt "cwd") fields)
    let sandbox ← orRaise .valueError (getField (txt "sandbox") fields)
    let createdAt ← orRaise .valueError (getField (txt "created_at") fields)
    let lastUsedAt ← orRaise .valueError (getField (txt "last_used_at") fields)
    let runtimeId ← orRaise .valueError (nonBlank runtimeId)
    let threadId ← orRaise .valueError (nonBlank threadId)
    let cwd ← orRaise .valueError (nonBlank cwd)
    let name ← orRaise .valueError (readName ((getField (txt "name") fields).getD .null))
    let times ← timestamps I createdAt lastUsedAt
    let mcpServerCount ← orRaise .valueError (readCount ((getField (txt "mcp_server_count") fields).getD .null))
    let status ← foldStatus ((getField (txt "status") fields).getD (.str (txt "detached")))
    let sandbox ← orRaise .valueError (validateSandbox sandbox)
    let status ← orRaise .valueError (readStatus status)
    pure { runtimeId, threadId, cwd, sandbox, name, createdAt := times.1, lastUsedAt := times.2, status, mcpServerCount }
  | _ => .error .valueError

/-! ## The file -/

def documentFields (bs : Bindings F) : List (Text × Document F) :=
  [(txt "schema_version", .int 1), (txt "runtimes", .obj (bs.map fun e => (e.1, e.2.toDict)))]

def document (bs : Bindings F) : Document F := .obj (documentFields bs)

/-- A count that `int.__repr__` prints. -/
def ServerCount.isPrintable : ServerCount → Bool
  | .number n => (decimal n).length ≤ maxStrDigits
  | .flag _ => true

/-- `json.dumps` and the encoding of what it prints. -/
def encode (I : Interpreter F) (bs : Bindings F) : Except Raised Bytes :=
  if bs.all fun e => e.2.mcpServerCount.all ServerCount.isPrintable then
    orRaise .unicodeEncodeError (encodeUtf8 (dumps I.repr (document bs) ++ txt "\n"))
  else .error .valueError

/-- `BindingStore.save`: the content of the file afterwards. The disk may fail. -/
def save (I : Interpreter F) (disk : Bool) (bs : Bindings F) : Except Raised Bytes := do
  let content ← encode I bs
  if disk then pure content else throw .bindingStore

/-- `path.read_text(encoding="utf-8")` -/
def readText (content : Bytes) : Option Text := (decodeUtf8 content).map universalNewlines

/-- What becomes of the errors of `json.loads`. -/
def documentError : DecodeError → Raised
  | .jsonDecodeError => .bindingStore
  | .valueError => .valueError
  | .recursionError => .recursionError

/-- `value == 1` -/
def isVersion (I : Interpreter F) : Document F → Bool
  | .int i => decide (i = 1)
  | .bool b => b
  | .float (.finite x) => I.isOne x
  | _ => false

/-- The records of a document with the schema of the store. -/
def storedRecords (I : Interpreter F) : Document F → Option (List (Text × Document F))
  | .obj fields =>
    if (getField (txt "schema_version") fields).any (isVersion I) then
      match getField (txt "runtimes") fields with
      | none => some []
      | some (.obj records) => some records
      | some _ => none
    else none
  | _ => none

def loadRecord (I : Interpreter F) (record : Text × Document F) : Except Raised (Text × Binding F) := do
  let binding ← fromDict I record.2
  if record.1 = binding.runtimeId then pure (record.1, binding) else throw .valueError

/-- The loop over the records, with `bindings[runtime_id] = binding`. -/
def loadRecords (I : Interpreter F) (records : List (Text × Document F)) : Except Raised (Bindings F) :=
  (records.mapM (loadRecord I)).map dictOf

/-- What becomes of the errors of the records. -/
def recordError : Raised → Raised
  | .typeError => .bindingStore
  | .valueError => .bindingStore
  | e => e

def loadText (I : Interpreter F) (raw : Text) : Except Raised (Bindings F) := do
  let stored ← (jsonLoads I raw).mapError documentError
  let records ← orRaise .bindingStore (storedRecords I stored)
  (loadRecords I records).mapError recordError

/-- `BindingStore.load`; the file may be missing. -/
def load (I : Interpreter F) : Option Bytes → Except Raised (Bindings F)
  | none => .ok []
  | some content => do
    let raw ← orRaise .bindingStore (readText content)
    loadText I raw

/-! ## What a record must hold -/

/-- What is checked in front of the timestamps. -/
structure Named (fields : List (Text × Document F)) : Prop where
  runtimeId : ∃ t, getField (txt "runtime_id") fields = some (.str t) ∧ strip t ≠ []
  threadId : ∃ t, getField (txt "thread_id") fields = some (.str t) ∧ strip t ≠ []
  cwd : ∃ t, getField (txt "cwd") fields = some (.str t) ∧ strip t ≠ []
  sandbox : ∃ d, getField (txt "sandbox") fields = some d
  name : ∀ d, getField (txt "name") fields = some d → d = .null ∨ ∃ t, d = .str t

structure WellFormedRecord (I : Interpreter F) (key : Text) (fields : List (Text × Document F)) : Prop where
  named : Named fields
  key_eq : getField (txt "runtime_id") fields = some (.str key)
  createdAt : ∃ d x, getField (txt "created_at") fields = some d ∧ toFloat I d = .ok x
  lastUsedAt : ∃ d x, getField (txt "last_used_at") fields = some d ∧ toFloat I d = .ok x
  mcpServerCount : ∀ d, getField (txt "mcp_server_count") fields = some d →
    d = .null ∨ (∃ i, d = .int i ∧ 0 ≤ i) ∨ ∃ b, d = .bool b
  status : ∀ d, getField (txt "status") fields = some d → ∃ s, d = .str (statusText s)
  sandbox : ∃ m, getField (txt "sandbox") fields = some (.str (sandboxText m))

/-- An integer that is too large for a float. -/
def IsHuge (d : Document F) : Prop := ∃ i : ℤ, d = .int i ∧ overflowBound ≤ i.natAbs

/-- A record with a timestamp that `float` refuses, and nothing wrong in front of it. -/
def Overflows (I : Interpreter F) (fields : List (Text × Document F)) : Prop :=
  Named fields ∧ ∃ createdAt lastUsedAt, getField (txt "created_at") fields = some createdAt ∧
    getField (txt "last_used_at") fields = some lastUsedAt ∧
      (IsHuge createdAt ∨ (∃ x, toFloat I createdAt = .ok x) ∧ IsHuge lastUsedAt)

theorem orRaise_eq_ok {e : Raised} {o : Option α} {a : α} : orRaise e o = .ok a ↔ o = some a := by
  cases o <;> simp [orRaise]

theorem orRaise_eq_error {e e' : Raised} {o : Option α} : orRaise e o = .error e' ↔ o = none ∧ e = e' := by
  cases o <;> simp [orRaise]

theorem nonBlank_eq_some {d : Document F} {t : Text} : nonBlank d = some t ↔ d = .str t ∧ strip t ≠ [] := by
  cases d with
  | str s =>
    rw [nonBlank, Document.str.injEq]
    split
    · next h => exact iff_of_false (by simp) fun heq => heq.2 (heq.1 ▸ h)
    · next h =>
      rw [Option.some.injEq]
      exact ⟨fun heq => ⟨heq, heq ▸ h⟩, fun heq => heq.1⟩
  | _ => simp [nonBlank]

theorem readName_isSome {d : Document F} : (∃ n, readName d = some n) ↔ d = .null ∨ ∃ t, d = .str t := by
  cases d <;> simp [readName]

theorem readCount_isSome {d : Document F} : (∃ n, readCount d = some n) ↔ d = .null ∨ (∃ i, d = .int i ∧ 0 ≤ i) ∨ ∃ b, d = .bool b := by
  cases d with
  | int i =>
    simp only [readCount]
    split
    · next h => simp; omega
    · next h => simp; omega
  | _ => simp [readCount]

theorem statusText_injective : Function.Injective statusText := by
  intro s s' h
  cases s <;> cases s' <;> first | rfl | exact absurd h (by decide)

theorem sandboxText_injective : Function.Injective sandboxText := by
  intro m m' h
  cases m <;> cases m' <;> first | rfl | exact absurd h (by decide)

theorem readStatus_statusText (s : RuntimeStatus) : readStatus (.str (statusText s) : Document F) = some s := by
  cases s <;> rfl

theorem validateSandbox_sandboxText (m : SandboxMode) : validateSandbox (.str (sandboxText m) : Document F) = some m := by
  cases m <;> rfl

theorem validateSandbox_eq_some {d : Document F} {m : SandboxMode} : validateSandbox d = some m ↔ d = .str (sandboxText m) := by
  constructor
  · intro h
    cases d with
    | str t =>
      have heq := List.find?_some h
      rw [decide_eq_true_eq] at heq
      rw [heq]
    | _ => cases h
  · rintro rfl
    exact validateSandbox_sandboxText m

/-- Every status that is known is loaded as detached. -/
theorem foldStatus_statusText (s : RuntimeStatus) : foldStatus (.str (statusText s) : Document F) = .ok (.str (statusText .detached)) := by
  cases s <;> rfl

/-- Nothing else passes both checks of the status. -/
theorem status_read {d d' : Document F} {s : RuntimeStatus} (hfold : foldStatus d = .ok d') (hread : readStatus d' = some s) :
    s = .detached ∧ ∃ s', d = .str (statusText s') := by
  cases d with
  | str t =>
    cases hfold
    have heq := List.find?_some hread
    rw [decide_eq_true_eq] at heq
    by_cases hready : t = txt "ready"
    · rw [if_pos (.inl hready)] at heq
      exact ⟨statusText_injective heq, .ready, by rw [hready]; rfl⟩
    · by_cases herror : t = txt "error"
      · rw [if_pos (.inr herror)] at heq
        exact ⟨statusText_injective heq, .error, by rw [herror]; rfl⟩
      · rw [if_neg (not_or.mpr ⟨hready, herror⟩)] at heq
        cases s with
        | ready => exact absurd heq.symm hready
        | error => exact absurd heq.symm herror
        | detached => exact ⟨rfl, .detached, by rw [← heq]⟩
  | arr items => cases hfold
  | obj fields => cases hfold
  | null =>
    cases hfold
    cases hread
  | bool b =>
    cases hfold
    cases hread
  | int i =>
    cases hfold
    cases hread
  | float x =>
    cases hfold
    cases hread

theorem toFloat_overflow {I : Interpreter F} {d : Document F} : toFloat I d = .error .overflowError ↔ IsHuge d := by
  cases d with
  | int i =>
    rw [toFloat, floatOfInt, map_error_iff, orRaise_eq_error, and_iff_left rfl, I.ofInt_eq_none]
    constructor
    · exact fun h => ⟨i, rfl, h⟩
    · rintro ⟨j, heq, h⟩
      cases heq
      exact h
  | bool b =>
    have hsmall : ¬(overflowBound ≤ (if b then 1 else 0 : ℤ).natAbs) := by cases b <;> decide +kernel
    rw [toFloat, floatOfInt, map_error_iff, orRaise_eq_error, and_iff_left rfl, I.ofInt_eq_none]
    refine iff_of_false hsmall fun h => ?_
    obtain ⟨i, heq, -⟩ := h
    cases heq
  | _ => simp [toFloat, orRaise_eq_error, IsHuge]

theorem toFloat_error {I : Interpreter F} {d : Document F} {e : Raised} (h : toFloat I d = .error e) :
    e = .typeError ∨ e = .valueError ∨ e = .overflowError := by
  cases d with
  | float x => cases h
  | int i => exact .inr (.inr (orRaise_eq_error.mp (map_error_iff.mp h)).2.symm)
  | bool b => exact .inr (.inr (orRaise_eq_error.mp (map_error_iff.mp h)).2.symm)
  | str t => exact .inr (.inl (orRaise_eq_error.mp h).2.symm)
  | null => exact .inl (Except.error.inj h).symm
  | arr items => exact .inl (Except.error.inj h).symm
  | obj fields => exact .inl (Except.error.inj h).symm

theorem timestamps_eq_ok {I : Interpreter F} {c l : Document F} {times : FloatValue F × FloatValue F} :
    timestamps I c l = .ok times ↔ toFloat I c = .ok times.1 ∧ toFloat I l = .ok times.2 := by
  rw [timestamps, mapError_ok_iff]
  simp only [bind_eq_ok]
  constructor
  · rintro ⟨x, hx, y, hy, hpure⟩
    cases hpure
    exact ⟨hx, hy⟩
  · exact fun ⟨hx, hy⟩ => ⟨times.1, hx, times.2, hy, rfl⟩

theorem timestamps_overflow {I : Interpreter F} {c l : Document F} :
    timestamps I c l = .error .overflowError ↔ IsHuge c ∨ (∃ x, toFloat I c = .ok x) ∧ IsHuge l := by
  have herror : ∀ e, timestampError e = .overflowError ↔ e = .overflowError := fun e => by cases e <;> decide
  rw [timestamps, mapError_error_iff]
  simp only [herror, exists_eq_right, bind_eq_error, toFloat_overflow]
  refine or_congr_right ⟨?_, ?_⟩
  · rintro ⟨x, hx, hl | ⟨y, -, hpure⟩⟩
    · exact ⟨⟨x, hx⟩, hl⟩
    · cases hpure
  · exact fun ⟨⟨x, hx⟩, hl⟩ => ⟨x, hx, .inl hl⟩

/-- What is read in front of the timestamps. -/
theorem named_iff {fields : List (Text × Document F)} :
    Named fields ↔ (∃ r, getField (txt "runtime_id") fields = some r ∧ ∃ x, nonBlank r = some x) ∧
      (∃ t, getField (txt "thread_id") fields = some t ∧ ∃ x, nonBlank t = some x) ∧
        (∃ c, getField (txt "cwd") fields = some c ∧ ∃ x, nonBlank c = some x) ∧
          (∃ s, getField (txt "sandbox") fields = some s) ∧ ∃ n, readName ((getField (txt "name") fields).getD .null) = some n := by
  have htext : ∀ key : Text, (∃ t, getField key fields = some (.str t) ∧ strip t ≠ []) ↔
      ∃ d, getField key fields = some d ∧ ∃ x, nonBlank d = some x := fun key => by
    simp only [nonBlank_eq_some]
    exact ⟨fun ⟨t, ht, hne⟩ => ⟨_, ht, t, rfl, hne⟩, fun ⟨d, hd, t, heq, hne⟩ => ⟨t, heq ▸ hd, hne⟩⟩
  have hname : (∃ n, readName ((getField (txt "name") fields).getD .null) = some n) ↔
      ∀ d, getField (txt "name") fields = some d → d = .null ∨ ∃ t, d = .str t := by
    rw [readName_isSome]
    cases getField (txt "name") fields with
    | none => simp
    | some d => simp
  rw [← htext, ← htext, ← htext, hname]
  exact ⟨fun h => ⟨h.runtimeId, h.threadId, h.cwd, h.sandbox, h.name⟩, fun ⟨hr, ht, hc, hs, hn⟩ => ⟨hr, ht, hc, hs, hn⟩⟩

/-- A record overflows exactly when one of its timestamps does, and nothing in front of it is wrong. -/
theorem fromDict_overflow {I : Interpreter F} {fields : List (Text × Document F)} :
    fromDict I (.obj fields) = .error .overflowError ↔ Overflows I fields := by
  have hfold : ∀ d : Document F, foldStatus d ≠ .error .overflowError := fun d => by cases d <;> simp [foldStatus]
  rw [Overflows, named_iff]
  simp only [fromDict, bind_eq_error, orRaise_eq_error, orRaise_eq_ok, timestamps_overflow, hfold, reduceCtorEq, and_false, false_or,
    exists_false, or_false, pure, Except.pure]
  constructor
  · rintro ⟨r, hr, t, ht, c, hc, s, hs, a, ha, l, hl, x, hx, y, hy, z, hz, n, hn, h⟩
    exact ⟨⟨⟨r, hr, x, hx⟩, ⟨t, ht, y, hy⟩, ⟨c, hc, z, hz⟩, ⟨s, hs⟩, n, hn⟩, a, l, ha, hl, h⟩
  · rintro ⟨⟨⟨r, hr, x, hx⟩, ⟨t, ht, y, hy⟩, ⟨c, hc, z, hz⟩, ⟨s, hs⟩, n, hn⟩, a, l, ha, hl, h⟩
    exact ⟨r, hr, t, ht, c, hc, s, hs, a, ha, l, hl, x, hx, y, hy, z, hz, n, hn, h⟩

/-- What is known of a binding that was read from a record. -/
structure ReadFrom (I : Interpreter F) (fields : List (Text × Document F)) (b : Binding F) : Prop where
  record : WellFormedRecord I b.runtimeId fields
  threadId : strip b.threadId ≠ []
  cwd : strip b.cwd ≠ []
  name : ∀ n, b.name = some n → ∃ t, n = strip t ∧ strip t ≠ []
  status : b.status = .detached
  mcpServerCount : ∀ n, b.mcpServerCount = some (.number n) → getField (txt "mcp_server_count") fields = some (.int n)

theorem fromDict_readFrom {I : Interpreter F} {fields : List (Text × Document F)} {b : Binding F}
    (h : fromDict I (.obj fields) = .ok b) : ReadFrom I fields b := by
  simp only [fromDict, bind_eq_ok, orRaise_eq_ok] at h
  obtain ⟨r, hr, t, ht, c, hc, s, hs, a, ha, l, hl, x, hx, y, hy, z, hz, n, hn, times, htimes, k, hk, folded, hfold, m, hm,
    status, hstatus, hpure⟩ := h
  cases hpure
  have hnamed : Named fields := named_iff.mpr ⟨⟨r, hr, x, hx⟩, ⟨t, ht, y, hy⟩, ⟨c, hc, z, hz⟩, ⟨s, hs⟩, n, hn⟩
  obtain ⟨rfl, hruntime⟩ := nonBlank_eq_some.mp hx
  obtain ⟨hcreated, hlast⟩ := timestamps_eq_ok.mp htimes
  obtain ⟨hdetached, s', hstatusText⟩ := status_read hfold hstatus
  have hcount := readCount_isSome.mp ⟨k, hk⟩
  refine ⟨⟨hnamed, hr, ⟨a, _, ha, hcreated⟩, ⟨l, _, hl, hlast⟩, ?_, ?_, ?_⟩, ?_, ?_, ?_, hdetached, ?_⟩
  · intro d hd
    rwa [hd] at hcount
  · intro d hd
    rw [hd] at hstatusText
    exact ⟨s', hstatusText⟩
  · exact ⟨m, validateSandbox_eq_some.mp hm ▸ hs⟩
  · exact (nonBlank_eq_some.mp hy).2
  · exact (nonBlank_eq_some.mp hz).2
  · intro name heq
    change n = some name at heq
    rw [heq] at hn
    cases hd : (getField (txt "name") fields).getD .null with
    | str u =>
      rw [hd, readName, Option.some.injEq] at hn
      split at hn
      · cases hn
      · next hne => exact ⟨u, (Option.some.inj hn).symm, hne⟩
    | _ => simp [hd, readName] at hn
  · intro j heq
    change k = some (.number j) at heq
    rw [heq] at hk
    cases hd : getField (txt "mcp_server_count") fields with
    | none => simp [hd, readCount] at hk
    | some d =>
      cases d with
      | int i =>
        rw [hd, Option.getD_some, readCount] at hk
        split at hk
        · cases hk
        · next hnonneg =>
          cases hk
          rw [Int.toNat_of_nonneg (not_lt.mp hnonneg)]
      | _ => simp [hd, readCount] at hk

theorem fromDict_wellFormed {I : Interpreter F} {key : Text} {fields : List (Text × Document F)}
    (h : WellFormedRecord I key fields) : ∃ b, fromDict I (.obj fields) = .ok b ∧ b.runtimeId = key := by
  obtain ⟨⟨r, hr, x, hx⟩, ⟨t, ht, y, hy⟩, ⟨c, hc, z, hz⟩, ⟨s, hs⟩, n, hn⟩ := named_iff.mp h.named
  obtain ⟨a, created, ha, hcreated⟩ := h.createdAt
  obtain ⟨l, last, hl, hlast⟩ := h.lastUsedAt
  obtain ⟨m, hm⟩ := h.sandbox
  have hcount : ∃ k, readCount ((getField (txt "mcp_server_count") fields).getD .null) = some k := by
    rw [readCount_isSome]
    cases hd : getField (txt "mcp_server_count") fields with
    | none => exact .inl rfl
    | some d => exact h.mcpServerCount d hd
  obtain ⟨k, hk⟩ := hcount
  have hstatus : foldStatus ((getField (txt "status") fields).getD (.str (txt "detached"))) =
      .ok (.str (statusText .detached) : Document F) := by
    cases hd : getField (txt "status") fields with
    | none => exact foldStatus_statusText .detached
    | some d =>
      obtain ⟨s', rfl⟩ := h.status d hd
      exact foldStatus_statusText s'
  have hx' := nonBlank_eq_some.mp hx
  rw [h.key_eq] at hr
  obtain rfl : x = key := by
    have heq := (Option.some.inj hr).trans hx'.1
    cases heq
    rfl
  cases hs.symm.trans hm
  refine ⟨⟨x, y, z, m, n, created, last, .detached, k⟩, ?_, rfl⟩
  simp only [fromDict, bind_eq_ok, orRaise_eq_ok]
  exact ⟨r, h.key_eq.trans hr, t, ht, c, hc, _, hm, a, ha, l, hl, x, hx, y, hy, z, hz, n, hn, (created, last),
    timestamps_eq_ok.mpr ⟨hcreated, hlast⟩, k, hk, _, hstatus, m, validateSandbox_sandboxText m, .detached,
    readStatus_statusText .detached, rfl⟩

/-! ## Bindings that are kept -/

def Binding.detached (b : Binding F) : Binding F := { b with status := .detached }

def Binding.texts (b : Binding F) : List Text := [b.runtimeId, b.threadId, b.cwd] ++ b.name.toList

/-- What the checks of a record accept and do not change. -/
structure Binding.WellFormed (b : Binding F) : Prop where
  runtimeId : strip b.runtimeId ≠ []
  threadId : strip b.threadId ≠ []
  cwd : strip b.cwd ≠ []
  name : ∀ n, b.name = some n → strip n = n ∧ n ≠ []
  mcpServerCount : b.mcpServerCount.all ServerCount.isPrintable = true

structure Kept (bs : Bindings F) : Prop where
  distinct : (bs.map Prod.fst).Nodup
  keyed : ∀ e ∈ bs, e.1 = e.2.runtimeId
  wellFormed : ∀ e ∈ bs, e.2.WellFormed

/-- No text of the bindings has a lone surrogate. -/
def Encodable (bs : Bindings F) : Prop := ∀ e ∈ bs, ∀ t ∈ e.2.texts, isEncodable t = true

def restored (bs : Bindings F) : Bindings F := bs.map fun e => (e.1, e.2.detached)

/-- A save succeeds, the load that follows returns the same bindings, all detached, and another
save and load returns what was loaded. -/
def RoundTrips (I : Interpreter F) (bs : Bindings F) : Prop :=
  ∃ content loaded content', save I true bs = .ok content ∧ load I (some content) = .ok loaded ∧ loaded.Perm (restored bs) ∧
    save I true loaded = .ok content' ∧ load I (some content') = .ok loaded

/-- The keys of a record. -/
def recordKeys : List Text :=
  [txt "runtime_id", txt "thread_id", txt "cwd", txt "sandbox", txt "name", txt "created_at", txt "last_used_at", txt "status",
    txt "mcp_server_count"]

theorem recordKeys_nodup : recordKeys.Nodup := by decide

theorem keys_fields (b : Binding F) : b.fields.map Prod.fst = recordKeys := rfl

theorem nodup_fields (b : Binding F) : (b.fields.map Prod.fst).Nodup := recordKeys_nodup

theorem isEncodable_sandboxText (m : SandboxMode) : isEncodable (sandboxText m) = true := by cases m <;> decide

theorem isEncodable_statusText (s : RuntimeStatus) : isEncodable (statusText s) = true := by cases s <;> decide

theorem isEncodable_toDict (b : Binding F) : (∀ t ∈ texts b.toDict, isEncodable t = true) ↔ ∀ t ∈ b.texts, isEncodable t = true := by
  have hkeys : ∀ key ∈ recordKeys, isEncodable key = true := by decide
  have hfields : (∀ f ∈ b.fields, ∀ t ∈ texts f.2, isEncodable t = true) ↔ ∀ t ∈ b.texts, isEncodable t = true := by
    have hcount : ∀ c : ServerCount, texts (c.document : Document F) = [] := fun c => by cases c <;> rfl
    simp only [Binding.fields, Binding.texts, List.forall_mem_cons, List.forall_mem_append, texts, isEncodable_sandboxText,
      isEncodable_statusText]
    cases b.name <;> cases b.mcpServerCount <;> simp [texts, hcount, and_assoc]
  rw [Binding.toDict, texts, forall_textsOfFields, ← hfields]
  refine forall₂_congr fun f hf => and_iff_right (hkeys f.1 ?_)
  rw [← keys_fields b]
  exact List.mem_map_of_mem hf

theorem isEncodable_document {bs : Bindings F} (h : Kept bs) : (∀ t ∈ texts (document bs), isEncodable t = true) ↔ Encodable bs := by
  have hversion : isEncodable (txt "schema_version") = true := by decide
  have hruntimes : isEncodable (txt "runtimes") = true := by decide
  rw [document, documentFields, texts, forall_textsOfFields, List.forall_mem_cons, List.forall_mem_singleton]
  simp only [hversion, hruntimes, texts, List.not_mem_nil, false_implies, implies_true, true_and, forall_textsOfFields, List.forall_mem_map]
  refine forall₂_congr fun e he => ?_
  rw [isEncodable_toDict, and_iff_right_of_imp]
  intro htexts
  rw [h.keyed e he]
  exact htexts _ (by simp [Binding.texts])

theorem readable_toDict {b : Binding F} (h : b.WellFormed) (k : ℕ) : Readable (k + 1) b.toDict := by
  refine ⟨nodup_fields b, ?_⟩
  have hcount : ∀ c : ServerCount, c.isPrintable = true → Readable k (c.document : Document F) := fun c hc => by
    cases c with
    | number n =>
      have hshort := of_decide_eq_true hc
      cases k <;> exact hshort
    | flag b => cases k <;> trivial
  have hprintable := h.mcpServerCount
  simp only [Binding.fields, List.forall_mem_cons]
  refine ⟨?_, ?_, ?_, ?_, ?_, ?_, ?_, ?_, ?_, List.forall_mem_nil _⟩
  any_goals cases k <;> trivial
  · cases b.name <;> cases k <;> trivial
  · cases hc : b.mcpServerCount with
    | none => cases k <;> trivial
    | some c =>
      rw [hc] at hprintable
      exact hcount c hprintable

theorem nodup_documentFields (bs : Bindings F) : ((documentFields bs).map Prod.fst).Nodup := by
  have hkeys : [txt "schema_version", txt "runtimes"].Nodup := by decide
  exact hkeys

theorem readable_document (I : Interpreter F) {bs : Bindings F} (h : Kept bs) : Readable I.recursionLimit (document bs) := by
  obtain ⟨k, hk⟩ := Nat.exists_eq_add_of_le' I.nested
  have hone : (decimal (1 : ℤ).natAbs).length ≤ maxStrDigits := by decide
  rw [hk, document]
  refine ⟨nodup_documentFields bs, List.forall_mem_cons.mpr ⟨hone, List.forall_mem_singleton.mpr ⟨?_, ?_⟩⟩⟩
  · rw [List.map_map]
    exact h.distinct
  · exact List.forall_mem_map.mpr fun e he => readable_toDict (h.wellFormed e he) k

theorem encode_eq_ok (I : Interpreter F) {bs : Bindings F} (h : Kept bs) {content : Bytes} :
    encode I bs = .ok content ↔ Encodable bs ∧ content = encoded (dumps I.repr (document bs) ++ txt "\n") := by
  have hcounts : (bs.all fun e => e.2.mcpServerCount.all ServerCount.isPrintable) = true :=
    List.all_eq_true.mpr fun e he => (h.wellFormed e he).mcpServerCount
  have hfeed : isEncodable (txt "\n") = true := by decide
  rw [encode, if_pos hcounts, orRaise_eq_ok, encodeUtf8_eq_some_iff, isEncodable_append, hfeed, Bool.and_true,
    isEncodable_dumps I (readable_document I h), isEncodable_document h, encoded]

/-! ## Bindings are read back -/

theorem universalNewlines_eq {t : Text} (h : carriageReturn ∉ t) : universalNewlines t = t := by
  induction t with
  | nil => rfl
  | cons c t ih =>
    rw [List.mem_cons, not_or] at h
    rw [universalNewlines_cons fun d ds _ hd => h.1 hd.1.symm, if_neg (Ne.symm h.1), ih h.2]

theorem readText_dumps (I : Interpreter F) {depth : ℕ} {d : Document F} (h : Readable depth d)
    (hencodable : ∀ t ∈ texts d, isEncodable t = true) :
    readText (encoded (dumps I.repr d ++ txt "\n")) = some (dumps I.repr d ++ txt "\n") := by
  have hfeed : isEncodable (txt "\n") = true := by decide
  have hdumps := (isEncodable_dumps I h).mpr hencodable
  have hreturn : carriageReturn ∉ dumps I.repr d ++ txt "\n" := by
    rw [List.mem_append, not_or]
    exact ⟨fun hmem => absurd (dumps_controls I h _ hmem) (by decide), by decide⟩
  rw [readText, decodeUtf8_encoded (by rw [isEncodable_append, hdumps, hfeed]; rfl), Option.map_some, universalNewlines_eq hreturn]

/-- A record that was written is read back, detached. -/
theorem fromDict_toDict (I : Interpreter F) {b : Binding F} (h : b.WellFormed) : fromDict I (sorted b.toDict) = .ok b.detached := by
  have hget := getField_sorted (nodup_fields b)
  have hname : readName (sorted (b.name.elim .null .str) : Document F) = some b.name := by
    cases heq : b.name with
    | none => rfl
    | some n =>
      obtain ⟨hstrip, hne⟩ := h.name n heq
      change readName (.str n : Document F) = _
      rw [readName, hstrip, if_neg hne]
  have hcount : readCount (sorted (b.mcpServerCount.elim .null ServerCount.document) : Document F) = some b.mcpServerCount := by
    cases b.mcpServerCount with
    | none => rfl
    | some c =>
      cases c with
      | number n =>
        have hnonneg : ¬(n : ℤ) < 0 := by omega
        change readCount (.int n : Document F) = _
        rw [readCount, if_neg hnonneg, Int.toNat_natCast]
      | flag b => rfl
  rw [Binding.toDict, sorted]
  simp only [fromDict, hget, bind_eq_ok, orRaise_eq_ok]
  exact ⟨_, rfl, _, rfl, _, rfl, _, rfl, _, rfl, _, rfl, _, nonBlank_eq_some.mpr ⟨rfl, h.runtimeId⟩, _,
    nonBlank_eq_some.mpr ⟨rfl, h.threadId⟩, _, nonBlank_eq_some.mpr ⟨rfl, h.cwd⟩, _, hname, (b.createdAt, b.lastUsedAt),
    timestamps_eq_ok.mpr ⟨rfl, rfl⟩, _, hcount, _, foldStatus_statusText b.status, _, validateSandbox_sandboxText b.sandbox, _,
    readStatus_statusText .detached, rfl⟩

theorem keyLe_total {β : Type} (f g : Text × β) : (keyLe f g || keyLe g f) = true := Words.textLe_total f.1 g.1

theorem keyLe_trans {β : Type} (f g e : Text × β) (hfg : keyLe f g = true) (hge : keyLe g e = true) : keyLe f e = true :=
  Words.textLe_trans f.1 g.1 e.1 hfg hge

theorem storedRecords_document (I : Interpreter F) (bs : Bindings F) :
    storedRecords I (sorted (document bs)) = some ((bs.mergeSort keyLe).map fun e => (e.1, sorted e.2.toDict)) := by
  have hget := getField_sorted (nodup_documentFields bs)
  have hversion : getField (txt "schema_version") (documentFields bs) = some (.int 1) := rfl
  have hruntimes : getField (txt "runtimes") (documentFields bs) = some (.obj (bs.map fun e => (e.1, e.2.toDict))) := rfl
  rw [document, sorted, storedRecords, hget, hversion, Option.map_some, Option.any_some, if_pos (by rfl), hget, hruntimes, Option.map_some,
    sorted, map_sortedFields]
  have hkey : ∀ e ∈ bs, ∀ e' ∈ bs, keyLe e e' = keyLe (e.1, e.2.toDict) (e'.1, e'.2.toDict) := fun _ _ _ _ => rfl
  rw [← List.map_mergeSort hkey, List.map_map]
  rfl

theorem loadRecords_kept (I : Interpreter F) {bs : Bindings F} (h : Kept bs) :
    loadRecords I (bs.map fun e => (e.1, sorted e.2.toDict)) = .ok (restored bs) := by
  have hrecords : (bs.map fun e => (e.1, sorted e.2.toDict)).mapM (loadRecord I) = .ok (restored bs) := by
    rw [mapM_eq_ok, List.forall₂_map_left_iff, restored, List.forall₂_map_right_iff]
    refine List.forall₂_same.mpr fun e he => ?_
    rw [loadRecord, fromDict_toDict I (h.wellFormed e he)]
    exact if_pos (h.keyed e he)
  have hnodup : ((restored bs).map Prod.fst).Nodup := by
    rw [restored, List.map_map]
    exact h.distinct
  rw [loadRecords, hrecords, Except.map, dictOf_nodup hnodup]

theorem Kept.perm {bs bs' : Bindings F} (h : Kept bs) (hperm : bs'.Perm bs) : Kept bs' := by
  refine ⟨(hperm.map _).nodup_iff.mpr h.distinct, fun e he => h.keyed e (hperm.mem_iff.mp he), fun e he => ?_⟩
  exact h.wellFormed e (hperm.mem_iff.mp he)

/-- A saved map is loaded in the order of its keys, with every runtime detached. -/
theorem load_document (I : Interpreter F) {bs : Bindings F} (h : Kept bs) (hencodable : Encodable bs) :
    load I (some (encoded (dumps I.repr (document bs) ++ txt "\n"))) = .ok (restored (bs.mergeSort keyLe)) := by
  have hrecords := loadRecords_kept I (h.perm (List.mergeSort_perm bs keyLe))
  rw [load, readText_dumps I (readable_document I h) ((isEncodable_document h).mpr hencodable)]
  simp only [loadText, orRaise, bind, Except.bind, jsonLoads_dumps I (readable_document I h), Except.mapError, storedRecords_document, hrecords]

theorem save_eq_ok (I : Interpreter F) {bs : Bindings F} (h : Kept bs) {content : Bytes} :
    save I true bs = .ok content ↔ Encodable bs ∧ content = encoded (dumps I.repr (document bs) ++ txt "\n") := by
  rw [← encode_eq_ok I h, save, bind_eq_ok]
  exact ⟨fun ⟨c, hc, heq⟩ => hc.trans heq, fun hc => ⟨content, hc, rfl⟩⟩

theorem Kept.restored {bs : Bindings F} (h : Kept bs) : Kept (restored bs) := by
  refine ⟨?_, List.forall_mem_map.mpr h.keyed, List.forall_mem_map.mpr fun e he => ?_⟩
  · rw [BindingStore.restored, List.map_map]
    exact h.distinct
  · obtain ⟨hruntime, hthread, hcwd, hname, hcount⟩ := h.wellFormed e he
    exact ⟨hruntime, hthread, hcwd, hname, hcount⟩

theorem encodable_restored {bs : Bindings F} : Encodable (restored bs) ↔ Encodable bs := List.forall_mem_map

theorem Encodable.perm {bs bs' : Bindings F} (h : Encodable bs) (hperm : bs'.Perm bs) : Encodable bs' := fun e he =>
  h e (hperm.mem_iff.mp he)

/-- A map that was loaded is saved and loaded as it is. -/
theorem restored_sorted (bs : Bindings F) : restored ((restored (bs.mergeSort keyLe)).mergeSort keyLe) = restored (bs.mergeSort keyLe) := by
  have hsorted : (restored (bs.mergeSort keyLe)).Pairwise fun e e' => keyLe e e' = true := by
    rw [restored, List.pairwise_map]
    exact List.pairwise_mergeSort keyLe_trans keyLe_total bs
  rw [List.mergeSort_of_pairwise hsorted, restored, restored, List.map_map]
  rfl

/-- What is kept survives exactly when it can be encoded. -/
theorem roundTrips_iff (I : Interpreter F) {bs : Bindings F} (h : Kept bs) : RoundTrips I bs ↔ Encodable bs := by
  have hperm := List.mergeSort_perm bs keyLe
  constructor
  · rintro ⟨content, -, -, hsave, -⟩
    exact ((save_eq_ok I h).mp hsave).1
  · intro hencodable
    have hkept := (h.perm hperm).restored
    have hencodable' := encodable_restored.mpr (hencodable.perm hperm)
    refine ⟨_, _, _, (save_eq_ok I h).mpr ⟨hencodable, rfl⟩, load_document I h hencodable, hperm.map _,
      (save_eq_ok I hkept).mpr ⟨hencodable', rfl⟩, ?_⟩
    rw [load_document I hkept hencodable', restored_sorted]

/-! ## Bindings that are loaded -/

theorem strip_strip (t : Text) : strip (strip t) = strip t := by
  have hstrip : ∀ u, strip u = (u.dropWhile Words.isSpace).rdropWhile Words.isSpace := fun _ => rfl
  have hfront : (strip t).dropWhile Words.isSpace = strip t := by
    cases hs : strip t with
    | nil => rfl
    | cons c u =>
      -- what is dropped at the end leaves the front as it is
      obtain ⟨v, hv⟩ := List.rdropWhile_prefix Words.isSpace (t.dropWhile Words.isSpace)
      have hhead := List.head?_dropWhile_not Words.isSpace t
      rw [← hv, ← hstrip, hs] at hhead
      exact List.dropWhile_cons_of_neg (Bool.eq_false_iff.mp hhead)
  rw [hstrip (strip t), hfront, hstrip, List.rdropWhile_idempotent]

theorem loadRecord_eq_ok {I : Interpreter F} {record : Text × Document F} {e : Text × Binding F}
    (h : loadRecord I record = .ok e) : e.1 = record.1 ∧ e.1 = e.2.runtimeId ∧ ∃ fields, record.2 = .obj fields ∧ ReadFrom I fields e.2 := by
  obtain ⟨b, hb, h⟩ := bind_eq_ok.mp h
  split at h
  · next hkey =>
    cases h
    refine ⟨rfl, hkey, ?_⟩
    cases hd : record.2 with
    | obj fields => exact ⟨fields, rfl, fromDict_readFrom (hd ▸ hb)⟩
    | _ =>
      rw [hd] at hb
      cases hb
  · cases h

/-- A record is accepted exactly when it is well formed under its key. -/
theorem loadRecord_accepts {I : Interpreter F} {record : Text × Document F} :
    (∃ e, loadRecord I record = .ok e) ↔ ∃ fields, record.2 = .obj fields ∧ WellFormedRecord I record.1 fields := by
  constructor
  · rintro ⟨e, he⟩
    obtain ⟨hkey, hruntime, fields, hfields, hread⟩ := loadRecord_eq_ok he
    have hrecord := hread.record
    rw [← hruntime, hkey] at hrecord
    exact ⟨fields, hfields, hrecord⟩
  · rintro ⟨fields, hfields, hwell⟩
    obtain ⟨b, hb, hkey⟩ := fromDict_wellFormed hwell
    refine ⟨(record.1, b), bind_eq_ok.mpr ⟨b, hfields ▸ hb, ?_⟩⟩
    rw [if_pos hkey.symm]
    rfl

theorem loadRecord_overflow {I : Interpreter F} {record : Text × Document F} :
    loadRecord I record = .error .overflowError ↔ ∃ fields, record.2 = .obj fields ∧ Overflows I fields := by
  have hkey : ∀ b : Binding F, (if record.1 = b.runtimeId then pure (record.1, b) else throw .valueError : Except Raised (Text × Binding F)) ≠
      .error .overflowError := fun b => by split <;> exact fun h => by cases h
  rw [loadRecord, bind_eq_error]
  simp only [hkey, and_false, exists_false, or_false]
  cases record.2 with
  | obj fields =>
    rw [fromDict_overflow]
    exact ⟨fun h => ⟨fields, rfl, h⟩, fun ⟨fs, heq, h⟩ => by cases heq; exact h⟩
  | _ => simp [fromDict]

/-- The errors that a record can raise. -/
def RecordError (e : Raised) : Prop := e = .typeError ∨ e = .valueError ∨ e = .overflowError

theorem orRaise_raises {o : Option α} : Raises (orRaise .valueError o) RecordError := fun _ h =>
  .inr (.inl (orRaise_eq_error.mp h).2.symm)

theorem timestamps_raises {I : Interpreter F} {c l : Document F} : Raises (timestamps I c l) RecordError := by
  intro e h
  obtain ⟨e', he', rfl⟩ := mapError_error_iff.mp h
  have hfloats : Raises (do
      let createdAt ← toFloat I c
      let lastUsedAt ← toFloat I l
      pure (createdAt, lastUsedAt)) RecordError :=
    Raises.bind (fun _ => toFloat_error) fun _ => Raises.bind (fun _ => toFloat_error) fun _ => raises_pure
  obtain rfl | rfl | rfl := hfloats e' he'
  · exact .inr (.inl rfl)
  · exact .inr (.inl rfl)
  · exact .inr (.inr rfl)

theorem foldStatus_raises {d : Document F} : Raises (foldStatus d) RecordError := by
  intro e h
  cases d with
  | arr items => exact .inl (Except.error.inj h).symm
  | obj fields => exact .inl (Except.error.inj h).symm
  | _ => cases h

theorem fromDict_raises {I : Interpreter F} (d : Document F) : Raises (fromDict I d) RecordError := by
  cases d with
  | obj fields =>
    -- the six required fields, then the texts and the name
    refine orRaise_raises.bind fun _ => orRaise_raises.bind fun _ => orRaise_raises.bind fun _ => orRaise_raises.bind fun _ =>
      orRaise_raises.bind fun _ => orRaise_raises.bind fun _ => ?_
    refine orRaise_raises.bind fun _ => orRaise_raises.bind fun _ => orRaise_raises.bind fun _ => orRaise_raises.bind fun _ => ?_
    refine timestamps_raises.bind fun _ => orRaise_raises.bind fun _ => foldStatus_raises.bind fun _ => ?_
    exact orRaise_raises.bind fun _ => orRaise_raises.bind fun _ => raises_pure
  | _ => exact fun e h => .inr (.inl (Except.error.inj h).symm)

theorem loadRecords_raises {I : Interpreter F} (records : List (Text × Document F)) : Raises (loadRecords I records) RecordError := by
  have hrecord : ∀ r, Raises (loadRecord I r) RecordError := fun r => (fromDict_raises r.2).bind fun b _ h => by
    split at h
    · cases h
    · exact .inr (.inl (Except.error.inj h).symm)
  exact fun e h => raises_mapM hrecord records e (map_error_iff.mp h)

theorem loadRecords_overflow {I : Interpreter F} {records : List (Text × Document F)} :
    loadRecords I records = .error .overflowError ↔ ∃ before key fields after, records = before ++ (key, .obj fields) :: after ∧
      (∀ r ∈ before, ∃ fs, r.2 = .obj fs ∧ WellFormedRecord I r.1 fs) ∧ Overflows I fields := by
  rw [loadRecords, map_error_iff, mapM_eq_error]
  simp only [loadRecord_accepts, loadRecord_overflow]
  constructor
  · rintro ⟨before, ⟨key, d⟩, after, heq, hbefore, fields, rfl, hover⟩
    exact ⟨before, key, fields, after, heq, hbefore, hover⟩
  · rintro ⟨before, key, fields, after, heq, hbefore, hover⟩
    exact ⟨before, (key, .obj fields), after, heq, hbefore, fields, rfl, hover⟩

theorem mem_of_loadRecords {I : Interpreter F} {records : List (Text × Document F)} {bs : Bindings F}
    (h : loadRecords I records = .ok bs) {e : Text × Binding F} (he : e ∈ bs) : ∃ r ∈ records, loadRecord I r = .ok e := by
  obtain ⟨es, hes, rfl⟩ := map_ok_iff.mp h
  exact forall₂_exists_left (mapM_eq_ok.mp hes) e (mem_dictOf he)

theorem ReadFrom.wellFormed {I : Interpreter F} {fields : List (Text × Document F)} {b : Binding F} (h : ReadFrom I fields b) {depth : ℕ}
    (hdepth : Readable depth (.obj fields)) : b.WellFormed := by
  refine ⟨?_, h.threadId, h.cwd, fun n hn => ?_, ?_⟩
  · obtain ⟨t, ht, hne⟩ := h.record.named.runtimeId
    cases h.record.key_eq.symm.trans ht
    exact hne
  · obtain ⟨t, rfl, hne⟩ := h.name n hn
    exact ⟨strip_strip t, hne⟩
  · cases hc : b.mcpServerCount with
    | none => rfl
    | some c =>
      cases c with
      | flag v => rfl
      | number n =>
        obtain ⟨k, hk⟩ := hdepth.field (h.mcpServerCount n hc)
        have hshort : (decimal (n : ℤ).natAbs).length ≤ maxStrDigits := by cases k <;> exact hk
        exact decide_eq_true hshort

theorem mem_of_storedRecords {I : Interpreter F} {stored : Document F} {records : List (Text × Document F)}
    (h : storedRecords I stored = some records) {depth : ℕ} (hdepth : Readable depth stored) {r : Text × Document F} (hr : r ∈ records) :
    ∃ k, Readable k r.2 := by
  cases stored with
  | obj fields =>
    rw [storedRecords] at h
    split at h
    · split at h
      · cases h
        exact absurd hr List.not_mem_nil
      · next rs hrs =>
        cases h
        obtain ⟨k, hk⟩ := hdepth.field hrs
        cases k with
        | zero => exact hk.elim
        | succ k => exact ⟨k, hk.2 r hr⟩
      · cases h
    · cases h
  | _ => cases h

/-- What is loaded is kept. -/
theorem load_kept {I : Interpreter F} {content : Option Bytes} {bs : Bindings F} (h : load I content = .ok bs) : Kept bs := by
  cases content with
  | none =>
    cases h
    exact ⟨List.nodup_nil, List.forall_mem_nil _, List.forall_mem_nil _⟩
  | some bytes =>
    obtain ⟨raw, -, h⟩ := bind_eq_ok.mp h
    obtain ⟨stored, hstored, h⟩ := bind_eq_ok.mp h
    obtain ⟨records, hrecords, h⟩ := bind_eq_ok.mp h
    have hreadable := jsonLoads_readable ((mapError_ok_iff _).mp hstored)
    have hloaded := (mapError_ok_iff _).mp h
    have hrecord : ∀ e ∈ bs, e.1 = e.2.runtimeId ∧ e.2.WellFormed := fun e he => by
      obtain ⟨r, hr, hre⟩ := mem_of_loadRecords hloaded he
      obtain ⟨-, hkey, fields, hfields, hread⟩ := loadRecord_eq_ok hre
      obtain ⟨k, hk⟩ := mem_of_storedRecords (orRaise_eq_ok.mp hrecords) hreadable hr
      rw [hfields] at hk
      exact ⟨hkey, hread.wellFormed hk⟩
    obtain ⟨es, -, rfl⟩ := map_ok_iff.mp hloaded
    exact ⟨nodup_dictOf es, fun e he => (hrecord e he).1, fun e he => (hrecord e he).2⟩

/-- The load returns a map under the ids of its runtimes, or raises a `BindingStoreError`. -/
def Survives (I : Interpreter F) (content : Option Bytes) : Prop :=
  load I content = .error .bindingStore ∨ ∃ bs, load I content = .ok bs ∧ ∀ e ∈ bs, e.1 = e.2.runtimeId

/-- A text that JSON reads without running out of digits or of depth, and whose first bad record
is not one that overflows. -/
structure LoadableText (I : Interpreter F) (text : Text) : Prop where
  digits : jsonLoads I text ≠ .error .valueError
  nesting : jsonLoads I text ≠ .error .recursionError
  timestamps : ∀ stored records, jsonLoads I text = .ok stored → storedRecords I stored = some records →
    ∀ before key fields after, records = before ++ (key, .obj fields) :: after →
      (∀ r ∈ before, ∃ fs, r.2 = .obj fs ∧ WellFormedRecord I r.1 fs) → ¬Overflows I fields

def Loadable (I : Interpreter F) (content : Option Bytes) : Prop :=
  ∀ bytes text, content = some bytes → readText bytes = some text → LoadableText I text

theorem survives_iff_raises (I : Interpreter F) (content : Option Bytes) :
    Survives I content ↔ Raises (load I content) fun e => e = .bindingStore := by
  rw [Survives]
  cases h : load I content with
  | error e => simp [Raises]
  | ok bs => exact iff_of_true (.inr ⟨bs, rfl, (load_kept h).keyed⟩) fun e he => by cases he

theorem loadRecords_survives {I : Interpreter F} {records : List (Text × Document F)} :
    Raises ((loadRecords I records).mapError recordError) (fun e => e = .bindingStore) ↔
      ∀ before key fields after, records = before ++ (key, .obj fields) :: after →
        (∀ r ∈ before, ∃ fs, r.2 = .obj fs ∧ WellFormedRecord I r.1 fs) → ¬Overflows I fields := by
  have hover : Raises ((loadRecords I records).mapError recordError) (fun e => e = .bindingStore) ↔
      ¬loadRecords I records = .error .overflowError := by
    constructor
    · intro h hover
      exact absurd (h .overflowError (mapError_error_iff.mpr ⟨_, hover, rfl⟩)) (by decide)
    · intro h e he
      obtain ⟨e', he', rfl⟩ := mapError_error_iff.mp he
      obtain rfl | rfl | rfl := loadRecords_raises records e' he'
      · rfl
      · rfl
      · exact absurd he' h
  rw [hover, loadRecords_overflow]
  simp only [not_exists, not_and]

theorem loadText_survives (I : Interpreter F) (text : Text) :
    Raises (loadText I text) (fun e => e = .bindingStore) ↔ LoadableText I text := by
  cases hjson : jsonLoads I text with
  | error e =>
    have hload : loadText I text = .error (documentError e) := by
      rw [loadText, hjson]
      rfl
    rw [hload]
    cases e with
    | jsonDecodeError =>
      refine iff_of_true (fun e he => (Except.error.inj he).symm) ⟨?_, ?_, ?_⟩
      · rw [hjson]
        exact fun h => by cases h
      · rw [hjson]
        exact fun h => by cases h
      · intro stored records hok
        cases hjson.symm.trans hok
    | valueError => exact iff_of_false (fun h => absurd (h _ rfl) (by decide)) fun h => h.digits hjson
    | recursionError => exact iff_of_false (fun h => absurd (h _ rfl) (by decide)) fun h => h.nesting hjson
  | ok stored =>
    have hload : loadText I text = (orRaise .bindingStore (storedRecords I stored) >>= fun records =>
        (loadRecords I records).mapError recordError) := by
      rw [loadText, hjson]
      rfl
    have hloadable : LoadableText I text ↔ ∀ records, storedRecords I stored = some records → ∀ before key fields after,
        records = before ++ (key, .obj fields) :: after →
          (∀ r ∈ before, ∃ fs, r.2 = .obj fs ∧ WellFormedRecord I r.1 fs) → ¬Overflows I fields := by
      constructor
      · exact fun h records => h.timestamps stored records hjson
      · intro h
        refine ⟨?_, ?_, fun stored' records hok => ?_⟩
        · rw [hjson]
          exact fun h => by cases h
        · rw [hjson]
          exact fun h => by cases h
        · cases hjson.symm.trans hok
          exact h records
    rw [hload, hloadable]
    cases storedRecords I stored with
    | none => exact iff_of_true (fun e he => (Except.error.inj he).symm) fun records hnone => by cases hnone
    | some records =>
      simp only [Option.some.injEq, forall_eq']
      exact loadRecords_survives

/-- A load survives exactly the contents that are loadable. -/
theorem survives_iff (I : Interpreter F) (content : Option Bytes) : Survives I content ↔ Loadable I content := by
  rw [survives_iff_raises]
  cases content with
  | none => exact iff_of_true (fun e he => by cases he) fun bytes text hnone => by cases hnone
  | some bytes =>
    cases htext : readText bytes with
    | none =>
      have hload : load I (some bytes) = .error .bindingStore := by
        rw [load, htext]
        rfl
      rw [hload]
      refine iff_of_true (fun e he => (Except.error.inj he).symm) fun bytes' text heq hsome => ?_
      cases heq
      cases htext.symm.trans hsome
    | some text =>
      have hload : load I (some bytes) = loadText I text := by
        rw [load, htext]
        rfl
      rw [hload, loadText_survives]
      constructor
      · intro h bytes' text' heq hsome
        cases heq
        cases htext.symm.trans hsome
        exact h
      · exact fun h => h bytes text rfl htext

end WebOauthMcp.BindingStore
