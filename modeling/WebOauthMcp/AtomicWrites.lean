import WebOauthMcp.RelyGuarantee
import WebOauthMcp.ReplaceFiles

/-!
# Atomic writes and their descriptors

The threads of the server share one table of open descriptors. A number that was freed may be handed
out again at once, so a thread that closes a number closes whatever stands under it. A descriptor is
known by the thread that opened it and by how many that thread had opened before. What a thread writes
to are the files whose locks it holds; a temporary file is known by the descriptor that created it.
-/

namespace WebOauthMcp.AtomicWrites
open CodePoints Words BudgetMetadata ContentIo FaultyPrograms RelyGuarantee
open ReplaceFiles (Path Node Plan Report ReplaceError Commit rollbackError)

variable {ι α : Type}

abbrev Descriptor (ι : Type) := ι × ℕ

/-- A call of `_atomic_write` as it begins: its arguments, what the target holds, and how many
descriptors its thread has opened so far. -/
structure Entry where
  path : Path
  raw : Bytes
  mode : ℕ
  old : Node
  first : ℕ

/-- The same call when it returned or raised. -/
structure Call extends Entry where
  last : ℕ
  left : Node
  result : Except Text Unit

structure Own where
  opened : ℕ
  temps : ℕ → Node
  targets : Path → Node
  calls : List Call

def Own.setTemp (o : Own) (k : ℕ) (node : Node) : Own := { o with temps := Function.update o.temps k node }

@[simp] theorem setTemp_self (o : Own) (k : ℕ) (node : Node) : (o.setTemp k node).temps k = node := by
  simp only [Own.setTemp, Function.update_self]

@[simp] theorem setTemp_of_ne (o : Own) {j k : ℕ} (hne : j ≠ k) (node : Node) :
    (o.setTemp k node).temps j = o.temps j := by
  simp only [Own.setTemp, Function.update_of_ne hne]

structure World (ι : Type) where
  table : ℕ → Option (Descriptor ι)
  closers : Descriptor ι → List ι
  own : ι → Own

/-- What the operating system decides about a call: whether it fails, the number of a new descriptor,
and what a write that fails has left in the file. -/
structure Choice where
  failure : Option Text
  number : ℕ
  short : Bytes

inductive Label (ι : Type)
  | opens
  | errorClose (i : ι) (n : ℕ)
  | plain

/-- A new descriptor has a number that is free. -/
def Kernel : Label ι → World ι → Choice → Prop
  | .opens, s, f => f.failure = none → s.table f.number = none
  | .errorClose _ _, _, _ => True
  | .plain, _, _ => True

/-- An answer, if nothing fails. -/
def Choice.answer (f : Choice) (r : Except Text α) : Except Text α :=
  match f.failure with
  | some reason => .error reason
  | none => r

/-- An effect, if nothing fails. -/
def Choice.effect (f : Choice) (r : Except Text (World ι)) (s : World ι) : World ι :=
  match f.answer r with
  | .ok s' => s'
  | .error _ => s

section
variable {f : Choice} {s : World ι}

@[simp] theorem answer_failed {reason : Text} (hf : f.failure = some reason) (r : Except Text α) :
    f.answer r = .error reason := by
  rw [Choice.answer, hf]

@[simp] theorem answer_done (hf : f.failure = none) (r : Except Text α) : f.answer r = r := by
  rw [Choice.answer, hf]

@[simp] theorem effect_failed {reason : Text} (hf : f.failure = some reason) (r : Except Text (World ι)) :
    f.effect r s = s := by
  rw [Choice.effect, answer_failed hf]

@[simp] theorem effect_done (hf : f.failure = none) (s' : World ι) : f.effect (.ok s') s = s' := by
  rw [Choice.effect, answer_done hf]

@[simp] theorem effect_refused {reason : Text} : f.effect (.error reason) s = s := by
  cases hf : f.failure with
  | some _ => exact effect_failed hf _
  | none => rw [Choice.effect, answer_done hf]

end

def descriptorOf (s : World ι) (n : ℕ) : Except Text (Descriptor ι) :=
  match s.table n with
  | none => .error (txt "Bad file descriptor")
  | some d => .ok d

section
variable [DecidableEq ι]

/-- The error path does not close a number that stands for the descriptor of another thread. -/
def Spared : Label ι → World ι → Choice → Prop
  | .opens, _, _ => True
  | .errorClose i n, s, _ => (s.table n).all (fun d => decide (d.1 = i)) = true
  | .plain, _, _ => True

instance : ∀ (l : Label ι) (s : World ι) (f : Choice), Decidable (Kernel l s f)
  | .opens, s, f => inferInstanceAs (Decidable (f.failure = none → s.table f.number = none))
  | .errorClose _ _, _, _ => isTrue trivial
  | .plain, _, _ => isTrue trivial

instance : ∀ (l : Label ι) (s : World ι) (f : Choice), Decidable (Spared l s f)
  | .opens, _, _ => isTrue trivial
  | .errorClose i n, s, _ => inferInstanceAs (Decidable ((s.table n).all (fun d => decide (d.1 = i)) = true))
  | .plain, _, _ => isTrue trivial

def World.setOwn (s : World ι) (i : ι) (o : Own) : World ι := { s with own := Function.update s.own i o }

/-- A new descriptor of `i`, and what the temporary file of that descriptor holds. -/
def World.open (s : World ι) (i : ι) (n : ℕ) (node : Node) : World ι where
  table := Function.update s.table n (some (i, (s.own i).opened))
  closers := s.closers
  own := Function.update s.own i { s.own i with
    opened := (s.own i).opened + 1
    temps := Function.update (s.own i).temps (s.own i).opened node }

/-- `close` of a number by `i`. -/
def World.close (s : World ι) (i : ι) (n : ℕ) : World ι :=
  match s.table n with
  | none => s
  | some d => { s with
    table := Function.update s.table n none
    closers := Function.update s.closers d (s.closers d ++ [i]) }

/-- A change of the file that a number stands for. -/
def World.through (s : World ι) (n : ℕ) (change : Node → Node) : World ι :=
  match s.table n with
  | none => s
  | some d => s.setOwn d.1 ((s.own d.1).setTemp d.2 (change ((s.own d.1).temps d.2)))

def withMode (mode : ℕ) : Node → Node
  | .file raw _ => .file raw mode
  | node => node

def withRaw (raw : Bytes) : Node → Node
  | .file _ mode => .file raw mode
  | node => node

/-- `os.replace` of a temporary file. -/
def Own.rename (o : Own) (k : ℕ) (path : Path) : Except Text Own :=
  match o.targets path, o.temps k with
  | .other, _ => .error (txt "Is a directory")
  | _, .file raw mode => .ok { o.setTemp k .missing with targets := Function.update o.targets path (.file raw mode) }
  | _, _ => .error (txt "No such file or directory")

theorem rename_other {o : Own} {k : ℕ} {path : Path} (htarget : o.targets path = .other) :
    o.rename k path = .error (txt "Is a directory") := by
  rw [Own.rename, htarget]

theorem rename_file {o : Own} {k : ℕ} {path : Path} {raw : Bytes} {mode : ℕ} (htarget : o.targets path ≠ .other)
    (htemp : o.temps k = .file raw mode) : o.rename k path =
      .ok { o.setTemp k .missing with targets := Function.update o.targets path (.file raw mode) } := by
  rw [Own.rename, htemp]
  cases hnode : o.targets path with
  | missing => rfl
  | other => exact absurd hnode htarget
  | file _ _ => rfl

/-! ## System calls -/

abbrev Syscall (ι : Type) := Action (Label ι) (World ι) Choice Text

def syscall (l : Label ι) (change : Choice → World ι → World ι) (answer : Choice → World ι → Except Text α) :
    Syscall ι α := ExceptT.mk (.access l change fun f s => .done (answer f s))

/-- `tempfile.mkstemp`: the number of the descriptor, and the temporary file. -/
def mkstemp (i : ι) : Syscall ι (ℕ × ℕ) :=
  syscall .opens (fun f s => f.effect (.ok (s.open i f.number (.file [] 0o600))) s)
    fun f s => f.answer (.ok (f.number, (s.own i).opened))

/-- `os.open` or `open` for reading, unless the path is refused. -/
def opens (i : ι) (refused : Own → Except Text Unit) : Syscall ι ℕ :=
  syscall .opens (fun f s => f.effect ((refused (s.own i)).map fun _ => s.open i f.number .missing) s)
    fun f s => f.answer ((refused (s.own i)).map fun _ => f.number)

/-- `os.fchmod`. -/
def fchmod (n mode : ℕ) : Syscall ι Unit :=
  syscall .plain (fun f s => f.effect (.ok (s.through n (withMode mode))) s)
    fun f s => f.answer ((descriptorOf s n).map fun _ => ())

/-- `handle.write` and `handle.flush`. -/
def write (n : ℕ) (raw : Bytes) : Syscall ι Unit :=
  syscall .plain (fun f s => s.through n (withRaw (if f.failure.isSome then f.short else raw)))
    fun f s => f.answer ((descriptorOf s n).map fun _ => ())

/-- `os.fsync`. -/
def fsync (n : ℕ) : Syscall ι Unit :=
  syscall .plain (fun _ s => s) fun f s => f.answer ((descriptorOf s n).map fun _ => ())

/-- `os.close`, which frees the number also when it reports an error. -/
def osClose (l : Label ι) (i : ι) (n : ℕ) : Syscall ι Unit :=
  syscall l (fun _ s => s.close i n) fun f s => f.answer ((descriptorOf s n).map fun _ => ())

/-- `os.replace`. -/
def replace (i : ι) (k : ℕ) (path : Path) : Syscall ι Unit :=
  syscall .plain (fun f s => f.effect (((s.own i).rename k path).map (s.setOwn i)) s)
    fun f s => f.answer (((s.own i).rename k path).map fun _ => ())

/-- `temp_path.unlink()`, where a file that is missing is no error. -/
def unlink (i : ι) (k : ℕ) : Syscall ι Unit :=
  syscall .plain (fun _ s => s.setOwn i ((s.own i).setTemp k .missing)) fun _ _ => .ok ()

def contents : Node → Except Text Bytes
  | .file raw _ => .ok raw
  | _ => .error (txt "Is a directory or missing")

def readFile (i : ι) (path : Path) : Syscall ι Bytes :=
  syscall .plain (fun _ s => s) fun f s => f.answer (contents ((s.own i).targets path))

/-- A `with` or a `finally` that closes the descriptor. -/
def closing (i : ι) (n : ℕ) (body : Syscall ι α) : Syscall ι α := do
  let r ← attempt body
  osClose .plain i n
  fromExcept r

/-- `path.read_bytes()`. -/
def readBytes (i : ι) (path : Path) : Syscall ι Bytes := do
  let n ← opens i fun o => (contents (o.targets path)).map fun _ => ()
  closing i n (readFile i path)

/-! ## `_atomic_write` -/

/-- What stands under its `try`. The file object closes the descriptor of the temporary file. -/
def fill (i : ι) (n k : ℕ) (path : Path) (raw : Bytes) (mode : ℕ) : Syscall ι Unit := do
  fchmod n mode
  closing i n (do
    write n raw
    fsync n)
  replace i k path
  let directory ← opens i fun _ => .ok ()
  closing i directory (fsync directory)

/-- What stands under its `except`. The number is closed once more if the file object has closed it. -/
def giveUp (i : ι) (n k : ℕ) : Syscall ι Unit := do
  let _ ← attempt (osClose (.errorClose i n) i n)
  unlink i k

def writeTemp (i : ι) (path : Path) (raw : Bytes) (mode : ℕ) : Syscall ι Unit := do
  let made ← mkstemp i
  let r ← attempt (fill i made.1 made.2 path raw mode)
  match r with
  | .ok _ => pure ()
  | .error reason => do
    giveUp i made.1 made.2
    throw reason

def enter (i : ι) (path : Path) (raw : Bytes) (mode : ℕ) : Syscall ι Entry :=
  syscall .plain (fun _ s => s) fun _ s => .ok ⟨path, raw, mode, (s.own i).targets path, (s.own i).opened⟩

def Own.leave (o : Own) (e : Entry) (r : Except Text Unit) : Own :=
  { o with calls := o.calls ++ [⟨e, o.opened, o.targets e.path, r⟩] }

def leave (i : ι) (e : Entry) (r : Except Text Unit) : Syscall ι Unit :=
  syscall .plain (fun _ s => s.setOwn i ((s.own i).leave e r)) fun _ _ => .ok ()

/-- `_atomic_write`, and the record of the call, which the code does not keep. -/
def atomicWrite (i : ι) (path : Path) (raw : Bytes) (mode : ℕ) : Syscall ι Unit := do
  let e ← enter i path raw mode
  let r ← attempt (writeTemp i path raw mode)
  leave i e r
  fromExcept r

/-! ## Its use by `replace_files` -/

abbrev Program (ι : Type) := Prog (Label ι) (World ι) Choice

def verify (revision : Bytes → Text) (raw : Bytes) (expected message : Text) : Syscall ι Unit :=
  if revision raw = expected then pure () else throw message

/-- An atomic write and the check of what it wrote. -/
def writeVerified (i : ι) (revision : Bytes → Text) (path : Path) (raw : Bytes) (mode : ℕ) (expected message : Text) :
    Syscall ι Unit := do
  atomicWrite i path raw mode
  let back ← readBytes i path
  verify revision back expected message

def afterWrite (attempted : List Plan) (next : Syscall ι Unit) (rest : Program ι Commit) : Program ι Commit := do
  let r ← next.run
  match r with
  | .error reason => pure ⟨attempted, some reason⟩
  | .ok _ => rest

/-- The loop over the plans. -/
def commitPlans (i : ι) (revision : Bytes → Text) : List Plan → List Plan → Program ι Commit
  | [], attempted => pure ⟨attempted, none⟩
  | plan :: plans, attempted =>
    if plan.changed then
      afterWrite (attempted ++ [plan])
        (writeVerified i revision plan.path plan.afterRaw plan.mode plan.afterRevision
          (txt "post-write revision verification failed for " ++ plan.path))
        (commitPlans i revision plans (attempted ++ [plan]))
    else commitPlans i revision plans attempted

/-- The loop over what was attempted, last one first. -/
def rollBack (i : ι) (revision : Bytes → Text) : List Plan → Program ι (List Text)
  | [] => pure []
  | plan :: plans => do
    let r ← (writeVerified i revision plan.path plan.beforeRaw plan.mode plan.beforeRevision
      (txt "rollback revision verification failed")).run
    let errors ← rollBack i revision plans
    pure (rollbackError plan.path r ++ errors)

/-- The part of `replace_files` that writes. -/
def writePlans (i : ι) (revision : Bytes → Text) (plans : List Plan) (report : Report) :
    Program ι (Except ReplaceError Report) := do
  let commit ← commitPlans i revision plans []
  match commit.failure with
  | none => pure (.ok report)
  | some reason => do
    let errors ← rollBack i revision commit.attempted.reverse
    pure (.error (.writeFailed reason errors))

/-! ## The threads of the server -/

/-- What another tool does with descriptors: it opens some, and closes numbers that are its own. -/
inductive Tool
  | finished
  | opens (next : Except Text ℕ → Tool)
  | closes (n : ℕ) (next : Tool)

/-- A number is closed by its owner only. -/
def closeOwn (i : ι) (n : ℕ) : Syscall ι Unit :=
  syscall .plain (fun _ s => if (s.table n).any (fun d => decide (d.1 = i)) then s.close i n else s) fun _ _ => .ok ()

def Tool.program (i : ι) : Tool → Program ι Unit
  | .finished => pure ()
  | .opens next => do
    let r ← (AtomicWrites.opens i fun _ => .ok ()).run
    (next r).program i
  | .closes n next => do
    let _ ← (closeOwn i n).run
    next.program i

inductive Job
  | replace (revision : Bytes → Text) (plans : List Plan) (report : Report)
  | tool (t : Tool)

/-- What a job has answered: for a tool it does not matter. -/
abbrev Reply := Option (Except ReplaceError Report)

def Job.program (i : ι) : Job → Program ι Reply
  | .replace revision plans report => do
    let r ← writePlans i revision plans report
    pure (some r)
  | .tool t => do
    t.program i
    pure none

end

def Own.start (targets : Path → Node) : Own := ⟨0, fun _ => .missing, targets, []⟩

/-- No descriptor of the threads is open; their files are as they are. -/
def start [DecidableEq ι] (jobs : ι → Job) (targets : ι → Path → Node) :
    System ι (Label ι) (World ι) Choice Reply where
  state := ⟨fun _ => none, fun _ => [], fun i => Own.start (targets i)⟩
  rest i := (jobs i).program i

/-! ## Descriptor hygiene -/

/-- A call that has ended closed each of its descriptors once, and left no temporary file. Its target
holds the old bytes or the new ones, and the new ones if it did not raise. -/
structure Call.Clean (i : ι) (s : World ι) (c : Call) : Prop where
  closed : ∀ k, c.first ≤ k → k < c.last → s.closers (i, k) = [i]
  removed : ∀ k, c.first ≤ k → k < c.last → (s.own i).temps k = .missing
  kept : c.left = c.old ∨ c.left = .file c.raw c.mode
  landed : c.result = .ok () → c.left = .file c.raw c.mode

/-- What is asked of every state: each descriptor was closed at most once, by the thread that opened it;
all calls that have ended are clean; and when `replace_files` is over, no descriptor is open and no
temporary file is left. -/
structure Hygienic (jobs : ι → Job) (p : System ι (Label ι) (World ι) Choice Reply) : Prop where
  once : ∀ i k, p.state.closers (i, k) = [] ∨ p.state.closers (i, k) = [i]
  calls : ∀ i, ∀ c ∈ (p.state.own i).calls, c.Clean i p.state
  returned : ∀ i revision plans report r, jobs i = .replace revision plans report → p.result i = some r →
    ∀ k < (p.state.own i).opened, p.state.closers (i, k) = [i] ∧ (p.state.own i).temps k = .missing

end WebOauthMcp.AtomicWrites
