import Mathlib.Data.List.TakeWhile
import WebOauthMcp.ExceptSteps
import WebOauthMcp.JsonText
import WebOauthMcp.UnicodeCodecs

/-!
# Reading JSON

The reader of `json.loads`, and the printer of `json.dumps` for documents whose floats may
be out of range. The floats of the interpreter are a parameter: what is used of them is that
a printed float is read back. A document that is printed and read again comes back with the
keys of its objects sorted.
-/

namespace WebOauthMcp.JsonDecoding
open CodePoints Words JsonText UnicodeCodecs ExceptSteps

/-- A float: a finite one, or one of the constants. -/
inductive FloatValue (F : Type)
  | finite (x : F)
  | nan
  | infinity
  | negInfinity
  deriving DecidableEq

inductive Document (F : Type)
  | null
  | bool (b : Bool)
  | int (i : ℤ)
  | float (x : FloatValue F)
  | str (t : Text)
  | arr (items : List (Document F))
  | obj (fields : List (Text × Document F))

/-- What `json.loads` raises. The `ValueError` is that of an integer with too many digits. -/
inductive DecodeError
  | jsonDecodeError
  | valueError
  | recursionError
  deriving DecidableEq

/-! ## Numbers -/

def isDigit (c : CodePoint) : Bool := 0x30 ≤ c.val && c.val ≤ 0x39

def zeroDigit : CodePoint := 0x30
def minusSign : CodePoint := 0x2D
def plusSign : CodePoint := 0x2B
def decimalPoint : CodePoint := 0x2E

def isExponentMark (c : CodePoint) : Bool := c.val == 0x65 || c.val == 0x45

/-- The sign of a number in front of its digits. -/
def IsSign (t : Text) : Prop := t = [] ∨ t = [minusSign]

/-- The digits of an integer. -/
def IsInteger (t : Text) : Prop := t = [zeroDigit] ∨ ∃ d ds, t = d :: ds ∧ d ≠ zeroDigit ∧ ∀ c ∈ t, isDigit c = true

def IsFraction (t : Text) : Prop := t = [] ∨ ∃ d ds, t = decimalPoint :: d :: ds ∧ ∀ c ∈ d :: ds, isDigit c = true

def IsExponent (t : Text) : Prop :=
  t = [] ∨ ∃ mark sign d ds, t = mark :: (sign ++ d :: ds) ∧ isExponentMark mark = true ∧
    (sign = [plusSign] ∨ IsSign sign) ∧ ∀ c ∈ d :: ds, isDigit c = true

def FloatLiteral (t : Text) : Prop :=
  ∃ sign digits fraction exponent, t = sign ++ (digits ++ (fraction ++ exponent)) ∧ IsSign sign ∧ IsInteger digits ∧
    IsFraction fraction ∧ IsExponent exponent ∧ (fraction ≠ [] ∨ exponent ≠ [])

/-- The integers from here on round to no float. -/
@[irreducible] def overflowBound : ℕ := 2 ^ 1024 - 2 ^ 970

/-- Floats, and how far the interpreter goes. -/
structure Interpreter (F : Type) where
  /-- `float.__repr__` -/
  repr : F → Text
  /-- `float` of a number literal -/
  literal : Text → FloatValue F
  /-- `float` of a text; `none` is the `ValueError` -/
  ofText : Text → Option (FloatValue F)
  /-- `float` of an integer; `none` is the `OverflowError` -/
  ofInt : ℤ → Option F
  /-- `x == 1` -/
  isOne : F → Bool
  recursionLimit : ℕ
  repr_literal : ∀ x, FloatLiteral (repr x)
  literal_repr : ∀ x, literal (repr x) = .finite x
  ofInt_eq_none : ∀ i, ofInt i = none ↔ overflowBound ≤ i.natAbs
  nested : 3 ≤ recursionLimit

/-- `sys.int_info.default_max_str_digits` -/
def maxStrDigits : ℕ := 4300

def natOf (ds : Text) : ℕ := ds.foldl (fun n c => 10 * n + (c.val - 0x30)) 0

/-- A part of a number, and what follows it. -/
abbrev Part := Text × Text

def scanDigits (t : Text) : Part := (t.takeWhile isDigit, t.dropWhile isDigit)

def scanSign : Text → Part
  | [] => ([], [])
  | c :: rest => if c = minusSign then ([c], rest) else ([], c :: rest)

def scanInteger : Text → Option Part
  | [] => none
  | c :: rest =>
    if c = zeroDigit then some ([c], rest)
    else if isDigit c then some (scanDigits (c :: rest))
    else none

def scanFraction : Text → Part
  | c :: d :: rest =>
    if c = decimalPoint ∧ isDigit d = true then (c :: (scanDigits (d :: rest)).1, (scanDigits (d :: rest)).2)
    else ([], c :: d :: rest)
  | t => ([], t)

/-- The sign of an exponent. -/
def scanExponentSign : Text → Part
  | [] => ([], [])
  | c :: rest => if c = plusSign ∨ c = minusSign then ([c], rest) else ([], c :: rest)

def scanExponent : Text → Part
  | [] => ([], [])
  | c :: rest =>
    if isExponentMark c ∧ (scanDigits (scanExponentSign rest).2).1 ≠ [] then
      (c :: ((scanExponentSign rest).1 ++ (scanDigits (scanExponentSign rest).2).1), (scanDigits (scanExponentSign rest).2).2)
    else ([], c :: rest)

variable {F : Type}

/-- `_match_number_unicode`. -/
def scanNumber (I : Interpreter F) (t : Text) : Except DecodeError (Document F × Text) :=
  match scanInteger (scanSign t).2 with
  | none => .error .jsonDecodeError
  | some (digits, rest) =>
    let (fraction, rest) := scanFraction rest
    let (exponent, rest) := scanExponent rest
    if fraction = [] ∧ exponent = [] then
      if maxStrDigits < digits.length then .error .valueError
      else .ok (.int (if (scanSign t).1 = [] then natOf digits else -natOf digits), rest)
    else .ok (.float (I.literal ((scanSign t).1 ++ (digits ++ (fraction ++ exponent)))), rest)

/-! ## Strings -/

def hexValue (c : CodePoint) : Option ℕ :=
  if isDigit c then some (c.val - 0x30)
  else if 0x61 ≤ c.val ∧ c.val ≤ 0x66 then some (c.val - 0x57)
  else if 0x41 ≤ c.val ∧ c.val ≤ 0x46 then some (c.val - 0x37)
  else none

/-- A character of a string, and whether it was spelled as `\uXXXX`. -/
abbrev StringUnit := CodePoint × Bool

/-- The character after a backslash, unless it is `u`. -/
def unescape (c : CodePoint) : Option CodePoint :=
  if c = quote ∨ c = backslash ∨ c.val = 0x2F then some c
  else if c.val = 0x62 then some 0x08
  else if c.val = 0x66 then some 0x0C
  else if c.val = 0x6E then some 0x0A
  else if c.val = 0x72 then some 0x0D
  else if c.val = 0x74 then some 0x09
  else none

def hexUnit (h₃ h₂ h₁ h₀ : CodePoint) : Option StringUnit := do
  let a ← hexValue h₃
  let b ← hexValue h₂
  let c ← hexValue h₁
  let d ← hexValue h₀
  pure (Fin.ofNat _ (a * 4096 + b * 256 + c * 16 + d), true)

/-- The units of a string, up to its closing quote. -/
def scanUnits : Text → Option (List StringUnit × Text)
  | [] => none
  | c :: rest =>
    if c = quote then some ([], rest)
    else if c = backslash then
      match rest with
      | [] => none
      | e :: rest =>
        if e.val = 0x75 then
          match rest with
          | h₃ :: h₂ :: h₁ :: h₀ :: rest => do
            let u ← hexUnit h₃ h₂ h₁ h₀
            let scanned ← scanUnits rest
            pure (u :: scanned.1, scanned.2)
          | _ => none
        else do
          let d ← unescape e
          let scanned ← scanUnits rest
          pure ((d, false) :: scanned.1, scanned.2)
    else if c.val < 0x20 then none
    else do
      let scanned ← scanUnits rest
      pure ((c, false) :: scanned.1, scanned.2)

/-- Two spelled surrogates that follow each other are one character. -/
def joinPairs : List StringUnit → Text
  | [] => []
  | [u] => [u.1]
  | u :: v :: us =>
    if u.2 && v.2 && isHighUnit u.1.val && isLowUnit v.1.val then pairChar u.1.val v.1.val :: joinPairs us
    else u.1 :: joinPairs (v :: us)

/-- `scanstring`, after the opening quote. -/
def scanString (t : Text) : Except DecodeError (Text × Text) :=
  match scanUnits t with
  | none => .error .jsonDecodeError
  | some (us, rest) => .ok (joinPairs us, rest)

/-! ## Values -/

def isBlank (c : CodePoint) : Bool := c.val == 0x20 || c.val == 0x09 || c.val == 0x0A || c.val == 0x0D

def skipBlanks (t : Text) : Text := t.dropWhile isBlank

def constants : List (Text × Document F) :=
  [(txt "null", .null), (txt "true", .bool true), (txt "false", .bool false), (txt "NaN", .float .nan),
    (txt "Infinity", .float .infinity), (txt "-Infinity", .float .negInfinity)]

def scanConstant (t : Text) : Option (Document F × Text) :=
  (constants.find? fun k => decide (k.1 <+: t)).map fun k => (k.2, t.drop k.1.length)

abbrev Scan (F : Type) := Text → Except DecodeError (Document F × Text)

def comma : CodePoint := 0x2C
def colon : CodePoint := 0x3A
def openBracket : CodePoint := 0x5B
def closeBracket : CodePoint := 0x5D
def openBrace : CodePoint := 0x7B
def closeBrace : CodePoint := 0x7D

/-- The items of an array or the fields of an object. A round takes a character at least, so
there are no more rounds than characters. -/
def scanSequence {α : Type} (scan : Text → Except DecodeError (α × Text)) (closer : CodePoint) :
    ℕ → Text → Except DecodeError (List α × Text)
  | 0, _ => .error .jsonDecodeError
  | rounds + 1, t => do
    let item ← scan t
    match skipBlanks item.2 with
    | [] => .error .jsonDecodeError
    | c :: rest =>
      if c = closer then .ok ([item.1], rest)
      else if c = comma then do
        let items ← scanSequence scan closer rounds (skipBlanks rest)
        pure (item.1 :: items.1, items.2)
      else .error .jsonDecodeError

/-- A key with its value. -/
def scanField (scan : Scan F) : Text → Except DecodeError ((Text × Document F) × Text)
  | [] => .error .jsonDecodeError
  | c :: rest =>
    if c = quote then do
      let key ← scanString rest
      match skipBlanks key.2 with
      | [] => .error .jsonDecodeError
      | c :: rest =>
        if c = colon then do
          let value ← scan (skipBlanks rest)
          pure ((key.1, value.1), value.2)
        else .error .jsonDecodeError
    else .error .jsonDecodeError

/-- `fields[key] = value`: a key stays where it was first set. -/
def setField {α : Type} (fields : List (Text × α)) (f : Text × α) : List (Text × α) :=
  if fields.any fun g => decide (g.1 = f.1) then fields.map fun g => if g.1 = f.1 then f else g else fields ++ [f]

def dictOf {α : Type} (fields : List (Text × α)) : List (Text × α) := fields.foldl setField []

/-- `fields.get(key)` -/
def getField {α : Type} (key : Text) (fields : List (Text × α)) : Option α :=
  (fields.find? fun f => decide (f.1 = key)).map Prod.snd

def scanArray (scan : Scan F) (t : Text) : Except DecodeError (Document F × Text) :=
  match skipBlanks t with
  | [] => .error .jsonDecodeError
  | c :: rest =>
    if c = closeBracket then .ok (.arr [], rest)
    else (scanSequence scan closeBracket (c :: rest).length (c :: rest)).map fun items => (.arr items.1, items.2)

def scanObject (scan : Scan F) (t : Text) : Except DecodeError (Document F × Text) :=
  match skipBlanks t with
  | [] => .error .jsonDecodeError
  | c :: rest =>
    if c = closeBrace then .ok (.obj [], rest)
    else (scanSequence (scanField scan) closeBrace (c :: rest).length (c :: rest)).map fun fields => (.obj (dictOf fields.1), fields.2)

/-- `scan_once`, with the scan of what is nested in arrays and objects, if they are allowed. -/
def scanValue (I : Interpreter F) (nested : Option (Scan F)) : Scan F
  | [] => .error .jsonDecodeError
  | c :: rest =>
    if c = quote then (scanString rest).map fun s => (.str s.1, s.2)
    else if c = openBrace then
      match nested with
      | none => .error .recursionError
      | some scan => scanObject scan rest
    else if c = openBracket then
      match nested with
      | none => .error .recursionError
      | some scan => scanArray scan rest
    else
      match scanConstant (c :: rest) with
      | some constant => .ok constant
      | none => scanNumber I (c :: rest)

def scanOnce (I : Interpreter F) : ℕ → Scan F
  | 0 => scanValue I none
  | depth + 1 => scanValue I (some (scanOnce I depth))

def byteOrderMark : CodePoint := 0xFEFF

/-- `json.loads`. -/
def jsonLoads (I : Interpreter F) (t : Text) : Except DecodeError (Document F) :=
  if t.head? = some byteOrderMark then .error .jsonDecodeError
  else do
    let value ← scanOnce I I.recursionLimit (skipBlanks t)
    if skipBlanks value.2 = [] then pure value.1 else .error .jsonDecodeError

/-! ## Objects -/

section
variable {α : Type} {fields : List (Text × α)}

theorem setField_new {f : Text × α} (h : f.1 ∉ fields.map Prod.fst) : setField fields f = fields ++ [f] := by
  have hany : ¬(fields.any fun g => decide (g.1 = f.1)) = true := by
    intro hany
    obtain ⟨g, hg, heq⟩ := List.any_eq_true.mp hany
    exact h (List.mem_map.mpr ⟨g, hg, of_decide_eq_true heq⟩)
  rw [setField, if_neg hany]

/-- Fields with distinct keys are set one after the other. -/
theorem dictOf_nodup (h : (fields.map Prod.fst).Nodup) : dictOf fields = fields := by
  have hfold : ∀ done fs : List (Text × α), ((done ++ fs).map Prod.fst).Nodup → fs.foldl setField done = done ++ fs := by
    intro done fs
    induction fs generalizing done with
    | nil => exact fun _ => (List.append_nil done).symm
    | cons f fs ih =>
      intro hnodup
      have hnew : f.1 ∉ done.map Prod.fst := by
        rw [List.map_append, List.map_cons] at hnodup
        exact fun hmem => (List.nodup_append.mp hnodup).2.2 f.1 hmem f.1 List.mem_cons_self rfl
      rw [List.foldl_cons, setField_new hnew, ih _ (by rwa [List.append_assoc, List.singleton_append]), List.append_assoc,
        List.singleton_append]
  exact hfold [] fields h

theorem keys_setField (f : Text × α) :
    (setField fields f).map Prod.fst = if f.1 ∈ fields.map Prod.fst then fields.map Prod.fst else fields.map Prod.fst ++ [f.1] := by
  by_cases hmem : f.1 ∈ fields.map Prod.fst
  · obtain ⟨g, hg, heq⟩ := List.mem_map.mp hmem
    have hany : (fields.any fun g => decide (g.1 = f.1)) = true := List.any_eq_true.mpr ⟨g, hg, decide_eq_true heq⟩
    rw [setField, if_pos hany, if_pos hmem, List.map_map]
    refine List.map_congr_left fun g _ => ?_
    rw [Function.comp_apply]
    split
    · next heq => exact heq.symm
    · rfl
  · rw [setField_new hmem, if_neg hmem, List.map_append, List.map_singleton]

theorem nodup_setField (h : (fields.map Prod.fst).Nodup) (f : Text × α) : ((setField fields f).map Prod.fst).Nodup := by
  rw [keys_setField]
  split
  · exact h
  · next hnew => exact List.Nodup.append h (List.nodup_singleton _) (List.disjoint_singleton.mpr hnew)

theorem mem_setField {f g : Text × α} (h : g ∈ setField fields f) : g = f ∨ g ∈ fields := by
  rw [setField] at h
  split at h
  · obtain ⟨e, he, rfl⟩ := List.mem_map.mp h
    split
    · exact .inl rfl
    · exact .inr he
  · cases List.mem_append.mp h with
    | inl h => exact .inr h
    | inr h => exact .inl (List.mem_singleton.mp h)

theorem foldl_setField (fs done : List (Text × α)) (hdone : (done.map Prod.fst).Nodup) :
    ((fs.foldl setField done).map Prod.fst).Nodup ∧ ∀ g ∈ fs.foldl setField done, g ∈ done ∨ g ∈ fs := by
  induction fs generalizing done with
  | nil => exact ⟨hdone, fun g hg => .inl hg⟩
  | cons f fs ih =>
    obtain ⟨hnodup, hmem⟩ := ih (setField done f) (nodup_setField hdone f)
    refine ⟨hnodup, fun g hg => ?_⟩
    cases hmem g hg with
    | inl h => exact (mem_setField h).elim (fun heq => .inr (heq ▸ List.mem_cons_self)) .inl
    | inr h => exact .inr (List.mem_cons_of_mem f h)

theorem nodup_dictOf (fs : List (Text × α)) : ((dictOf fs).map Prod.fst).Nodup := (foldl_setField fs [] List.nodup_nil).1

theorem mem_dictOf {fs : List (Text × α)} {g : Text × α} (h : g ∈ dictOf fs) : g ∈ fs :=
  ((foldl_setField fs [] List.nodup_nil).2 g h).resolve_left List.not_mem_nil

theorem getField_eq_some_iff (h : (fields.map Prod.fst).Nodup) {key : Text} {a : α} : getField key fields = some a ↔ (key, a) ∈ fields := by
  induction fields with
  | nil => simp [getField]
  | cons f fields ih =>
    obtain ⟨hnew, hnodup⟩ := List.nodup_cons.mp h
    by_cases hkey : f.1 = key
    · have hget : getField key (f :: fields) = some f.2 := by simp [getField, hkey]
      have hnone : (key, a) ∉ fields := fun hmem => hnew (hkey ▸ List.mem_map_of_mem hmem)
      rw [hget, List.mem_cons, or_iff_left hnone, Option.some.injEq, Prod.ext_iff, and_iff_right hkey.symm, eq_comm]
    · have hget : getField key (f :: fields) = getField key fields := by simp [getField, hkey]
      have hne : (key, a) ≠ f := fun heq => hkey (heq ▸ rfl)
      rw [hget, ih hnodup, List.mem_cons, or_iff_right hne]

theorem mem_of_getField {key : Text} {a : α} (h : getField key fields = some a) : (key, a) ∈ fields := by
  obtain ⟨f, hf, rfl⟩ := Option.map_eq_some_iff.mp h
  have hkey := List.find?_some hf
  rw [decide_eq_true_eq] at hkey
  rw [← hkey]
  exact List.mem_of_find?_eq_some hf

/-- The order of the fields does not matter. -/
theorem getField_perm {fs : List (Text × α)} (h : (fields.map Prod.fst).Nodup) (hperm : fs.Perm fields) (key : Text) :
    getField key fs = getField key fields := by
  have hnodup : (fs.map Prod.fst).Nodup := (hperm.map _).nodup_iff.mpr h
  refine Option.ext fun a => ?_
  rw [getField_eq_some_iff hnodup, getField_eq_some_iff h, hperm.mem_iff]

end

/-! ## Printing -/

def floatText (repr : F → Text) : FloatValue F → Text
  | .finite x => repr x
  | .nan => txt "NaN"
  | .infinity => txt "Infinity"
  | .negInfinity => txt "-Infinity"

/-- A printed field. -/
def fieldText (f : Text × Text) : Text := quoted f.1 ++ (txt ":" ++ f.2)

mutual
/-- `json.dumps(value, ensure_ascii=False, separators=(",", ":"), sort_keys=True)`. -/
def dumps (repr : F → Text) : Document F → Text
  | .null => txt "null"
  | .bool true => txt "true"
  | .bool false => txt "false"
  | .int i => integer i
  | .float x => floatText repr x
  | .str t => quoted t
  | .arr items => txt "[" ++ (joinCommas (dumpsItems repr items) ++ txt "]")
  | .obj fields =>
    txt "\x7b" ++ (joinCommas (((dumpsFields repr fields).mergeSort fun f g => textLe f.1 g.1).map fieldText) ++ txt "\x7d")

def dumpsItems (repr : F → Text) : List (Document F) → List Text
  | [] => []
  | d :: ds => dumps repr d :: dumpsItems repr ds

def dumpsFields (repr : F → Text) : List (Text × Document F) → List (Text × Text)
  | [] => []
  | (k, d) :: fs => (k, dumps repr d) :: dumpsFields repr fs
end

/-! ## Numbers are read back -/

/-- Text that cannot go on with a number. -/
def Stops (t : Text) : Prop := ∀ c cs, t = c :: cs → isDigit c = false ∧ c ≠ decimalPoint ∧ isExponentMark c = false

/-- Text that does not start with a digit. -/
def StopsDigits (t : Text) : Prop := ∀ c cs, t = c :: cs → isDigit c = false

theorem Stops.digits {t : Text} (h : Stops t) : StopsDigits t := fun c cs heq => (h c cs heq).1

theorem scanDigits_append {ds rest : Text} (hds : ∀ c ∈ ds, isDigit c = true) (hrest : StopsDigits rest) :
    scanDigits (ds ++ rest) = (ds, rest) := by
  rw [scanDigits, List.takeWhile_append_of_pos hds, List.dropWhile_append_of_pos hds]
  cases rest with
  | nil => rw [List.takeWhile_nil, List.dropWhile_nil, List.append_nil]
  | cons c cs =>
    have hc : ¬isDigit c = true := Bool.eq_false_iff.mp (hrest c cs rfl)
    rw [List.takeWhile_cons_of_neg hc, List.dropWhile_cons_of_neg hc, List.append_nil]

def digitOf (n : ℕ) : CodePoint := Fin.ofNat _ (0x30 + n)

theorem digitOf_val {n : ℕ} (h : n < 10) : (digitOf n).val = 0x30 + n :=
  (Fin.val_ofNat _ _).trans (Nat.mod_eq_of_lt (by omega))

theorem isDigit_digitOf {n : ℕ} (h : n < 10) : isDigit (digitOf n) = true := by
  rw [isDigit, digitOf_val h, Bool.and_eq_true, decide_eq_true_eq, decide_eq_true_eq]
  omega

theorem decimal_eq (n : ℕ) : decimal n = if n < 10 then [digitOf n] else decimal (n / 10) ++ [digitOf (n % 10)] := by
  have hall : ∀ d : Fin 10, (Nat.digitChar d).toNat = 0x30 + d := by decide
  rw [decimal, decimal, Nat.toDigits_eq_if (by omega)]
  split
  · next h =>
    rw [List.map_singleton, hall ⟨n, h⟩]
    rfl
  · rw [List.map_append, List.map_singleton, hall ⟨n % 10, Nat.mod_lt _ (by omega)⟩]
    rfl

theorem isDigit_of_mem_decimal (n : ℕ) : ∀ c ∈ decimal n, isDigit c = true := by
  induction n using Nat.strong_induction_on with
  | h n ih =>
    rw [decimal_eq]
    split
    · next h =>
      intro c hc
      rw [List.mem_singleton.mp hc]
      exact isDigit_digitOf h
    · next h =>
      intro c hc
      cases List.mem_append.mp hc with
      | inl hc => exact ih (n / 10) (by omega) c hc
      | inr hc =>
        rw [List.mem_singleton.mp hc]
        exact isDigit_digitOf (Nat.mod_lt _ (by omega))

theorem natOf_append (ds : Text) (d : CodePoint) : natOf (ds ++ [d]) = 10 * natOf ds + (d.val - 0x30) := by
  rw [natOf, List.foldl_append]
  rfl

theorem natOf_decimal (n : ℕ) : natOf (decimal n) = n := by
  induction n using Nat.strong_induction_on with
  | h n ih =>
    rw [decimal_eq]
    split
    · next h =>
      rw [← List.nil_append [digitOf n], natOf_append, digitOf_val h]
      simp [natOf]
    · next h =>
      rw [natOf_append, ih (n / 10) (by omega), digitOf_val (Nat.mod_lt _ (by omega))]
      omega

/-- Only zero is printed with a leading zero. -/
theorem decimal_head {n : ℕ} (h : 0 < n) : ∃ d ds, decimal n = d :: ds ∧ d ≠ zeroDigit := by
  induction n using Nat.strong_induction_on with
  | h n ih =>
    rw [decimal_eq]
    split
    · next hlt =>
      refine ⟨digitOf n, [], rfl, fun heq => ?_⟩
      have hval := congrArg Fin.val heq
      rw [digitOf_val hlt] at hval
      have hzero : zeroDigit.val = 0x30 := rfl
      omega
    · next hge =>
      obtain ⟨d, ds, heq, hd⟩ := ih (n / 10) (by omega) (by omega)
      exact ⟨d, ds ++ [digitOf (n % 10)], by rw [heq, List.cons_append], hd⟩

theorem isInteger_decimal (n : ℕ) : IsInteger (decimal n) := by
  by_cases h : n = 0
  · left
    rw [h]
    rfl
  · obtain ⟨d, ds, heq, hd⟩ := decimal_head (Nat.pos_of_ne_zero h)
    exact .inr ⟨d, ds, heq, hd, isDigit_of_mem_decimal n⟩

theorem IsInteger.head {t : Text} (h : IsInteger t) : ∃ d ds, t = d :: ds ∧ isDigit d = true := by
  cases h with
  | inl h => exact ⟨zeroDigit, [], h, by decide⟩
  | inr h =>
    obtain ⟨d, ds, rfl, -, hall⟩ := h
    exact ⟨d, ds, rfl, hall d List.mem_cons_self⟩

theorem scanInteger_append {t rest : Text} (h : IsInteger t) (hrest : StopsDigits rest) :
    scanInteger (t ++ rest) = some (t, rest) := by
  cases h with
  | inl h =>
    rw [h]
    rfl
  | inr h =>
    obtain ⟨d, ds, rfl, hd, hall⟩ := h
    rw [List.cons_append, scanInteger, if_neg hd, if_pos (hall d List.mem_cons_self), ← List.cons_append,
      scanDigits_append hall hrest]

theorem scanFraction_stops {rest : Text} (h : ∀ c cs, rest = c :: cs → c ≠ decimalPoint) : scanFraction rest = ([], rest) := by
  match rest with
  | [] => rfl
  | [c] => rfl
  | c :: d :: cs => rw [scanFraction, if_neg fun hpoint => h c (d :: cs) rfl hpoint.1]

theorem scanExponent_stops {rest : Text} (h : ∀ c cs, rest = c :: cs → isExponentMark c = false) :
    scanExponent rest = ([], rest) := by
  match rest with
  | [] => rfl
  | c :: cs => rw [scanExponent, if_neg fun hmark => Bool.eq_false_iff.mp (h c cs rfl) hmark.1]

theorem scanSign_append {sign digits rest : Text} (hsign : IsSign sign) (hdigits : IsInteger digits) :
    scanSign (sign ++ (digits ++ rest)) = (sign, digits ++ rest) := by
  cases hsign with
  | inl h =>
    obtain ⟨d, ds, rfl, hd⟩ := hdigits.head
    have hminus : d ≠ minusSign := fun heq => by
      rw [heq] at hd
      exact absurd hd (by decide)
    rw [h, List.nil_append, List.cons_append, scanSign, if_neg hminus]
  | inr h =>
    rw [h]
    rfl

/-- A constant does not start like a number: its second character is no digit either where the
first is a sign. -/
theorem not_prefix_number {a b : CodePoint} {cs sign digits rest : Text} (ha : isDigit a = false)
    (hb : a = minusSign → isDigit b = false) (hsign : IsSign sign) (hdigits : IsInteger digits) :
    ¬a :: b :: cs <+: sign ++ (digits ++ rest) := by
  obtain ⟨d, ds, rfl, hd⟩ := hdigits.head
  cases hsign with
  | inl h =>
    rw [h, List.nil_append, List.cons_append, List.cons_prefix_cons]
    rintro ⟨rfl, -⟩
    rw [hd] at ha
    cases ha
  | inr h =>
    rw [h, List.singleton_append, List.cons_append, List.cons_prefix_cons, List.cons_prefix_cons]
    rintro ⟨hminus, rfl, -⟩
    rw [hd] at hb
    cases hb hminus

theorem scanConstant_number {sign digits rest : Text} (hsign : IsSign sign) (hdigits : IsInteger digits) :
    scanConstant (sign ++ (digits ++ rest)) = (none : Option (Document F × Text)) := by
  rw [scanConstant, Option.map_eq_none_iff, List.find?_eq_none]
  intro k hk
  rw [decide_eq_true_eq]
  simp only [constants, List.mem_cons, List.not_mem_nil, or_false] at hk
  obtain rfl | rfl | rfl | rfl | rfl | rfl := hk
  · exact not_prefix_number (by decide) (by decide) hsign hdigits
  · exact not_prefix_number (by decide) (by decide) hsign hdigits
  · exact not_prefix_number (by decide) (by decide) hsign hdigits
  · exact not_prefix_number (by decide) (by decide) hsign hdigits
  · exact not_prefix_number (by decide) (by decide) hsign hdigits
  · exact not_prefix_number (by decide) (by decide) hsign hdigits

/-- An integer that is printed, and not too long, is read back. -/
theorem scanNumber_integer (I : Interpreter F) {i : ℤ} {rest : Text} (hshort : (decimal i.natAbs).length ≤ maxStrDigits)
    (hrest : Stops rest) : scanNumber I (integer i ++ rest) = .ok (.int i, rest) := by
  have hone : ∀ {sign : Text}, IsSign sign → scanNumber I (sign ++ (decimal i.natAbs ++ rest)) =
      .ok (.int (if sign = [] then (i.natAbs : ℤ) else -(i.natAbs : ℤ)), rest) := by
    intro sign hsign
    have hscan := scanInteger_append (isInteger_decimal i.natAbs) hrest.digits
    have hfraction := scanFraction_stops fun c cs heq => (hrest c cs heq).2.1
    have hexponent := scanExponent_stops fun c cs heq => (hrest c cs heq).2.2
    rw [scanNumber, scanSign_append hsign (isInteger_decimal _), hscan]
    simp only [hfraction, hexponent, and_self, if_true, if_neg (Nat.not_lt.mpr hshort), natOf_decimal]
  cases i with
  | ofNat n => exact hone (.inl rfl)
  | negSucc n => exact (congrArg (scanNumber I) (List.append_assoc _ _ _)).trans (hone (.inr rfl))

theorem scanFraction_append {t rest : Text} (h : IsFraction t) (hdigits : StopsDigits rest)
    (hpoint : ∀ c cs, rest = c :: cs → c ≠ decimalPoint) : scanFraction (t ++ rest) = (t, rest) := by
  cases h with
  | inl h =>
    rw [h, List.nil_append]
    exact scanFraction_stops hpoint
  | inr h =>
    obtain ⟨d, ds, rfl, hall⟩ := h
    have hscan := scanDigits_append hall hdigits
    rw [List.cons_append] at hscan
    rw [List.cons_append, List.cons_append, scanFraction, if_pos ⟨rfl, hall d List.mem_cons_self⟩, hscan]

theorem scanExponentSign_append {sign rest : Text} {d : CodePoint} (hsign : sign = [plusSign] ∨ IsSign sign) (hd : isDigit d = true) :
    scanExponentSign (sign ++ d :: rest) = (sign, d :: rest) := by
  have hnone : ¬(d = plusSign ∨ d = minusSign) := by
    rintro (rfl | rfl)
    · exact absurd hd (by decide)
    · exact absurd hd (by decide)
  obtain rfl | rfl | rfl := hsign
  · rfl
  · rw [List.nil_append, scanExponentSign, if_neg hnone]
  · rfl

theorem scanExponent_append {t rest : Text} (h : IsExponent t) (hrest : Stops rest) : scanExponent (t ++ rest) = (t, rest) := by
  cases h with
  | inl h =>
    rw [h, List.nil_append]
    exact scanExponent_stops fun c cs heq => (hrest c cs heq).2.2
  | inr h =>
    obtain ⟨mark, sign, d, ds, rfl, hmark, hsign, hall⟩ := h
    have htail : scanExponentSign (sign ++ d :: (ds ++ rest)) = (sign, d :: (ds ++ rest)) :=
      scanExponentSign_append hsign (hall d List.mem_cons_self)
    have hscan : scanDigits (d :: (ds ++ rest)) = (d :: ds, rest) := scanDigits_append hall hrest.digits
    rw [List.cons_append, List.append_assoc, List.cons_append, scanExponent, htail, hscan, if_pos ⟨hmark, List.cons_ne_nil d ds⟩]

/-- What follows a fraction is neither a digit nor a point. -/
theorem exponent_stops {t rest : Text} (h : IsExponent t) (hrest : Stops rest) :
    ∀ c cs, t ++ rest = c :: cs → isDigit c = false ∧ c ≠ decimalPoint := by
  intro c cs heq
  cases h with
  | inl h =>
    rw [h, List.nil_append] at heq
    exact ⟨(hrest c cs heq).1, (hrest c cs heq).2.1⟩
  | inr h =>
    obtain ⟨mark, sign, d, ds, rfl, hmark, -⟩ := h
    obtain rfl := (List.cons.inj heq).1
    rw [isExponentMark, Bool.or_eq_true, beq_iff_eq, beq_iff_eq] at hmark
    refine ⟨?_, fun heq => ?_⟩
    · rw [isDigit, Bool.and_eq_false_iff, decide_eq_false_iff_not, decide_eq_false_iff_not]
      omega
    · rw [heq] at hmark
      exact absurd hmark (by decide)

theorem fraction_stops {t rest : Text} (h : IsFraction t) (hrest : StopsDigits rest) : StopsDigits (t ++ rest) := by
  cases h with
  | inl h => rwa [h, List.nil_append]
  | inr h =>
    obtain ⟨d, ds, rfl, -⟩ := h
    intro c cs heq
    rw [← (List.cons.inj heq).1]
    decide

/-- A float literal is read as a whole. -/
theorem scanNumber_float (I : Interpreter F) {t rest : Text} (ht : FloatLiteral t) (hrest : Stops rest) :
    scanNumber I (t ++ rest) = .ok (.float (I.literal t), rest) := by
  obtain ⟨sign, digits, fraction, exponent, rfl, hsign, hdigits, hfraction, hexponent, hfloat⟩ := ht
  have hafter := exponent_stops hexponent hrest
  have hafterDigits : StopsDigits (exponent ++ rest) := fun c cs heq => (hafter c cs heq).1
  have hinteger := scanInteger_append hdigits (fraction_stops hfraction hafterDigits)
  have hpoint := scanFraction_append hfraction hafterDigits fun c cs heq => (hafter c cs heq).2
  have hnot : ¬(fraction = [] ∧ exponent = []) := fun h => hfloat.elim (fun hne => hne h.1) fun hne => hne h.2
  simp only [List.append_assoc] at hinteger ⊢
  rw [scanNumber, scanSign_append hsign hdigits, hinteger]
  simp only [hpoint, scanExponent_append hexponent hrest, if_neg hnot]

/-! ## Strings are read back -/

section
variable {t rest : Text} {us : List StringUnit} (h : scanUnits t = some (us, rest))
include h

theorem scanUnits_plain {c : CodePoint} (hquote : c ≠ quote) (hbackslash : c ≠ backslash) (hc : ¬c.val < 0x20) :
    scanUnits (c :: t) = some ((c, false) :: us, rest) := by
  rw [scanUnits.eq_def]
  simp only [if_neg hquote, if_neg hbackslash, if_neg hc, h]
  rfl

theorem scanUnits_short {e d : CodePoint} (he : e.val ≠ 0x75) (hd : unescape e = some d) :
    scanUnits (backslash :: e :: t) = some ((d, false) :: us, rest) := by
  have hquote : backslash ≠ quote := by decide
  rw [scanUnits.eq_def]
  simp only [if_neg hquote, if_neg he, hd, h]
  rfl

theorem scanUnits_hex {e h₃ h₂ h₁ h₀ : CodePoint} {u : StringUnit} (he : e.val = 0x75) (hu : hexUnit h₃ h₂ h₁ h₀ = some u) :
    scanUnits (backslash :: e :: h₃ :: h₂ :: h₁ :: h₀ :: t) = some (u :: us, rest) := by
  have hquote : backslash ≠ quote := by decide
  rw [scanUnits.eq_def]
  simp only [if_neg hquote, if_pos he, hu, h]
  rfl

/-- The two-character form of a control character. -/
theorem scanUnits_control {c e : CodePoint} (he : e.val ≠ 0x75) (hc : unescape e = some c) :
    ∃ spelled, scanUnits (backslash :: e :: t) = some ((c, spelled) :: us, rest) ∧ (spelled = true → c.val < 0x20) :=
  ⟨false, scanUnits_short h he hc, fun hfalse => absurd hfalse Bool.false_ne_true⟩

/-- The printed form of a character is read as this character. Only control characters are
spelled with hexadecimal digits. -/
theorem scanUnits_escapeChar (c : CodePoint) :
    ∃ spelled, scanUnits (escapeChar c ++ t) = some ((c, spelled) :: us, rest) ∧ (spelled = true → c.val < 0x20) := by
  have hhex : ∀ n : Fin 32, hexUnit 0x30 0x30 (hexDigit (n.val / 16)) (hexDigit (n.val % 16)) = some (Fin.ofNat _ n.val, true) := by
    decide
  rw [escapeChar]
  split_ifs with hverbatim h0A h0D h09 h0C h08 hcontrol
  · have hu : c.val ≠ 0x75 := by
      obtain rfl | rfl := hverbatim
      · decide
      · decide
    exact scanUnits_control h hu (if_pos (hverbatim.elim Or.inl fun heq => .inr (.inl heq)))
  · obtain rfl : c = 0x0A := Fin.ext h0A
    exact scanUnits_control h (e := 0x6E) (by decide) rfl
  · obtain rfl : c = 0x0D := Fin.ext h0D
    exact scanUnits_control h (e := 0x72) (by decide) rfl
  · obtain rfl : c = 0x09 := Fin.ext h09
    exact scanUnits_control h (e := 0x74) (by decide) rfl
  · obtain rfl : c = 0x0C := Fin.ext h0C
    exact scanUnits_control h (e := 0x66) (by decide) rfl
  · obtain rfl : c = 0x08 := Fin.ext h08
    exact scanUnits_control h (e := 0x62) (by decide) rfl
  · have hu := hhex ⟨c.val, hcontrol⟩
    have hc : (Fin.ofNat _ c.val : CodePoint) = c := Fin.ofNat_val_eq_self c
    rw [hc] at hu
    exact ⟨true, scanUnits_hex h (e := 0x75) rfl hu, fun _ => hcontrol⟩
  · rw [not_or] at hverbatim
    exact ⟨false, scanUnits_plain h hverbatim.1 hverbatim.2 hcontrol, fun hfalse => absurd hfalse Bool.false_ne_true⟩

end

theorem scanUnits_escape (s rest : Text) : ∃ us, scanUnits (escape s ++ quote :: rest) = some (us, rest) ∧
    us.map Prod.fst = s ∧ ∀ u ∈ us, u.2 = true → u.1.val < 0x20 := by
  induction s with
  | nil =>
    refine ⟨[], ?_, rfl, fun u hu => absurd hu List.not_mem_nil⟩
    rw [escape, List.flatMap_nil, List.nil_append, scanUnits.eq_def]
    rfl
  | cons c s ih =>
    obtain ⟨us, hus, hchars, hlow⟩ := ih
    obtain ⟨spelled, hscan, hspelled⟩ := scanUnits_escapeChar hus c
    rw [← List.append_assoc] at hscan
    refine ⟨(c, spelled) :: us, hscan, congrArg (c :: ·) hchars, ?_⟩
    exact List.forall_mem_cons.mpr ⟨hspelled, hlow⟩

/-- Without spelled surrogates there is nothing to join. -/
theorem joinPairs_low {us : List StringUnit} (h : ∀ u ∈ us, u.2 = true → u.1.val < 0x20) : joinPairs us = us.map Prod.fst := by
  induction us using joinPairs.induct with
  | case1 => rfl
  | case2 u => rfl
  | case3 u v us hpair ih =>
    simp only [Bool.and_eq_true] at hpair
    have hlow := h u List.mem_cons_self hpair.1.1.1
    have hhigh := hpair.1.2
    rw [isHighUnit, Bool.and_eq_true, decide_eq_true_eq] at hhigh
    omega
  | case4 u v us hpair ih =>
    rw [joinPairs, if_neg hpair, ih fun w hw => h w (List.mem_cons_of_mem _ hw)]
    rfl

/-- A printed string is read back. -/
theorem scanString_escape (s rest : Text) : scanString (escape s ++ quote :: rest) = .ok (s, rest) := by
  obtain ⟨us, hus, hchars, hlow⟩ := scanUnits_escape s rest
  rw [scanString, hus]
  simp only [joinPairs_low hlow, hchars]

/-! ## Documents are read back -/

/-- The document with the keys of its objects sorted. -/
def keyLe {α : Type} (f g : Text × α) : Bool := textLe f.1 g.1

mutual
def sorted : Document F → Document F
  | .arr items => .arr (sortedItems items)
  | .obj fields => .obj ((sortedFields fields).mergeSort keyLe)
  | d => d

def sortedItems : List (Document F) → List (Document F)
  | [] => []
  | d :: ds => sorted d :: sortedItems ds

def sortedFields : List (Text × Document F) → List (Text × Document F)
  | [] => []
  | (k, d) :: fs => (k, sorted d) :: sortedFields fs
end

/-- A document whose integers can be printed, whose keys are distinct, and that is nested
at most so deep. -/
def Readable : ℕ → Document F → Prop
  | _, .int i => (decimal i.natAbs).length ≤ maxStrDigits
  | 0, .arr _ | 0, .obj _ => False
  | depth + 1, .arr items => ∀ d ∈ items, Readable depth d
  | depth + 1, .obj fields => (fields.map Prod.fst).Nodup ∧ ∀ f ∈ fields, Readable depth f.2
  | _, _ => True

theorem Readable.field {depth : ℕ} {fields : List (Text × Document F)} (h : Readable depth (.obj fields)) {key : Text}
    {d : Document F} (hd : getField key fields = some d) : ∃ k, Readable k d := by
  cases depth with
  | zero => exact h.elim
  | succ k => exact ⟨k, h.2 _ (mem_of_getField hd)⟩

theorem sortedItems_eq (ds : List (Document F)) : sortedItems ds = ds.map sorted := by
  induction ds with
  | nil => rfl
  | cons d ds ih => rw [sortedItems, ih, List.map_cons]

theorem sortedFields_eq (fs : List (Text × Document F)) : sortedFields fs = fs.map fun f => (f.1, sorted f.2) := by
  induction fs with
  | nil => rfl
  | cons f fs ih => rw [sortedFields, ih, List.map_cons]

theorem dumpsItems_eq (repr : F → Text) (ds : List (Document F)) : dumpsItems repr ds = ds.map (dumps repr) := by
  induction ds with
  | nil => rfl
  | cons d ds ih => rw [dumpsItems, ih, List.map_cons]

theorem dumpsFields_eq (repr : F → Text) (fs : List (Text × Document F)) :
    dumpsFields repr fs = fs.map fun f => (f.1, dumps repr f.2) := by
  induction fs with
  | nil => rfl
  | cons f fs ih => rw [dumpsFields, ih, List.map_cons]

theorem skipBlanks_cons {c : CodePoint} (h : isBlank c = false) (t : Text) : skipBlanks (c :: t) = c :: t :=
  List.dropWhile_cons_of_neg (Bool.eq_false_iff.mp h)

theorem stops_cons {c : CodePoint} (h : isDigit c = false ∧ c ≠ decimalPoint ∧ isExponentMark c = false) (t : Text) : Stops (c :: t) := by
  intro d ds heq
  rw [← (List.cons.inj heq).1]
  exact h

/-- A text that starts with neither a blank nor a closing bracket. -/
def Opens (t : Text) : Prop := ∃ c cs, t = c :: cs ∧ isBlank c = false ∧ c ≠ closeBracket ∧ c ≠ closeBrace ∧ c ≠ byteOrderMark

theorem Opens.append {t : Text} (h : Opens t) (rest : Text) : Opens (t ++ rest) := by
  obtain ⟨c, cs, rfl, hc⟩ := h
  exact ⟨c, cs ++ rest, rfl, hc⟩

theorem Opens.skipBlanks {t : Text} (h : Opens t) : skipBlanks t = t := by
  obtain ⟨c, cs, rfl, hc, -⟩ := h
  exact skipBlanks_cons hc cs

theorem Opens.joinCommas {t : Text} (h : Opens t) (ts : List Text) : Opens (joinCommas (t :: ts)) := by
  cases ts with
  | nil =>
    rw [joinCommas_singleton]
    exact h
  | cons t' ts =>
    rw [joinCommas_cons]
    exact h.append _

/-- A sequence is read to its end when each of its items is. -/
theorem scanSequence_join {α β : Type} (scan : Text → Except DecodeError (α × Text)) (closer : CodePoint) {print : β → Text}
    {value : β → α} (hcloser : isBlank closer = false ∧ comma ≠ closer ∧ ∀ rest, Stops (closer :: rest)) {items : List β}
    (hne : items ≠ []) (hopens : ∀ b ∈ items, Opens (print b))
    (hscan : ∀ b ∈ items, ∀ rest, Stops rest → scan (print b ++ rest) = .ok (value b, rest)) {rounds : ℕ}
    (hrounds : items.length ≤ rounds) (rest : Text) :
    scanSequence scan closer rounds (joinCommas (items.map print) ++ closer :: rest) = .ok (items.map value, rest) := by
  induction items generalizing rounds with
  | nil => exact absurd rfl hne
  | cons b items ih =>
    cases rounds with
    | zero => exact absurd hrounds (Nat.not_succ_le_zero _)
    | succ rounds =>
      have hb := hscan b List.mem_cons_self
      cases items with
      | nil =>
        rw [List.map_singleton, joinCommas_singleton, scanSequence, hb _ (hcloser.2.2 rest)]
        simp only [skipBlanks_cons hcloser.1, bind, Except.bind, if_true, List.map_singleton]
      | cons b' items =>
        have htail := ih (by simp) (fun x hx => hopens x (List.mem_cons_of_mem _ hx))
          (fun x hx => hscan x (List.mem_cons_of_mem _ hx)) (Nat.le_of_succ_le_succ hrounds)
        have hblanks := (((hopens b' (by simp)).joinCommas (items.map print)).append (closer :: rest)).skipBlanks
        have hcomma : txt "," = [comma] := rfl
        rw [List.map_cons, List.map_cons, joinCommas_cons, List.append_assoc, List.append_assoc, hcomma, List.singleton_append,
          scanSequence, hb _ (stops_cons (by decide) _)]
        rw [← List.map_cons] at hblanks ⊢
        simp only [skipBlanks_cons (c := comma) (by decide), bind, Except.bind, if_neg hcloser.2.1, if_true, hblanks, htail]
        rfl

theorem integer_eq (i : ℤ) : ∃ sign, IsSign sign ∧ integer i = sign ++ (decimal i.natAbs ++ []) := by
  rw [List.append_nil]
  cases i with
  | ofNat n => exact ⟨[], .inl rfl, rfl⟩
  | negSucc n => exact ⟨[minusSign], .inr rfl, rfl⟩

/-- The first character of a number. -/
theorem number_head {sign digits : Text} (hsign : IsSign sign) (hdigits : IsInteger digits) (rest : Text) :
    ∃ c cs, sign ++ (digits ++ rest) = c :: cs ∧ (c = minusSign ∨ isDigit c = true) := by
  obtain ⟨d, ds, rfl, hd⟩ := hdigits.head
  cases hsign with
  | inl h => exact ⟨d, ds ++ rest, by rw [h]; rfl, .inr hd⟩
  | inr h => exact ⟨minusSign, d :: ds ++ rest, by rw [h]; rfl, .inl rfl⟩

theorem ne_of_number {c d : CodePoint} (hd : isDigit d = false ∧ d ≠ minusSign) (hc : c = minusSign ∨ isDigit c = true) : c ≠ d := by
  rintro rfl
  cases hc with
  | inl h => exact hd.2 h
  | inr h =>
    rw [hd.1] at h
    cases h

theorem opens_number {sign digits : Text} (hsign : IsSign sign) (hdigits : IsInteger digits) (rest : Text) :
    Opens (sign ++ (digits ++ rest)) := by
  obtain ⟨c, cs, heq, hc⟩ := number_head hsign hdigits rest
  refine ⟨c, cs, heq, ?_, ne_of_number (by decide) hc, ne_of_number (by decide) hc, ne_of_number (by decide) hc⟩
  cases hc with
  | inl h =>
    rw [h]
    decide
  | inr h =>
    rw [isDigit, Bool.and_eq_true, decide_eq_true_eq, decide_eq_true_eq] at h
    simp only [isBlank, Bool.or_eq_false_iff, beq_eq_false_iff_ne]
    omega

/-- A printed document opens a value. -/
theorem opens_dumps (I : Interpreter F) (d : Document F) : Opens (dumps I.repr d) := by
  cases d with
  | null => exact ⟨_, _, rfl, by decide⟩
  | bool b =>
    cases b with
    | true => exact ⟨_, _, rfl, by decide⟩
    | false => exact ⟨_, _, rfl, by decide⟩
  | int i =>
    obtain ⟨sign, hsign, heq⟩ := integer_eq i
    rw [dumps, heq]
    exact opens_number hsign (isInteger_decimal _) _
  | float x =>
    cases x with
    | finite x =>
      obtain ⟨sign, digits, fraction, exponent, heq, hsign, hdigits, -⟩ := I.repr_literal x
      rw [dumps, floatText, heq]
      exact opens_number hsign hdigits _
    | nan => exact ⟨_, _, rfl, by decide⟩
    | infinity => exact ⟨_, _, rfl, by decide⟩
    | negInfinity => exact ⟨_, _, rfl, by decide⟩
  | str t => exact ⟨quote, _, rfl, by decide⟩
  | arr items => exact ⟨openBracket, _, rfl, by decide⟩
  | obj fields => exact ⟨openBrace, _, rfl, by decide⟩

theorem scanValue_number (I : Interpreter F) (nested : Option (Scan F)) {sign digits : Text} (hsign : IsSign sign)
    (hdigits : IsInteger digits) (rest : Text) :
    scanValue I nested (sign ++ (digits ++ rest)) = scanNumber I (sign ++ (digits ++ rest)) := by
  have hconstant : scanConstant (sign ++ (digits ++ rest)) = (none : Option (Document F × Text)) := scanConstant_number hsign hdigits
  obtain ⟨c, cs, heq, hc⟩ := number_head hsign hdigits rest
  rw [heq] at hconstant ⊢
  have hquote : c ≠ quote := ne_of_number (by decide) hc
  have hbrace : c ≠ openBrace := ne_of_number (by decide) hc
  have hbracket : c ≠ openBracket := ne_of_number (by decide) hc
  rw [scanValue.eq_def]
  simp only [if_neg hquote, if_neg hbrace, if_neg hbracket, hconstant]

theorem scanValue_int (I : Interpreter F) (nested : Option (Scan F)) {i : ℤ} {rest : Text}
    (hshort : (decimal i.natAbs).length ≤ maxStrDigits) (hrest : Stops rest) :
    scanValue I nested (integer i ++ rest) = .ok (.int i, rest) := by
  rw [← scanNumber_integer I hshort hrest]
  obtain ⟨sign, hsign, heq⟩ := integer_eq i
  rw [heq, List.append_assoc, List.append_assoc]
  exact scanValue_number I nested hsign (isInteger_decimal _) _

theorem scanValue_float (I : Interpreter F) (nested : Option (Scan F)) (x : FloatValue F) {rest : Text} (hrest : Stops rest) :
    scanValue I nested (floatText I.repr x ++ rest) = .ok (.float x, rest) := by
  cases x with
  | finite x =>
    have hscan := scanNumber_float I (I.repr_literal x) hrest
    obtain ⟨sign, digits, fraction, exponent, heq, hsign, hdigits, -⟩ := I.repr_literal x
    rw [I.literal_repr] at hscan
    rw [floatText, ← hscan, heq, List.append_assoc, List.append_assoc]
    exact scanValue_number I nested hsign hdigits _
  | nan => rfl
  | infinity => rfl
  | negInfinity => rfl

theorem scanValue_str (I : Interpreter F) (nested : Option (Scan F)) (t rest : Text) :
    scanValue I nested (quoted t ++ rest) = .ok (.str t, rest) := by
  rw [quoted, List.cons_append, List.append_assoc, List.singleton_append, scanValue.eq_def]
  simp only [if_true, scanString_escape]
  rfl

theorem scanField_fieldText {scan : Scan F} {k : Text} {d d' : Document F} {I : Interpreter F} {rest : Text}
    (h : scan (dumps I.repr d ++ rest) = .ok (d', rest)) : scanField scan (fieldText (k, dumps I.repr d) ++ rest) = .ok ((k, d'), rest) := by
  have hcolon : txt ":" = [colon] := rfl
  have hblanks := ((opens_dumps I d).append rest).skipBlanks
  rw [fieldText, quoted, List.cons_append, List.cons_append, List.append_assoc, List.append_assoc, List.append_assoc, hcolon,
    List.singleton_append, List.singleton_append, scanField, if_pos rfl, scanString_escape]
  simp only [bind, Except.bind, skipBlanks_cons (c := colon) (by decide), if_true, hblanks, h]
  rfl

theorem opens_fieldText (f : Text × Text) : Opens (fieldText f) := ⟨quote, _, rfl, by decide⟩

theorem map_sortedFields (fs : List (Text × Document F)) :
    (sortedFields fs).mergeSort keyLe = (fs.mergeSort keyLe).map fun f => (f.1, sorted f.2) := by
  have hkey : ∀ f ∈ fs, ∀ g ∈ fs, keyLe f g = keyLe (f.1, sorted f.2) (g.1, sorted g.2) := fun _ _ _ _ => rfl
  rw [sortedFields_eq, List.map_mergeSort hkey]

theorem map_dumpsFields (I : Interpreter F) (fs : List (Text × Document F)) :
    ((dumpsFields I.repr fs).mergeSort fun f g => textLe f.1 g.1) = (fs.mergeSort keyLe).map fun f => (f.1, dumps I.repr f.2) := by
  rw [dumpsFields_eq]
  exact (List.map_mergeSort (r := keyLe) (s := fun f g => textLe f.1 g.1) (f := fun f => (f.1, dumps I.repr f.2)) fun _ _ _ _ => rfl).symm

/-- A field of a sorted object. -/
theorem getField_sorted {fs : List (Text × Document F)} (h : (fs.map Prod.fst).Nodup) (key : Text) :
    getField key ((sortedFields fs).mergeSort keyLe) = (getField key fs).map sorted := by
  have hnodup : ((sortedFields fs).map Prod.fst).Nodup := by
    rw [sortedFields_eq, List.map_map]
    exact h
  rw [getField_perm hnodup (List.mergeSort_perm _ keyLe), sortedFields_eq, getField, List.find?_map, Option.map_map, getField,
    Option.map_map]
  rfl

/-- No item is printed as nothing. -/
theorem length_le_join {ts : List Text} (h : ∀ t ∈ ts, Opens t) : ts.length ≤ (joinCommas ts).length := by
  induction ts with
  | nil => exact Nat.zero_le _
  | cons t ts ih =>
    obtain ⟨c, cs, rfl, -⟩ := h t List.mem_cons_self
    cases ts with
    | nil => simp
    | cons t' ts =>
      have htail := ih fun x hx => h x (List.mem_cons_of_mem _ hx)
      have hcomma : (txt ",").length = 1 := rfl
      rw [joinCommas_cons, List.length_append, List.length_append, hcomma]
      simp only [List.length_cons] at htail ⊢
      omega

theorem opens_join {α : Type} {print : α → Text} {items : List α} (hne : items ≠ []) (hopens : ∀ x ∈ items, Opens (print x))
    (rest : Text) : Opens (joinCommas (items.map print) ++ rest) := by
  obtain ⟨x, xs, rfl⟩ := List.exists_cons_of_ne_nil hne
  exact ((hopens x List.mem_cons_self).joinCommas (xs.map print)).append rest

/-- There are enough rounds for all items. -/
theorem length_items_le {α : Type} {print : α → Text} {items : List α} (hopens : ∀ x ∈ items, Opens (print x)) (rest : Text) :
    items.length ≤ (joinCommas (items.map print) ++ rest).length := by
  have hlength := length_le_join (List.forall_mem_map.mpr hopens)
  rw [List.length_map] at hlength
  rw [List.length_append]
  exact hlength.trans (Nat.le_add_right _ _)

section
variable {I : Interpreter F} {scan : Scan F}

theorem scanArray_join {items : List (Document F)}
    (hscan : ∀ d ∈ items, ∀ rest, Stops rest → scan (dumps I.repr d ++ rest) = .ok (sorted d, rest)) (rest : Text) :
    scanArray scan (joinCommas (items.map (dumps I.repr)) ++ closeBracket :: rest) = .ok (.arr (items.map sorted), rest) := by
  by_cases hne : items = []
  · rw [hne]
    rfl
  · have hopens : ∀ d ∈ items, Opens (dumps I.repr d) := fun d _ => opens_dumps I d
    have hall := opens_join hne hopens (closeBracket :: rest)
    have hsequence := scanSequence_join scan closeBracket ⟨by decide, by decide, fun _ => stops_cons (by decide) _⟩ hne hopens
      hscan (length_items_le hopens (closeBracket :: rest)) rest
    have hskip := hall.skipBlanks
    obtain ⟨c, cs, heq, -, hbracket, -⟩ := hall
    rw [heq] at hsequence hskip ⊢
    rw [scanArray, hskip]
    simp only [if_neg hbracket, hsequence]
    rfl

theorem scanObject_join {fields : List (Text × Document F)} (hnodup : (fields.map Prod.fst).Nodup)
    (hscan : ∀ f ∈ fields, ∀ rest, Stops rest → scan (dumps I.repr f.2 ++ rest) = .ok (sorted f.2, rest)) (rest : Text) :
    scanObject scan (joinCommas (fields.map fun f => fieldText (f.1, dumps I.repr f.2)) ++ closeBrace :: rest) =
      .ok (.obj (fields.map fun f => (f.1, sorted f.2)), rest) := by
  by_cases hne : fields = []
  · rw [hne]
    rfl
  · have hopens : ∀ f ∈ fields, Opens (fieldText (f.1, dumps I.repr f.2)) := fun f _ => opens_fieldText _
    have hall := opens_join hne hopens (closeBrace :: rest)
    have hsequence := scanSequence_join (scanField scan) closeBrace
      ⟨by decide, by decide, fun _ => stops_cons (by decide) _⟩ hne hopens
      (fun f hf rest hrest => scanField_fieldText (hscan f hf rest hrest)) (length_items_le hopens (closeBrace :: rest)) rest
    have hskip := hall.skipBlanks
    have hdict : dictOf (fields.map fun f => (f.1, sorted f.2)) = fields.map fun f => (f.1, sorted f.2) := by
      refine dictOf_nodup ?_
      rw [List.map_map]
      exact hnodup
    obtain ⟨c, cs, heq, -, -, hbrace, -⟩ := hall
    rw [heq] at hsequence hskip ⊢
    rw [scanObject, hskip]
    simp only [if_neg hbrace, hsequence, Except.map, hdict]

end

/-- A printed document is read back, with the keys of its objects sorted. -/
theorem scanOnce_dumps (I : Interpreter F) {depth : ℕ} {d : Document F} {rest : Text} (h : Readable depth d) (hrest : Stops rest) :
    scanOnce I depth (dumps I.repr d ++ rest) = .ok (sorted d, rest) := by
  induction depth generalizing d rest with
  | zero =>
    cases d with
    | null => rfl
    | bool b => cases b <;> rfl
    | int i => exact scanValue_int I none h hrest
    | float x => exact scanValue_float I none x hrest
    | str t => exact scanValue_str I none t rest
    | arr items => exact h.elim
    | obj fields => exact h.elim
  | succ depth ih =>
    cases d with
    | null => rfl
    | bool b => cases b <;> rfl
    | int i => exact scanValue_int I _ h hrest
    | float x => exact scanValue_float I _ x hrest
    | str t => exact scanValue_str I _ t rest
    | arr items =>
      have hscan := scanArray_join (I := I) (fun d hd rest hrest => ih (h d hd) hrest) rest
      rw [dumps, dumpsItems_eq, sorted, sortedItems_eq, ← hscan, List.append_assoc, List.append_assoc]
      rfl
    | obj fields =>
      have hperm := List.mergeSort_perm fields keyLe
      have hscan := scanObject_join (I := I) ((hperm.map _).nodup_iff.mpr h.1)
        (fun f hf rest hrest => ih (h.2 f (hperm.mem_iff.mp hf)) hrest) rest
      rw [dumps, map_dumpsFields, sorted, map_sortedFields, ← hscan, List.append_assoc, List.append_assoc, List.map_map]
      rfl

/-- `json.loads(json.dumps(value) + "\n")`. -/
theorem jsonLoads_dumps (I : Interpreter F) {d : Document F} (h : Readable I.recursionLimit d) :
    jsonLoads I (dumps I.repr d ++ txt "\n") = .ok (sorted d) := by
  have hopens := (opens_dumps I d).append (txt "\n")
  have hskip := hopens.skipBlanks
  have hmark : ¬(dumps I.repr d ++ txt "\n").head? = some byteOrderMark := by
    obtain ⟨c, cs, heq, -, -, -, hc⟩ := hopens
    rw [heq, List.head?_cons, Option.some.injEq]
    exact hc
  have hfeed : Stops (txt "\n") := stops_cons (by decide) []
  have hscan := scanOnce_dumps I h hfeed
  rw [jsonLoads, if_neg hmark, hskip, hscan]
  rfl

/-! ## What is read can be printed -/

theorem length_decimal_le {n k : ℕ} (hk : 0 < k) (h : n < 10 ^ k) : (decimal n).length ≤ k := by
  induction k generalizing n with
  | zero => exact absurd hk (Nat.lt_irrefl 0)
  | succ k ih =>
    rw [decimal_eq]
    split
    · exact Nat.le_add_left 1 k
    · next hlarge =>
      have hpos : 0 < k := by
        by_contra hzero
        rw [Nat.eq_zero_of_not_pos hzero] at h
        exact hlarge h
      have htail := ih hpos (Nat.div_lt_of_lt_mul (by rwa [← Nat.pow_succ']))
      rw [List.length_append, List.length_singleton]
      exact Nat.succ_le_succ htail

theorem natOf_lt {ds : Text} (h : ∀ c ∈ ds, isDigit c = true) : natOf ds < 10 ^ ds.length := by
  induction ds using List.reverseRecOn with
  | nil => exact Nat.one_pos
  | append_singleton ds d ih =>
    have hhead := ih fun c hc => h c (List.mem_append_left _ hc)
    have hd := h d (by simp)
    rw [isDigit, Bool.and_eq_true, decide_eq_true_eq, decide_eq_true_eq] at hd
    rw [natOf_append, List.length_append, List.length_singleton, Nat.pow_succ]
    omega

theorem scanInteger_digits {t digits rest : Text} (h : scanInteger t = some (digits, rest)) :
    digits ≠ [] ∧ ∀ c ∈ digits, isDigit c = true := by
  cases t with
  | nil => cases h
  | cons c t =>
    rw [scanInteger] at h
    split at h
    · next hzero =>
      cases h
      exact ⟨List.cons_ne_nil _ _, List.forall_mem_singleton.mpr (by rw [hzero]; decide)⟩
    · split at h
      · next hdigit =>
        cases h
        rw [List.takeWhile_cons_of_pos hdigit]
        refine ⟨List.cons_ne_nil _ _, List.forall_mem_cons.mpr ⟨hdigit, fun d hd => List.mem_takeWhile_imp hd⟩⟩
      · cases h

theorem scanNumber_readable {I : Interpreter F} {t rest : Text} {d : Document F} (h : scanNumber I t = .ok (d, rest)) (depth : ℕ) :
    Readable depth d := by
  rw [scanNumber] at h
  split at h
  · cases h
  · next digits tail hdigits =>
    obtain ⟨hne, hall⟩ := scanInteger_digits hdigits
    simp only at h
    split at h
    · split at h
      · cases h
      · next hshort =>
        cases h
        have hlength := length_decimal_le (List.length_pos_of_ne_nil hne) (natOf_lt hall)
        have hprinted : ∀ i : ℤ, i.natAbs = natOf digits → (decimal i.natAbs).length ≤ maxStrDigits := fun i hi =>
          (hi ▸ hlength).trans (Nat.le_of_not_lt hshort)
        rw [Readable.eq_def]
        refine hprinted _ ?_
        split <;> simp
    · cases h
      cases depth <;> trivial

theorem scanSequence_forall {α : Type} {scan : Text → Except DecodeError (α × Text)} {P : α → Prop}
    (hscan : ∀ t a rest, scan t = .ok (a, rest) → P a) {closer : CodePoint} {rounds : ℕ} {t rest : Text} {items : List α}
    (h : scanSequence scan closer rounds t = .ok (items, rest)) : ∀ a ∈ items, P a := by
  induction rounds generalizing t rest items with
  | zero => cases h
  | succ rounds ih =>
    obtain ⟨⟨a, u⟩, ha, h⟩ := bind_eq_ok.mp h
    have hP := hscan _ _ _ ha
    split at h
    · cases h
    · split at h
      · cases h
        exact List.forall_mem_singleton.mpr hP
      · split at h
        · obtain ⟨⟨as, v⟩, has, hpure⟩ := bind_eq_ok.mp h
          cases hpure
          exact List.forall_mem_cons.mpr ⟨hP, ih has⟩
        · cases h

theorem scanField_forall {scan : Scan F} {P : Document F → Prop} (hscan : ∀ t d rest, scan t = .ok (d, rest) → P d) (t : Text)
    (f : Text × Document F) (rest : Text) (h : scanField scan t = .ok (f, rest)) : P f.2 := by
  cases t with
  | nil => cases h
  | cons c t =>
    rw [scanField] at h
    split at h
    · obtain ⟨key, -, h⟩ := bind_eq_ok.mp h
      split at h
      · cases h
      · split at h
        · obtain ⟨⟨d, u⟩, hd, hpure⟩ := bind_eq_ok.mp h
          cases hpure
          exact hscan _ _ _ hd
        · cases h
    · cases h

theorem constants_readable (depth : ℕ) : ∀ k ∈ (constants : List (Text × Document F)), Readable depth k.2 := by
  simp only [constants, List.forall_mem_cons]
  cases depth <;> exact ⟨trivial, trivial, trivial, trivial, trivial, trivial, List.forall_mem_nil _⟩

theorem scanValue_readable {I : Interpreter F} {nested : Option (Scan F)} {t rest : Text} {d : Document F}
    (h : scanValue I nested t = .ok (d, rest)) {depth : ℕ}
    (hnested : ∀ scan, nested = some scan → ∃ k, depth = k + 1 ∧ ∀ t d rest, scan t = .ok (d, rest) → Readable k d) :
    Readable depth d := by
  cases t with
  | nil => cases h
  | cons c t =>
    rw [scanValue.eq_def] at h
    simp only at h
    split at h
    · obtain ⟨s, -, heq⟩ := map_ok_iff.mp h
      cases heq
      cases depth <;> trivial
    · split at h
      · cases nested with
        | none => cases h
        | some scan =>
          obtain ⟨k, rfl, hscan⟩ := hnested scan rfl
          simp only [scanObject] at h
          split at h
          · cases h
          · split at h
            · cases h
              exact ⟨List.nodup_nil, List.forall_mem_nil _⟩
            · obtain ⟨fields, hfields, heq⟩ := map_ok_iff.mp h
              cases heq
              have hall := scanSequence_forall (scanField_forall hscan) hfields
              exact ⟨nodup_dictOf _, fun f hf => hall f (mem_dictOf hf)⟩
      · split at h
        · cases nested with
          | none => cases h
          | some scan =>
            obtain ⟨k, rfl, hscan⟩ := hnested scan rfl
            simp only [scanArray] at h
            split at h
            · cases h
            · split at h
              · cases h
                exact List.forall_mem_nil _
              · obtain ⟨items, hitems, heq⟩ := map_ok_iff.mp h
                cases heq
                exact scanSequence_forall hscan hitems
        · split at h
          · next constant hconstant =>
            cases h
            obtain ⟨k, hk, heq⟩ := Option.map_eq_some_iff.mp hconstant
            cases heq
            exact constants_readable depth k (List.mem_of_find?_eq_some hk)
          · exact scanNumber_readable h depth

/-- What is read can be printed and read again. -/
theorem scanOnce_readable {I : Interpreter F} {depth : ℕ} {t rest : Text} {d : Document F}
    (h : scanOnce I depth t = .ok (d, rest)) : Readable depth d := by
  induction depth generalizing t d rest with
  | zero => exact scanValue_readable h fun scan hnone => by cases hnone
  | succ depth ih =>
    refine scanValue_readable h fun scan heq => ⟨depth, rfl, ?_⟩
    cases heq
    exact fun t d rest hd => ih hd

theorem jsonLoads_readable {I : Interpreter F} {t : Text} {d : Document F} (h : jsonLoads I t = .ok d) :
    Readable I.recursionLimit d := by
  rw [jsonLoads] at h
  split at h
  · cases h
  · obtain ⟨value, hvalue, h⟩ := bind_eq_ok.mp h
    split at h
    · cases h
      exact scanOnce_readable hvalue
    · cases h

/-! ## The characters of a printed document -/

mutual
/-- The strings of a document: its string values and its keys. -/
def texts : Document F → List Text
  | .str t => [t]
  | .arr items => textsOfItems items
  | .obj fields => textsOfFields fields
  | _ => []

def textsOfItems : List (Document F) → List Text
  | [] => []
  | d :: ds => texts d ++ textsOfItems ds

def textsOfFields : List (Text × Document F) → List Text
  | [] => []
  | (k, d) :: fs => k :: (texts d ++ textsOfFields fs)
end

theorem forall_textsOfItems {P : Text → Prop} (ds : List (Document F)) :
    (∀ t ∈ textsOfItems ds, P t) ↔ ∀ d ∈ ds, ∀ t ∈ texts d, P t := by
  induction ds with
  | nil => simp [textsOfItems]
  | cons d ds ih => rw [textsOfItems, List.forall_mem_append, List.forall_mem_cons, ih]

theorem forall_textsOfFields {P : Text → Prop} (fs : List (Text × Document F)) :
    (∀ t ∈ textsOfFields fs, P t) ↔ ∀ f ∈ fs, P f.1 ∧ ∀ t ∈ texts f.2, P t := by
  induction fs with
  | nil => simp [textsOfFields]
  | cons f fs ih => rw [textsOfFields, List.forall_mem_cons, List.forall_mem_append, List.forall_mem_cons, ih, and_assoc]

/-- The printable ASCII characters. -/
def isPlain (c : CodePoint) : Bool := 0x20 ≤ c.val && c.val < 0x80

theorem isPlain_of {c : CodePoint} (h : 0x20 ≤ c.val ∧ c.val < 0x80) : isPlain c = true := by
  rw [isPlain, decide_eq_true h.1, decide_eq_true h.2]
  rfl

theorem isPlain_of_isDigit {c : CodePoint} (h : isDigit c = true) : isPlain c = true := by
  rw [isDigit, Bool.and_eq_true, decide_eq_true_eq, decide_eq_true_eq] at h
  exact isPlain_of ⟨by omega, by omega⟩

theorem IsSign.plain {t : Text} (h : IsSign t) : ∀ c ∈ t, isPlain c = true := by
  obtain rfl | rfl := h
  · exact fun c hc => absurd hc List.not_mem_nil
  · exact List.forall_mem_singleton.mpr (by decide)

theorem IsInteger.plain {t : Text} (h : IsInteger t) : ∀ c ∈ t, isPlain c = true := by
  cases h with
  | inl h =>
    rw [h]
    exact List.forall_mem_singleton.mpr (by decide)
  | inr h =>
    obtain ⟨d, ds, -, -, hall⟩ := h
    exact fun c hc => isPlain_of_isDigit (hall c hc)

theorem IsFraction.plain {t : Text} (h : IsFraction t) : ∀ c ∈ t, isPlain c = true := by
  obtain rfl | ⟨d, ds, rfl, hall⟩ := h
  · exact fun c hc => absurd hc List.not_mem_nil
  · exact List.forall_mem_cons.mpr ⟨by decide, fun c hc => isPlain_of_isDigit (hall c hc)⟩

theorem IsExponent.plain {t : Text} (h : IsExponent t) : ∀ c ∈ t, isPlain c = true := by
  obtain rfl | ⟨mark, sign, d, ds, rfl, hmark, hsign, hall⟩ := h
  · exact fun c hc => absurd hc List.not_mem_nil
  · have hsignPlain : ∀ c ∈ sign, isPlain c = true := by
      cases hsign with
      | inl h =>
        rw [h]
        exact List.forall_mem_singleton.mpr (by decide)
      | inr h => exact h.plain
    rw [isExponentMark, Bool.or_eq_true, beq_iff_eq, beq_iff_eq] at hmark
    refine List.forall_mem_cons.mpr ⟨isPlain_of ⟨by omega, by omega⟩, List.forall_mem_append.mpr ⟨hsignPlain, ?_⟩⟩
    exact fun c hc => isPlain_of_isDigit (hall c hc)

theorem FloatLiteral.plain {t : Text} (h : FloatLiteral t) : ∀ c ∈ t, isPlain c = true := by
  obtain ⟨sign, digits, fraction, exponent, rfl, hsign, hdigits, hfraction, hexponent, -⟩ := h
  simp only [List.forall_mem_append]
  exact ⟨hsign.plain, hdigits.plain, hfraction.plain, hexponent.plain⟩

theorem integer_plain (i : ℤ) : ∀ c ∈ integer i, isPlain c = true := by
  obtain ⟨sign, hsign, heq⟩ := integer_eq i
  rw [heq, List.append_nil]
  exact List.forall_mem_append.mpr ⟨hsign.plain, (isInteger_decimal _).plain⟩

theorem floatText_plain (I : Interpreter F) (x : FloatValue F) : ∀ c ∈ floatText I.repr x, isPlain c = true := by
  cases x with
  | finite x => exact (I.repr_literal x).plain
  | nan => exact List.all_eq_true.mp (by decide : (txt "NaN").all isPlain = true)
  | infinity => exact List.all_eq_true.mp (by decide : (txt "Infinity").all isPlain = true)
  | negInfinity => exact List.all_eq_true.mp (by decide : (txt "-Infinity").all isPlain = true)

section
variable {p : CodePoint → Prop} (hp : ∀ c, isPlain c = true → p c)
include hp

theorem forall_plain {t : Text} (h : t.all isPlain = true) : ∀ c ∈ t, p c := fun c hc => hp c (List.all_eq_true.mp h c hc)

theorem forall_joinCommas (ts : List Text) : (∀ c ∈ joinCommas ts, p c) ↔ ∀ t ∈ ts, ∀ c ∈ t, p c := by
  induction ts with
  | nil => simp [joinCommas]
  | cons t ts ih =>
    cases ts with
    | nil => simp
    | cons t' ts =>
      rw [joinCommas_cons, List.forall_mem_append, List.forall_mem_append, ih, List.forall_mem_cons (a := t)]
      exact and_congr_right fun _ => and_iff_right (forall_plain hp (by decide))

theorem forall_quoted (t : Text) : (∀ c ∈ quoted t, p c) ↔ ∀ c ∈ escape t, p c := by
  have hquote : p quote := hp _ (by decide)
  rw [quoted, List.forall_mem_cons, List.forall_mem_append, List.forall_mem_singleton, and_iff_right hquote, and_iff_left hquote]

theorem forall_fieldText (f : Text × Text) : (∀ c ∈ fieldText f, p c) ↔ (∀ c ∈ escape f.1, p c) ∧ ∀ c ∈ f.2, p c := by
  rw [fieldText, List.forall_mem_append, List.forall_mem_append, forall_quoted hp]
  exact and_congr_right fun _ => and_iff_right (forall_plain hp (by decide))

theorem forall_bracketed {l r t : Text} (hl : l.all isPlain = true) (hr : r.all isPlain = true) :
    (∀ c ∈ l ++ (t ++ r), p c) ↔ ∀ c ∈ t, p c := by
  rw [List.forall_mem_append, List.forall_mem_append, and_iff_right (forall_plain hp hl), and_iff_left (forall_plain hp hr)]

/-- What holds of plain characters holds of a printed document when it holds of its strings. -/
theorem forall_dumps (I : Interpreter F) {depth : ℕ} {d : Document F} (h : Readable depth d) :
    (∀ c ∈ dumps I.repr d, p c) ↔ ∀ t ∈ texts d, ∀ c ∈ escape t, p c := by
  have hnone : ∀ {t : Text}, (∀ c ∈ t, p c) → ((∀ c ∈ t, p c) ↔ ∀ t ∈ ([] : List Text), ∀ c ∈ escape t, p c) := fun ht =>
    iff_of_true ht fun t ht => absurd ht List.not_mem_nil
  induction depth using Nat.strong_induction_on generalizing d with
  | h depth ih =>
    cases d with
    | null => exact hnone (forall_plain hp (t := txt "null") (by decide))
    | bool b =>
      cases b with
      | true => exact hnone (forall_plain hp (t := txt "true") (by decide))
      | false => exact hnone (forall_plain hp (t := txt "false") (by decide))
    | int i => exact hnone fun c hc => hp c (integer_plain i c hc)
    | float x => exact hnone fun c hc => hp c (floatText_plain I x c hc)
    | str t => rw [dumps, texts, forall_quoted hp, List.forall_mem_singleton]
    | arr items =>
      cases depth with
      | zero => exact h.elim
      | succ depth =>
        rw [dumps, texts, forall_bracketed hp (by decide) (by decide), forall_joinCommas hp, forall_textsOfItems, dumpsItems_eq,
          List.forall_mem_map]
        exact forall₂_congr fun d hd => ih depth (Nat.lt_succ_self depth) (h d hd)
    | obj fields =>
      cases depth with
      | zero => exact h.elim
      | succ depth =>
        rw [dumps, texts, forall_bracketed hp (by decide) (by decide), forall_joinCommas hp, forall_textsOfFields, map_dumpsFields,
          List.map_map, List.forall_mem_map]
        simp only [List.mem_mergeSort, Function.comp_apply, forall_fieldText hp]
        exact forall₂_congr fun f hf => and_congr_right fun _ => ih depth (Nat.lt_succ_self depth) (h.2 f hf)

end

/-- A character is printed as plain ones, or as it is. -/
theorem forall_escapeChar {p : CodePoint → Prop} (hp : ∀ c, isPlain c = true → p c) (c : CodePoint) :
    (∀ d ∈ escapeChar c, p d) ↔ isEscaped c ∨ p c := by
  by_cases hc : isEscaped c
  · have hjson : jsonChars.all isPlain = true := by decide
    refine iff_of_true (fun d hd => hp d ?_) (.inl hc)
    have hd := List.all_eq_true.mp (escapeChar_json hc) d hd
    rw [isJsonChar, List.contains_eq_mem, decide_eq_true_eq] at hd
    exact List.all_eq_true.mp hjson d hd
  · rw [escapeChar_plain hc, List.forall_mem_singleton, or_iff_right hc]

/-- Nothing is printed as a control character. -/
theorem escape_controls (t : Text) : ∀ c ∈ escape t, 0x20 ≤ c.val := by
  intro d hd
  obtain ⟨c, -, hd⟩ := List.mem_flatMap.mp hd
  refine (forall_escapeChar (p := fun c => 0x20 ≤ c.val) (fun c hc => ?_) c).mpr ?_ d hd
  · rw [isPlain, Bool.and_eq_true, decide_eq_true_eq] at hc
    exact hc.1
  · by_cases hc : isEscaped c
    · exact .inl hc
    · rw [isEscaped, not_or, not_or] at hc
      exact .inr (Nat.le_of_not_lt hc.2.2)

theorem dumps_controls (I : Interpreter F) {depth : ℕ} {d : Document F} (h : Readable depth d) : ∀ c ∈ dumps I.repr d, 0x20 ≤ c.val := by
  refine (forall_dumps (fun c hc => ?_) I h).mpr fun t _ => escape_controls t
  rw [isPlain, Bool.and_eq_true, decide_eq_true_eq] at hc
  exact hc.1

theorem not_isSurrogate_of_isPlain {c : CodePoint} (h : isPlain c = true) : isSurrogate c = false := by
  rw [isPlain, Bool.and_eq_true, decide_eq_true_eq, decide_eq_true_eq] at h
  rw [isSurrogate, Bool.and_eq_false_iff, decide_eq_false_iff_not]
  omega

theorem not_isSurrogate_of_isEscaped {c : CodePoint} (h : isEscaped c) : isSurrogate c = false := by
  obtain rfl | rfl | h := h
  · decide
  · decide
  · rw [isSurrogate, Bool.and_eq_false_iff, decide_eq_false_iff_not]
    omega

theorem isEncodable_escape (t : Text) : isEncodable (escape t) = true ↔ isEncodable t = true := by
  rw [isEncodable_iff, isEncodable_iff, escape]
  simp only [List.mem_flatMap, forall_exists_index, and_imp]
  rw [forall_comm]
  refine forall_congr' fun c => ?_
  rw [forall_comm]
  refine forall_congr' fun _ => ?_
  rw [forall_escapeChar (fun _ => not_isSurrogate_of_isPlain) c]
  exact or_iff_right_of_imp not_isSurrogate_of_isEscaped

/-- A printed document has an encoding exactly when its strings have. -/
theorem isEncodable_dumps (I : Interpreter F) {depth : ℕ} {d : Document F} (h : Readable depth d) :
    isEncodable (dumps I.repr d) = true ↔ ∀ t ∈ texts d, isEncodable t = true := by
  rw [isEncodable_iff, forall_dumps (fun _ => not_isSurrogate_of_isPlain) I h]
  refine forall₂_congr fun t _ => ?_
  rw [← isEncodable_iff, isEncodable_escape]

end WebOauthMcp.JsonDecoding
