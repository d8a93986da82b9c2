import Mathlib.Algebra.GroupWithZero.Nat
import Mathlib.Data.List.Basic
import Mathlib.Data.List.Infix
import Mathlib.Data.Fin.Basic
import Mathlib.Order.Fin.Basic

/-!
# Text as sequences of code points

A string value is a list of code points in which lone surrogates may occur; only
encoding it to UTF-8 rejects them. Decoding with replacement is kept as a list of
units, each holding the octets it was read from, so that re-encoding a decoded text
can be compared with the octets it came from.
-/

namespace WebOauthMcp.CodePoints

instance neZero_codePoints : @NeZero ℕ Zero.ofOfNat0 0x110000 := ⟨Nat.succ_ne_zero 0x10FFFF⟩
instance neZero_bytes : @NeZero ℕ Zero.ofOfNat0 256 := ⟨Nat.succ_ne_zero 255⟩

abbrev CodePoint := Fin 0x110000
abbrev Text := List CodePoint
abbrev Byte := Fin 256
abbrev Bytes := List Byte

instance lawfulBEq_codePoint : LawfulBEq CodePoint := inferInstance

instance lawfulBEq_text : LawfulBEq Text := inferInstance

/-- A text literal. -/
def txt (s : String) : Text := s.toList.map fun c => Fin.ofNat _ c.toNat

def isSurrogate (c : CodePoint) : Bool := 0xD800 ≤ c.val && c.val ≤ 0xDFFF

def isAscii (t : Text) : Bool := t.all fun c => c.val < 0x80

def replacementCharacter : CodePoint := 0xFFFD

/-- Decimal digits of a natural number, as `str` and `json` print it. -/
def decimal (n : ℕ) : Text := (Nat.toDigits 10 n).map fun c => Fin.ofNat _ c.toNat

/-! ## UTF-8 encoding -/

/-- The octets of one code point. Surrogates have no encoding; `encodeUtf8` refuses them. -/
def utf8Bytes (c : CodePoint) : Bytes :=
  let n := c.val
  if n < 0x80 then [Fin.ofNat _ n]
  else if n < 0x800 then [Fin.ofNat _ (0xC0 + n / 64), Fin.ofNat _ (0x80 + n % 64)]
  else if n < 0x10000 then
    [Fin.ofNat _ (0xE0 + n / 4096), Fin.ofNat _ (0x80 + n / 64 % 64), Fin.ofNat _ (0x80 + n % 64)]
  else
    [Fin.ofNat _ (0xF0 + n / 262144), Fin.ofNat _ (0x80 + n / 4096 % 64),
      Fin.ofNat _ (0x80 + n / 64 % 64), Fin.ofNat _ (0x80 + n % 64)]

/-- No lone surrogate occurs, so the text has a UTF-8 encoding. -/
def isEncodable (t : Text) : Bool := t.all fun c => !isSurrogate c

/-- `str.encode("utf-8")`; `none` is the `UnicodeEncodeError` on a lone surrogate. -/
def encodeUtf8 (t : Text) : Option Bytes :=
  if isEncodable t then some (t.flatMap utf8Bytes) else none

@[simp] theorem isEncodable_nil : isEncodable [] = true := rfl

@[simp] theorem isEncodable_append (s t : Text) :
    isEncodable (s ++ t) = (isEncodable s && isEncodable t) := by simp [isEncodable]

@[simp] theorem isEncodable_cons (c : CodePoint) (t : Text) :
    isEncodable (c :: t) = (!isSurrogate c && isEncodable t) := by simp [isEncodable]

theorem isEncodable_iff (t : Text) : isEncodable t = true ↔ ∀ c ∈ t, isSurrogate c = false := by
  simp [isEncodable]

theorem isEncodable_of_isAscii {t : Text} (h : isAscii t = true) : isEncodable t = true := by
  simp only [isAscii, List.all_eq_true, decide_eq_true_eq] at h
  refine (isEncodable_iff t).mpr fun c hc => ?_
  have hc := h c hc
  simp only [isSurrogate, Bool.and_eq_false_iff, decide_eq_false_iff_not]
  omega

theorem isEncodable_sublist {s t : Text} (hs : ∀ c ∈ s, c ∈ t) (h : isEncodable t = true) :
    isEncodable s = true := by
  rw [isEncodable_iff] at h ⊢
  exact fun c hc => h c (hs c hc)

theorem encodeUtf8_eq_some_iff (t : Text) (b : Bytes) :
    encodeUtf8 t = some b ↔ isEncodable t = true ∧ b = t.flatMap utf8Bytes := by
  by_cases h : isEncodable t = true
  · simp [encodeUtf8, h, eq_comm]
  · simp [encodeUtf8, h]

/-- Continuation octets are exactly `0x80` to `0xBF`. -/
def isContinuation (b : Byte) : Bool := 0x80 ≤ b.val && b.val ≤ 0xBF

theorem utf8Bytes_ne_nil (c : CodePoint) : utf8Bytes c ≠ [] := by
  simp only [utf8Bytes]
  split_ifs <;> simp

/-- The first octet of an encoded code point is never a continuation octet. -/
theorem utf8Bytes_head (c : CodePoint) (b : Byte) (bs : Bytes) (h : utf8Bytes c = b :: bs) :
    isContinuation b = false := by
  have hc := c.isLt
  simp only [utf8Bytes] at h
  split_ifs at h <;> obtain ⟨rfl, -⟩ := List.cons.inj h <;>
    simp only [isContinuation, Fin.ofNat_eq_cast, Fin.val_natCast, Bool.and_eq_false_iff,
      decide_eq_false_iff_not] <;> omega

/-- Every later octet of an encoded code point is a continuation octet. -/
theorem utf8Bytes_tail (c : CodePoint) (b : Byte) (bs : Bytes) (h : utf8Bytes c = b :: bs) :
    ∀ x ∈ bs, isContinuation x = true := by
  have hc := c.isLt
  simp only [utf8Bytes] at h
  split_ifs at h <;> obtain ⟨-, rfl⟩ := List.cons.inj h <;>
    simp only [isContinuation, Fin.ofNat_eq_cast, Fin.val_natCast, List.not_mem_nil,
      List.mem_cons, or_false, Bool.and_eq_true, decide_eq_true_eq, false_implies, implies_true,
      forall_eq_or_imp, forall_eq] <;> omega

/-- Octets below `0x80` are encoded by the code point of the same number only. -/
theorem mem_utf8Bytes_of_lt (c : CodePoint) (b : Byte) (hb : b.val < 0x80) (h : b ∈ utf8Bytes c) :
    b.val = c.val := by
  have hc := c.isLt
  simp only [utf8Bytes] at h
  split_ifs at h <;> simp only [List.mem_cons, List.not_mem_nil, or_false] at h
  · rw [h, Fin.ofNat_eq_cast, Fin.val_natCast]
    omega
  · rcases h with rfl | rfl <;> simp only [Fin.ofNat_eq_cast, Fin.val_natCast] at hb <;> omega
  · rcases h with rfl | rfl | rfl <;> simp only [Fin.ofNat_eq_cast, Fin.val_natCast] at hb <;>
      omega
  · rcases h with rfl | rfl | rfl | rfl <;>
      simp only [Fin.ofNat_eq_cast, Fin.val_natCast] at hb <;> omega

end WebOauthMcp.CodePoints
