import WebOauthMcp.Utf8Units

/-!
# The UTF-16 and UTF-32 codecs

Strict decoding and encoding in either byte order, without byte order marks. Decoding is
injective on its domain: what it accepts is encoded back to the same octets.
-/

namespace WebOauthMcp.UnicodeCodecs
open CodePoints Utf8Units

inductive ByteOrder
  | little
  | big
  deriving DecidableEq, Repr

/-- The number that two octets spell. -/
def unit16 : ByteOrder → Byte → Byte → ℕ
  | .little, a, b => a.val + 256 * b.val
  | .big, a, b => b.val + 256 * a.val

def bytes16 : ByteOrder → ℕ → Bytes
  | .little, n => [Fin.ofNat _ n, Fin.ofNat _ (n / 256)]
  | .big, n => [Fin.ofNat _ (n / 256), Fin.ofNat _ n]

/-- The number that four octets spell. -/
def unit32 : ByteOrder → Byte → Byte → Byte → Byte → ℕ
  | .little, a, b, c, d => a.val + 256 * (b.val + 256 * (c.val + 256 * d.val))
  | .big, a, b, c, d => d.val + 256 * (c.val + 256 * (b.val + 256 * a.val))

def bytes32 : ByteOrder → ℕ → Bytes
  | .little, n => [Fin.ofNat _ n, Fin.ofNat _ (n / 256), Fin.ofNat _ (n / 65536), Fin.ofNat _ (n / 16777216)]
  | .big, n => [Fin.ofNat _ (n / 16777216), Fin.ofNat _ (n / 65536), Fin.ofNat _ (n / 256), Fin.ofNat _ n]

def isHighUnit (n : ℕ) : Bool := 0xD800 ≤ n && n ≤ 0xDBFF
def isLowUnit (n : ℕ) : Bool := 0xDC00 ≤ n && n ≤ 0xDFFF

/-- The character that a surrogate pair stands for. -/
def pairChar (high low : ℕ) : CodePoint := Fin.ofNat _ (0x10000 + (high - 0xD800) * 0x400 + (low - 0xDC00))

/-- One code unit, and perhaps the second half of a pair, in front of a decoded text. -/
def decodeUtf16 (o : ByteOrder) : Bytes → Option Text
  | [] => some []
  | [_] => none
  | [a, b] => if isHighUnit (unit16 o a b) || isLowUnit (unit16 o a b) then none else some [Fin.ofNat _ (unit16 o a b)]
  | [_, _, _] => none
  | a :: b :: c :: d :: rest =>
    if isHighUnit (unit16 o a b) then
      if isLowUnit (unit16 o c d) then
        (decodeUtf16 o rest).map fun t => pairChar (unit16 o a b) (unit16 o c d) :: t
      else none
    else if isLowUnit (unit16 o a b) then none
    else (decodeUtf16 o (c :: d :: rest)).map fun t => Fin.ofNat _ (unit16 o a b) :: t

/-- The octets of one character. -/
def utf16Bytes (o : ByteOrder) (c : CodePoint) : Bytes :=
  if c.val < 0x10000 then bytes16 o c.val
  else bytes16 o (0xD800 + (c.val - 0x10000) / 0x400) ++ bytes16 o (0xDC00 + (c.val - 0x10000) % 0x400)

def encodeUtf16 (o : ByteOrder) (t : Text) : Option Bytes :=
  if isEncodable t then some (t.flatMap (utf16Bytes o)) else none

def decodeUtf32 (o : ByteOrder) : Bytes → Option Text
  | [] => some []
  | a :: b :: c :: d :: rest =>
    if unit32 o a b c d < 0x110000 ∧ isSurrogate (Fin.ofNat _ (unit32 o a b c d)) = false then
      (decodeUtf32 o rest).map fun t => Fin.ofNat _ (unit32 o a b c d) :: t
    else none
  | _ => none

def encodeUtf32 (o : ByteOrder) (t : Text) : Option Bytes :=
  if isEncodable t then some (t.flatMap fun c => bytes32 o c.val) else none

/-! ## Encoding what was decoded -/

theorem bytes16_unit16 (o : ByteOrder) (a b : Byte) : bytes16 o (unit16 o a b) = [a, b] := by
  have ha := a.isLt
  have hb := b.isLt
  cases o with
  | little =>
    simp only [bytes16, unit16, List.cons.injEq, and_true, Fin.ext_iff, Fin.val_ofNat]
    omega
  | big =>
    simp only [bytes16, unit16, List.cons.injEq, and_true, Fin.ext_iff, Fin.val_ofNat]
    omega

theorem unit16_lt (o : ByteOrder) (a b : Byte) : unit16 o a b < 0x10000 := by
  have ha := a.isLt
  have hb := b.isLt
  cases o with
  | little =>
    simp only [unit16]
    omega
  | big =>
    simp only [unit16]
    omega

theorem bytes32_unit32 (o : ByteOrder) (a b c d : Byte) : bytes32 o (unit32 o a b c d) = [a, b, c, d] := by
  have ha := a.isLt
  have hb := b.isLt
  have hc := c.isLt
  have hd := d.isLt
  cases o with
  | little =>
    simp only [bytes32, unit32, List.cons.injEq, and_true, Fin.ext_iff, Fin.val_ofNat]
    omega
  | big =>
    simp only [bytes32, unit32, List.cons.injEq, and_true, Fin.ext_iff, Fin.val_ofNat]
    omega

private theorem val_of_lt {n : ℕ} (h : n < 0x110000) : (Fin.ofNat 0x110000 n).val = n := Nat.mod_eq_of_lt h

/-- A code unit outside the surrogate range is its own character. -/
theorem utf16Bytes_unit {o : ByteOrder} {a b : Byte} (hh : isHighUnit (unit16 o a b) = false)
    (hl : isLowUnit (unit16 o a b) = false) :
    isSurrogate (Fin.ofNat _ (unit16 o a b)) = false ∧ utf16Bytes o (Fin.ofNat _ (unit16 o a b)) = [a, b] := by
  have hlt := unit16_lt o a b
  have hval := val_of_lt (n := unit16 o a b) (by omega)
  constructor
  · simp only [isHighUnit, isLowUnit, Bool.and_eq_false_iff, decide_eq_false_iff_not] at hh hl
    simp only [isSurrogate, hval, Bool.and_eq_false_iff, decide_eq_false_iff_not]
    omega
  · rw [utf16Bytes, hval, if_pos hlt, bytes16_unit16]

/-- A pair of surrogates is the character it stands for. -/
theorem utf16Bytes_pair {o : ByteOrder} {a b c d : Byte} (hh : isHighUnit (unit16 o a b) = true)
    (hl : isLowUnit (unit16 o c d) = true) :
    isSurrogate (pairChar (unit16 o a b) (unit16 o c d)) = false ∧
      utf16Bytes o (pairChar (unit16 o a b) (unit16 o c d)) = [a, b, c, d] := by
  simp only [isHighUnit, isLowUnit, Bool.and_eq_true, decide_eq_true_eq] at hh hl
  have hval : (pairChar (unit16 o a b) (unit16 o c d)).val =
      0x10000 + (unit16 o a b - 0xD800) * 0x400 + (unit16 o c d - 0xDC00) := val_of_lt (by omega)
  constructor
  · simp only [isSurrogate, hval, Bool.and_eq_false_iff, decide_eq_false_iff_not]
    omega
  · have hhigh : 0xD800 + ((pairChar (unit16 o a b) (unit16 o c d)).val - 0x10000) / 0x400 = unit16 o a b := by omega
    have hlow : 0xDC00 + ((pairChar (unit16 o a b) (unit16 o c d)).val - 0x10000) % 0x400 = unit16 o c d := by omega
    rw [utf16Bytes, if_neg (by omega), hhigh, hlow, bytes16_unit16, bytes16_unit16]
    rfl

/-- What UTF-16 decoding accepts is encodable, and spelled by its own octets. -/
theorem decodeUtf16_spells {o : ByteOrder} {raw : Bytes} {t : Text} (h : decodeUtf16 o raw = some t) :
    isEncodable t = true ∧ t.flatMap (utf16Bytes o) = raw := by
  induction raw using decodeUtf16.induct o generalizing t with
  | case1 =>
    obtain rfl := Option.some.inj h
    exact ⟨rfl, rfl⟩
  | case2 => exact nomatch h
  | case3 a b hs =>
    rw [decodeUtf16, if_pos hs] at h
    exact nomatch h
  | case4 a b hs =>
    rw [decodeUtf16, if_neg hs] at h
    obtain rfl := Option.some.inj h
    simp only [Bool.or_eq_true, not_or, Bool.not_eq_true] at hs
    have hunit := utf16Bytes_unit hs.1 hs.2
    rw [isEncodable_cons, List.flatMap_cons, hunit.1, hunit.2]
    exact ⟨rfl, rfl⟩
  | case5 => exact nomatch h
  | case6 a b c d rest hh hl ih =>
    rw [decodeUtf16, if_pos hh, if_pos hl] at h
    obtain ⟨u, hu, rfl⟩ := Option.map_eq_some_iff.mp h
    have hpair := utf16Bytes_pair hh hl
    rw [isEncodable_cons, List.flatMap_cons, hpair.1, hpair.2, (ih hu).1, (ih hu).2]
    exact ⟨rfl, rfl⟩
  | case7 a b c d rest hh hl =>
    rw [decodeUtf16, if_pos hh, if_neg hl] at h
    exact nomatch h
  | case8 a b c d rest hh hl =>
    rw [decodeUtf16, if_neg hh, if_pos hl] at h
    exact nomatch h
  | case9 a b c d rest hh hl ih =>
    rw [decodeUtf16, if_neg hh, if_neg hl] at h
    obtain ⟨u, hu, rfl⟩ := Option.map_eq_some_iff.mp h
    simp only [Bool.not_eq_true] at hh hl
    have hunit := utf16Bytes_unit hh hl
    rw [isEncodable_cons, List.flatMap_cons, hunit.1, hunit.2, (ih hu).1, (ih hu).2]
    exact ⟨rfl, rfl⟩

theorem encodeUtf16_decodeUtf16 {o : ByteOrder} {raw : Bytes} {t : Text} (h : decodeUtf16 o raw = some t) :
    encodeUtf16 o t = some raw := by
  have hspells := decodeUtf16_spells h
  rw [encodeUtf16, if_pos hspells.1, hspells.2]

theorem decodeUtf32_spells {o : ByteOrder} {raw : Bytes} {t : Text} (h : decodeUtf32 o raw = some t) :
    isEncodable t = true ∧ (t.flatMap fun c => bytes32 o c.val) = raw := by
  induction raw using decodeUtf32.induct o generalizing t with
  | case1 =>
    obtain rfl := Option.some.inj h
    exact ⟨rfl, rfl⟩
  | case2 a b c d rest hc ih =>
    rw [decodeUtf32, if_pos hc] at h
    obtain ⟨u, hu, rfl⟩ := Option.map_eq_some_iff.mp h
    have hval := val_of_lt hc.1
    rw [isEncodable_cons, List.flatMap_cons, hc.2, hval, bytes32_unit32, (ih hu).1, (ih hu).2]
    exact ⟨rfl, rfl⟩
  | case3 a b c d rest hc =>
    rw [decodeUtf32, if_neg hc] at h
    exact nomatch h
  | case4 raw hnil hfour =>
    rw [decodeUtf32] at h
    · exact nomatch h
    · exact hnil
    · exact hfour

theorem encodeUtf32_decodeUtf32 {o : ByteOrder} {raw : Bytes} {t : Text} (h : decodeUtf32 o raw = some t) :
    encodeUtf32 o t = some raw := by
  have hspells := decodeUtf32_spells h
  rw [encodeUtf32, if_pos hspells.1, hspells.2]

end WebOauthMcp.UnicodeCodecs
