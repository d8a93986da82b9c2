import Mathlib.Data.List.SplitBy
import WebOauthMcp.JsonDecoding

/-!
# Form encoding

Names and values between separators, their octets percent-encoded. Which octets an encoder
leaves as they are is its own choice, and every choice is read back.
-/

namespace WebOauthMcp.FormEncoding
open CodePoints Utf8Units

def percentSign : CodePoint := 0x25
def plus : CodePoint := 0x2B
def ampersand : CodePoint := 0x26
def equals : CodePoint := 0x3D

def octetChar (b : Byte) : CodePoint := Fin.ofNat _ b.val

/-! ## Reading -/

/-- `unquote_to_bytes` on ASCII text: a percent sign without two hex digits is itself. -/
def unquoteToBytes : Text → Bytes
  | [] => []
  | [c] => [Fin.ofNat _ c.val]
  | [c, d] => [Fin.ofNat _ c.val, Fin.ofNat _ d.val]
  | c :: h :: l :: rest =>
    if c = percentSign then
      match JsonDecoding.hexValue h, JsonDecoding.hexValue l with
      | some a, some b => Fin.ofNat _ (16 * a + b) :: unquoteToBytes rest
      | _, _ => Fin.ofNat _ c.val :: unquoteToBytes (h :: l :: rest)
    else Fin.ofNat _ c.val :: unquoteToBytes (h :: l :: rest)

def isAsciiChar (c : CodePoint) : Bool := c.val < 0x80

/-- `unquote`: the runs of ASCII are decoded, the others stay. -/
def unquote (t : Text) : Text :=
  (t.splitBy fun c d => isAsciiChar c == isAsciiChar d).flatMap fun run =>
    if isAscii run then decodeReplace (unquoteToBytes run) else run

def plusToSpace (c : CodePoint) : CodePoint := if c = plus then 0x20 else c

def unquotePlus (t : Text) : Text := unquote (t.map plusToSpace)

def parsePair (nameValue : Text) : Text × Text :=
  (unquotePlus (nameValue.takeWhile fun c => c != equals),
    unquotePlus ((nameValue.dropWhile fun c => c != equals).drop 1))

/-- `parse_qsl(text, keep_blank_values=True)`. -/
def parseQsl (t : Text) : List (Text × Text) := ((t.splitOn ampersand).filter fun p => !p.isEmpty).map parsePair

/-! ## Writing -/

/-- The octets that an encoder leaves as they are. -/
structure SafeOctets where
  keeps : Byte → Bool
  plain : ∀ b, keeps b = true → b.val < 0x80 ∧ b.val ∉ [0x20, 0x25, 0x26, 0x2B, 0x3D]

def upperHexDigit (n : ℕ) : CodePoint := if n < 10 then Fin.ofNat _ (0x30 + n) else Fin.ofNat _ (0x37 + n)

variable (safe : SafeOctets)

def encodeOctet (b : Byte) : Text :=
  if safe.keeps b then [octetChar b]
  else if b.val = 0x20 then [plus]
  else [percentSign, upperHexDigit (b.val / 16), upperHexDigit (b.val % 16)]

def encodePart (t : Text) : Text := (t.flatMap utf8Bytes).flatMap (encodeOctet safe)

def encodePair (f : Text × Text) : Text := encodePart safe f.1 ++ equals :: encodePart safe f.2

def encodeForm (fields : List (Text × Text)) : Text := List.intercalate [ampersand] (fields.map (encodePair safe))

/-! ## What the encoder writes -/

theorem octetChar_val (b : Byte) : (octetChar b).val = b.val := Nat.mod_eq_of_lt (by omega)

theorem upperHexDigit_val {n : ℕ} (h : n < 16) :
    (upperHexDigit n).val = if n < 10 then 0x30 + n else 0x37 + n := by
  rw [upperHexDigit]
  split_ifs
  · exact Nat.mod_eq_of_lt (by omega)
  · exact Nat.mod_eq_of_lt (by omega)

theorem hexValue_upperHexDigit {n : ℕ} (h : n < 16) : JsonDecoding.hexValue (upperHexDigit n) = some n := by
  have hval := upperHexDigit_val h
  rw [JsonDecoding.hexValue]
  simp only [JsonDecoding.isDigit, Bool.and_eq_true, decide_eq_true_eq, hval]
  split_ifs <;> first | omega | exact congrArg some (by omega)

/-- What the encoder writes is ASCII without separators, and no octet is written as a blank. -/
theorem encodeOctet_plain (b : Byte) :
    ∀ c ∈ encodeOctet safe b, c.val < 0x80 ∧ c ≠ ampersand ∧ c ≠ equals := by
  intro c hc
  suffices h : c.val < 0x80 ∧ c.val ≠ 0x26 ∧ c.val ≠ 0x3D from
    ⟨h.1, fun heq => h.2.1 (congrArg Fin.val heq), fun heq => h.2.2 (congrArg Fin.val heq)⟩
  rw [encodeOctet] at hc
  split_ifs at hc with hsafe hspace
  · have hplain := safe.plain b hsafe
    obtain rfl := List.mem_singleton.mp hc
    rw [octetChar_val]
    simp only [List.mem_cons, List.not_mem_nil, or_false, not_or] at hplain
    omega
  · obtain rfl := List.mem_singleton.mp hc
    decide
  · have hhigh := upperHexDigit_val (show b.val / 16 < 16 by omega)
    have hlow := upperHexDigit_val (show b.val % 16 < 16 by omega)
    simp only [List.mem_cons, List.not_mem_nil, or_false] at hc
    rcases hc with rfl | rfl | rfl
    · decide
    · split_ifs at hhigh <;> omega
    · split_ifs at hlow <;> omega

theorem encodePart_plain (t : Text) : ∀ c ∈ encodePart safe t, c.val < 0x80 ∧ c ≠ ampersand ∧ c ≠ equals := by
  intro c hc
  obtain ⟨b, -, hb⟩ := List.mem_flatMap.mp hc
  exact encodeOctet_plain safe b c hb

theorem encodePair_noSeparator (f : Text × Text) : ampersand ∉ encodePair safe f := by
  intro h
  rcases List.mem_append.mp h with hname | hvalue
  · exact (encodePart_plain safe f.1 _ hname).2.1 rfl
  · rcases List.mem_cons.mp hvalue with heq | hvalue
    · exact absurd heq (by decide)
    · exact (encodePart_plain safe f.2 _ hvalue).2.1 rfl

theorem encodeForm_ascii (fields : List (Text × Text)) : ∀ c ∈ encodeForm safe fields, c.val < 0x80 := by
  have hpair : ∀ f, ∀ c ∈ encodePair safe f, c.val < 0x80 := by
    intro f c hc
    rcases List.mem_append.mp hc with hname | hvalue
    · exact (encodePart_plain safe f.1 c hname).1
    · rcases List.mem_cons.mp hvalue with rfl | hvalue
      · decide
      · exact (encodePart_plain safe f.2 c hvalue).1
  induction fields with
  | nil => exact fun c hc => absurd hc List.not_mem_nil
  | cons f fields ih =>
    rcases fields with _ | ⟨g, fields⟩
    · simpa [encodeForm, List.intercalate] using hpair f
    · have hnext : encodeForm safe (f :: g :: fields) = encodePair safe f ++ ampersand :: encodeForm safe (g :: fields) := by
        simp [encodeForm, List.intercalate]
      intro c hc
      rw [hnext] at hc
      rcases List.mem_append.mp hc with hfirst | hrest
      · exact hpair f c hfirst
      · rcases List.mem_cons.mp hrest with rfl | hrest
        · decide
        · exact ih c hrest

/-! ## Round trip -/

theorem unquoteToBytes_cons {c : CodePoint} (h : c ≠ percentSign) (t : Text) :
    unquoteToBytes (c :: t) = Fin.ofNat _ c.val :: unquoteToBytes t := by
  rcases t with _ | ⟨d, _ | ⟨e, t⟩⟩
  · rfl
  · rfl
  · rw [unquoteToBytes, if_neg h]

theorem unquoteToBytes_percent {h l : CodePoint} {a b : ℕ} (ha : JsonDecoding.hexValue h = some a)
    (hb : JsonDecoding.hexValue l = some b) (t : Text) :
    unquoteToBytes (percentSign :: h :: l :: t) = Fin.ofNat _ (16 * a + b) :: unquoteToBytes t := by
  rw [unquoteToBytes, if_pos rfl, ha, hb]

theorem plusToSpace_of_ne {c : CodePoint} (h : c ≠ plus) : plusToSpace c = c := if_neg h

/-- An encoded octet is read back, whatever follows it. -/
theorem unquoteToBytes_encodeOctet (b : Byte) (rest : Text) :
    unquoteToBytes ((encodeOctet safe b).map plusToSpace ++ rest) = b :: unquoteToBytes rest := by
  have hsame : (Fin.ofNat 256 b.val : Byte) = b := Fin.ext (Nat.mod_eq_of_lt b.isLt)
  rw [encodeOctet]
  split_ifs with hsafe hspace
  · have hplain := safe.plain b hsafe
    simp only [List.mem_cons, List.not_mem_nil, or_false, not_or] at hplain
    have hplus : octetChar b ≠ plus := fun h => hplain.2.2.2.2.1 (by rw [← octetChar_val, h]; rfl)
    have hpercent : octetChar b ≠ percentSign := fun h => hplain.2.2.1 (by rw [← octetChar_val, h]; rfl)
    rw [List.map_singleton, plusToSpace_of_ne hplus, List.singleton_append, unquoteToBytes_cons hpercent,
      octetChar_val, hsame]
  · have hb : b = 0x20 := Fin.ext hspace
    rw [hb]
    exact unquoteToBytes_cons (by decide) rest
  · have hhigh : b.val / 16 < 16 := by omega
    have hlow : b.val % 16 < 16 := by omega
    have hdigit : ∀ n, n < 16 → upperHexDigit n ≠ plus := by
      intro n hn h
      have hval := upperHexDigit_val hn
      rw [h] at hval
      change 0x2B = _ at hval
      split_ifs at hval <;> omega
    rw [List.map_cons, List.map_cons, List.map_singleton, plusToSpace_of_ne (by decide : percentSign ≠ plus),
      plusToSpace_of_ne (hdigit _ hhigh), plusToSpace_of_ne (hdigit _ hlow)]
    calc unquoteToBytes (percentSign :: upperHexDigit (b.val / 16) :: upperHexDigit (b.val % 16) :: rest)
        = Fin.ofNat _ (16 * (b.val / 16) + b.val % 16) :: unquoteToBytes rest :=
          unquoteToBytes_percent (hexValue_upperHexDigit hhigh) (hexValue_upperHexDigit hlow) rest
      _ = b :: unquoteToBytes rest := by rw [Nat.div_add_mod, hsame]

theorem unquoteToBytes_encoded (bs : Bytes) :
    unquoteToBytes ((bs.flatMap (encodeOctet safe)).map plusToSpace) = bs := by
  induction bs with
  | nil => rfl
  | cons b bs ih => rw [List.flatMap_cons, List.map_append, unquoteToBytes_encodeOctet, ih]

/-- ASCII text is one run. -/
theorem unquote_ascii {t : Text} (h : isAscii t = true) : unquote t = decodeReplace (unquoteToBytes t) := by
  rcases t with _ | ⟨c, t⟩
  · rfl
  · have hchars : ∀ d ∈ c :: t, isAsciiChar d = true := by simpa [isAscii, isAsciiChar] using h
    have hrun : (c :: t).splitBy (fun c d => isAsciiChar c == isAsciiChar d) = [c :: t] := by
      apply List.splitBy_of_isChain (List.cons_ne_nil c t)
      apply List.Pairwise.isChain
      apply List.pairwise_of_forall_mem_list
      intro d hd e he
      rw [hchars d hd, hchars e he]
      rfl
    rw [unquote, hrun, List.flatMap_singleton, if_pos h]

/-- A part is read back. -/
theorem unquotePlus_encodePart {t : Text} (h : isEncodable t = true) : unquotePlus (encodePart safe t) = t := by
  have hascii : isAscii ((encodePart safe t).map plusToSpace) = true := by
    rw [isAscii, List.all_map, List.all_eq_true]
    intro c hc
    have hplain := (encodePart_plain safe t c hc).1
    simp only [Function.comp_apply, plusToSpace]
    split_ifs
    · decide
    · exact decide_eq_true hplain
  rw [unquotePlus, unquote_ascii hascii, encodePart, unquoteToBytes_encoded, decodeReplace_encoded t h]

theorem parsePair_encodePair {f : Text × Text} (hname : isEncodable f.1 = true) (hvalue : isEncodable f.2 = true) :
    parsePair (encodePair safe f) = f := by
  have hfront : ∀ c ∈ encodePart safe f.1, (c != equals) = true := fun c hc =>
    bne_iff_ne.mpr (encodePart_plain safe f.1 c hc).2.2
  have hstop : (equals != equals) = false := rfl
  rw [parsePair, encodePair, List.takeWhile_append_of_pos hfront, List.dropWhile_append_of_pos hfront,
    List.takeWhile_cons_of_neg (by simp), List.dropWhile_cons_of_neg (by simp), List.append_nil, List.drop_one,
    List.tail_cons, unquotePlus_encodePart safe hname, unquotePlus_encodePart safe hvalue]

/-- A form is read back, pair by pair. -/
theorem parseQsl_encodeForm {fields : List (Text × Text)}
    (h : ∀ f ∈ fields, isEncodable f.1 = true ∧ isEncodable f.2 = true) : parseQsl (encodeForm safe fields) = fields := by
  rcases fields with _ | ⟨f, fs⟩
  · rfl
  · have hparts : (encodeForm safe (f :: fs)).splitOn ampersand = (f :: fs).map (encodePair safe) := by
      apply List.splitOn_intercalate
      · intro p hp
        obtain ⟨g, -, rfl⟩ := List.mem_map.mp hp
        exact encodePair_noSeparator safe g
      · simp
    have hfull : ((f :: fs).map (encodePair safe)).filter (fun p => !p.isEmpty) = (f :: fs).map (encodePair safe) := by
      apply List.filter_eq_self.mpr
      intro p hp
      obtain ⟨g, -, rfl⟩ := List.mem_map.mp hp
      simp [encodePair]
    rw [parseQsl, hparts, hfull, List.map_map]
    conv_rhs => rw [← List.map_id (f :: fs)]
    apply List.map_congr_left
    intro g hg
    exact parsePair_encodePair safe (h g hg).1 (h g hg).2

end WebOauthMcp.FormEncoding
