import WebOauthMcp.CodePoints
import Mathlib.Tactic.SplitIfs

/-!
# UTF-8 decoding with replacement

`bytes.decode("utf-8", errors="replace")` reads one unit after another: a well-formed
encoded character, or the longest prefix of one that the input then breaks off, which
becomes U+FFFD. The units keep their octets, so their octets in a row are the input.
-/

namespace WebOauthMcp.Utf8Units
open CodePoints

/-- One decoded unit. `char = none` is a malformed run of octets. -/
structure Utf8Unit where
  raw : Bytes
  char : Option CodePoint
  deriving DecidableEq

/-- The code point the unit contributes to the decoded text. -/
def Utf8Unit.text (u : Utf8Unit) : CodePoint := u.char.getD replacementCharacter

/-- The unit of a code point that has an encoding. -/
def Utf8Unit.ofChar (c : CodePoint) : Utf8Unit := ⟨utf8Bytes c, some c⟩

/-- Second octets that overlong forms, surrogates and values past U+10FFFF leave out. -/
def secondOctetOk (first second : Byte) : Bool :=
  if first.val = 0xE0 then 0xA0 ≤ second.val && second.val ≤ 0xBF
  else if first.val = 0xED then 0x80 ≤ second.val && second.val ≤ 0x9F
  else if first.val = 0xF0 then 0x90 ≤ second.val && second.val ≤ 0xBF
  else if first.val = 0xF4 then 0x80 ≤ second.val && second.val ≤ 0x8F
  else isContinuation second

/-- The unit at the front of `b :: bs`. -/
def firstUnit (b : Byte) (bs : Bytes) : Utf8Unit :=
  if b.val < 0x80 then ⟨[b], some (Fin.ofNat _ b.val)⟩
  else if 0xC2 ≤ b.val ∧ b.val ≤ 0xDF then
    match bs with
    | x :: _ => if isContinuation x then
        ⟨[b, x], some (Fin.ofNat _ ((b.val - 0xC0) * 64 + (x.val - 0x80)))⟩ else ⟨[b], none⟩
    | [] => ⟨[b], none⟩
  else if 0xE0 ≤ b.val ∧ b.val ≤ 0xEF then
    match bs with
    | x :: y :: _ => if secondOctetOk b x then
        if isContinuation y then
          ⟨[b, x, y], some (Fin.ofNat _
            ((b.val - 0xE0) * 4096 + (x.val - 0x80) * 64 + (y.val - 0x80)))⟩
        else ⟨[b, x], none⟩
      else ⟨[b], none⟩
    | [x] => if secondOctetOk b x then ⟨[b, x], none⟩ else ⟨[b], none⟩
    | [] => ⟨[b], none⟩
  else if 0xF0 ≤ b.val ∧ b.val ≤ 0xF4 then
    match bs with
    | x :: y :: z :: _ => if secondOctetOk b x then
        if isContinuation y then
          if isContinuation z then
            ⟨[b, x, y, z], some (Fin.ofNat _ ((b.val - 0xF0) * 262144 + (x.val - 0x80) * 4096 +
              (y.val - 0x80) * 64 + (z.val - 0x80)))⟩
          else ⟨[b, x, y], none⟩
        else ⟨[b, x], none⟩
      else ⟨[b], none⟩
    | [x, y] => if secondOctetOk b x then
        if isContinuation y then ⟨[b, x, y], none⟩ else ⟨[b, x], none⟩
      else ⟨[b], none⟩
    | [x] => if secondOctetOk b x then ⟨[b, x], none⟩ else ⟨[b], none⟩
    | [] => ⟨[b], none⟩
  else ⟨[b], none⟩

/-- Structural reading: `skip` octets still belong to the unit already emitted. -/
def unitsAfter : ℕ → Bytes → List Utf8Unit
  | _, [] => []
  | skip + 1, _ :: bs => unitsAfter skip bs
  | 0, b :: bs => firstUnit b bs :: unitsAfter ((firstUnit b bs).raw.length - 1) bs

def decodeUnits (raw : Bytes) : List Utf8Unit := unitsAfter 0 raw

/-- `raw.decode("utf-8", errors="replace")`. -/
def decodeReplace (raw : Bytes) : Text := (decodeUnits raw).map Utf8Unit.text

/-- `raw.decode("utf-8")`; `none` is the `UnicodeDecodeError`. -/
def decodeUtf8 (raw : Bytes) : Option Text := (decodeUnits raw).mapM Utf8Unit.char

/-- The octets a list of units was read from. -/
def rawOf (us : List Utf8Unit) : Bytes := us.flatMap Utf8Unit.raw

@[simp] theorem rawOf_nil : rawOf [] = [] := rfl
@[simp] theorem rawOf_cons (u : Utf8Unit) (us : List Utf8Unit) :
    rawOf (u :: us) = u.raw ++ rawOf us := by simp [rawOf]
@[simp] theorem rawOf_append (us vs : List Utf8Unit) : rawOf (us ++ vs) = rawOf us ++ rawOf vs := by
  simp [rawOf]

@[simp] theorem decodeUnits_nil : decodeUnits [] = [] := rfl

theorem unitsAfter_drop (skip : ℕ) (bs : Bytes) :
    unitsAfter skip bs = decodeUnits (bs.drop skip) := by
  induction bs generalizing skip with
  | nil => cases skip <;> rfl
  | cons b bs ih =>
    cases skip with
    | zero => rfl
    | succ skip => simpa [unitsAfter] using ih skip

theorem decodeUnits_cons (b : Byte) (bs : Bytes) :
    decodeUnits (b :: bs) = firstUnit b bs :: decodeUnits (bs.drop ((firstUnit b bs).raw.length - 1)) := by
  rw [← unitsAfter_drop]
  rfl

/-- The front unit takes a nonempty prefix of the input. -/
theorem firstUnit_raw (b : Byte) (bs : Bytes) :
    (firstUnit b bs).raw = b :: bs.take ((firstUnit b bs).raw.length - 1) := by
  unfold firstUnit
  split_ifs <;> (try split) <;> (try split_ifs) <;> simp

theorem rawOf_decodeUnits (raw : Bytes) : rawOf (decodeUnits raw) = raw := by
  induction h : raw.length using Nat.strong_induction_on generalizing raw with
  | _ n ih =>
    cases raw with
    | nil => rfl
    | cons b bs =>
      have hraw := firstUnit_raw b bs
      rw [decodeUnits_cons, rawOf_cons]
      generalize (firstUnit b bs).raw.length - 1 = k at hraw ⊢
      have hlt : (bs.drop k).length < n := by
        simp only [List.length_drop, List.length_cons] at h ⊢
        omega
      rw [ih _ hlt _ rfl, hraw]
      simp

/-! ## Well-formed units and encodings -/

private theorem ofNat_val {n : ℕ} (hn : n < 0x110000) : (Fin.ofNat 0x110000 n).val = n :=
  Nat.mod_eq_of_lt hn

private theorem byte_eq {b : Byte} {n : ℕ} (hn : n = b.val) : Fin.ofNat 256 n = b := by
  subst hn
  exact Fin.ofNat_val_eq_self b

private theorem two_octets {b x : Byte} (hb : 0xC2 ≤ b.val ∧ b.val ≤ 0xDF)
    (hx : isContinuation x = true) {n : ℕ} (hn : n = (b.val - 0xC0) * 64 + (x.val - 0x80)) :
    utf8Bytes (Fin.ofNat _ n) = [b, x] ∧ isSurrogate (Fin.ofNat _ n) = false := by
  simp only [isContinuation, Bool.and_eq_true, decide_eq_true_eq] at hx
  have hv := ofNat_val (n := n) (by omega)
  simp only [utf8Bytes, isSurrogate, hv]
  rw [if_neg (by omega), if_pos (by omega), byte_eq (b := b) (by omega), byte_eq (b := x) (by omega)]
  refine ⟨rfl, ?_⟩
  simp only [Bool.and_eq_false_iff, decide_eq_false_iff_not]
  omega

private theorem three_octets {b x y : Byte} (hb : 0xE0 ≤ b.val ∧ b.val ≤ 0xEF)
    (hx : secondOctetOk b x = true) (hy : isContinuation y = true) {n : ℕ}
    (hn : n = (b.val - 0xE0) * 4096 + (x.val - 0x80) * 64 + (y.val - 0x80)) :
    utf8Bytes (Fin.ofNat _ n) = [b, x, y] ∧ isSurrogate (Fin.ofNat _ n) = false := by
  simp only [isContinuation, Bool.and_eq_true, decide_eq_true_eq] at hy
  have hx' : 0x80 ≤ x.val ∧ x.val ≤ 0xBF ∧ (b.val = 0xE0 → 0xA0 ≤ x.val) ∧
      (b.val = 0xED → x.val ≤ 0x9F) := by
    unfold secondOctetOk at hx
    split_ifs at hx <;> simp only [isContinuation, Bool.and_eq_true, decide_eq_true_eq] at hx <;> omega
  have hv := ofNat_val (n := n) (by omega)
  simp only [utf8Bytes, isSurrogate, hv]
  rw [if_neg (by omega), if_neg (by omega), if_pos (by omega), byte_eq (b := b) (by omega),
    byte_eq (b := x) (by omega), byte_eq (b := y) (by omega)]
  refine ⟨rfl, ?_⟩
  simp only [Bool.and_eq_false_iff, decide_eq_false_iff_not]
  omega

private theorem four_octets {b x y z : Byte} (hb : 0xF0 ≤ b.val ∧ b.val ≤ 0xF4)
    (hx : secondOctetOk b x = true) (hy : isContinuation y = true) (hz : isContinuation z = true)
    {n : ℕ} (hn : n = (b.val - 0xF0) * 262144 + (x.val - 0x80) * 4096 + (y.val - 0x80) * 64 +
      (z.val - 0x80)) :
    utf8Bytes (Fin.ofNat _ n) = [b, x, y, z] ∧ isSurrogate (Fin.ofNat _ n) = false := by
  simp only [isContinuation, Bool.and_eq_true, decide_eq_true_eq] at hy hz
  have hx' : 0x80 ≤ x.val ∧ x.val ≤ 0xBF ∧ (b.val = 0xF0 → 0x90 ≤ x.val) ∧
      (b.val = 0xF4 → x.val ≤ 0x8F) := by
    unfold secondOctetOk at hx
    split_ifs at hx <;> simp only [isContinuation, Bool.and_eq_true, decide_eq_true_eq] at hx <;> omega
  have hv := ofNat_val (n := n) (by omega)
  simp only [utf8Bytes, isSurrogate, hv]
  rw [if_neg (by omega), if_neg (by omega), if_neg (by omega), byte_eq (b := b) (by omega),
    byte_eq (b := x) (by omega), byte_eq (b := y) (by omega), byte_eq (b := z) (by omega)]
  refine ⟨rfl, ?_⟩
  simp only [Bool.and_eq_false_iff, decide_eq_false_iff_not]
  omega

/-- A unit with a character holds exactly that character's encoding. -/
theorem firstUnit_char (b : Byte) (bs : Bytes) (c : CodePoint) (h : (firstUnit b bs).char = some c) :
    firstUnit b bs = .ofChar c ∧ isSurrogate c = false := by
  have key : ∀ u : Utf8Unit, u.char = some c → utf8Bytes c = u.raw ∧ isSurrogate c = false →
      u = .ofChar c ∧ isSurrogate c = false := by
    rintro ⟨raw, char⟩ rfl ⟨hraw, hs⟩
    exact ⟨by simp [Utf8Unit.ofChar, hraw], hs⟩
  refine key _ h ?_
  clear key
  unfold firstUnit at h ⊢
  split_ifs at h ⊢ with h1 h2 h3 h4
  · obtain rfl := Option.some.inj h
    have hv := ofNat_val (n := b.val) (by omega)
    simp only [utf8Bytes, isSurrogate, hv, if_pos h1]
    refine ⟨by rw [byte_eq rfl], ?_⟩
    simp only [Bool.and_eq_false_iff, decide_eq_false_iff_not]
    omega
  all_goals
    split at h <;> (try split_ifs at h ⊢) <;> (try contradiction)
    obtain rfl := Option.some.inj h
  · exact two_octets h2 ‹_› rfl
  · exact three_octets h3 ‹_› ‹_› rfl
  · exact four_octets h4 ‹_› ‹_› ‹_› rfl

private theorem byte_val {n : ℕ} (hn : n < 256) : (Fin.ofNat 256 n).val = n := Nat.mod_eq_of_lt hn

private theorem ofNat_eq {c : CodePoint} {n : ℕ} (hn : n = c.val) : Fin.ofNat 0x110000 n = c := by
  subst hn
  exact Fin.ofNat_val_eq_self c

/-- Reading back an encoded code point, whatever follows it. -/
theorem firstUnit_encoded (c : CodePoint) (hc : isSurrogate c = false) (b : Byte) (bs rest : Bytes)
    (h : utf8Bytes c ++ rest = b :: bs) : firstUnit b bs = .ofChar c := by
  have hlt := c.isLt
  have hs : ¬(0xD800 ≤ c.val ∧ c.val ≤ 0xDFFF) := by
    simpa [isSurrogate, Bool.and_eq_false_iff] using hc
  suffices hchar : (firstUnit b bs).char = some c from (firstUnit_char b bs c hchar).1
  simp only [utf8Bytes] at h
  split_ifs at h with h1 h2 h3 <;> simp only [List.cons_append, List.nil_append] at h <;>
    obtain ⟨rfl, rfl⟩ := List.cons.inj h
  · have hb := byte_val (n := c.val) (by omega)
    simp only [firstUnit, hb, if_pos h1]
    rw [ofNat_eq rfl]
  · have hb := byte_val (n := 0xC0 + c.val / 64) (by omega)
    have hx := byte_val (n := 0x80 + c.val % 64) (by omega)
    have hxc : isContinuation (Fin.ofNat _ (0x80 + c.val % 64)) = true := by
      simp only [isContinuation, hx, Bool.and_eq_true, decide_eq_true_eq]
      omega
    simp only [firstUnit, hb, hx, hxc]
    rw [if_neg (by omega), if_pos (by omega), if_pos trivial, ofNat_eq (c := c) (by omega)]
  · have hb := byte_val (n := 0xE0 + c.val / 4096) (by omega)
    have hx := byte_val (n := 0x80 + c.val / 64 % 64) (by omega)
    have hy := byte_val (n := 0x80 + c.val % 64) (by omega)
    have hxc : secondOctetOk (Fin.ofNat _ (0xE0 + c.val / 4096))
        (Fin.ofNat _ (0x80 + c.val / 64 % 64)) = true := by
      simp only [secondOctetOk, isContinuation, hb, hx]
      split_ifs <;> simp only [Bool.and_eq_true, decide_eq_true_eq] <;> omega
    have hyc : isContinuation (Fin.ofNat _ (0x80 + c.val % 64)) = true := by
      simp only [isContinuation, hy, Bool.and_eq_true, decide_eq_true_eq]
      omega
    simp only [firstUnit, hb, hx, hy, hxc, hyc]
    rw [if_neg (by omega), if_neg (by omega), if_pos (by omega), if_pos trivial,
      if_pos trivial, ofNat_eq (c := c) (by omega)]
  · have hb := byte_val (n := 0xF0 + c.val / 262144) (by omega)
    have hx := byte_val (n := 0x80 + c.val / 4096 % 64) (by omega)
    have hy := byte_val (n := 0x80 + c.val / 64 % 64) (by omega)
    have hz := byte_val (n := 0x80 + c.val % 64) (by omega)
    have hxc : secondOctetOk (Fin.ofNat _ (0xF0 + c.val / 262144))
        (Fin.ofNat _ (0x80 + c.val / 4096 % 64)) = true := by
      simp only [secondOctetOk, isContinuation, hb, hx]
      split_ifs <;> simp only [Bool.and_eq_true, decide_eq_true_eq] <;> omega
    have hyc : isContinuation (Fin.ofNat _ (0x80 + c.val / 64 % 64)) = true := by
      simp only [isContinuation, hy, Bool.and_eq_true, decide_eq_true_eq]
      omega
    have hzc : isContinuation (Fin.ofNat _ (0x80 + c.val % 64)) = true := by
      simp only [isContinuation, hz, Bool.and_eq_true, decide_eq_true_eq]
      omega
    simp only [firstUnit, hb, hx, hy, hz, hxc, hyc, hzc]
    rw [if_neg (by omega), if_neg (by omega), if_neg (by omega), if_pos (by omega),
      if_pos trivial, if_pos trivial, if_pos trivial, ofNat_eq (c := c) (by omega)]

theorem decodeUnits_utf8Bytes_append (c : CodePoint) (hc : isSurrogate c = false) (rest : Bytes) :
    decodeUnits (utf8Bytes c ++ rest) = .ofChar c :: decodeUnits rest := by
  obtain ⟨b, bs, hb⟩ := List.exists_cons_of_ne_nil (utf8Bytes_ne_nil c)
  have hu := firstUnit_encoded c hc b (bs ++ rest) rest (by rw [hb]; rfl)
  rw [hb, List.cons_append, decodeUnits_cons, hu]
  simp [Utf8Unit.ofChar, hb]

/-- An encoded text is read back unit by unit, whatever octets follow it. -/
theorem decodeUnits_encoded_append (t : Text) (ht : isEncodable t = true) (rest : Bytes) :
    decodeUnits (t.flatMap utf8Bytes ++ rest) = t.map .ofChar ++ decodeUnits rest := by
  induction t with
  | nil => rfl
  | cons c t ih =>
    simp only [isEncodable_cons, Bool.and_eq_true, Bool.not_eq_true'] at ht
    simp only [List.flatMap_cons, List.append_assoc, List.map_cons, List.cons_append]
    rw [decodeUnits_utf8Bytes_append c ht.1, ih ht.2]

theorem decodeUnits_encoded (t : Text) (ht : isEncodable t = true) :
    decodeUnits (t.flatMap utf8Bytes) = t.map .ofChar := by
  simpa using decodeUnits_encoded_append t ht []

theorem decodeReplace_encoded (t : Text) (ht : isEncodable t = true) :
    decodeReplace (t.flatMap utf8Bytes) = t := by
  simp [decodeReplace, decodeUnits_encoded t ht, Function.comp_def, Utf8Unit.text, Utf8Unit.ofChar]

/-- Units are either malformed runs or encoded characters. -/
def Utf8Unit.WellFormed (u : Utf8Unit) : Prop := ∃ c, u = .ofChar c ∧ isSurrogate c = false

theorem decodeUnits_char (raw : Bytes) :
    ∀ u ∈ decodeUnits raw, ∀ c, u.char = some c → u = .ofChar c ∧ isSurrogate c = false := by
  induction h : raw.length using Nat.strong_induction_on generalizing raw with
  | _ n ih =>
    cases raw with
    | nil => simp
    | cons b bs =>
      rw [decodeUnits_cons]
      intro u hu c hc
      rcases List.mem_cons.mp hu with rfl | hu
      · exact firstUnit_char b bs c hc
      · refine ih (bs.drop _).length ?_ _ rfl u hu c hc
        simp only [List.length_drop, List.length_cons] at h ⊢
        omega

/-- Valid UTF-8 consists of encoded characters. -/
theorem decodeUtf8_units {raw : Bytes} {t : Text} (h : decodeUtf8 raw = some t) :
    decodeUnits raw = t.map Utf8Unit.ofChar ∧ isEncodable t = true := by
  have hchars := decodeUnits_char raw
  rw [decodeUtf8] at h
  generalize decodeUnits raw = vs at h hchars
  induction vs generalizing t with
  | nil =>
    obtain rfl := Option.some.inj h
    exact ⟨rfl, rfl⟩
  | cons v vs ih =>
    rw [List.mapM_cons] at h
    obtain ⟨c, hc, h⟩ := Option.bind_eq_some_iff.mp h
    obtain ⟨t, ht, h⟩ := Option.bind_eq_some_iff.mp h
    obtain rfl := Option.some.inj h
    have hv := hchars v (by simp) c hc
    have ih := ih ht fun w hw => hchars w (List.mem_cons_of_mem v hw)
    refine ⟨?_, ?_⟩
    · rw [List.map_cons, ← ih.1, ← hv.1]
    · rw [isEncodable_cons, hv.2, ih.2]
      rfl

theorem decodeUtf8_spells {raw : Bytes} {t : Text} (h : decodeUtf8 raw = some t) :
    isEncodable t = true ∧ t.flatMap utf8Bytes = raw := by
  have hunits := decodeUtf8_units h
  refine ⟨hunits.2, ?_⟩
  rw [← rawOf_decodeUnits raw, hunits.1]
  simp [rawOf, List.flatMap_map, Utf8Unit.ofChar]

theorem isSurrogate_replacementCharacter : isSurrogate replacementCharacter = false := by decide

/-- A decoded text never holds a lone surrogate. -/
theorem isEncodable_decodeReplace (raw : Bytes) : isEncodable (decodeReplace raw) = true := by
  refine (isEncodable_iff _).mpr fun c hc => ?_
  obtain ⟨u, hu, rfl⟩ := List.mem_map.mp hc
  cases hchar : u.char with
  | none => simpa [Utf8Unit.text, hchar] using isSurrogate_replacementCharacter
  | some c => simpa [Utf8Unit.text, hchar] using (decodeUnits_char raw u hu c hchar).2

/-- Reading on from a unit boundary yields the remaining units. -/
theorem decodeUnits_suffix {raw : Bytes} {us vs : List Utf8Unit} (h : decodeUnits raw = us ++ vs) :
    decodeUnits (rawOf vs) = vs := by
  induction us generalizing raw with
  | nil =>
    have hraw := rawOf_decodeUnits raw
    rw [h, List.nil_append] at hraw
    rw [hraw, h, List.nil_append]
  | cons u us ih =>
    cases raw with
    | nil => simp at h
    | cons b bs =>
      rw [decodeUnits_cons, List.cons_append] at h
      exact ih (List.cons.inj h).2

/-! ## Boundaries -/

/-- Nothing that starts here continues an unfinished unit before it. -/
def StartsUnit (bs : Bytes) : Prop := ∀ b rest, bs = b :: rest → isContinuation b = false

theorem startsUnit_nil : StartsUnit [] := by simp [StartsUnit]

theorem startsUnit_utf8Bytes_append (c : CodePoint) (rest : Bytes) : StartsUnit (utf8Bytes c ++ rest) := by
  intro b bs h
  obtain ⟨d, ds, hd⟩ := List.exists_cons_of_ne_nil (utf8Bytes_ne_nil c)
  rw [hd, List.cons_append] at h
  obtain ⟨rfl, -⟩ := List.cons.inj h
  exact utf8Bytes_head c d ds hd

private theorem secondOctetOk_of_not_continuation {b x : Byte} (h : isContinuation x = false) :
    secondOctetOk b x = false := by
  simp only [isContinuation, Bool.and_eq_false_iff, decide_eq_false_iff_not] at h
  unfold secondOctetOk
  split_ifs <;>
    simp only [isContinuation, Bool.and_eq_false_iff, decide_eq_false_iff_not] <;> omega

private theorem firstUnit_append (b : Byte) (bs rest : Bytes) (h : StartsUnit rest) :
    firstUnit b (bs ++ rest) = firstUnit b bs := by
  cases rest with
  | nil => rw [List.append_nil]
  | cons r rest =>
    have hr := h r rest rfl
    have hs : secondOctetOk b r = false := secondOctetOk_of_not_continuation hr
    rcases bs with - | ⟨x, - | ⟨y, - | ⟨z, bs⟩⟩⟩
    · unfold firstUnit
      rcases rest with - | ⟨r', - | ⟨r'', rest⟩⟩ <;>
        simp only [List.nil_append, hr, hs, Bool.false_eq_true, if_false]
    · unfold firstUnit
      rcases rest with - | ⟨r', rest⟩ <;>
        simp only [List.cons_append, List.nil_append, hr, Bool.false_eq_true, if_false]
    · unfold firstUnit
      simp only [List.cons_append, List.nil_append, hr, Bool.false_eq_true, if_false]
    · rfl

/-- Reading stops at a boundary and starts afresh behind it. -/
theorem decodeUnits_append (bs rest : Bytes) (h : StartsUnit rest) :
    decodeUnits (bs ++ rest) = decodeUnits bs ++ decodeUnits rest := by
  induction hn : bs.length using Nat.strong_induction_on generalizing bs with
  | _ n ih =>
    cases bs with
    | nil => rfl
    | cons b bs =>
      have hlen : (firstUnit b bs).raw.length - 1 ≤ bs.length := by
        have hraw := congrArg List.length (firstUnit_raw b bs)
        simp only [List.length_cons, List.length_take] at hraw
        omega
      rw [List.cons_append, decodeUnits_cons, decodeUnits_cons, firstUnit_append b bs rest h,
        List.drop_append_of_le_length hlen, List.cons_append]
      refine congrArg _ (ih _ ?_ _ rfl)
      simp only [List.length_drop, List.length_cons] at hn ⊢
      omega

theorem decodeReplace_append (bs rest : Bytes) (h : StartsUnit rest) :
    decodeReplace (bs ++ rest) = decodeReplace bs ++ decodeReplace rest := by
  rw [decodeReplace, decodeUnits_append bs rest h, List.map_append]
  rfl

theorem decodeReplace_encoded_append (t : Text) (ht : isEncodable t = true) (rest : Bytes) :
    decodeReplace (t.flatMap utf8Bytes ++ rest) = t ++ decodeReplace rest := by
  rw [decodeReplace, decodeUnits_encoded_append t ht, List.map_append, List.map_map]
  simp [decodeReplace, Function.comp_def, Utf8Unit.text, Utf8Unit.ofChar]

/-- Octets that continue no character are replaced one by one. -/
theorem decodeReplace_continuations {bs : Bytes} (h : ∀ b ∈ bs, isContinuation b = true) (rest : Bytes) :
    decodeReplace (bs ++ rest) = List.replicate bs.length replacementCharacter ++ decodeReplace rest := by
  induction bs with
  | nil => rfl
  | cons b bs ih =>
    rw [List.forall_mem_cons] at h
    have hb := h.1
    simp only [isContinuation, Bool.and_eq_true, decide_eq_true_eq] at hb
    have hunit : firstUnit b (bs ++ rest) = ⟨[b], none⟩ := by
      unfold firstUnit
      rw [if_neg (by omega), if_neg (by omega), if_neg (by omega), if_neg (by omega)]
    have htail := ih h.2
    rw [decodeReplace] at htail ⊢
    rw [List.cons_append, decodeUnits_cons, hunit, List.length_singleton, Nat.sub_self, List.drop_zero, List.map_cons, htail,
      List.length_cons, List.replicate_succ]
    rfl

/-- A decoded text that nothing was replaced in stands encoded in the octets. -/
theorem encoded_infix_of_decodeReplace {w : Text} {raw : Bytes} (hw : replacementCharacter ∉ w) (h : w <:+: decodeReplace raw) :
    w.flatMap utf8Bytes <:+: raw := by
  obtain ⟨s, t, heq⟩ := h
  have hchars := decodeUnits_char raw
  rw [decodeReplace, eq_comm] at heq
  obtain ⟨us, ws, hunits, hus, -⟩ := List.map_eq_append_iff.mp heq
  obtain ⟨vs, us', rfl, -, hus'⟩ := List.map_eq_append_iff.mp hus
  have hspelled : rawOf us' = w.flatMap utf8Bytes := by
    rw [← hus', rawOf, List.flatMap_map]
    refine List.flatMap_congr fun u hu => ?_
    cases hchar : u.char with
    | none =>
      refine absurd ?_ hw
      rw [← hus', List.mem_map]
      exact ⟨u, hu, by rw [Utf8Unit.text, hchar]; rfl⟩
    | some c =>
      have hmem : u ∈ decodeUnits raw := by
        rw [hunits]
        exact List.mem_append_left _ (List.mem_append_right _ hu)
      rw [(hchars u hmem c hchar).1]
      rfl
  refine ⟨rawOf vs, rawOf ws, ?_⟩
  have hraw := rawOf_decodeUnits raw
  rw [hunits, rawOf_append, rawOf_append, hspelled] at hraw
  exact hraw

end WebOauthMcp.Utf8Units
