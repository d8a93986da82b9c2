import WebOauthMcp.Utf8Units
import WebOauthMcp.ResponseBudget

/-!
# Special tokens in octets

Decoding with replacement turns ASCII octets into the same characters and every other
stretch of octets into a stretch of other characters. So a decoded text spells a
special token exactly when the octets it was decoded from do.
-/

namespace WebOauthMcp.TokenOctets
open CodePoints Utf8Units AvoidedWords ResponseBudget

def asciiOctet (b : Byte) : Option ℕ := if b.val < 0x80 then some b.val else none

def asciiChar (c : CodePoint) : Option ℕ := if c.val < 0x80 then some c.val else none

/-- Equal up to what is not ASCII. -/
abbrev SpellsAs (raw : Bytes) (text : Text) : Prop := Transcribes asciiOctet asciiChar raw text

/-- The special tokens as octets. -/
def tokenOctets : Set Bytes := {b | ∃ w ∈ specialTokens, b = w.flatMap utf8Bytes}

/-- The octets spell no special token. -/
def SpellsNoToken (raw : Bytes) : Prop := Avoids tokenOctets raw

theorem spellsNoToken_iff (raw : Bytes) :
    SpellsNoToken raw ↔ ∀ w ∈ specialTokens, ¬w.flatMap utf8Bytes <:+: raw := by
  constructor
  · exact fun h w hw => h _ ⟨w, hw, rfl⟩
  · intro h b hb
    obtain ⟨w, hw, rfl⟩ := hb
    exact h w hw

instance (raw : Bytes) : Decidable (SpellsNoToken raw) := decidable_of_iff' _ (spellsNoToken_iff raw)

private theorem utf8Bytes_of_lt {c : CodePoint} (hc : c.val < 0x80) : utf8Bytes c = [Fin.ofNat _ c.val] := by
  simp only [utf8Bytes, if_pos hc]

private theorem octets_ascii {w : Text} (hw : ∀ c ∈ w, c.val < 0x80) :
    w.flatMap utf8Bytes = w.map fun c => Fin.ofNat 256 c.val := by
  induction w with
  | nil => rfl
  | cons c w ih =>
    rw [List.flatMap_cons, utf8Bytes_of_lt (hw c (by simp)), ih fun d hd => hw d (List.mem_cons_of_mem c hd)]
    rfl

theorem asciiOctet_injective {a b : Byte} (ha : a.val < 0x80) (h : asciiOctet a = asciiOctet b) : a = b := by
  rw [asciiOctet, if_pos ha, asciiOctet] at h
  split_ifs at h
  exact Fin.ext (Option.some.inj h)

theorem asciiChar_injective {a b : CodePoint} (ha : a.val < 0x80) (h : asciiChar a = asciiChar b) : a = b := by
  rw [asciiChar, if_pos ha, asciiChar] at h
  split_ifs at h
  exact Fin.ext (Option.some.inj h)

/-- An ASCII word occurs in a text exactly when its octets occur in what the text was read from. -/
theorem SpellsAs.isInfix_iff {raw : Bytes} {text : Text} (h : SpellsAs raw text) {w : Text} (hne : w ≠ [])
    (hw : ∀ c ∈ w, c.val < 0x80) : w <:+: text ↔ w.flatMap utf8Bytes <:+: raw := by
  have hval : ∀ c ∈ w, (Fin.ofNat 256 c.val).val = c.val := fun c hc =>
    Nat.mod_eq_of_lt (by have := hw c hc; omega)
  have hchars : w.map asciiChar = (w.map Fin.val).map some := by
    rw [List.map_map]
    exact List.map_congr_left fun c hc => if_pos (hw c hc)
  have hoctets : (w.map fun c => Fin.ofNat 256 c.val).map asciiOctet = (w.map Fin.val).map some := by
    rw [List.map_map, List.map_map]
    refine List.map_congr_left fun c hc => ?_
    simp only [Function.comp_apply, asciiOctet, hval c hc, if_pos (hw c hc)]
  rw [octets_ascii hw, ← map_infix_map_iff (f := asciiChar) fun c hc d => asciiChar_injective (hw c hc),
    ← map_infix_map_iff (f := asciiOctet) (t := raw), hchars, hoctets]
  · exact (Transcribes.isInfix_iff h (by simpa using hne)).symm
  · intro b hb d hd
    obtain ⟨c, hc, rfl⟩ := List.mem_map.mp hb
    exact asciiOctet_injective (by rw [hval c hc]; exact hw c hc) hd

theorem specialTokens_ascii : ∀ w ∈ specialTokens, w ≠ [] ∧ ∀ c ∈ w, c.val < 0x80 := by
  have hall : (specialTokens.all fun w => !w.isEmpty && w.all fun c => decide (c.val < 0x80)) = true := by decide
  simpa using hall

/-- Text without lone surrogates is measurable when the octets behind it spell no token. -/
theorem measurable_iff_spellsNoToken {raw : Bytes} {text : Text} (h : SpellsAs raw text)
    (henc : isEncodable text = true) : Measurable text ↔ SpellsNoToken raw := by
  rw [measurable_iff, spellsNoToken_iff, and_iff_right henc]
  refine forall₂_congr fun w hw => not_congr ?_
  exact h.isInfix_iff (specialTokens_ascii w hw).1 (specialTokens_ascii w hw).2

/-! ## Decoding with replacement -/

theorem asciiOctet_eq_none {b : Byte} (hb : 0x80 ≤ b.val) : asciiOctet b = none := if_neg (by omega)

theorem asciiChar_eq_none {c : CodePoint} (hc : 0x80 ≤ c.val) : asciiChar c = none := if_neg (by omega)

/-- One encoded character. -/
theorem spellsAs_utf8Bytes (c : CodePoint) : SpellsAs (utf8Bytes c) [c] := by
  by_cases hc : c.val < 0x80
  · have hval : (Fin.ofNat 256 c.val).val = c.val := Nat.mod_eq_of_lt (by omega)
    rw [utf8Bytes_of_lt hc]
    refine .keep (c := c.val) ?_ (if_pos hc) .nil
    rw [asciiOctet, hval, if_pos hc]
  · have h := Transcribes.skip (f := asciiOctet) (g := asciiChar) (utf8Bytes_ne_nil c) (List.cons_ne_nil c [])
      (fun b hb => asciiOctet_eq_none ?_) (by simpa using asciiChar_eq_none (by omega)) .nil
    · simpa using h
    · by_contra hlt
      have := mem_utf8Bytes_of_lt c b (by omega) hb
      omega

/-- A stretch of octets that are not ASCII, replaced. -/
theorem spellsAs_replacement {raw : Bytes} (hne : raw ≠ []) (hraw : ∀ b ∈ raw, 0x80 ≤ b.val) :
    SpellsAs raw [replacementCharacter] := by
  have h := Transcribes.skip (f := asciiOctet) (g := asciiChar) hne (List.cons_ne_nil replacementCharacter [])
    (fun b hb => asciiOctet_eq_none (hraw b hb)) (by simpa using asciiChar_eq_none (by decide)) .nil
  simpa using h

theorem continuation_ge {b : Byte} (h : isContinuation b = true) : 0x80 ≤ b.val := by
  simp only [isContinuation, Bool.and_eq_true, decide_eq_true_eq] at h
  exact h.1

theorem secondOctet_ge {b x : Byte} (h : secondOctetOk b x = true) : 0x80 ≤ x.val := by
  simp only [secondOctetOk] at h
  split_ifs at h <;> simp only [isContinuation, Bool.and_eq_true, decide_eq_true_eq] at h <;> omega

/-- A malformed unit holds no ASCII octet. -/
theorem firstUnit_malformed (b : Byte) (bs : Bytes) (h : (firstUnit b bs).char = none) :
    ∀ x ∈ (firstUnit b bs).raw, 0x80 ≤ x.val := by
  have hb : 0x80 ≤ b.val := by
    by_contra hlt
    rw [firstUnit.eq_def, if_pos (Nat.lt_of_not_le hlt)] at h
    exact nomatch h
  unfold firstUnit at h ⊢
  split_ifs at h ⊢ with h1 h2 h3 h4
  all_goals
    (try split at h) <;> (try split_ifs at h)
  all_goals grind [continuation_ge, secondOctet_ge]

theorem spellsAs_firstUnit (b : Byte) (bs : Bytes) : SpellsAs (firstUnit b bs).raw [(firstUnit b bs).text] := by
  cases hchar : (firstUnit b bs).char with
  | none =>
    have hne : (firstUnit b bs).raw ≠ [] := by
      rw [firstUnit_raw]
      simp
    rw [Utf8Unit.text, hchar]
    exact spellsAs_replacement hne (firstUnit_malformed b bs hchar)
  | some c =>
    have hunit := (firstUnit_char b bs c hchar).1
    rw [hunit]
    exact spellsAs_utf8Bytes c

theorem spellsAs_units (us : List Utf8Unit) (h : ∀ u ∈ us, SpellsAs u.raw [u.text]) :
    SpellsAs (rawOf us) (us.map Utf8Unit.text) := by
  induction us with
  | nil => exact .nil
  | cons u us ih =>
    rw [rawOf_cons, List.map_cons, ← List.singleton_append]
    exact (h u (by simp)).append (ih fun v hv => h v (List.mem_cons_of_mem u hv))

theorem spellsAs_decodeUnits (raw : Bytes) : ∀ u ∈ decodeUnits raw, SpellsAs u.raw [u.text] := by
  induction h : raw.length using Nat.strong_induction_on generalizing raw with
  | _ n ih =>
    cases raw with
    | nil => simp
    | cons b bs =>
      rw [decodeUnits_cons]
      intro u hu
      cases List.mem_cons.mp hu with
      | inl hu =>
        rw [hu]
        exact spellsAs_firstUnit b bs
      | inr hu =>
        refine ih (bs.drop _).length ?_ _ rfl u hu
        simp only [List.length_drop, List.length_cons] at h ⊢
        omega

theorem spellsAs_decodeReplace (raw : Bytes) : SpellsAs raw (decodeReplace raw) := by
  have h := spellsAs_units (decodeUnits raw) (spellsAs_decodeUnits raw)
  rwa [rawOf_decodeUnits] at h

/-- A decoded text is measurable exactly when its octets spell no special token. -/
theorem measurable_decodeReplace_iff (raw : Bytes) : Measurable (decodeReplace raw) ↔ SpellsNoToken raw :=
  measurable_iff_spellsNoToken (spellsAs_decodeReplace raw) (isEncodable_decodeReplace raw)

end WebOauthMcp.TokenOctets
