import WebOauthMcp.ExceptSteps
import WebOauthMcp.JsonText
import Mathlib.Data.PNat.Notation

/-!
# Response budgets

Replies are measured before they are sent: their UTF-8 length and their token count
under one tokenizer encoding. Both steps are partial. Lone surrogates have no UTF-8
form, and the tokenizer refuses text that spells one of its special tokens. The
tokenizer itself is a parameter; what is used of it is a token count.
-/

namespace WebOauthMcp.ResponseBudget
open CodePoints AvoidedWords JsonText ExceptSteps

/-- What a call may raise instead of returning. -/
inductive Raised
  | unicodeEncodeError
  | unicodeDecodeError
  | valueError
  deriving DecidableEq, Repr

/-- The special tokens of the `o200k_base` encoding, as they are spelled. -/
def specialTokens : List Text := [txt "<|endoftext|>", txt "<|endofprompt|>"]

/-- The tokenizer's count on text that spells no special token. -/
structure TokenEncoding where
  tokensOf : Text → ℕ
  ellipsis : tokensOf (txt "…") = 1

/-- The simplest tokenizer: every character is a token. -/
def perCharacter : TokenEncoding := ⟨List.length, rfl⟩

/-- `Encoding.encode` refuses text that spells a special token. -/
def countTokens (enc : TokenEncoding) (text : Text) : Except Raised ℕ :=
  if specialTokens.any fun w => decide (w <:+: text) then .error .valueError else .ok (enc.tokensOf text)

/-- `ResponseBudget`, with ceilings that have passed validation. -/
structure Budget where
  maxTokens : ℕ+
  maxBytes : Option ℕ+ := none

def encodingName : Text := txt "o200k_base"

structure BudgetMeasurement where
  renderedBytes : ℕ
  estimatedTokens : ℕ
  exceedsByteBudget : Bool
  exceedsTokenBudget : Bool
  deriving DecidableEq

def BudgetMeasurement.fits (m : BudgetMeasurement) : Bool := !m.exceedsByteBudget && !m.exceedsTokenBudget

def BudgetMeasurement.stopReason (m : BudgetMeasurement) : Option Text :=
  if m.exceedsByteBudget && m.exceedsTokenBudget then some (txt "byte_and_token_budget")
  else if m.exceedsByteBudget then some (txt "byte_budget")
  else if m.exceedsTokenBudget then some (txt "token_budget")
  else none

def exceedsBytes (maxBytes : Option ℕ+) (n : ℕ) : Bool :=
  match maxBytes with
  | none => false
  | some limit => decide ((limit : ℕ) < n)

/-- `ResponseBudget.measure`. -/
def measure (enc : TokenEncoding) (budget : Budget) (text : Text) : Except Raised BudgetMeasurement :=
  match encodeUtf8 text with
  | none => .error .unicodeEncodeError
  | some bytes => do
    let estimatedTokens ← countTokens enc text
    pure {
      renderedBytes := bytes.length
      estimatedTokens := estimatedTokens
      exceedsByteBudget := exceedsBytes budget.maxBytes bytes.length
      exceedsTokenBudget := decide ((budget.maxTokens : ℕ) < estimatedTokens) }

/-! ## Measurable text -/

/-- The pieces of text that measuring stumbles over. -/
def unmeasurable : Set Text := {w | w ∈ specialTokens ∨ ∃ c, isSurrogate c = true ∧ w = [c]}

/-- Text that can be measured. -/
def Measurable (text : Text) : Prop := Avoids unmeasurable text

theorem singleton_infix_iff {α : Type} {c : α} {t : List α} : [c] <:+: t ↔ c ∈ t := by
  constructor
  · exact fun h => h.subset (by simp)
  · intro h
    obtain ⟨s, u, rfl⟩ := List.append_of_mem h
    exact ⟨s, u, by simp⟩

theorem measurable_iff (text : Text) :
    Measurable text ↔ isEncodable text = true ∧ ∀ w ∈ specialTokens, ¬w <:+: text := by
  rw [isEncodable_iff]
  constructor
  · intro h
    refine ⟨fun c hc => ?_, fun w hw => h w (Or.inl hw)⟩
    cases hs : isSurrogate c with
    | false => rfl
    | true => exact absurd (singleton_infix_iff.mpr hc) (h [c] (Or.inr ⟨c, hs, rfl⟩))
  · intro h w hw hi
    cases hw with
    | inl hw => exact h.2 w hw hi
    | inr hw =>
      obtain ⟨c, hc, rfl⟩ := hw
      rw [h.1 c (singleton_infix_iff.mp hi)] at hc
      exact Bool.false_ne_true hc

theorem countTokens_returns {enc : TokenEncoding} {text : Text} (h : Measurable text) :
    countTokens enc text = .ok (enc.tokensOf text) := by
  have hnone : ¬(specialTokens.any fun w => decide (w <:+: text)) = true := by
    simpa using ((measurable_iff text).mp h).2
  rw [countTokens, if_neg hnone]

/-- Measuring returns exactly on measurable text. -/
theorem measure_returns_iff (enc : TokenEncoding) (budget : Budget) (text : Text) :
    (∃ m, measure enc budget text = .ok m) ↔ Measurable text := by
  constructor
  · intro h
    obtain ⟨m, hm⟩ := h
    rw [measurable_iff]
    cases hb : encodeUtf8 text with
    | none => simp [measure, hb] at hm
    | some bytes =>
      refine ⟨((encodeUtf8_eq_some_iff text bytes).mp hb).1, fun w hw hi => ?_⟩
      have hany : (specialTokens.any fun w => decide (w <:+: text)) = true :=
        List.any_eq_true.mpr ⟨w, hw, decide_eq_true hi⟩
      simp only [measure, hb, countTokens, if_pos hany] at hm
      exact nomatch hm
  · intro h
    have hb := (encodeUtf8_eq_some_iff text (text.flatMap utf8Bytes)).mpr ⟨((measurable_iff text).mp h).1, rfl⟩
    simp only [measure, hb, countTokens_returns h]
    exact ⟨_, rfl⟩

theorem measure_returns {enc : TokenEncoding} {budget : Budget} {text : Text} (h : Measurable text) :
    Returns (measure enc budget text) fun _ => True := by
  obtain ⟨m, hm⟩ := (measure_returns_iff enc budget text).mpr h
  exact ⟨m, hm, trivial⟩

/-- What a measurement says of the text. -/
theorem measure_eq_ok {enc : TokenEncoding} {budget : Budget} {text : Text} {m : BudgetMeasurement}
    (h : measure enc budget text = .ok m) : m.exceedsByteBudget = exceedsBytes budget.maxBytes m.renderedBytes ∧
      m.estimatedTokens = enc.tokensOf text ∧ m.exceedsTokenBudget = decide ((budget.maxTokens : ℕ) < enc.tokensOf text) := by
  rw [measure] at h
  split at h
  · exact absurd h (by simp)
  · obtain ⟨n, hn, h⟩ := bind_eq_ok.mp h
    cases Except.ok.inj h
    rw [countTokens] at hn
    split at hn
    · exact absurd hn (by simp)
    · cases Except.ok.inj hn
      exact ⟨rfl, rfl, rfl⟩

/-- Without a byte budget only tokens count. -/
theorem measure_fits_iff {enc : TokenEncoding} {budget : Budget} {text : Text} {m : BudgetMeasurement}
    (hbytes : budget.maxBytes = none) (h : measure enc budget text = .ok m) :
    m.fits = true ↔ enc.tokensOf text ≤ budget.maxTokens := by
  obtain ⟨hwithin, -, htokens⟩ := measure_eq_ok h
  rw [BudgetMeasurement.fits, hwithin, htokens, hbytes]
  simp [exceedsBytes]

theorem nil_notMem_unmeasurable : [] ∉ unmeasurable := by
  intro h
  cases h with
  | inl h => exact absurd h (by decide)
  | inr h =>
    obtain ⟨c, -, hc⟩ := h
    simp at hc

/-- The characters of special tokens: all the others separate, unless they are surrogates. -/
def isTokenChar (c : CodePoint) : Bool := specialTokens.any fun w => w.contains c

theorem separates_of {c : CodePoint} (hs : isSurrogate c = false) (hc : isTokenChar c = false) :
    Separates unmeasurable c := by
  intro w hw hcw
  cases hw with
  | inl hw =>
    simp only [isTokenChar, List.any_eq_false, List.contains_eq_mem, decide_eq_true_eq] at hc
    exact hc w hw hcw
  | inr hw =>
    obtain ⟨d, hd, rfl⟩ := hw
    obtain rfl := List.mem_singleton.mp hcw
    rw [hs] at hd
    exact Bool.false_ne_true hd

/-- Special tokens start with `<`. -/
theorem neverOpens_of {c : CodePoint} (hs : isSurrogate c = false) (hc : c.val ≠ 0x3C) :
    NeverOpens unmeasurable c := by
  intro w hw hcw
  cases hw with
  | inl hw =>
    have hall : ∀ w ∈ specialTokens, w.head? = some 0x3C := by decide
    rw [hall w hw] at hcw
    exact hc (by rw [← Option.some.inj hcw]; rfl)
  | inr hw =>
    obtain ⟨d, hd, rfl⟩ := hw
    obtain rfl := Option.some.inj hcw
    rw [hs] at hd
    exact Bool.false_ne_true hd

/-- Unmeasurable pieces of a printed document sit inside its strings. -/
theorem inStrings_unmeasurable : InStrings unmeasurable where
  nonempty := nil_notMem_unmeasurable
  opening := by
    have hall : (jsonChars.all fun c => !isSurrogate c && c.val != 0x3C) = true := by decide
    intro c hc
    have hmem : c ∈ jsonChars := by simpa [isJsonChar] using hc
    have h := List.all_eq_true.mp hall c hmem
    simp only [Bool.and_eq_true, Bool.not_eq_true', bne_iff_ne] at h
    exact neverOpens_of h.1 h.2
  verbatim := by
    intro c hc
    have hall : ∀ n : Fin 128, n.val = 0x22 ∨ n.val = 0x5C ∨ n.val < 0x20 →
        isTokenChar (Fin.ofNat _ n.val) = false := by decide +kernel
    have hval : c.val = 0x22 ∨ c.val = 0x5C ∨ c.val < 0x20 := by
      refine hc.imp (fun h => ?_) (Or.imp_left fun h => ?_)
      · rw [h]
        rfl
      · rw [h]
        rfl
    have hlt : c.val < 128 := by omega
    refine separates_of ?_ ?_
    · simp only [isSurrogate, Bool.and_eq_false_iff, decide_eq_false_iff_not]
      omega
    · have h := hall ⟨c.val, hlt⟩ hval
      rwa [Fin.ofNat_val_eq_self] at h

end WebOauthMcp.ResponseBudget
