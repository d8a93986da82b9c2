import WebOauthMcp.ReplyFields

/-!
# The estimate a reply carries of itself

A reply states its own token count, and stating it changes what is counted. Where the
count feels the estimate only through its number of digits, three rounds settle it,
whatever the first estimate was. Both settling loops have five.
-/

namespace WebOauthMcp.SettledEstimates
open CodePoints JsonText ExceptSteps ResponseBudget BudgetMetadata ReplyFields

/-! ## Counts that depend on a number of digits -/

def digits (n : ℕ) : ℕ := (decimal n).length

theorem digits_le_iff {n k : ℕ} (hk : 0 < k) : digits n ≤ k ↔ n < 10 ^ k := by
  rw [digits, decimal, List.length_map]
  exact Nat.length_toDigits_le_iff (by omega) hk

theorem digits_pos (n : ℕ) : 0 < digits n := by
  rw [digits, decimal, List.length_map]
  exact Nat.length_toDigits_pos

theorem digits_mono {m n : ℕ} (h : m ≤ n) : digits m ≤ digits n :=
  (digits_le_iff (digits_pos n)).mpr (h.trans_lt ((digits_le_iff (digits_pos n)).mp le_rfl))

/-- A function that grows by at most one at each step. -/
structure GrowsByOne (f : ℕ → ℕ) : Prop where
  le_succ : ∀ k, f k ≤ f (k + 1)
  succ_le : ∀ k, f (k + 1) ≤ f k + 1

namespace GrowsByOne
variable {f : ℕ → ℕ} (hf : GrowsByOne f)
include hf

theorem monotone : Monotone f := monotone_nat_of_le_succ hf.le_succ

theorem le_add (a k : ℕ) : f (a + k) ≤ f a + k := by
  induction k with
  | zero => exact le_rfl
  | succ k ih => exact (hf.succ_le (a + k)).trans (Nat.succ_le_succ ih)

/-- Up to nineteen digits, the count has at most one digit more than at one digit. -/
theorem digits_near {k : ℕ} (hk : 0 < k) (hbound : k ≤ 19) : digits (f 1) ≤ digits (f k) ∧ digits (f k) ≤ digits (f 1) + 1 := by
  refine ⟨digits_mono (hf.monotone hk), (digits_le_iff (Nat.succ_pos _)).mpr ?_⟩
  have hfirst : f 1 < 10 ^ digits (f 1) := (digits_le_iff (digits_pos _)).mp le_rfl
  have hgrown := hf.le_add 1 (k - 1)
  have hten : 10 ^ 1 ≤ 10 ^ digits (f 1) := Nat.pow_le_pow_right (by omega) (digits_pos _)
  rw [Nat.add_sub_cancel' hk] at hgrown
  rw [pow_succ]
  omega

/-- Three rounds settle the estimate. The numbers of digits stay among two neighbours, and
a monotone map of these to themselves does not go round in a circle. -/
theorem settled (hbound : ∀ n, f (digits n) < 10 ^ 19) {s : ℕ} (hs : s < 10 ^ 19) :
    Function.IsFixedPt (fun n => f (digits n)) ((fun n => f (digits n))^[3] s) := by
  have hdigits : ∀ n, n < 10 ^ 19 → digits n ≤ 19 := fun n hn => (digits_le_iff (by omega)).mpr hn
  have hmono : ∀ m n, digits m ≤ digits n → digits (f (digits m)) ≤ digits (f (digits n)) := fun m n h => digits_mono (hf.monotone h)
  have hone := hf.digits_near (digits_pos s) (hdigits s hs)
  have htwo := hf.digits_near (digits_pos (f (digits s))) (hdigits _ (hbound _))
  have hthree := hf.digits_near (digits_pos (f (digits (f (digits s))))) (hdigits _ (hbound _))
  have hup := hmono (f (digits s)) (f (digits (f (digits s))))
  have hdown := hmono (f (digits (f (digits s)))) (f (digits s))
  have heq : digits (f (digits (f (digits (f (digits s)))))) = digits (f (digits (f (digits s)))) := by omega
  exact congrArg f heq

end GrowsByOne

/-! ## Token counts of this kind -/

/-- What a document counts when it states this estimate. -/
def countWith (enc : TokenEncoding) (d : Dict) (n : ℕ) : ℕ :=
  enc.tokensOf (render (.obj (dictSet (txt "estimated_tokens") (natJson n) d)))

/-- The estimate enters a count only through its number of digits, each of which adds at most one. -/
def CountsDigits (enc : TokenEncoding) : Prop :=
  ∀ d, (keys d).Nodup → ∃ f, GrowsByOne f ∧ ∀ n, countWith enc d n = f (digits n)

/-- A count is the length of a list. -/
def Sized (enc : TokenEncoding) : Prop := ∀ t, enc.tokensOf t < 2 ^ 63

/-- A document that states an estimate, and is otherwise `D`. -/
structure Stating (D : Dict) (n : ℕ) (d : Dict) : Prop where
  same : SameOutside [txt "estimated_tokens"] d D
  stated : dictGet (txt "estimated_tokens") d = some (natJson n)

variable {enc : TokenEncoding} {budget : Budget} {D d : Dict} {n : ℕ}

theorem Stating.set (h : Stating D n d) (n' : ℕ) : Stating D n' (dictSet (txt "estimated_tokens") (natJson n') d) := by
  refine ⟨⟨nodup_dictSet h.same.left, h.same.right, fun k hk => ?_⟩, dictGet_dictSet_self _ _ _⟩
  rw [dictGet_dictSet_of_ne fun heq : k = txt "estimated_tokens" => hk (List.mem_singleton.mpr heq)]
  exact h.same.get k hk

theorem Stating.count (h : Stating D n d) : enc.tokensOf (render (.obj d)) = countWith enc D n := by
  have hstated : SameOutside [] d (dictSet (txt "estimated_tokens") (natJson n) d) := by
    refine ⟨h.same.left, nodup_dictSet h.same.left, fun k _ => ?_⟩
    by_cases hk : k = txt "estimated_tokens"
    · rw [hk, h.stated, dictGet_dictSet_self]
    · rw [dictGet_dictSet_of_ne hk]
  rw [countWith, render_same hstated, render_same (h.same.set _)]

/-- Stating what was measured is one round. -/
theorem Stating.round (h : Stating D n d) {m : BudgetMeasurement} (hm : measureJsonPayload enc budget d = .ok m) :
    m.estimatedTokens = countWith enc D n := (tokens_of_measured hm).trans h.count

/-! ## The two loops -/

/-- A reply with its own measurement, stating what was measured. -/
structure Settles (enc : TokenEncoding) (budget : Budget) (r : Dict × BudgetMeasurement) : Prop where
  measured : measureJsonPayload enc budget r.1 = .ok r.2
  stated : dictGet (txt "estimated_tokens") r.1 = some (natJson r.2.estimatedTokens)

/-- The first loop settles when its rounds reach a fixed point. -/
theorem settleEstimate_settles {rounds k : ℕ} {m : BudgetMeasurement} {s : Settled} (hd : Stating D n d)
    (hm : measureJsonPayload enc budget d = .ok m) (hk : k ≤ rounds)
    (hfixed : Function.IsFixedPt (countWith enc D) ((countWith enc D)^[k] n)) (h : settleEstimate enc budget rounds d n m = .ok s) :
    Settles enc budget (s.result, s.measurement) ∧ Stating D s.stored s.result ∧ s.stored = s.measurement.estimatedTokens := by
  have hround := hd.round hm
  have hdone : n = m.estimatedTokens → Settles enc budget (d, m) ∧ Stating D n d ∧ n = m.estimatedTokens := fun heq =>
    ⟨⟨hm, heq ▸ hd.stated⟩, hd, heq⟩
  induction rounds generalizing d n k m with
  | zero =>
    cases Except.ok.inj h
    cases Nat.le_zero.mp hk
    exact hdone (hfixed.symm.trans hround.symm)
  | succ rounds ih =>
    rw [settleEstimate] at h
    split at h
    · next heq =>
      cases Except.ok.inj h
      exact hdone heq
    · next hne =>
      obtain ⟨updated, hupdated, h⟩ := bind_eq_ok.mp h
      have hset := hd.set m.estimatedTokens
      cases k with
      | zero => exact absurd (hfixed.symm.trans hround.symm) hne
      | succ k =>
        rw [Function.iterate_succ_apply, ← hround] at hfixed
        exact ih hset hupdated (Nat.le_of_succ_le_succ hk) hfixed h (hset.round hupdated) fun heq =>
          ⟨⟨hupdated, heq ▸ hset.stated⟩, hset, heq⟩

theorem resettleEstimate_settles {rounds k : ℕ} {m : BudgetMeasurement} {r : Dict × BudgetMeasurement} (hd : Stating D n d)
    (hk : k < rounds) (hfixed : Function.IsFixedPt (countWith enc D) ((countWith enc D)^[k] n))
    (h : resettleEstimate enc budget rounds d n m = .ok r) : Settles enc budget r := by
  induction rounds generalizing d n k m with
  | zero => exact absurd hk (Nat.not_lt_zero k)
  | succ rounds ih =>
    obtain ⟨updated, hupdated, h⟩ := bind_eq_ok.mp h
    have hround := hd.round hupdated
    split at h
    · next heq =>
      cases Except.ok.inj h
      exact ⟨hupdated, heq ▸ hd.stated⟩
    · next hne =>
      cases k with
      | zero => exact absurd (hfixed.symm.trans hround.symm) hne
      | succ k =>
        rw [Function.iterate_succ_apply, ← hround] at hfixed
        exact ih (hd.set updated.estimatedTokens) (Nat.lt_of_succ_lt_succ hk) hfixed h

/-! ## The contract -/

/-- A reply that states its own count, comes with its own measurement, and is only called
complete, and not called too large, when this measurement fits. -/
structure Exact (enc : TokenEncoding) (budget : Budget) (truncated : Bool) (r : Dict × BudgetMeasurement) : Prop where
  measured : measureJsonPayload enc budget r.1 = .ok r.2
  estimated : dictGet (txt "estimated_tokens") r.1 = some (natJson (enc.tokensOf (render (.obj r.1))))
  admitted : dictGet (txt "budget_exceeded") r.1 = none → r.2.fits = true
  complete : dictGet (txt "complete") r.1 = some (.bool true) → r.2.fits = true ∧ truncated = false

theorem Settles.exact {truncated : Bool} {r : Dict × BudgetMeasurement} (h : Settles enc budget r)
    (hadmitted : dictGet (txt "budget_exceeded") r.1 = none → r.2.fits = true)
    (hcomplete : dictGet (txt "complete") r.1 = some (.bool true) → r.2.fits = true ∧ truncated = false) :
    Exact enc budget truncated r :=
  ⟨h.measured, tokens_of_measured h.measured ▸ h.stated, hadmitted, hcomplete⟩

theorem nodup_withContract {payload : Dict} (h : (keys payload).Nodup) (truncated : Bool) (reason : Text) :
    (keys (withContract payload budget truncated reason)).Nodup :=
  (withContract_same (SameOutside.refl h) truncated reason).left

theorem nodup_withBudgetExceeded (h : (keys d).Nodup) (truncated : Bool) (m : BudgetMeasurement) :
    (keys (withBudgetExceeded d truncated m)).Nodup :=
  (withBudgetExceeded_same (SameOutside.refl h) truncated m).left

theorem withContract_states {payload : Dict} (h : (keys payload).Nodup) (truncated : Bool) (reason : Text) :
    Stating (withContract payload budget truncated reason) 0 (withContract payload budget truncated reason) := by
  refine ⟨SameOutside.refl (nodup_withContract h truncated reason), ?_⟩
  rw [withContract, dictGet_dictSet_of_ne (by decide), dictGet_dictSet_self]

theorem withContract_complete (payload : Dict) (truncated : Bool) (reason : Text) :
    dictGet (txt "complete") (withContract payload budget truncated reason) = some (.bool (!truncated)) := by
  rw [withContract, dictGet_dictSet_of_ne (by decide), dictGet_dictSet_of_ne (by decide), dictGet_dictSet_of_ne (by decide),
    dictGet_dictSet_of_ne (by decide), dictGet_dictSet_of_ne (by decide), dictGet_dictSet_self]

/-- The admission leaves the estimate as it is. -/
theorem withBudgetExceeded_states (h : (keys d).Nodup) (hstated : dictGet (txt "estimated_tokens") d = some (natJson n))
    (truncated : Bool) (m : BudgetMeasurement) : Stating (withBudgetExceeded d truncated m) n (withBudgetExceeded d truncated m) := by
  refine ⟨SameOutside.refl (nodup_withBudgetExceeded h truncated m), ?_⟩
  rw [withBudgetExceeded, dictGet_dictSet_of_ne (by decide)]
  cases truncated with
  | true =>
    rw [if_pos rfl, dictGet_dictSet_of_ne (by decide), dictGet_dictSet_of_ne (by decide), dictGet_dictSet_of_ne (by decide)]
    exact hstated
  | false =>
    rw [if_neg Bool.false_ne_true, dictGet_dictSet_of_ne (by decide), dictGet_dictSet_of_ne (by decide),
      dictGet_dictSet_of_ne (by decide), dictGet_dictSet_of_ne (by decide)]
    exact hstated

theorem withBudgetExceeded_admits (d : Dict) (truncated : Bool) (m : BudgetMeasurement) :
    dictGet (txt "budget_exceeded") (withBudgetExceeded d truncated m) ≠ none := by
  rw [withBudgetExceeded, dictGet_dictSet_self]
  exact Option.some_ne_none _

theorem withBudgetExceeded_incomplete (d : Dict) (truncated : Bool) (m : BudgetMeasurement) :
    dictGet (txt "complete") (withBudgetExceeded d truncated m) = some (.bool false) := by
  rw [withBudgetExceeded, dictGet_dictSet_of_ne (by decide)]
  cases truncated with
  | true => rw [if_pos rfl, dictGet_dictSet_of_ne (by decide), dictGet_dictSet_of_ne (by decide), dictGet_dictSet_self]
  | false =>
    rw [if_neg Bool.false_ne_true, dictGet_dictSet_of_ne (by decide), dictGet_dictSet_of_ne (by decide),
      dictGet_dictSet_of_ne (by decide), dictGet_dictSet_self]

section
variable (hsized : Sized enc) (hdigits : CountsDigits enc)
include hsized hdigits

/-- From any estimate of at most nineteen digits, three rounds reach a fixed point. -/
theorem countWith_settled (hD : (keys D).Nodup) {stored : ℕ} (hstored : stored < 2 ^ 63) :
    Function.IsFixedPt (countWith enc D) ((countWith enc D)^[3] stored) := by
  obtain ⟨f, hf, hcount⟩ := hdigits D hD
  have hround : countWith enc D = fun n => f (digits n) := funext hcount
  have hbound : ∀ n, f (digits n) < 10 ^ 19 := fun n => by
    rw [← hcount]
    exact (hsized _).trans (by decide)
  rw [hround]
  exact hf.settled hbound (hstored.trans (by decide))

/-- Every reply that is returned is exact. -/
theorem withBudgetMetadata_exact {payload : Dict} (hkeys : (keys payload).Nodup) {truncated : Bool} {reason : Text}
    {r : Dict × BudgetMeasurement} (h : withBudgetMetadata enc payload budget truncated reason = .ok r) :
    Exact enc budget truncated r := by
  obtain ⟨m, hm, h⟩ := bind_eq_ok.mp h
  obtain ⟨s, hs, h⟩ := bind_eq_ok.mp h
  have hstates : Stating (withContract payload budget truncated reason) 0 (withContract payload budget truncated reason) :=
    withContract_states hkeys truncated reason
  have hdistinct : (keys (withContract payload budget truncated reason)).Nodup := nodup_withContract hkeys truncated reason
  have hfixed := countWith_settled hsized hdigits hdistinct (Nat.two_pow_pos 63)
  obtain ⟨hsettles, hsame, hstored⟩ := settleEstimate_settles hstates hm (by omega) hfixed hs
  have hcomplete : dictGet (txt "complete") s.result = some (.bool (!truncated)) := by
    rw [settleEstimate_flag (by decide) hs]
    exact withContract_complete payload truncated reason
  split at h
  · next hfits =>
    cases Except.ok.inj h
    refine hsettles.exact (fun _ => hfits) fun heq => ⟨hfits, ?_⟩
    rw [hcomplete] at heq
    cases truncated with
    | false => rfl
    | true => cases heq
  · have hbound : s.stored < 2 ^ 63 := by
      rw [hstored, tokens_of_measured hsettles.measured]
      exact hsized _
    have hnodup : (keys s.result).Nodup := hsame.same.left
    have hadmitted := withBudgetExceeded_states hnodup hsame.stated truncated s.measurement
    have hfixed := countWith_settled hsized hdigits (nodup_withBudgetExceeded hnodup truncated s.measurement) hbound
    have hresettles := resettleEstimate_settles hadmitted (by omega) hfixed h
    refine hresettles.exact (fun hnone => ?_) fun heq => ?_
    · rw [resettleEstimate_flag (by decide) h] at hnone
      exact absurd hnone (withBudgetExceeded_admits _ _ _)
    · rw [resettleEstimate_flag (by decide) h, withBudgetExceeded_incomplete] at heq
      cases heq

/-- The contract is met exactly when what the payload says itself can be measured. -/
theorem budget_metadata_exact_iff {payload : Dict} (hkeys : (keys payload).Nodup) (truncated : Bool) (reason : Text) :
    (∃ r, withBudgetMetadata enc payload budget truncated reason = .ok r ∧ Exact enc budget truncated r) ↔
      CleanPayload payload ∧ Measurable reason := by
  rw [← withBudgetMetadata_returns_iff enc payload budget truncated reason]
  constructor
  · intro h
    obtain ⟨r, hr, -⟩ := h
    exact ⟨r, hr⟩
  · intro h
    obtain ⟨r, hr⟩ := h
    exact ⟨r, hr, withBudgetMetadata_exact hsized hdigits hkeys hr⟩

end

/-! ## A tokenizer of this kind -/

theorem capped_ellipsis : min (txt "…").length 1000000 = 1 := rfl

/-- Every character is a token, up to a million. -/
def cappedEncoding : TokenEncoding := ⟨fun t => min t.length 1000000, capped_ellipsis⟩

theorem sized_cappedEncoding : Sized cappedEncoding := fun _ => (Nat.min_le_right _ _).trans_lt (by decide)

theorem countsDigits_cappedEncoding : CountsDigits cappedEncoding := by
  intro d hd
  refine ⟨fun k => min (2 + ((dictPop (txt "estimated_tokens") d).map fieldLength).sum +
    (dictPop (txt "estimated_tokens") d).length + ((quoted (txt "estimated_tokens")).length + 1 + k)) 1000000,
    ⟨fun k => by omega, fun k => by omega⟩, fun n => ?_⟩
  have hlength := length_render_set_eq (k := txt "estimated_tokens") (v := natJson n) hd
  rw [fieldLength_eq, length_natJson] at hlength
  exact congrArg (fun k => min k 1000000) hlength

def greeting : Dict := [(txt "content", .str (txt "hello"))]

/-- A reply for a greeting, under a budget that has no room for it. -/
theorem budget_metadata_exact_greeting : ∃ r, withBudgetMetadata cappedEncoding greeting oneToken false (txt "end_of_file") = .ok r ∧
    Exact cappedEncoding oneToken false r := by
  have hkeys : (keys greeting).Nodup := List.nodup_singleton (txt "content")
  refine (budget_metadata_exact_iff sized_cappedEncoding countsDigits_cappedEncoding hkeys false _).mpr
    ⟨?_, measurable_of_isBenign (by decide)⟩
  intro f hf _
  cases List.mem_singleton.mp hf
  exact cleanField_benign (by decide) (by decide)

def specialTokenPayload : Dict := [(txt "content", .str (txt "<|endoftext|>"))]

/-- A text that spells a special token gets no reply. -/
theorem special_token_gets_no_reply : Sized cappedEncoding ∧ CountsDigits cappedEncoding ∧ (keys specialTokenPayload).Nodup ∧
    ¬∃ r, withBudgetMetadata cappedEncoding specialTokenPayload oneToken false (txt "end_of_file") = .ok r ∧
      Exact cappedEncoding oneToken false r := by
  refine ⟨sized_cappedEncoding, countsDigits_cappedEncoding, List.nodup_singleton (txt "content"), ?_⟩
  rintro ⟨r, hr, -⟩
  have hclean := ((withBudgetMetadata_returns_iff _ specialTokenPayload _ _ _).mp ⟨r, hr⟩).1
  have hfield := hclean _ (List.mem_singleton.mpr rfl) (by decide)
  have hmeasurable := ((measurable_iff _).mp (cleanJson_str.mp hfield.2)).2
  exact hmeasurable _ List.mem_cons_self (List.infix_refl _)

end WebOauthMcp.SettledEstimates
