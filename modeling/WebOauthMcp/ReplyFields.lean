import WebOauthMcp.ReplyOffsets

/-!
# Replies as finite maps

Rendering sorts the keys, so what a reply measures depends on its fields and not on their
order. A reply that already carries the contract is measured anew as if it did not.
-/

namespace WebOauthMcp.ReplyFields
open CodePoints Words JsonText ExceptSteps ResponseBudget BudgetMetadata OffsetPaging ReplyOffsets

def keys (d : Dict) : List Text := d.map Prod.fst

theorem keys_dictSet (k : Text) (v : Json) (d : Dict) :
    keys (dictSet k v d) = if k ∈ keys d then keys d else keys d ++ [k] := by
  have hany : (d.any fun f => decide (f.1 = k)) = true ↔ k ∈ keys d := by
    rw [List.any_eq_true, keys, List.mem_map]
    simp only [decide_eq_true_eq]
  rw [dictSet]
  by_cases h : k ∈ keys d
  · rw [if_pos (hany.mpr h), if_pos h, keys, keys, List.map_map]
    refine List.map_congr_left fun f _ => ?_
    by_cases hf : f.1 = k
    · simp [hf]
    · simp [hf]
  · rw [if_neg (fun hk => h (hany.mp hk)), if_neg h, keys, List.map_append]
    rfl

theorem nodup_dictSet {k : Text} {v : Json} {d : Dict} (h : (keys d).Nodup) : (keys (dictSet k v d)).Nodup := by
  rw [keys_dictSet]
  split
  · exact h
  · next hnew => exact List.nodup_append.mpr ⟨h, List.nodup_singleton k, fun a ha b hb => by
      cases List.mem_singleton.mp hb
      exact fun heq => hnew (heq ▸ ha)⟩

theorem nodup_dictPop {k : Text} {d : Dict} (h : (keys d).Nodup) : (keys (dictPop k d)).Nodup :=
  h.sublist (List.Sublist.map Prod.fst List.filter_sublist)

theorem dictGet_dictPop_self (k : Text) (d : Dict) : dictGet k (dictPop k d) = none := by
  rw [dictGet, dictPop, Option.map_eq_none_iff, List.find?_eq_none]
  intro f hf
  simpa using (List.mem_filter.mp hf).2

theorem mem_iff_dictGet {d : Dict} (h : (keys d).Nodup) (k : Text) (v : Json) : (k, v) ∈ d ↔ dictGet k d = some v := by
  induction d with
  | nil => exact iff_of_false List.not_mem_nil (Option.some_ne_none v).symm
  | cons f d ih =>
    obtain ⟨hnew, hrest⟩ := List.nodup_cons.mp h
    by_cases hf : f.1 = k
    · have hget : dictGet k (f :: d) = some f.2 := by simp [dictGet, hf]
      rw [hget, List.mem_cons, Option.some.injEq]
      constructor
      · intro hmem
        cases hmem with
        | inl heq => rw [← heq]
        | inr hmem => exact absurd (List.mem_map_of_mem (f := Prod.fst) hmem) (hf ▸ hnew)
      · intro heq
        exact .inl (Prod.ext hf.symm heq.symm)
    · have hget : dictGet k (f :: d) = dictGet k d := by simp [dictGet, hf]
      rw [hget, List.mem_cons, ih hrest]
      exact or_iff_right fun heq => hf (congrArg Prod.fst heq).symm

/-! ## Replies with the same fields -/

/-- The same fields, apart from those under some keys. -/
structure SameOutside (ks : List Text) (d d' : Dict) : Prop where
  left : (keys d).Nodup
  right : (keys d').Nodup
  get : ∀ k ∉ ks, dictGet k d = dictGet k d'

theorem SameOutside.refl {ks : List Text} {d : Dict} (h : (keys d).Nodup) : SameOutside ks d d := ⟨h, h, fun _ _ => rfl⟩

theorem SameOutside.symm {ks : List Text} {d d' : Dict} (h : SameOutside ks d d') : SameOutside ks d' d :=
  ⟨h.right, h.left, fun k hk => (h.get k hk).symm⟩

theorem SameOutside.trans {ks : List Text} {d d' d'' : Dict} (h : SameOutside ks d d') (h' : SameOutside ks d' d'') :
    SameOutside ks d d'' := ⟨h.left, h'.right, fun k hk => (h.get k hk).trans (h'.get k hk)⟩

theorem SameOutside.mono {ks ks' : List Text} {d d' : Dict} (h : SameOutside ks d d') (hks : ∀ k ∈ ks, k ∈ ks') : SameOutside ks' d d' :=
  ⟨h.left, h.right, fun k hk => h.get k fun hmem => hk (hks k hmem)⟩

/-- A key that both set to one value no longer matters. -/
theorem SameOutside.set {k : Text} {ks : List Text} {d d' : Dict} (h : SameOutside (k :: ks) d d') (v : Json) :
    SameOutside ks (dictSet k v d) (dictSet k v d') := by
  refine ⟨nodup_dictSet h.left, nodup_dictSet h.right, fun k' hk' => ?_⟩
  by_cases heq : k' = k
  · rw [heq, dictGet_dictSet_self, dictGet_dictSet_self]
  · rw [dictGet_dictSet_of_ne heq, dictGet_dictSet_of_ne heq]
    exact h.get k' fun hmem => (List.mem_cons.mp hmem).elim heq hk'

theorem SameOutside.pop {k : Text} {ks : List Text} {d d' : Dict} (h : SameOutside (k :: ks) d d') :
    SameOutside ks (dictPop k d) (dictPop k d') := by
  refine ⟨nodup_dictPop h.left, nodup_dictPop h.right, fun k' hk' => ?_⟩
  by_cases heq : k' = k
  · rw [heq, dictGet_dictPop_self, dictGet_dictPop_self]
  · rw [dictGet_dictPop_of_ne heq, dictGet_dictPop_of_ne heq]
    exact h.get k' fun hmem => (List.mem_cons.mp hmem).elim heq hk'

theorem SameOutside.set_all {k : Text} {d d' : Dict} (h : SameOutside [] d d') (v : Json) :
    SameOutside [] (dictSet k v d) (dictSet k v d') := (h.mono fun _ hmem => absurd hmem List.not_mem_nil : SameOutside [k] d d').set v

theorem SameOutside.perm {d d' : Dict} (h : SameOutside [] d d') : d.Perm d' := by
  refine (List.perm_ext_iff_of_nodup h.left.of_map h.right.of_map).mpr fun f => ?_
  obtain ⟨k, v⟩ := f
  rw [mem_iff_dictGet h.left, mem_iff_dictGet h.right, h.get k List.not_mem_nil]

theorem renderFields_eq (d : Dict) : renderFields d = d.map fun f => (f.1, render f.2) := by
  induction d with
  | nil => rfl
  | cons f d ih =>
    obtain ⟨k, j⟩ := f
    rw [renderFields, ih]
    rfl

/-- Objects with the same fields are printed alike. -/
theorem render_same {d d' : Dict} (h : SameOutside [] d d') : render (.obj d) = render (.obj d') := by
  have hperm : (renderFields d).Perm (renderFields d') := by
    rw [renderFields_eq, renderFields_eq]
    exact h.perm.map _
  have hkeys : ((renderFields d).map Prod.fst).Nodup := by
    rw [renderFields_eq, List.map_map]
    exact h.left
  have hsorted : ∀ fs : List (Text × Text), (fs.mergeSort fun f g => textLe f.1 g.1).Pairwise fun f g => textLe f.1 g.1 = true :=
    fun fs => List.pairwise_mergeSort (fun a b c => textLe_trans a.1 b.1 c.1) (fun a b => textLe_total a.1 b.1) fs
  have hsame : ((renderFields d).mergeSort fun f g => textLe f.1 g.1) = (renderFields d').mergeSort fun f g => textLe f.1 g.1 := by
    refine List.Perm.eq_of_pairwise (fun f g hf hg hle hge => ?_) (hsorted _) (hsorted _)
      ((List.mergeSort_perm _ _).trans (hperm.trans (List.mergeSort_perm _ _).symm))
    have hfst := textLe_antisymm _ _ hle hge
    exact List.inj_on_of_nodup_map hkeys ((List.mergeSort_perm _ _).mem_iff.mp hf)
      (hperm.mem_iff.mpr ((List.mergeSort_perm _ _).mem_iff.mp hg)) hfst
  rw [render, render, hsame]

/-! ## Measuring them -/

variable {enc : TokenEncoding} {budget : Budget} {d d' : Dict}

theorem measureJsonPayload_same (h : SameOutside [] d d') : measureJsonPayload enc budget d = measureJsonPayload enc budget d' := by
  rw [measureJsonPayload, measureJsonPayload, render_same h]

/-- Keys are set one after the other, and none of the contract's remains. -/
theorem withContract_same (h : SameOutside contractKeys d d') (truncated : Bool) (reason : Text) :
    SameOutside [] (withContract d budget truncated reason) (withContract d' budget truncated reason) :=
  ((((((h.pop.set _).set _).set _).set _).set _).set _)

theorem withBudgetExceeded_same (h : SameOutside [] d d') (truncated : Bool) (m : BudgetMeasurement) :
    SameOutside [] (withBudgetExceeded d truncated m) (withBudgetExceeded d' truncated m) := by
  have hflags := ((h.set_all (k := txt "complete") (.bool false)).set_all (k := txt "partial") (.bool true)).set_all
    (k := txt "truncated") (.bool true)
  cases truncated with
  | true => exact hflags.set_all _
  | false => exact (hflags.set_all _).set_all _

theorem settleEstimate_same {rounds stored : ℕ} {m : BudgetMeasurement} {s : Settled} (h : SameOutside [] d d')
    (hs : settleEstimate enc budget rounds d stored m = .ok s) : ∃ s', settleEstimate enc budget rounds d' stored m = .ok s' ∧
      SameOutside [] s.result s'.result ∧ s.stored = s'.stored ∧ s.measurement = s'.measurement := by
  induction rounds generalizing d d' stored m with
  | zero =>
    cases Except.ok.inj hs
    exact ⟨_, rfl, h, rfl, rfl⟩
  | succ rounds ih =>
    rw [settleEstimate] at hs ⊢
    split at hs
    · next heq =>
      cases Except.ok.inj hs
      exact ⟨_, if_pos heq, h, rfl, rfl⟩
    · next hne =>
      obtain ⟨updated, hupdated, hs⟩ := bind_eq_ok.mp hs
      have hset := h.set_all (k := txt "estimated_tokens") (natJson m.estimatedTokens)
      obtain ⟨s', hs', hsame⟩ := ih hset hs
      refine ⟨s', (if_neg hne).trans (bind_eq_ok.mpr ⟨updated, ?_, hs'⟩), hsame⟩
      rw [← measureJsonPayload_same hset]
      exact hupdated

theorem resettleEstimate_same {rounds stored : ℕ} {m : BudgetMeasurement} {r : Dict × BudgetMeasurement} (h : SameOutside [] d d')
    (hr : resettleEstimate enc budget rounds d stored m = .ok r) :
    ∃ r', resettleEstimate enc budget rounds d' stored m = .ok r' ∧ SameOutside [] r.1 r'.1 ∧ r.2 = r'.2 := by
  induction rounds generalizing d d' stored m with
  | zero =>
    cases Except.ok.inj hr
    exact ⟨_, rfl, h, rfl⟩
  | succ rounds ih =>
    rw [resettleEstimate] at hr ⊢
    obtain ⟨updated, hupdated, hr⟩ := bind_eq_ok.mp hr
    rw [measureJsonPayload_same h] at hupdated
    split at hr
    · next heq =>
      cases Except.ok.inj hr
      exact ⟨_, bind_eq_ok.mpr ⟨updated, hupdated, if_pos heq⟩, h, rfl⟩
    · next hne =>
      obtain ⟨r', hr', hsame⟩ := ih (h.set_all _) hr
      exact ⟨r', bind_eq_ok.mpr ⟨updated, hupdated, (if_neg hne).trans hr'⟩, hsame⟩

/-- Payloads with the same own fields get the same reply. -/
theorem withBudgetMetadata_same {truncated : Bool} {reason : Text} {r : Dict × BudgetMeasurement} (h : SameOutside contractKeys d d')
    (hr : withBudgetMetadata enc d budget truncated reason = .ok r) :
    ∃ r', withBudgetMetadata enc d' budget truncated reason = .ok r' ∧ SameOutside [] r.1 r'.1 ∧ r.2 = r'.2 := by
  have hcontract : SameOutside [] (withContract d budget truncated reason) (withContract d' budget truncated reason) :=
    withContract_same h truncated reason
  obtain ⟨m, hm, hr⟩ := bind_eq_ok.mp hr
  obtain ⟨s, hs, hr⟩ := bind_eq_ok.mp hr
  rw [measureJsonPayload_same hcontract] at hm
  obtain ⟨s', hs', hresult, hstored, hmeasurement⟩ := settleEstimate_same hcontract hs
  rw [hstored, hmeasurement] at hr
  split at hr
  · next hfits =>
    cases Except.ok.inj hr
    exact ⟨_, bind_eq_ok.mpr ⟨m, hm, bind_eq_ok.mpr ⟨s', hs', if_pos hfits⟩⟩, hresult, rfl⟩
  · next hfits =>
    obtain ⟨r', hr', hsame⟩ := resettleEstimate_same (withBudgetExceeded_same hresult truncated s'.measurement) hr
    exact ⟨r', bind_eq_ok.mpr ⟨m, hm, bind_eq_ok.mpr ⟨s', hs', (if_neg hfits).trans hr'⟩⟩, hsame⟩

theorem fitsReply_same {truncated : Bool} {reason : Text} (h : SameOutside contractKeys d d') :
    fitsReply enc budget d truncated reason = fitsReply enc budget d' truncated reason := by
  cases hr : withBudgetMetadata enc d budget truncated reason with
  | ok r =>
    obtain ⟨r', hr', -, hmeasurement⟩ := withBudgetMetadata_same h hr
    rw [fitsReply_of_ok hr, fitsReply_of_ok hr', hmeasurement]
  | error e =>
    cases hr' : withBudgetMetadata enc d' budget truncated reason with
    | error e' => rw [fitsReply, fitsReply, hr, hr']
    | ok r' =>
      obtain ⟨r, hok, -⟩ := withBudgetMetadata_same h.symm hr'
      exact absurd (hr.symm.trans hok) (by simp)

/-! ### What is measured -/

/-- The own fields of a payload are still there. -/
def Carries (payload d : Dict) : Prop := ∀ k ∉ contractKeys, dictGet k d = dictGet k payload

theorem Carries.set {payload d : Dict} (h : Carries payload d) {k : Text} (hk : k ∈ contractKeys) (v : Json) :
    Carries payload (dictSet k v d) := fun k' hk' => (dictGet_set_contract hk' hk v d).trans (h k' hk')

section
variable {payload : Dict} {P : BudgetMeasurement → Prop}
  (hP : ∀ d m, Carries payload d → measureJsonPayload enc budget d = .ok m → P m)
include hP

theorem settleEstimate_measured {rounds stored : ℕ} {m : BudgetMeasurement} {s : Settled} (hd : Carries payload d) (hm : P m)
    (h : settleEstimate enc budget rounds d stored m = .ok s) : P s.measurement := by
  induction rounds generalizing d stored m with
  | zero =>
    cases Except.ok.inj h
    exact hm
  | succ rounds ih =>
    rw [settleEstimate] at h
    split at h
    · cases Except.ok.inj h
      exact hm
    · obtain ⟨updated, hupdated, h⟩ := bind_eq_ok.mp h
      have hset := hd.set (k := txt "estimated_tokens") (by decide) (natJson m.estimatedTokens)
      exact ih hset (hP _ _ hset hupdated) h

theorem resettleEstimate_measured {rounds stored : ℕ} {m : BudgetMeasurement} {r : Dict × BudgetMeasurement} (hd : Carries payload d)
    (hm : P m) (h : resettleEstimate enc budget rounds d stored m = .ok r) : P r.2 := by
  induction rounds generalizing d stored m with
  | zero =>
    cases Except.ok.inj h
    exact hm
  | succ rounds ih =>
    obtain ⟨updated, hupdated, h⟩ := bind_eq_ok.mp h
    split at h
    · cases Except.ok.inj h
      exact hP _ _ hd hupdated
    · exact ih (hd.set (by decide) _) (hP _ _ hd hupdated) h

/-- What holds of all measurements of documents with these fields holds of that of the reply. -/
theorem reply_measured {truncated : Bool} {reason : Text} {r : Dict × BudgetMeasurement}
    (h : withBudgetMetadata enc payload budget truncated reason = .ok r) : P r.2 := by
  have hcontract : Carries payload (withContract payload budget truncated reason) := fun k hk => dictGet_withContract hk _ _ _ _
  obtain ⟨m, hm, h⟩ := bind_eq_ok.mp h
  obtain ⟨s, hs, h⟩ := bind_eq_ok.mp h
  have hfirst := hP _ _ hcontract hm
  have hsettled := settleEstimate_measured hP hcontract hfirst hs
  split at h
  · cases Except.ok.inj h
    exact hsettled
  · have hresult : Carries payload s.result := fun k hk => (settleEstimate_get hk hs).trans (hcontract k hk)
    refine resettleEstimate_measured hP (fun k hk => ?_) hsettled h
    rw [dictGet_withBudgetExceeded hk]
    exact hresult k hk

end

/-! ### Counting characters -/

theorem length_joinCommas (ts : List Text) : (joinCommas ts).length = (ts.map List.length).sum + (ts.length - 1) := by
  induction ts with
  | nil => rfl
  | cons s ts ih =>
    cases ts with
    | nil => simp [joinCommas, List.intercalate]
    | cons s' ts =>
      have hcomma : (txt ",").length = 1 := rfl
      rw [joinCommas_cons, List.length_append, List.length_append, ih, hcomma]
      simp only [List.map_cons, List.sum_cons, List.length_cons]
      omega

theorem length_le_joinCommas {t : Text} {ts : List Text} (h : t ∈ ts) : t.length ≤ (joinCommas ts).length := by
  obtain ⟨before, after, rfl⟩ := List.append_of_mem h
  rw [length_joinCommas, List.map_append, List.map_cons, List.sum_append, List.sum_cons]
  omega

theorem length_le_renderItems {j : Json} {items : List Json} (h : j ∈ items) : (render j).length ≤ (joinCommas (renderItems items)).length := by
  refine length_le_joinCommas ?_
  induction items with
  | nil => exact absurd h List.not_mem_nil
  | cons j' items ih =>
    rw [renderItems]
    cases List.mem_cons.mp h with
    | inl heq => exact List.mem_cons.mpr (.inl (congrArg render heq))
    | inr hmem => exact List.mem_cons_of_mem _ (ih hmem)

theorem length_render_arr (items : List Json) : (render (.arr items)).length = (joinCommas (renderItems items)).length + 2 := by
  have hopen : (txt "[").length = 1 := rfl
  have hclose : (txt "]").length = 1 := rfl
  rw [render, List.length_append, List.length_append, hopen, hclose]
  omega

/-- A document is longer than each of its fields. -/
theorem length_field_lt {k : Text} {v : Json} {d : Dict} (hd : dictGet k d = some v) :
    (render v).length + 2 ≤ (render (.obj d)).length := by
  have hfield : (k, render v) ∈ renderFields d := by
    rw [renderFields_eq, List.mem_map]
    obtain ⟨f, hf, heq⟩ := Option.map_eq_some_iff.mp hd
    have hkey : f.1 = k := by simpa using List.find?_some hf
    exact ⟨f, List.mem_of_find?_eq_some hf, Prod.ext hkey (congrArg render heq)⟩
  have hjoined := length_le_joinCommas (List.mem_map_of_mem (f := fun f : Text × Text => quoted f.1 ++ (txt ":" ++ f.2))
    ((List.mergeSort_perm (renderFields d) fun f g => textLe f.1 g.1).mem_iff.mpr hfield))
  have hopen : (txt "\x7b").length = 1 := rfl
  have hclose : (txt "\x7d").length = 1 := rfl
  rw [render, List.length_append, List.length_append, hopen, hclose]
  simp only [List.length_append] at hjoined
  omega

/-- A document is longer than each of the items it holds. -/
theorem length_lt_render {k : Text} {j : Json} {items : List Json} {d : Dict} (hd : dictGet k d = some (.arr items)) (h : j ∈ items) :
    (render j).length + 2 ≤ (render (.obj d)).length := by
  have hlonger := length_field_lt hd
  have hitems := length_le_renderItems h
  rw [length_render_arr] at hlonger
  omega

def fieldLength (f : Text × Json) : ℕ := (quoted f.1 ++ (txt ":" ++ render f.2)).length

theorem fieldLength_eq (k : Text) (v : Json) : fieldLength (k, v) = (quoted k).length + 1 + (render v).length := by
  have hcolon : (txt ":").length = 1 := rfl
  rw [fieldLength, List.length_append, List.length_append, hcolon]
  exact (Nat.add_assoc _ _ _).symm

theorem length_render_single (j : Json) : (render (.arr [j])).length = (render j).length + 2 := by
  rw [length_render_arr, renderItems, renderItems, length_joinCommas]
  simp

theorem length_render_fields (d : Dict) : (render (.obj d)).length = 2 + ((d.map fieldLength).sum + (d.length - 1)) := by
  have hopen : (txt "\x7b").length = 1 := rfl
  have hclose : (txt "\x7d").length = 1 := rfl
  have hperm := List.mergeSort_perm (renderFields d) fun f g => textLe f.1 g.1
  have hsum : (((renderFields d).mergeSort fun f g => textLe f.1 g.1).map
      (List.length ∘ fun f => quoted f.1 ++ (txt ":" ++ f.2))).sum = (d.map fieldLength).sum := by
    refine (hperm.map _).sum_nat.trans ?_
    rw [renderFields_eq, List.map_map]
    rfl
  rw [render, List.length_append, List.length_append, length_joinCommas, List.map_map, List.length_map, hsum, hperm.length_eq,
    renderFields_eq, List.length_map, hopen, hclose]
  omega

/-- Another field makes a document longer. -/
theorem length_render_append (d : Dict) (f : Text × Json) : (render (.obj d)).length ≤ (render (.obj (d ++ [f]))).length := by
  rw [length_render_fields, length_render_fields, List.map_append, List.sum_append, List.length_append]
  omega

theorem length_render_obj (d : Dict) : 2 ≤ (render (.obj d)).length := by
  have hopen : (txt "\x7b").length = 1 := rfl
  have hclose : (txt "\x7d").length = 1 := rfl
  rw [render, List.length_append, List.length_append, hopen, hclose]
  omega

theorem stopReason_benign {m : BudgetMeasurement} {t : Text} (h : m.stopReason = some t) : isBenign t = true := by
  have hall : isBenign (txt "byte_and_token_budget") = true ∧ isBenign (txt "byte_budget") = true ∧ isBenign (txt "token_budget") = true := by
    decide
  rw [BudgetMeasurement.stopReason] at h
  split at h
  · exact Option.some.inj h ▸ hall.1
  · split at h
    · exact Option.some.inj h ▸ hall.2.1
    · split at h
      · exact Option.some.inj h ▸ hall.2.2
      · exact absurd h.symm (Option.some_ne_none t)

/-- A document that is no longer than the budget fits. -/
theorem fits_of_length {m : BudgetMeasurement} (hlength : (render (.obj d)).length ≤ budget.maxTokens) (hbytes : budget.maxBytes = none)
    (h : measureJsonPayload perCharacter budget d = .ok m) : m.fits = true := (measure_fits_iff hbytes h).mpr hlength

theorem tokens_of_measured {enc : TokenEncoding} {m : BudgetMeasurement} (h : measureJsonPayload enc budget d = .ok m) :
    m.estimatedTokens = enc.tokensOf (render (.obj d)) := (measure_eq_ok h).2.1

/-- Where each character is a token, the estimate is the length. -/
theorem estimated_of_measure {m : BudgetMeasurement} (h : measureJsonPayload perCharacter budget d = .ok m) :
    m.estimatedTokens = (render (.obj d)).length := tokens_of_measured h

theorem length_decimal_le (n : ℕ) : (decimal n).length ≤ n / 2 + 1 := by
  rw [decimal, List.length_map]
  refine (Nat.length_toDigits_le_iff (by decide) (Nat.succ_pos _)).mpr ?_
  have hhalf : n < 2 * (n / 2 + 1) := by omega
  calc n < 2 * (n / 2 + 1) := hhalf
    _ < 2 ^ (2 * (n / 2 + 1)) := Nat.lt_pow_self (by decide)
    _ = 4 ^ (n / 2 + 1) := Nat.pow_mul 2 2 _
    _ ≤ 10 ^ (n / 2 + 1) := Nat.pow_le_pow_left (by decide) _

theorem sum_dictPop_le (k : Text) (d : Dict) : ((dictPop k d).map fieldLength).sum ≤ (d.map fieldLength).sum := by
  induction d with
  | nil => exact Nat.le_refl 0
  | cons f d ih =>
    rw [dictPop] at ih ⊢
    rw [List.filter_cons, List.map_cons, List.sum_cons]
    split
    · rw [List.map_cons, List.sum_cons]
      omega
    · omega

theorem length_natJson (n : ℕ) : (render (natJson n)).length = (decimal n).length := by
  have hdecimal : integer n = decimal n := rfl
  rw [natJson, render, hdecimal]

/-- Setting a key is printed as adding it at the end, once it is no longer there. -/
theorem render_set {k : Text} {v : Json} (h : (keys d).Nodup) :
    render (.obj (dictSet k v d)) = render (.obj (dictPop k d ++ [(k, v)])) := by
  have hpop : k ∉ keys (dictPop k d) := fun hk => by
    obtain ⟨f, hf, rfl⟩ := List.mem_map.mp hk
    simpa using (List.mem_filter.mp hf).2
  have hnodup : (keys (dictPop k d ++ [(k, v)])).Nodup := by
    rw [keys, List.map_append]
    refine List.nodup_append.mpr ⟨nodup_dictPop h, List.nodup_singleton k, fun a ha b hb => ?_⟩
    cases List.mem_singleton.mp hb
    intro heq
    have heq : a = k := heq
    exact hpop (heq ▸ ha)
  refine render_same ⟨nodup_dictSet h, hnodup, fun k' _ => ?_⟩
  by_cases hk : k' = k
  · have hlast : (k, v) ∈ dictPop k d ++ [(k, v)] := List.mem_append_right _ (List.mem_singleton.mpr rfl)
    rw [hk, dictGet_dictSet_self, (mem_iff_dictGet hnodup k v).mp hlast]
  · rw [dictGet_dictSet_of_ne hk, ← dictGet_dictPop_of_ne hk]
    simp [dictGet, List.find?_append, Ne.symm hk]

theorem length_render_set_eq {k : Text} {v : Json} (h : (keys d).Nodup) : (render (.obj (dictSet k v d))).length =
    2 + ((dictPop k d).map fieldLength).sum + (dictPop k d).length + fieldLength (k, v) := by
  rw [render_set h, length_render_fields, List.map_append, List.sum_append, List.length_append]
  simp only [List.map_cons, List.map_nil, List.sum_cons, List.sum_nil, List.length_singleton]
  omega

/-- Setting a key adds a field at most. -/
theorem length_render_set {k : Text} {v : Json} (h : (keys d).Nodup) :
    (render (.obj (dictSet k v d))).length ≤ (render (.obj d)).length + (fieldLength (k, v) + 1) := by
  have hfewer : (dictPop k d).length ≤ d.length := List.length_filter_le _ _
  have hsum := sum_dictPop_le k d
  rw [length_render_set_eq h, length_render_fields]
  omega

section
variable {room : ℕ} (hroom : 2 * (room + 21) ≤ budget.maxTokens) (hbytes : budget.maxBytes = none)
include hroom hbytes

theorem settleEstimate_fits {rounds stored : ℕ} {m : BudgetMeasurement} {s : Settled} {D : Dict}
    (hlength : (render (.obj D)).length ≤ room) (hd : SameOutside [txt "estimated_tokens"] d D) (hm : m.fits = true)
    (hestimate : m.estimatedTokens ≤ 2 * (room + 21)) (h : settleEstimate perCharacter budget rounds d stored m = .ok s) :
    s.measurement.fits = true := by
  induction rounds generalizing d stored m with
  | zero =>
    cases Except.ok.inj h
    exact hm
  | succ rounds ih =>
    rw [settleEstimate] at h
    split at h
    · cases Except.ok.inj h
      exact hm
    · obtain ⟨updated, hupdated, h⟩ := bind_eq_ok.mp h
      have hdigits := length_decimal_le m.estimatedTokens
      have hfield : fieldLength (txt "estimated_tokens", natJson m.estimatedTokens) = 19 + (decimal m.estimatedTokens).length := by
        rw [fieldLength_eq, length_natJson]
        rfl
      have hset := length_render_set (k := txt "estimated_tokens") (v := natJson m.estimatedTokens) hd.right
      rw [← render_same (hd.set _), hfield] at hset
      have hnow := estimated_of_measure hupdated
      have hmoved : SameOutside [txt "estimated_tokens"] (dictSet (txt "estimated_tokens") (natJson m.estimatedTokens) d) D := by
        refine ⟨nodup_dictSet hd.left, hd.right, fun k hk => ?_⟩
        rw [dictGet_dictSet_of_ne fun heq : k = txt "estimated_tokens" => hk (List.mem_singleton.mpr heq)]
        exact hd.get k hk
      exact ih hmoved (fits_of_length (by omega) hbytes hupdated) (by omega) h

/-- A reply fits in a budget that has twice the room for it. -/
theorem fits_of_room {payload : Dict} {truncated : Bool} {reason : Text} (hkeys : (keys payload).Nodup) (hclean : CleanPayload payload)
    (hreason : Measurable reason) (hlength : (render (.obj (withContract payload budget truncated reason))).length ≤ room) :
    fitsReply perCharacter budget payload truncated reason = true := by
  have hsame : SameOutside [] (withContract payload budget truncated reason) (withContract payload budget truncated reason) :=
    withContract_same (SameOutside.refl hkeys) truncated reason
  obtain ⟨r, hr⟩ := (withBudgetMetadata_returns_iff perCharacter payload budget truncated reason).mpr ⟨hclean, hreason⟩
  rw [fitsReply_of_ok hr]
  obtain ⟨m, hm, hr⟩ := bind_eq_ok.mp hr
  obtain ⟨s, hs, hr⟩ := bind_eq_ok.mp hr
  have hfirst := estimated_of_measure hm
  have hfits := settleEstimate_fits hroom hbytes hlength (hsame.mono fun _ hmem => absurd hmem List.not_mem_nil)
    (fits_of_length (by omega) hbytes hm) (by omega) hs
  rw [if_pos hfits] at hr
  cases Except.ok.inj hr
  exact hfits

end

/-- Where each character is a token, no reply fits whose documents are all longer than the budget. -/
theorem not_fits_of_longer {payload : Dict} {truncated : Bool} {reason : Text}
    (hlong : ∀ d, Carries payload d → (budget.maxTokens : ℕ) < (render (.obj d)).length) :
    fitsReply perCharacter budget payload truncated reason = false := by
  have hmeasured : ∀ d m, Carries payload d → measureJsonPayload perCharacter budget d = .ok m → m.fits = false := by
    intro d m hd h
    have hexceeds : m.exceedsTokenBudget = true := (measure_eq_ok h).2.2.trans (decide_eq_true (hlong d hd))
    rw [BudgetMeasurement.fits, hexceeds]
    exact Bool.and_false _
  rw [fitsReply]
  split
  · next r hr => exact reply_measured hmeasured hr
  · rfl

theorem measured_of_cheap (hcheap : ∀ t, enc.tokensOf t ≤ budget.maxTokens) (hbytes : budget.maxBytes = none) {m : BudgetMeasurement}
    (h : measureJsonPayload enc budget d = .ok m) : m.fits = true := (measure_fits_iff hbytes h).mpr (hcheap _)

/-- Where every text is within the token budget, all replies fit. -/
theorem fits_of_cheap {payload : Dict} {truncated : Bool} {reason : Text} (hcheap : ∀ t, enc.tokensOf t ≤ budget.maxTokens)
    (hbytes : budget.maxBytes = none) (hclean : CleanPayload payload) (hreason : Measurable reason) :
    fitsReply enc budget payload truncated reason = true := by
  have hmeasured : ∀ d m, Carries payload d → measureJsonPayload enc budget d = .ok m → m.fits = true := fun _ _ _ h =>
    measured_of_cheap hcheap hbytes h
  obtain ⟨r, hr⟩ := (withBudgetMetadata_returns_iff enc payload budget truncated reason).mpr ⟨hclean, hreason⟩
  have hfits : r.2.fits = true := reply_measured hmeasured hr
  rw [fitsReply_of_ok hr, hfits]

/-- A budget of one token: no document is that short. -/
def oneToken : Budget := { maxTokens := ⟨1, Nat.one_pos⟩ }

theorem not_fits_oneToken {payload : Dict} {truncated : Bool} {reason : Text} :
    fitsReply perCharacter oneToken payload truncated reason = false :=
  not_fits_of_longer fun d _ => length_render_obj d

/-- A reply has the own fields of its payload. -/
theorem reply_same {truncated : Bool} {reason : Text} {r : Dict × BudgetMeasurement} (h : (keys d).Nodup)
    (hr : withBudgetMetadata enc d budget truncated reason = .ok r) : SameOutside contractKeys r.1 d := by
  obtain ⟨r', -, hsame, -⟩ := withBudgetMetadata_same (SameOutside.refl h) hr
  exact ⟨hsame.left, h, fun k hk => withBudgetMetadata_get hk hr⟩

theorem cleanExcept_same {ks : List Text} (h : SameOutside ks d d') : CleanExcept ks d ↔ CleanExcept ks d' := by
  have hone : ∀ {d d' : Dict}, SameOutside ks d d' → CleanExcept ks d' → CleanExcept ks d := by
    intro d d' h hclean f hf hk
    obtain ⟨k, v⟩ := f
    exact hclean (k, v) ((mem_iff_dictGet h.right k v).mpr ((h.get k hk).symm.trans ((mem_iff_dictGet h.left k v).mp hf))) hk
  exact ⟨hone h.symm, hone h⟩

/-! ## What a reply says of itself -/

def truncatedOf (d : Dict) : Bool :=
  match dictGet (txt "truncated") d with
  | some (.bool b) => b
  | _ => false

def stopReasonOf (d : Dict) : Text :=
  match dictGet (txt "stop_reason") d with
  | some (.str t) => t
  | _ => txt "end_of_results"

def metadataExceeds : Text := txt "response_metadata_exceeds_budget"

theorem settleEstimate_flag {k : Text} (hk : k ≠ txt "estimated_tokens") {rounds stored : ℕ} {m : BudgetMeasurement} {s : Settled}
    (h : settleEstimate enc budget rounds d stored m = .ok s) : dictGet k s.result = dictGet k d := by
  induction rounds generalizing d stored m with
  | zero =>
    cases Except.ok.inj h
    rfl
  | succ rounds ih =>
    rw [settleEstimate] at h
    split at h
    · cases Except.ok.inj h
      rfl
    · obtain ⟨updated, -, h⟩ := bind_eq_ok.mp h
      rw [ih h, dictGet_dictSet_of_ne hk]

theorem resettleEstimate_flag {k : Text} (hk : k ≠ txt "estimated_tokens") {rounds stored : ℕ} {m : BudgetMeasurement}
    {r : Dict × BudgetMeasurement} (h : resettleEstimate enc budget rounds d stored m = .ok r) : dictGet k r.1 = dictGet k d := by
  induction rounds generalizing d stored m with
  | zero =>
    cases Except.ok.inj h
    rfl
  | succ rounds ih =>
    obtain ⟨updated, -, h⟩ := bind_eq_ok.mp h
    split at h
    · cases Except.ok.inj h
      rfl
    · rw [ih h, dictGet_dictSet_of_ne hk]

/-- A reply is flagged as its payload is, or as truncated because it does not fit. -/
theorem reply_flags {truncated : Bool} {reason : Text} {r : Dict × BudgetMeasurement}
    (hr : withBudgetMetadata enc d budget truncated reason = .ok r) :
    truncatedOf r.1 = truncated ∧ stopReasonOf r.1 = reason ∨
      truncatedOf r.1 = true ∧ stopReasonOf r.1 = if truncated then reason else metadataExceeds := by
  obtain ⟨m, -, hr⟩ := bind_eq_ok.mp hr
  obtain ⟨s, hs, hr⟩ := bind_eq_ok.mp hr
  have htruncated : dictGet (txt "truncated") s.result = some (.bool truncated) := by
    rw [settleEstimate_flag (by decide) hs, withContract, dictGet_dictSet_of_ne (by decide), dictGet_dictSet_of_ne (by decide),
      dictGet_dictSet_of_ne (by decide), dictGet_dictSet_self]
  have hreason : dictGet (txt "stop_reason") s.result = some (.str reason) := by
    rw [settleEstimate_flag (by decide) hs, withContract, dictGet_dictSet_of_ne (by decide), dictGet_dictSet_of_ne (by decide),
      dictGet_dictSet_self]
  split at hr
  · cases Except.ok.inj hr
    rw [truncatedOf, stopReasonOf, htruncated, hreason]
    exact .inl ⟨rfl, rfl⟩
  · refine .inr ?_
    have hflag : dictGet (txt "truncated") r.1 = some (.bool true) := by
      rw [resettleEstimate_flag (by decide) hr, withBudgetExceeded]
      cases truncated with
      | true =>
        rw [if_pos rfl, dictGet_dictSet_of_ne (by decide), dictGet_dictSet_self]
      | false =>
        rw [if_neg Bool.false_ne_true, dictGet_dictSet_of_ne (by decide), dictGet_dictSet_of_ne (by decide), dictGet_dictSet_self]
    have hstop : dictGet (txt "stop_reason") r.1 = some (.str (if truncated then reason else metadataExceeds)) := by
      rw [resettleEstimate_flag (by decide) hr, withBudgetExceeded]
      cases truncated with
      | true =>
        rw [if_pos rfl, if_pos rfl, dictGet_dictSet_of_ne (by decide), dictGet_dictSet_of_ne (by decide),
          dictGet_dictSet_of_ne (by decide), dictGet_dictSet_of_ne (by decide)]
        exact hreason
      | false =>
        rw [if_neg Bool.false_ne_true, if_neg Bool.false_ne_true, dictGet_dictSet_of_ne (by decide), dictGet_dictSet_self]
        rfl
    rw [truncatedOf, stopReasonOf, hflag, hstop]
    exact ⟨rfl, rfl⟩

/-! ## Shedding items from the end -/

/-- A payload with some items and an offset to go on at. -/
def pageOf (key : Text) (base : Dict) (items : List Json) (next : Json) : Dict :=
  dictSet (txt "next_offset") next (dictSet key (.arr items) base)

/-- While the reply does not fit, one item less is shown. -/
def shedItems (enc : TokenEncoding) (budget : Budget) (key : Text) (offset : ℕ) (items : List Json) :
    ℕ → Dict × BudgetMeasurement → Except Raised Dict
  | 0, r => pure r.1
  | kept + 1, r =>
    if r.2.fits then pure r.1
    else do
      let shorter ← withBudgetMetadata enc (pageOf key r.1 (items.take kept) (natJson (offset + kept))) budget true (txt "token_budget")
      shedItems enc budget key offset items kept shorter

variable {key : Text}

theorem pageOf_same {r base : Dict} (h : SameOutside (key :: txt "next_offset" :: contractKeys) r base) (items : List Json) (next : Json) :
    SameOutside contractKeys (pageOf key r items next) (pageOf key base items next) := (h.set _).set _

theorem pageOf_base {base : Dict} (h : (keys base).Nodup) (items : List Json) (next : Json) :
    SameOutside (key :: txt "next_offset" :: contractKeys) (pageOf key base items next) base := by
  refine ⟨nodup_dictSet (nodup_dictSet h), h, fun k hk => ?_⟩
  rw [List.mem_cons, List.mem_cons, not_or, not_or] at hk
  rw [pageOf, dictGet_dictSet_of_ne hk.2.1, dictGet_dictSet_of_ne hk.1]

theorem nextOffsetOf_pageOf (base : Dict) (items : List Json) (next : Json) : nextOffsetOf (pageOf key base items next) = countOf next := by
  rw [nextOffsetOf, pageOf, dictGet_dictSet_self]
  rfl

/-- What is left out does not keep a reply from being rendered. -/
theorem shedItems_returns {offset n : ℕ} {items : List Json} {r : Dict × BudgetMeasurement} (hbenign : isBenign key = true)
    (hr : CleanExcept [] r.1) (hitems : ∀ j ∈ items, CleanJson j) : ∃ d, shedItems enc budget key offset items n r = .ok d := by
  induction n generalizing r with
  | zero => exact ⟨_, rfl⟩
  | succ n ih =>
    by_cases hfits : r.2.fits = true
    · exact ⟨r.1, if_pos hfits⟩
    · have hshown : CleanField (key, .arr (items.take n)) :=
        cleanField_of hbenign (cleanJson_arr.mpr fun j hj => hitems j (List.mem_of_mem_take hj))
      have hpage : CleanPayload (pageOf key r.1 (items.take n) (natJson (offset + n))) :=
        cleanExcept_mono (fun _ hmem => absurd hmem List.not_mem_nil) (clean_set (cleanField_nat (by decide)) (clean_set hshown hr))
      have hreason : Measurable (txt "token_budget") := measurable_of_isBenign (by decide)
      have hreply : Returns (withBudgetMetadata enc (pageOf key r.1 (items.take n) (natJson (offset + n))) budget true (txt "token_budget"))
          fun s => CleanExcept [] s.1 := withBudgetMetadata_returns hpage hreason
      obtain ⟨shorter, hshorter, hclean⟩ := hreply
      obtain ⟨d, hd⟩ := ih hclean
      exact ⟨d, (if_neg hfits).trans (bind_eq_ok.mpr ⟨shorter, hshorter, hd⟩)⟩

section
variable (hkey : key ∉ txt "next_offset" :: contractKeys)
include hkey

theorem shownItems_pageOf (base : Dict) (items : List Json) (next : Json) : shownItems key (pageOf key base items next) = items := by
  rw [List.mem_cons, not_or] at hkey
  rw [shownItems, pageOf, dictGet_dictSet_of_ne hkey.1, dictGet_dictSet_self]
  rfl

theorem shedItems_spec {offset n : ℕ} {items : List Json} {base d : Dict} {r : Dict × BudgetMeasurement} (hn : n ≤ items.length)
    (hr : SameOutside (key :: txt "next_offset" :: contractKeys) r.1 base) (hshown : shownItems key r.1 = items.take n)
    (h : shedItems enc budget key offset items n r = .ok d) : ∃ k,
      Shed (r.2.fits = true)
        (fun j => fitsReply enc budget (pageOf key base (items.take j) (natJson (offset + j))) true (txt "token_budget") = true) n k ∧
      shownItems key d = items.take k ∧ (k = n → d = r.1) ∧ (k < n → nextOffsetOf d = some (offset + k) ∧ truncatedOf d = true) := by
  induction n generalizing r with
  | zero =>
    cases Except.ok.inj h
    exact ⟨0, shed_zero, hshown, fun _ => rfl, fun hlt => absurd hlt (Nat.not_lt_zero 0)⟩
  | succ n ih =>
    rw [shedItems] at h
    split at h
    · next hfits =>
      cases Except.ok.inj h
      exact ⟨n + 1, shed_all hfits, hshown, fun _ => rfl, fun hlt => absurd hlt (Nat.lt_irrefl _)⟩
    · next hfits =>
      obtain ⟨shorter, hshorter, h⟩ := bind_eq_ok.mp h
      have hpage := pageOf_same hr (items.take n) (natJson (offset + n))
      have hsame := reply_same hpage.left hshorter
      have hnot : key ∉ contractKeys := fun hmem => hkey (List.mem_cons_of_mem _ hmem)
      have hitems : shownItems key shorter.1 = items.take n := (shownItems_reply hnot hshorter).trans (shownItems_pageOf hkey _ _ _)
      have hbase : SameOutside (key :: txt "next_offset" :: contractKeys) shorter.1 base := by
        refine ((hsame.trans hpage).mono fun k hk => ?_).trans (pageOf_base hr.right _ _)
        exact List.mem_cons_of_mem _ (List.mem_cons_of_mem _ hk)
      obtain ⟨k, hshed, hd, hall, hless⟩ := ih (Nat.le_of_succ_le hn) hbase hitems h
      have hwhole : (shorter.2.fits = true) =
          (fitsReply enc budget (pageOf key base (items.take n) (natJson (offset + n))) true (txt "token_budget") = true) := by
        rw [← fitsReply_same hpage, fitsReply_of_ok hshorter]
      rw [hwhole] at hshed
      refine ⟨k, hshed.step hfits, hd, fun heq => absurd heq (by have := hshed.le; omega), fun _ => ?_⟩
      by_cases hk : k = n
      · have hshort := hall hk
        have hnext := (nextOffsetOf_reply hshorter).trans (nextOffsetOf_pageOf _ _ _)
        rw [hshort, hk, hnext]
        exact ⟨rfl, (reply_flags hshorter).elim (fun hflag => hflag.1) fun hflag => hflag.1⟩
      · exact hless (by have := hshed.le; omega)

end

end WebOauthMcp.ReplyFields
