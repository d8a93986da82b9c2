import WebOauthMcp.OauthFamilies

/-!
# Access tokens of a grant

Reuse detection empties the refresh table of the grant and leaves the access table as it
is, so an access token of the grant stays valid exactly when it could be used at that time.
-/

namespace WebOauthMcp.OauthGrants
open CodePoints Tables Words OauthStore OauthOperations OauthSteps OauthRuns OauthCodes OauthFamilies

variable {cfg : OauthConfig} {rt : OauthRuntime} {env : OauthEnv} {request : Request} {s : Store}
variable {o : Outcome Reply} {token baseUrl : Text}

/-- The row of an access token does not let it be used. -/
def Unusable (cfg : OauthConfig) (baseUrl : Text) (now : ℤ) (row : Option TokenRecord) : Prop :=
  ∀ record, row = some record → record.expiresAt < now ∨ record.resource ≠ cfg.resourceUrl baseUrl ∨
    ∃ w ∈ cfg.scopes, w ∉ words record.scope

/-- From now on the token is never verified, whatever calls come between, unless one of
them draws it again. -/
def NeverVerified (cfg : OauthConfig) (rt : OauthRuntime) (token baseUrl : Text) (now : ℤ) (s : Store) : Prop :=
  ∀ later env, (∀ c ∈ later, accessTokenDrawn c.env ≠ token) → now ≤ env.clock 0 →
    (verifyAccessToken cfg env token baseUrl (storeAfter cfg rt later s)).result = .ok false

/-- The call replied with this access token, for the grant of this family. -/
def GrantAccess (cfg : OauthConfig) (rt : OauthRuntime) (m : Moment) (token family : Text) : Prop :=
  ∃ reply, (m.outcome cfg rt).result = .ok (.tokens reply) ∧ reply.accessToken = token ∧
    IssuedIn cfg rt m reply.refreshToken family

/-- After these calls a call detects the reuse of a token of the family. -/
structure Detects (cfg : OauthConfig) (rt : OauthRuntime) (earlier : List Call) (call : Call) (family : Text) :
    Prop where
  result : (runCall cfg rt call (storeAfter cfg rt earlier .empty)).result = .error (.valueError .reuseDetected)
  presented : ∃ hash record, presentsToken rt hash call.request = true ∧
    (storeAfter cfg rt earlier .empty).refreshTokens.lookup hash = some record ∧ record.familyId = family

/-! ## Verification -/

theorem dropToken_encodable (hs : s.isEncodable = true) (token : Text) : (dropToken s token).isEncodable = true := by
  rw [storeEncodable_iff] at hs ⊢
  refine ⟨hs.1, hs.2.1, ?_, hs.2.2.2⟩
  intro k r hk
  exact hs.2.2.1 k r ((lookup_erase_iff _ _ _ _).mp hk).2

/-- A token is refused exactly when its row does not let it be used. -/
theorem verify_false_iff (hs : Valid rt s) (htoken : token ≠ []) :
    (verifyAccessToken cfg env token baseUrl s).result = .ok false ↔
      Unusable cfg baseUrl (env.clock 0) (s.tokens.lookup token) := by
  simp only [verifyAccessToken]
  rw [if_neg (by simpa using htoken)]
  cases hlookup : s.tokens.lookup token with
  | none => simp [Unusable]
  | some record =>
    simp only [Unusable, Option.some.injEq, forall_eq']
    by_cases hexpired : record.expiresAt < env.clock 0
    · have hwrite : writeStore (dropToken s token) (.ok false) = ⟨some (dropToken s token), .ok false⟩ :=
        if_pos (dropToken_encodable hs.encodable token)
      simp only [dropToken] at hwrite
      simp [hexpired, hwrite]
    by_cases hother : record.resource ≠ cfg.resourceUrl baseUrl
    · simp [hexpired, hother]
    · simp [hexpired, hother]

/-- The answer depends on the row of the token alone. -/
theorem verify_result_congr {s' : Store} (hs : Valid rt s) (hs' : Valid rt s') (hsame : s'.tokens = s.tokens) :
    (verifyAccessToken cfg env token baseUrl s').result = (verifyAccessToken cfg env token baseUrl s).result := by
  simp only [verifyAccessToken, hsame]
  cases s.tokens.lookup token with
  | none => rfl
  | some record =>
    have hwrite : ∀ t : Store, Valid rt t → (writeStore (dropToken t token) (.ok false)).result = .ok false := by
      intro t ht
      rw [writeStore, if_pos (dropToken_encodable ht.encodable token)]
    have h := hwrite s hs
    have h' := hwrite s' hs'
    simp only [dropToken, hsame] at h h'
    simp only
    split_ifs
    · rfl
    · rw [h, h']
    · rfl
    · rfl

/-! ## Runs -/

/-- A call that ends in an error leaves the access tokens. -/
theorem error_keeps_tokens (h : Step cfg rt env request s o) {e : OauthError} (he : o.result = .error e) :
    (o.after s).tokens = s.tokens := by
  cases h with
  | exchanged => exact absurd he (by simp)
  | refreshed => exact absurd he (by simp)
  | expired => exact absurd he (by simp)
  | _ => rfl

/-- A row stays as it is or goes, while no call draws its token again. -/
theorem row_kept {later : List Call} (hdraws : ∀ c ∈ later, accessTokenDrawn c.env ≠ token) {record : TokenRecord}
    (h : (storeAfter cfg rt later s).tokens.lookup token = some record) : s.tokens.lookup token = some record := by
  induction later generalizing s with
  | nil => exact h
  | cons call later ih =>
    have hafter := ih (fun c hc => hdraws c (List.mem_cons_of_mem call hc)) h
    cases token_origin (perform_step cfg rt call.env call.request s) hafter with
    | inl hold => exact hold
    | inr hnew =>
      obtain ⟨_, _, _, _, hdrawn, _⟩ := hnew
      exact absurd hdrawn.symm (hdraws call (by simp))

theorem Unusable.mono {now later : ℤ} {row : Option TokenRecord} (h : Unusable cfg baseUrl now row)
    (hle : now ≤ later) : Unusable cfg baseUrl later row := by
  intro record hrecord
  cases h record hrecord with
  | inl hexpired => exact Or.inl (lt_of_lt_of_le hexpired hle)
  | inr hrest => exact Or.inr hrest

/-- A token is never verified again exactly when its row does not let it be used now. -/
theorem neverVerified_iff (hs : Reachable cfg rt s) (htoken : token ≠ []) {now : ℤ} :
    NeverVerified cfg rt token baseUrl now s ↔ Unusable cfg baseUrl now (s.tokens.lookup token) := by
  constructor
  · intro h
    have hnow := h [] ⟨fun _ => now, fun _ => [], fun _ => rfl⟩ (by simp) le_rfl
    exact (verify_false_iff (reachable_valid hs) htoken).mp hnow
  · intro h later env hdraws hle
    obtain ⟨calls, rfl⟩ := hs
    have hlater : Valid rt (storeAfter cfg rt later (storeAfter cfg rt calls .empty)) := by
      rw [← storeAfter_append]
      exact reachable_valid ⟨calls ++ later, rfl⟩
    rw [verify_false_iff hlater htoken]
    intro record hrecord
    exact h.mono hle record (row_kept hdraws hrecord)

theorem grantAccess_ne_nil {m : Moment} {family : Text} (h : GrantAccess cfg rt m token family) : token ≠ [] := by
  obtain ⟨reply, hresult, rfl, -⟩ := h
  obtain ⟨_, g, -, hreply, -⟩ := tokens_reply (moment_step cfg rt m) hresult
  obtain rfl := Reply.tokens.inj hreply
  simp [accessTokenDrawn, txt]

/-- After reuse detection an access token of the grant is refused from then on exactly when
its row did not let it be used before; the answers to access tokens of other grants stay. -/
theorem reuse_revokes_access_iff (cfg : OauthConfig) (rt : OauthRuntime) (earlier : List Call) (call : Call)
    (family : Text) (h : Detects cfg rt earlier call family) :
    (∀ m ∈ moments cfg rt earlier .empty, ∀ token, GrantAccess cfg rt m token family → ∀ baseUrl,
      (NeverVerified cfg rt token baseUrl (call.env.clock 0) (storeAfter cfg rt (earlier ++ [call]) .empty) ↔
        Unusable cfg baseUrl (call.env.clock 0) ((storeAfter cfg rt earlier .empty).tokens.lookup token))) ∧
    ∀ m ∈ moments cfg rt earlier .empty, ∀ token family', GrantAccess cfg rt m token family' → family' ≠ family →
      ∀ env baseUrl, (verifyAccessToken cfg env token baseUrl (storeAfter cfg rt (earlier ++ [call]) .empty)).result =
        (verifyAccessToken cfg env token baseUrl (storeAfter cfg rt earlier .empty)).result := by
  have htokens : (storeAfter cfg rt (earlier ++ [call]) .empty).tokens = (storeAfter cfg rt earlier .empty).tokens := by
    rw [storeAfter_snoc]
    exact error_keeps_tokens (moment_step cfg rt _) h.result
  refine ⟨?_, ?_⟩
  · intro m _ token haccess baseUrl
    rw [neverVerified_iff ⟨_, rfl⟩ (grantAccess_ne_nil haccess), htokens]
  · intro m _ token family' _ _ env baseUrl
    exact verify_result_congr (reachable_valid ⟨_, rfl⟩) (reachable_valid ⟨_, rfl⟩) htokens

/-! ## The access token of a revoked grant -/

theorem sample_detects : Detects sampleConfig sampleRuntime sampleGrantCalls (sampleReplay 100 none) (txt "rtf_a1") where
  result := by decide +kernel
  presented := ⟨sampleHash, sampleRotated, by decide +kernel, by decide +kernel, rfl⟩

/-- The call that refreshed the grant, with the store it found. -/
def sampleRefreshed : Moment where
  call := sampleRefresh 20 (txt "a2") (txt "mcp_rt_a1") none
  before := storeAfter sampleConfig sampleRuntime
    [sampleRegister, sampleAuthorize, sampleExchange (txt "verifier")] .empty

theorem sample_access : GrantAccess sampleConfig sampleRuntime sampleRefreshed (txt "mcp_at_a2") (txt "rtf_a1") :=
  ⟨⟨txt "mcp_at_a2", 3600, defaultScope, txt "mcp_rt_a2"⟩, by decide +kernel, rfl,
    ⟨txt "mcp_at_a2", 3600, defaultScope, txt "mcp_rt_a2"⟩,
    txt "3ad3159dcf7f43734a72ac1487d2b6829ff1ea5bdc132907abf323fa49e15683",
    { sampleRotated with createdAt := 20, expiresAt := 15552020, rotatedAt := none },
    by decide +kernel, rfl, by decide +kernel, by decide +kernel, rfl⟩

theorem reuse_revokes_access_iff_sample :
    NeverVerified sampleConfig sampleRuntime (txt "mcp_at_a2") sampleBase 100
        (storeAfter sampleConfig sampleRuntime (sampleGrantCalls ++ [sampleReplay 100 none]) .empty) ↔
      Unusable sampleConfig sampleBase 100
        ((storeAfter sampleConfig sampleRuntime sampleGrantCalls .empty).tokens.lookup (txt "mcp_at_a2")) :=
  (reuse_revokes_access_iff sampleConfig sampleRuntime sampleGrantCalls (sampleReplay 100 none) (txt "rtf_a1")
    sample_detects).1 sampleRefreshed (by simp [moments, sampleGrantCalls, sampleRefreshed, storeAfter])
    (txt "mcp_at_a2") sample_access sampleBase

/-- After the grant was revoked its access token is still accepted. -/
theorem revoked_grant_keeps_access :
    Detects sampleConfig sampleRuntime sampleGrantCalls (sampleReplay 100 none) (txt "rtf_a1") ∧
    sampleRefreshed ∈ moments sampleConfig sampleRuntime sampleGrantCalls .empty ∧
    GrantAccess sampleConfig sampleRuntime sampleRefreshed (txt "mcp_at_a2") (txt "rtf_a1") ∧
    (verifyAccessToken sampleConfig (sampleReplay 100 none).env (txt "mcp_at_a2") sampleBase
      (storeAfter sampleConfig sampleRuntime (sampleGrantCalls ++ [sampleReplay 100 none]) .empty)).result =
      .ok true :=
  ⟨sample_detects, by simp [moments, sampleGrantCalls, sampleRefreshed, storeAfter], sample_access, by decide +kernel⟩

end WebOauthMcp.OauthGrants
