import WebOauthMcp.OauthGrants
import WebOauthMcp.OauthProvenance

/-!
# When an issued access token can be used

Authorization and refresh accept any subset of the configured scopes, verification demands
all of them. What decides about an access token is fixed when it is issued: its row stays
as it is until it expires.
-/

namespace WebOauthMcp.OauthUsability
open CodePoints Tables Words OauthStore OauthOperations OauthSteps OauthRuns OauthCodes OauthFamilies OauthProvenance OauthGrants

variable {cfg : OauthConfig} {rt : OauthRuntime} {env : OauthEnv} {request : Request} {s : Store}
variable {o : Outcome Reply} {token baseUrl : Text}

/-- Every configured scope is named. -/
def Covers (cfg : OauthConfig) (named : List Text) : Prop := ∀ w ∈ cfg.scopes, w ∈ named

def requestBase : Request → Text
  | .register _ => []
  | .authorize baseUrl _ => baseUrl
  | .exchange baseUrl _ => baseUrl
  | .refresh baseUrl _ => baseUrl
  | .verify _ baseUrl => baseUrl

/-- The reading of the clock from which the lifetime of an access token counts. -/
def issueTime (call : Call) : ℤ :=
  match call.request with
  | .exchange _ req => if req.grantType = some (txt "refresh_token") then call.env.clock 0 else call.env.clock 1
  | _ => call.env.clock 0

/-- Up to the expiry the token is verified, whatever calls come between, unless one of them
draws it again. -/
def UsableUntil (cfg : OauthConfig) (rt : OauthRuntime) (token baseUrl : Text) (expiry : ℤ) (s : Store) : Prop :=
  ∀ later env, (∀ c ∈ later, accessTokenDrawn c.env ≠ token ∧ c.env.clock 0 ≤ expiry) → env.clock 0 ≤ expiry →
    (verifyAccessToken cfg env token baseUrl (storeAfter cfg rt later s)).result = .ok true

/-- The request is granted all configured scopes, for the resource that is served. -/
inductive FullGrant (cfg : OauthConfig) (rt : OauthRuntime) (s : Store) (request : Request) : Prop
  | exchanged (baseUrl : Text) (req : TokenRequest) (record : CodeRecord) (exchange : IsExchange cfg request baseUrl req)
      (lookup : s.codes.lookup (req.code.getD []) = some record) (resource : record.resource = cfg.resourceUrl baseUrl)
      (covers : Covers cfg (words record.scope))
  | refreshed (baseUrl : Text) (req : TokenRequest) (hash : Text) (record : RefreshRecord)
      (refresh : IsRefresh request baseUrl req) (token : tokenHash rt (req.refreshToken.getD []) = some hash)
      (lookup : s.refreshTokens.lookup hash = some record)
      (covers : Covers cfg (if requestedScopes (req.scope.getD []) = [] then words record.scope
        else requestedScopes (req.scope.getD [])))

/-! ## The row of an access token -/

/-- A call before the expiry keeps a row whose token it does not draw. -/
theorem row_stays (h : Step cfg rt env request s o) {record : TokenRecord} (hrow : s.tokens.lookup token = some record)
    (hdraw : accessTokenDrawn env ≠ token) (htime : env.clock 0 ≤ record.expiresAt) :
    (o.after s).tokens.lookup token = some record := by
  cases h with
  | exchanged _ _ _ _ _ _ _ _ _ _ _ hs _ =>
    subst hs
    exact (Finmap.lookup_insert_of_ne _ hdraw.symm).trans hrow
  | refreshed _ _ _ _ _ _ _ _ _ _ _ _ _ hs _ =>
    subst hs
    exact (Finmap.lookup_insert_of_ne _ hdraw.symm).trans hrow
  | expired other _ _ r lookup past _ =>
    have hne : token ≠ other := by
      intro heq
      subst heq
      obtain rfl := Option.some.inj (hrow.symm.trans lookup)
      omega
    exact (lookup_erase_iff _ _ _ _).mpr ⟨hne, hrow⟩
  | _ => exact hrow

theorem row_stays_run {later : List Call} {record : TokenRecord} (hrow : s.tokens.lookup token = some record)
    (hlater : ∀ c ∈ later, accessTokenDrawn c.env ≠ token ∧ c.env.clock 0 ≤ record.expiresAt) :
    (storeAfter cfg rt later s).tokens.lookup token = some record := by
  induction later generalizing s with
  | nil => exact hrow
  | cons call later ih =>
    have hfirst := hlater call List.mem_cons_self
    exact ih (row_stays (perform_step cfg rt call.env call.request s) hrow hfirst.1 hfirst.2) fun c hc =>
      hlater c (List.mem_cons_of_mem call hc)

theorem verify_true_iff (htoken : token ≠ []) {record : TokenRecord} (hrow : s.tokens.lookup token = some record)
    (htime : env.clock 0 ≤ record.expiresAt) : (verifyAccessToken cfg env token baseUrl s).result = .ok true ↔
      record.resource = cfg.resourceUrl baseUrl ∧ Covers cfg (words record.scope) := by
  simp only [verifyAccessToken, hrow, Covers]
  rw [if_neg (by simpa using htoken), if_neg (Int.not_lt.mpr htime)]
  by_cases hother : record.resource = cfg.resourceUrl baseUrl
  · simp [hother]
  · simp [hother]

/-- The row of a token decides whether it can be used until it expires. -/
theorem usable_iff_row (htoken : token ≠ []) {record : TokenRecord} (hrow : s.tokens.lookup token = some record) :
    UsableUntil cfg rt token baseUrl record.expiresAt s ↔
      record.resource = cfg.resourceUrl baseUrl ∧ Covers cfg (words record.scope) := by
  constructor
  · intro h
    have hnow := h [] ⟨fun _ => record.expiresAt, fun _ => [], fun _ => rfl⟩ (by simp) le_rfl
    exact (verify_true_iff htoken hrow le_rfl).mp hnow
  · intro h later env hlater htime
    exact (verify_true_iff htoken (row_stays_run hrow hlater) htime).mpr h

/-! ## Issued tokens -/

/-- The words of the scope that a refresh issues. -/
theorem words_refreshGrant (env : OauthEnv) (req : TokenRequest) {record : RefreshRecord} (hscope : record.scope ≠ []) (w : Text) :
    w ∈ words (refreshGrant cfg env req record).scope ↔
      w ∈ if requestedScopes (req.scope.getD []) = [] then words record.scope else requestedScopes (req.scope.getD []) := by
  simp only [refreshGrant, orDefault_of_ne_nil hscope, List.isEmpty_iff]
  split_ifs with hnone
  · exact Iff.rfl
  · have hword : ∀ v ∈ sortedSet (requestedScopes (req.scope.getD [])), IsWord v := fun v hv =>
      isWord_requestedScopes _ v (mem_sortedSet.mp hv)
    rw [words_joinWords hword, mem_sortedSet]

theorem issueTime_exchange {call : Call} {req : TokenRequest} (h : IsExchange cfg call.request baseUrl req) :
    issueTime call = call.env.clock 1 ∧ requestBase call.request = baseUrl := by
  have hne : ¬(some (txt "authorization_code") : Option Text) = some (txt "refresh_token") := by decide
  constructor
  · simp only [issueTime, h.request_eq, h.grantType]
    rw [if_neg hne]
  · rw [h.request_eq, requestBase]

theorem issueTime_refresh {call : Call} {req : TokenRequest} (h : IsRefresh call.request baseUrl req) :
    issueTime call = call.env.clock 0 ∧ requestBase call.request = baseUrl := by
  cases h with
  | inl h =>
    rw [issueTime, h]
    exact ⟨rfl, rfl⟩
  | inr h =>
    rw [issueTime, h.1]
    exact ⟨if_pos h.2, rfl⟩

theorem fullGrant_exchange_iff {req : TokenRequest} {record : CodeRecord} (exchange : IsExchange cfg request baseUrl req)
    (lookup : s.codes.lookup (req.code.getD []) = some record) :
    FullGrant cfg rt s request ↔ record.resource = cfg.resourceUrl baseUrl ∧ Covers cfg (words record.scope) := by
  constructor
  · intro h
    cases h with
    | exchanged baseUrl' req' record' exchange' lookup' resource covers =>
      obtain ⟨rfl, rfl⟩ := Request.exchange.inj (exchange.request_eq.symm.trans exchange'.request_eq)
      obtain rfl := Option.some.inj (lookup.symm.trans lookup')
      exact ⟨resource, covers⟩
    | refreshed baseUrl' req' hash record' refresh token _ _ =>
      have hpresents := presentsToken_iff.mpr ⟨baseUrl', req', refresh, token⟩
      rw [isExchange_presentsToken exchange] at hpresents
      exact nomatch hpresents
  · intro h
    exact .exchanged baseUrl req record exchange lookup h.1 h.2

theorem fullGrant_refresh_iff {req : TokenRequest} {hash : Text} {record : RefreshRecord}
    (refresh : IsRefresh request baseUrl req) (presents : Presents cfg rt env baseUrl req s hash record) :
    FullGrant cfg rt s request ↔ Covers cfg (if requestedScopes (req.scope.getD []) = [] then words record.scope
      else requestedScopes (req.scope.getD [])) := by
  constructor
  · intro h
    cases h with
    | exchanged baseUrl' req' record' exchange' _ _ _ =>
      have hpresents := presentsToken_iff.mpr ⟨baseUrl, req, refresh, presents.token⟩
      rw [isExchange_presentsToken exchange'] at hpresents
      exact nomatch hpresents
    | refreshed baseUrl' req' hash' record' refresh' token lookup covers =>
      obtain ⟨rfl, rfl⟩ := isRefresh_unique refresh refresh'
      obtain rfl := Option.some.inj (presents.token.symm.trans token)
      obtain rfl := Option.some.inj (presents.lookup.symm.trans lookup)
      exact covers
  · intro h
    exact .refreshed baseUrl req hash record refresh presents.token presents.lookup h

/-- A reply with tokens leaves the row of its access token. -/
theorem issued_row (h : Step cfg rt env request s o) {reply : TokenReply} (hr : o.result = .ok (.tokens reply)) :
    ∃ hash g, Issues cfg rt env request s hash g ∧ .tokens reply = issuedReply cfg env g ∧
      (o.after s).tokens.lookup (accessTokenDrawn env) = some (accessRecord cfg g) := by
  cases h with
  | authorized _ req _ _ _ =>
    cases hred : redirectWithCode (req.redirectUri.getD []) (authorizationCode env) req.state with
    | error e => simp [hred, Except.map] at hr
    | ok url => simp [hred, Except.map] at hr
  | exchanged _ baseUrl req _ r hash exchange lookup matched fresh _ hs _ =>
    subst hs
    exact ⟨hash, _, .exchanged baseUrl req hash r exchange lookup matched fresh, (Except.ok.inj hr).symm,
      Finmap.lookup_insert _⟩
  | refreshed _ baseUrl req _ old hash r refresh presents reuse scope fresh _ hs _ =>
    subst hs
    exact ⟨hash, _, .refreshed baseUrl req old hash r refresh presents reuse scope fresh, (Except.ok.inj hr).symm,
      Finmap.lookup_insert _⟩
  | _ => simp at hr

/-- An access token can be used until it expires exactly when its grant covers all
configured scopes, for the served resource. -/
theorem issued_usable_iff (hs : Reachable cfg rt s) {call : Call} {reply : TokenReply}
    (h : (runCall cfg rt call s).result = .ok (.tokens reply)) :
    UsableUntil cfg rt reply.accessToken (requestBase call.request) (issueTime call + reply.expiresIn)
      ((runCall cfg rt call s).after s) ↔ FullGrant cfg rt s call.request := by
  have hvalid := reachable_valid hs
  obtain ⟨hash, g, issues, hreply, hrow⟩ := issued_row (perform_step cfg rt call.env call.request s) h
  obtain rfl := Reply.tokens.inj hreply
  have htoken : accessTokenDrawn call.env ≠ [] := by simp [accessTokenDrawn, txt]
  have hiff : ∀ baseUrl, UsableUntil cfg rt (accessTokenDrawn call.env) baseUrl (g.issuedAt + expiresIn cfg)
      ((runCall cfg rt call s).after s) ↔ g.resource = cfg.resourceUrl baseUrl ∧ Covers cfg (words g.scope) :=
    fun baseUrl => usable_iff_row htoken hrow
  cases issues with
  | exchanged baseUrl req _ record exchange lookup _ _ =>
    obtain ⟨htime, hbase⟩ := issueTime_exchange exchange
    have hscope := (orDefault_of_ne_nil (hvalid.codes _ record lookup).2 : orDefault cfg record.scope = record.scope)
    rw [htime, hbase, fullGrant_exchange_iff exchange lookup, ← hscope]
    exact hiff baseUrl
  | refreshed baseUrl req old _ record refresh presents _ _ _ =>
    obtain ⟨htime, hbase⟩ := issueTime_refresh refresh
    have hscope := (hvalid.refreshTokens _ record presents.lookup).2.1
    rw [htime, hbase, fullGrant_refresh_iff refresh presents]
    refine (hiff baseUrl).trans ((and_iff_right presents.resource).trans ?_)
    exact forall₂_congr fun w _ => words_refreshGrant call.env req hscope w

/-! ## A server with two scopes -/

def twoScopeConfig : OauthConfig where
  authToken := txt "secret"
  oauthLoginToken := []
  oauthScopes := [txt "read", txt "write"]
  oauthTokenTtlSeconds := 3600
  oauthRefreshTokenTtlSeconds := 15552000
  mcpPath := txt "/mcp"
  scopesAreWords := by
    have hall : ∀ w ∈ [txt "read", txt "write"], w ≠ [] ∧ w.all (fun c => !isSpace c) = true := by decide
    intro w hw
    exact ⟨(hall w hw).1, by simpa using (hall w hw).2⟩

/-- The authorization of a client that asks for this scope. -/
def scopedAuthorize (scope : Option Text) : Call := callAt 0 (txt "k1") (.authorize sampleBase {
  loginToken := some (txt "secret")
  clientId := some (txt "mcp_client_c1")
  redirectUri := some sampleUri
  codeChallenge := some (txt "iMnq5o6zALKXGivsnlom_0F5_WYda32GHkxlV7mq7hQ")
  responseType := some (txt "code")
  codeChallengeMethod := some (txt "S256")
  resource := some (txt "https://mcp.example/mcp")
  scope := scope
  state := none })

/-- The store once the code for this scope is issued. -/
def scopedStore (scope : Option Text) : Store :=
  storeAfter twoScopeConfig sampleRuntime [sampleRegister, scopedAuthorize scope] .empty

theorem issued_usable_full :
    UsableUntil twoScopeConfig sampleRuntime (txt "mcp_at_a1") sampleBase (10 + 3600)
        ((runCall twoScopeConfig sampleRuntime (sampleExchange (txt "verifier")) (scopedStore none)).after (scopedStore none)) ↔
      FullGrant twoScopeConfig sampleRuntime (scopedStore none) (sampleExchange (txt "verifier")).request := by
  have hissued : (runCall twoScopeConfig sampleRuntime (sampleExchange (txt "verifier")) (scopedStore none)).result =
      .ok (.tokens ⟨txt "mcp_at_a1", 3600, txt "read write", txt "mcp_rt_a1"⟩) := by decide +kernel
  exact issued_usable_iff ⟨_, rfl⟩ hissued

/-- A client asks for one of two configured scopes and is granted it; its access token is
refused at once. -/
theorem narrow_grant_unusable :
    ∃ reply, Reachable twoScopeConfig sampleRuntime (scopedStore (some (txt "read"))) ∧
      (runCall twoScopeConfig sampleRuntime (sampleExchange (txt "verifier")) (scopedStore (some (txt "read")))).result =
        .ok (.tokens reply) ∧ reply.scope = txt "read" ∧
      (verifyAccessToken twoScopeConfig (sampleExchange (txt "verifier")).env reply.accessToken sampleBase
        (storeAfter twoScopeConfig sampleRuntime [sampleExchange (txt "verifier")] (scopedStore (some (txt "read"))))).result =
        .ok false :=
  ⟨⟨txt "mcp_at_a1", 3600, txt "read", txt "mcp_rt_a1"⟩, ⟨_, rfl⟩, by decide +kernel, rfl, by decide +kernel⟩

end WebOauthMcp.OauthUsability
