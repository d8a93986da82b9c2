import WebOauthMcp.OauthOperations
import Mathlib.Data.List.ReduceOption

/-!
# What one call does to the store

Every call ends in one of these ways. Each case carries the checks that led to it, so that
invariants are proved by cases on the step and never by unfolding an operation.
-/

namespace WebOauthMcp.OauthSteps
open CodePoints Tables Words OauthStore OauthOperations

/-- The request reaches the refresh grant, directly or through the token endpoint. -/
def IsRefresh (request : Request) (baseUrl : Text) (req : TokenRequest) : Prop :=
  request = .refresh baseUrl req ∨
    request = .exchange baseUrl req ∧ req.grantType = some (txt "refresh_token")

/-- The request reaches the authorization-code grant for this server. -/
structure IsExchange (cfg : OauthConfig) (request : Request) (baseUrl : Text) (req : TokenRequest) : Prop where
  request_eq : request = .exchange baseUrl req
  grantType : req.grantType = some (txt "authorization_code")
  resource : req.resource = some (cfg.resourceUrl baseUrl)

/-- The store after a grant: the access token, and the refresh token under its hash. -/
def issuedStore (cfg : OauthConfig) (env : OauthEnv) (hash : Text) (store : Store) (g : Grant) : Store :=
  { store with
    tokens := store.tokens.insert (accessTokenDrawn env) (accessRecord cfg g)
    refreshTokens := (pruneRefreshTokens store g.now).refreshTokens.insert hash
      (refreshRecord cfg env g.clientId g.granted g.resource g.familyId g.now) }

def issuedReply (cfg : OauthConfig) (env : OauthEnv) (g : Grant) : Reply :=
  .tokens ⟨accessTokenDrawn env, expiresIn cfg, g.scope, refreshTokenDrawn env⟩

def exchangeGrant (cfg : OauthConfig) (env : OauthEnv) (record : CodeRecord) : Grant :=
  ⟨record.clientId, orDefault cfg record.scope, orDefault cfg record.scope, record.resource, [],
    env.clock 1, env.clock 2⟩

def refreshGrant (cfg : OauthConfig) (env : OauthEnv) (req : TokenRequest) (record : RefreshRecord) : Grant :=
  let requested := requestedScopes (req.scope.getD [])
  let granted := orDefault cfg record.scope
  ⟨record.clientId, if requested.isEmpty then granted else joinWords (sortedSet requested), granted,
    record.resource, record.familyId, env.clock 0, env.clock 0⟩

/-- The redirect URIs of a registration that are strings. -/
def registeredUris (req : RegisterRequest) : List Text := (req.redirectUris.getD []).reduceOption

def addClient (store : Store) (client : ClientRecord) : Store :=
  { store with clients := store.clients.insert client.clientId client }

def addCode (store : Store) (code : Text) (record : CodeRecord) : Store :=
  { store with codes := store.codes.insert code record }

def dropCode (store : Store) (code : Text) : Store := { store with codes := store.codes.erase code }

def dropToken (store : Store) (token : Text) : Store := { store with tokens := store.tokens.erase token }

def setRefresh (store : Store) (hash : Text) (record : RefreshRecord) : Store :=
  { store with refreshTokens := store.refreshTokens.insert hash record }

/-- A refresh request that presents a retained token of its own client for its resource. -/
structure Presents (cfg : OauthConfig) (rt : OauthRuntime) (env : OauthEnv) (baseUrl : Text)
    (req : TokenRequest) (s : Store) (hash : Text) (record : RefreshRecord) : Prop where
  token : tokenHash rt (req.refreshToken.getD []) = some hash
  lookup : s.refreshTokens.lookup hash = some record
  live : isLive (env.clock 0) record = true
  client : req.clientId = some record.clientId
  resource : record.resource = cfg.resourceUrl baseUrl
  registered : (s.clients.lookup record.clientId).isSome = true

/-- An authorization request that passes every check. -/
structure Authorized (cfg : OauthConfig) (baseUrl : Text) (req : AuthorizeRequest) (s : Store) : Prop where
  configured : cfg.loginToken ≠ []
  login : req.loginToken.getD [] = cfg.loginToken
  resource : req.resource = some (cfg.resourceUrl baseUrl)
  registered : ∃ client, s.clients.lookup (req.clientId.getD []) = some client ∧
    req.redirectUri.getD [] ∈ client.redirectUris
  scope : ∀ w ∈ requestedScopes (req.scope.getD []), w ∈ cfg.scopes

/-- An exchange that presents a stored code and matches everything recorded with it. -/
structure Matches (rt : OauthRuntime) (env : OauthEnv) (req : TokenRequest) (record : CodeRecord) : Prop where
  unexpired : ¬record.expiresAt < env.clock 0
  client : req.clientId = some record.clientId
  redirect : req.redirectUri = some record.redirectUri
  challenge : pkceS256 rt (req.codeVerifier.getD []) = some record.codeChallenge

/-- The ways a call can end, with the store it writes. -/
inductive Step (cfg : OauthConfig) (rt : OauthRuntime) (env : OauthEnv) : Request → Store → Outcome Reply → Prop
  | refused (request : Request) (s : Store) (e : OauthError) : Step cfg rt env request s ⟨none, .error e⟩
  | answered (token baseUrl : Text) (s : Store) (valid : Bool)
      (h : valid = true → ∃ record, s.tokens.lookup token = some record ∧ ¬record.expiresAt < env.clock 0 ∧
        record.resource = cfg.resourceUrl baseUrl ∧ ∀ w ∈ cfg.scopes, w ∈ words record.scope) :
      Step cfg rt env (.verify token baseUrl) s ⟨none, .ok (.verdict valid)⟩
  | registered (req : RegisterRequest) (s : Store)
      (allowed : ∀ u ∈ registeredUris req, isAllowedRedirectUri rt u = true)
      (encodable : (addClient s (registeredClient env req (registeredUris req))).isEncodable = true) :
      Step cfg rt env (.register req) s ⟨some (addClient s (registeredClient env req (registeredUris req))),
        .ok (.client (registeredClient env req (registeredUris req)))⟩
  | authorized (baseUrl : Text) (req : AuthorizeRequest) (s : Store) (checks : Authorized cfg baseUrl req s)
      (encodable : (addCode s (authorizationCode env) (authorizedRecord cfg env baseUrl req)).isEncodable = true) :
      Step cfg rt env (.authorize baseUrl req) s
        ⟨some (addCode s (authorizationCode env) (authorizedRecord cfg env baseUrl req)),
          (redirectWithCode (req.redirectUri.getD []) (authorizationCode env) req.state).map .redirect⟩
  | unknownCode (request : Request) (baseUrl : Text) (req : TokenRequest) (s : Store)
      (exchange : IsExchange cfg request baseUrl req) (encodable : s.isEncodable = true)
      (lookup : s.codes.lookup (req.code.getD []) = none) :
      Step cfg rt env request s ⟨some s, .error (.valueError .codeInvalid)⟩
  | codeDropped (request : Request) (baseUrl : Text) (req : TokenRequest) (s : Store) (r : Refusal)
      (exchange : IsExchange cfg request baseUrl req)
      (encodable : (dropCode s (req.code.getD [])).isEncodable = true) :
      Step cfg rt env request s ⟨some (dropCode s (req.code.getD [])), .error (.valueError r)⟩
  | exchanged (request : Request) (baseUrl : Text) (req : TokenRequest) (s : Store) (record : CodeRecord)
      (hash : Text) (exchange : IsExchange cfg request baseUrl req)
      (lookup : s.codes.lookup (req.code.getD []) = some record) (matched : Matches rt env req record)
      (fresh : tokenHash rt (refreshTokenDrawn env) = some hash) (written : Store)
      (hs : written = issuedStore cfg env hash (dropCode s (req.code.getD [])) (exchangeGrant cfg env record))
      (encodable : written.isEncodable = true) :
      Step cfg rt env request s ⟨some written, .ok (issuedReply cfg env (exchangeGrant cfg env record))⟩
  | pruned (request : Request) (baseUrl : Text) (req : TokenRequest) (s : Store)
      (refresh : IsRefresh request baseUrl req)
      (encodable : (pruneRefreshTokens s (env.clock 0)).isEncodable = true) :
      Step cfg rt env request s
        ⟨some (pruneRefreshTokens s (env.clock 0)), .error (.valueError .refreshInvalid)⟩
  | reused (request : Request) (baseUrl : Text) (req : TokenRequest) (s : Store) (hash : Text)
      (record : RefreshRecord) (refresh : IsRefresh request baseUrl req)
      (presents : Presents cfg rt env baseUrl req s hash record)
      (reuse : isReuse (env.clock 0) record = true)
      (encodable : (dropFamily (pruneRefreshTokens s (env.clock 0)) record.familyId).isEncodable = true) :
      Step cfg rt env request s ⟨some (dropFamily (pruneRefreshTokens s (env.clock 0)) record.familyId),
        .error (.valueError .reuseDetected)⟩
  | refreshed (request : Request) (baseUrl : Text) (req : TokenRequest) (s : Store) (hash newHash : Text)
      (record : RefreshRecord) (refresh : IsRefresh request baseUrl req)
      (presents : Presents cfg rt env baseUrl req s hash record)
      (reuse : isReuse (env.clock 0) record = false)
      (scope : ∀ w ∈ requestedScopes (req.scope.getD []), w ∈ words (orDefault cfg record.scope))
      (fresh : tokenHash rt (refreshTokenDrawn env) = some newHash) (written : Store)
      (hs : written = issuedStore cfg env newHash
        (setRefresh (pruneRefreshTokens s (env.clock 0)) hash (rotate (env.clock 0) record))
        (refreshGrant cfg env req record))
      (encodable : written.isEncodable = true) :
      Step cfg rt env request s ⟨some written, .ok (issuedReply cfg env (refreshGrant cfg env req record))⟩
  | expired (token baseUrl : Text) (s : Store) (record : TokenRecord)
      (lookup : s.tokens.lookup token = some record) (past : record.expiresAt < env.clock 0)
      (encodable : (dropToken s token).isEncodable = true) :
      Step cfg rt env (.verify token baseUrl) s ⟨some (dropToken s token), .ok (.verdict false)⟩

/-! ## Every call is a step -/

variable {cfg : OauthConfig} {rt : OauthRuntime} {env : OauthEnv} {request : Request} {s : Store}

/-- A write that fails leaves the store as it was, so only the encodable case remains. -/
theorem writeStore_step {α : Type} {f : α → Reply} {written : Store} {result : Except OauthError α}
    (h : written.isEncodable = true → Step cfg rt env request s ⟨some written, result.map f⟩) :
    Step cfg rt env request s ((writeStore written result).map f) := by
  simp only [writeStore]
  cases hw : written.isEncodable with
  | true => exact h hw
  | false => exact .refused request s .unicodeEncodeError

theorem registerClient_step (req : RegisterRequest) (s : Store) :
    Step cfg rt env (.register req) s ((registerClient rt env req s).map .client) := by
  simp only [registerClient]
  cases hreq : req.redirectUris with
  | none => exact .refused _ s _
  | some entries =>
    simp only
    split_ifs with hempty hall hmany
    · exact .refused _ s _
    · exact .refused _ s _
    · exact .refused _ s _
    · have huris : entries.reduceOption = registeredUris req := by rw [registeredUris, hreq, Option.getD_some]
      rw [huris]
      apply writeStore_step
      apply Step.registered
      intro u hu
      rw [← huris] at hu
      simp only [Bool.not_eq_true, Bool.not_eq_false', List.all_eq_true] at hall
      exact hall _ (List.reduceOption_mem_iff.mp hu)

theorem compareDigest_eq_true {a b : Text} (h : compareDigest a b = some true) :
    a = b ∧ isAscii a = true ∧ isAscii b = true := by
  simp only [compareDigest] at h
  split_ifs at h with hab
  · exact ⟨by simpa using h, by simpa using hab⟩

theorem authorize_step (baseUrl : Text) (req : AuthorizeRequest) (s : Store) :
    Step cfg rt env (.authorize baseUrl req) s ((authorize cfg env baseUrl req s).map .redirect) := by
  simp only [authorize]
  by_cases hconf : cfg.loginToken.isEmpty = true
  · rw [if_pos hconf]
    exact .refused _ s _
  rw [if_neg hconf]
  cases hlogin : compareDigest (req.loginToken.getD []) cfg.loginToken with
  | none => exact .refused _ s _
  | some same => cases same with
    | false => exact .refused _ s _
    | true =>
      simp only
      by_cases htype : req.responseType ≠ some (txt "code")
      · rw [if_pos htype]
        exact .refused _ s _
      rw [if_neg htype]
      by_cases hpkce : req.codeChallengeMethod ≠ some (txt "S256") ∨ (req.codeChallenge.getD []).isEmpty = true
      · rw [if_pos hpkce]
        exact .refused _ s _
      rw [if_neg hpkce]
      by_cases hres : req.resource ≠ some (cfg.resourceUrl baseUrl)
      · rw [if_pos hres]
        exact .refused _ s _
      rw [if_neg hres]
      cases hclient : s.clients.lookup (req.clientId.getD []) with
      | none => exact .refused _ s _
      | some client =>
        simp only
        split_ifs with huri hscope
        · exact .refused _ s _
        · exact .refused _ s _
        · apply writeStore_step
          apply Step.authorized
          exact ⟨by simpa using hconf, (compareDigest_eq_true hlogin).1, by simpa using hres,
            ⟨client, hclient, by simpa using huri⟩, by simpa using hscope⟩

theorem issueTokens_step {store : Store} {g : Grant}
    (h : ∀ hash, tokenHash rt (refreshTokenDrawn env) = some hash →
      (issuedStore cfg env hash store g).isEncodable = true →
      Step cfg rt env request s ⟨some (issuedStore cfg env hash store g), .ok (issuedReply cfg env g)⟩) :
    Step cfg rt env request s ((issueTokens cfg rt env store g).map .tokens) := by
  simp only [issueTokens, issueRefreshToken]
  cases hhash : tokenHash rt (refreshTokenDrawn env) with
  | none => exact .refused request s .unicodeEncodeError
  | some hash => exact writeStore_step (h hash hhash)

theorem lookup_pruned_iff (s : Store) (now : ℤ) (hash : Text) (record : RefreshRecord) :
    (pruneRefreshTokens s now).refreshTokens.lookup hash = some record ↔
      s.refreshTokens.lookup hash = some record ∧ isLive now record = true :=
  lookup_select_iff _ _ _ _

theorem refreshAccessToken_step {baseUrl : Text} {req : TokenRequest}
    (hreq : IsRefresh request baseUrl req) (s : Store) :
    Step cfg rt env request s ((refreshAccessToken cfg rt env baseUrl req s).map .tokens) := by
  simp only [refreshAccessToken]
  by_cases hraw : (req.refreshToken.getD []).isEmpty = true
  · rw [if_pos hraw]
    exact .refused _ s _
  rw [if_neg hraw]
  by_cases hres : (req.resource.any fun r => !r.isEmpty && r ≠ cfg.resourceUrl baseUrl) = true
  · rw [if_pos hres]
    exact .refused _ s _
  rw [if_neg hres]
  cases htoken : tokenHash rt (req.refreshToken.getD []) with
  | none => exact .refused _ s _
  | some hash =>
    simp only
    cases hlookup : (pruneRefreshTokens s (env.clock 0)).refreshTokens.lookup hash with
    | none =>
      simp only
      split
      · exact writeStore_step (.pruned request baseUrl req s hreq)
      · exact .refused _ s _
    | some record =>
      have hrecord := (lookup_pruned_iff s _ hash record).mp hlookup
      simp only
      by_cases hclient : req.clientId ≠ some record.clientId
      · rw [if_pos hclient]
        exact .refused _ s _
      rw [if_neg hclient]
      by_cases hother : record.resource ≠ cfg.resourceUrl baseUrl
      · rw [if_pos hother]
        exact .refused _ s _
      rw [if_neg hother]
      by_cases hunknown : ((pruneRefreshTokens s (env.clock 0)).clients.lookup record.clientId).isNone = true
      · rw [if_pos hunknown]
        exact .refused _ s _
      rw [if_neg hunknown]
      have hpresents : Presents cfg rt env baseUrl req s hash record :=
        ⟨htoken, hrecord.1, hrecord.2, by simpa using hclient, by simpa using hother,
          by simpa [pruneRefreshTokens, Option.isSome_iff_ne_none] using hunknown⟩
      by_cases hreuse : isReuse (env.clock 0) record = true
      · rw [if_pos hreuse]
        exact writeStore_step (.reused request baseUrl req s hash record hreq hpresents hreuse)
      rw [if_neg hreuse]
      by_cases hscope : (!((requestedScopes (req.scope.getD [])).all fun w =>
          (words (orDefault cfg record.scope)).contains w)) = true
      · rw [if_pos hscope]
        exact .refused _ s _
      rw [if_neg hscope]
      have hresource : cfg.resourceUrl baseUrl = record.resource := hpresents.resource.symm
      rw [hresource]
      apply issueTokens_step
      intro newHash hfresh henc
      exact .refreshed request baseUrl req s hash newHash record hreq hpresents (by simpa using hreuse)
        (by simpa using hscope) hfresh _ rfl henc

theorem exchangeCode_step (baseUrl : Text) (req : TokenRequest) (s : Store) :
    Step cfg rt env (.exchange baseUrl req) s ((exchangeCode cfg rt env baseUrl req s).map .tokens) := by
  simp only [exchangeCode]
  by_cases hrefresh : req.grantType = some (txt "refresh_token")
  · rw [if_pos hrefresh]
    exact refreshAccessToken_step (Or.inr ⟨rfl, hrefresh⟩) s
  rw [if_neg hrefresh]
  by_cases htype : req.grantType ≠ some (txt "authorization_code")
  · rw [if_pos htype]
    exact .refused _ s _
  rw [if_neg htype]
  by_cases hres : req.resource ≠ some (cfg.resourceUrl baseUrl)
  · rw [if_pos hres]
    exact .refused _ s _
  rw [if_neg hres]
  have hexchange : IsExchange cfg (.exchange baseUrl req) baseUrl req :=
    ⟨rfl, by simpa using htype, by simpa using hres⟩
  have hdrop : ∀ r, Step cfg rt env (.exchange baseUrl req) s
      ((refuseWriting (α := TokenReply) (dropCode s (req.code.getD [])) r).map .tokens) := fun r =>
    writeStore_step (.codeDropped _ baseUrl req s r hexchange)
  cases hlookup : s.codes.lookup (req.code.getD []) with
  | none => exact writeStore_step fun henc => .unknownCode _ baseUrl req s hexchange henc hlookup
  | some record =>
    simp only
    by_cases hexpired : record.expiresAt < env.clock 0
    · rw [if_pos hexpired]
      exact hdrop _
    rw [if_neg hexpired]
    by_cases hclient : req.clientId ≠ some record.clientId
    · rw [if_pos hclient]
      exact hdrop _
    rw [if_neg hclient]
    by_cases huri : req.redirectUri ≠ some record.redirectUri
    · rw [if_pos huri]
      exact hdrop _
    rw [if_neg huri]
    cases hpkce : pkceS256 rt (req.codeVerifier.getD []) with
    | none => exact .refused _ s _
    | some expected =>
      cases hcompare : compareDigest expected record.codeChallenge with
      | none =>
        simp only [hcompare]
        exact .refused _ s _
      | some same => cases same with
        | false =>
          simp only [hcompare]
          exact hdrop _
        | true =>
          simp only [hcompare]
          obtain rfl := (compareDigest_eq_true hcompare).1
          apply issueTokens_step
          intro hash hfresh henc
          exact .exchanged _ baseUrl req s record hash hexchange hlookup
            ⟨hexpired, by simpa using hclient, by simpa using huri, hpkce⟩ hfresh _ rfl henc

theorem verifyAccessToken_step (token baseUrl : Text) (s : Store) :
    Step cfg rt env (.verify token baseUrl) s ((verifyAccessToken cfg env token baseUrl s).map .verdict) := by
  have hno : Step cfg rt env (.verify token baseUrl) s ⟨none, .ok (.verdict false)⟩ :=
    .answered token baseUrl s false (by simp)
  simp only [verifyAccessToken]
  by_cases hempty : token.isEmpty = true
  · rw [if_pos hempty]
    exact hno
  rw [if_neg hempty]
  cases hlookup : s.tokens.lookup token with
  | none => exact hno
  | some record =>
    simp only
    split_ifs with hexpired hother
    · exact writeStore_step (.expired token baseUrl s record hlookup hexpired)
    · exact hno
    · apply Step.answered
      intro hall
      exact ⟨record, hlookup, hexpired, by simpa using hother, by simpa using hall⟩

/-- What one call does is one of the steps. -/
theorem perform_step (cfg : OauthConfig) (rt : OauthRuntime) (env : OauthEnv) (request : Request) (s : Store) :
    Step cfg rt env request s (perform cfg rt env request s) := by
  cases request with
  | register req => exact registerClient_step req s
  | authorize baseUrl req => exact authorize_step baseUrl req s
  | exchange baseUrl req => exact exchangeCode_step baseUrl req s
  | refresh baseUrl req => exact refreshAccessToken_step (Or.inl rfl) s
  | verify token baseUrl => exact verifyAccessToken_step token baseUrl s

end WebOauthMcp.OauthSteps
