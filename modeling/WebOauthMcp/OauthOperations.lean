import WebOauthMcp.OauthStore

/-!
# The operations of the OAuth manager

Each operation reads the store once and writes it at most once, so it is a function from
the store it read to the store it writes, if it writes one, and its result. Checks before
the read do not look at the store.
-/

namespace WebOauthMcp.OauthOperations
open CodePoints Tables Words OauthStore

/-- What an operation does with the store it read. -/
structure Outcome (α : Type) where
  written : Option Store
  result : Except OauthError α

/-- The persisted store after the operation. -/
def Outcome.after {α : Type} (o : Outcome α) (store : Store) : Store := o.written.getD store

def fail {α : Type} (e : OauthError) : Outcome α := ⟨none, .error e⟩

def refuse {α : Type} (r : Refusal) : Outcome α := fail (.valueError r)

/-- `_write_store`, then the result; the write itself fails on a lone surrogate. -/
def writeStore {α : Type} (store : Store) (result : Except OauthError α) : Outcome α :=
  if store.isEncodable then ⟨some store, result⟩ else fail .unicodeEncodeError

def refuseWriting {α : Type} (store : Store) (r : Refusal) : Outcome α :=
  writeStore store (.error (.valueError r))

structure TokenReply where
  accessToken : Text
  expiresIn : ℤ
  scope : Text
  refreshToken : Text
  deriving DecidableEq

section Operations

variable (cfg : OauthConfig) (rt : OauthRuntime) (env : OauthEnv)

/-! ## Registration and authorization -/

def registeredClient (req : RegisterRequest) (uris : List Text) : ClientRecord where
  clientId := txt "mcp_client_" ++ env.draws 0
  clientName := match req.clientName with
    | some name => if name.isEmpty then txt "ChatGPT" else name
    | none => txt "ChatGPT"
  redirectUris := uris
  createdAt := env.clock 0

def registerClient (req : RegisterRequest) (store : Store) : Outcome ClientRecord :=
  match req.redirectUris with
  | none => refuse .redirectUrisMissing
  | some entries =>
    if entries.isEmpty then refuse .redirectUrisMissing
    else if !(entries.all fun entry => entry.any (isAllowedRedirectUri rt)) then refuse .redirectUrisNotAllowed
    else if store.clients.keys.card ≥ maxRegisteredClients then refuse .tooManyClients
    else
      let client := registeredClient env req entries.reduceOption
      writeStore { store with clients := store.clients.insert client.clientId client } (.ok client)

/-- The redirect to the client, with the code and the state of the request. -/
def redirectWithCode (redirectUri code : Text) (state : Option Text) : Except OauthError Text :=
  let separator := if redirectUri.contains 0x3F then txt "&" else txt "?"
  let stateQuery := match state with
    | some t => if t.isEmpty then some [] else (quotePlus t).map (txt "&state=" ++ ·)
    | none => some []
  match quotePlus code, stateQuery with
  | some quoted, some query => .ok (redirectUri ++ separator ++ txt "code=" ++ quoted ++ query)
  | _, _ => .error .unicodeEncodeError

def authorizationCode : Text := txt "mcp_code_" ++ env.draws 0

def authorizedRecord (baseUrl : Text) (req : AuthorizeRequest) : CodeRecord where
  clientId := req.clientId.getD []
  redirectUri := req.redirectUri.getD []
  codeChallenge := req.codeChallenge.getD []
  scope :=
    let scope := withoutOfflineAccess (req.scope.getD [])
    if scope.isEmpty then cfg.scopeString else scope
  resource := cfg.resourceUrl baseUrl
  expiresAt := env.clock 0 + 300

def authorize (baseUrl : Text) (req : AuthorizeRequest) (store : Store) : Outcome Text :=
  if cfg.loginToken.isEmpty then fail (.permissionError .loginTokenNotConfigured)
  else match compareDigest (req.loginToken.getD []) cfg.loginToken with
    | none => fail .typeError
    | some false => fail (.permissionError .loginTokenInvalid)
    | some true =>
      if req.responseType ≠ some (txt "code") then refuse .responseType
      else if req.codeChallengeMethod ≠ some (txt "S256") ∨ (req.codeChallenge.getD []).isEmpty then
        refuse .pkceRequired
      else if req.resource ≠ some (cfg.resourceUrl baseUrl) then refuse .resourceMismatch
      else match store.clients.lookup (req.clientId.getD []) with
        | none => refuse .unknownClient
        | some client =>
          if !client.redirectUris.contains (req.redirectUri.getD []) then refuse .redirectNotRegistered
          else if !((requestedScopes (req.scope.getD [])).all fun w => cfg.scopes.contains w) then
            refuse .scopeNotSupported
          else
            let code := authorizationCode env
            let record := authorizedRecord cfg env baseUrl req
            writeStore { store with codes := store.codes.insert code record }
              (redirectWithCode (req.redirectUri.getD []) code req.state)

/-! ## Tokens -/

def isLive (now : ℤ) (record : RefreshRecord) : Bool := !decide (record.expiresAt < now)

/-- `_prune_refresh_tokens`. -/
def pruneRefreshTokens (store : Store) (now : ℤ) : Store :=
  { store with refreshTokens := select (fun _ record => isLive now record) store.refreshTokens }

/-- Whether `_prune_refresh_tokens` removed anything. -/
def prunes (store : Store) (now : ℤ) : Bool := !allRows (fun _ record => isLive now record) store.refreshTokens

def refreshTokenDrawn : Text := txt "mcp_rt_" ++ env.draws 1

/-- The record of a new refresh token; the family is drawn unless one is given. -/
def refreshRecord (clientId scope resource familyId : Text) (now : ℤ) : RefreshRecord where
  clientId := clientId
  scope := scope
  resource := resource
  familyId := if familyId.isEmpty then txt "rtf_" ++ env.draws 2 else familyId
  createdAt := now
  expiresAt := now + max cfg.oauthRefreshTokenTtlSeconds 60
  rotatedAt := none

/-- `_issue_refresh_token`. -/
def issueRefreshToken (store : Store) (clientId scope resource familyId : Text) (now : ℤ) : Option Store :=
  let store := pruneRefreshTokens store now
  (tokenHash rt (refreshTokenDrawn env)).map fun hash =>
    { store with refreshTokens :=
        store.refreshTokens.insert hash (refreshRecord cfg env clientId scope resource familyId now) }

def accessTokenDrawn : Text := txt "mcp_at_" ++ env.draws 0

def expiresIn : ℤ := max cfg.oauthTokenTtlSeconds 60

/-- What a successful grant issues: the scope of the access token, the scope the refresh
token carries, and the two clock readings the source takes for them. -/
structure Grant where
  clientId : Text
  scope : Text
  granted : Text
  resource : Text
  familyId : Text
  issuedAt : ℤ
  now : ℤ

def accessRecord (g : Grant) : TokenRecord := ⟨g.clientId, g.scope, g.resource, g.issuedAt + expiresIn cfg⟩

/-- The common end of both grants: store an access token and a refresh token, and reply. -/
def issueTokens (store : Store) (g : Grant) : Outcome TokenReply :=
  let store := { store with tokens := store.tokens.insert (accessTokenDrawn env) (accessRecord cfg g) }
  match issueRefreshToken cfg rt env store g.clientId g.granted g.resource g.familyId g.now with
  | none => fail .unicodeEncodeError
  | some store =>
    writeStore store (.ok ⟨accessTokenDrawn env, expiresIn cfg, g.scope, refreshTokenDrawn env⟩)

def rotate (now : ℤ) (record : RefreshRecord) : RefreshRecord :=
  if record.rotatedAt.isNone then
    { record with
      rotatedAt := some now
      expiresAt := min (if record.expiresAt = 0 then now else record.expiresAt)
        (now + rotatedRefreshTokenRetentionSeconds) }
  else record

/-- A rotated token presented after the grace window. -/
def isReuse (now : ℤ) (record : RefreshRecord) : Bool :=
  record.rotatedAt.any fun rotatedAt => now - rotatedAt > refreshTokenReuseGraceSeconds

def dropFamily (store : Store) (familyId : Text) : Store :=
  { store with refreshTokens := select (fun _ record => record.familyId ≠ familyId) store.refreshTokens }

def orDefault (scope : Text) : Text := if scope.isEmpty then cfg.scopeString else scope

def refreshAccessToken (baseUrl : Text) (req : TokenRequest) (store : Store) : Outcome TokenReply :=
  let raw := req.refreshToken.getD []
  let resource := cfg.resourceUrl baseUrl
  if raw.isEmpty then refuse .refreshMissing
  else if req.resource.any fun r => !r.isEmpty && r ≠ resource then refuse .resourceMismatch
  else
    let now := env.clock 0
    let pruned := pruneRefreshTokens store now
    match tokenHash rt raw with
    | none => fail .unicodeEncodeError
    | some hash => match pruned.refreshTokens.lookup hash with
      | none => if prunes store now then refuseWriting pruned .refreshInvalid else refuse .refreshInvalid
      | some record =>
        if req.clientId ≠ some record.clientId then refuse .clientMismatch
        else if record.resource ≠ resource then refuse .otherResource
        else if (pruned.clients.lookup record.clientId).isNone then refuse .unknownClient
        else if isReuse now record then refuseWriting (dropFamily pruned record.familyId) .reuseDetected
        else
          let granted := orDefault cfg record.scope
          let requested := requestedScopes (req.scope.getD [])
          if !(requested.all fun w => (words granted).contains w) then refuse .scopeExceedsGrant
          else
            let scope := if requested.isEmpty then granted else joinWords (sortedSet requested)
            let rotated := { pruned with refreshTokens := pruned.refreshTokens.insert hash (rotate now record) }
            issueTokens cfg rt env rotated
              ⟨record.clientId, scope, granted, resource, record.familyId, now, now⟩

def exchangeCode (baseUrl : Text) (req : TokenRequest) (store : Store) : Outcome TokenReply :=
  if req.grantType = some (txt "refresh_token") then refreshAccessToken cfg rt env baseUrl req store
  else if req.grantType ≠ some (txt "authorization_code") then refuse .grantType
  else if req.resource ≠ some (cfg.resourceUrl baseUrl) then refuse .resourceMismatch
  else match store.codes.lookup (req.code.getD []) with
    | none => refuseWriting store .codeInvalid
    | some record =>
      let popped := { store with codes := store.codes.erase (req.code.getD []) }
      if record.expiresAt < env.clock 0 then refuseWriting popped .codeExpired
      else if req.clientId ≠ some record.clientId then refuseWriting popped .clientMismatch
      else if req.redirectUri ≠ some record.redirectUri then refuseWriting popped .redirectMismatch
      else match pkceS256 rt (req.codeVerifier.getD []) with
        | none => fail .unicodeEncodeError
        | some expected => match compareDigest expected record.codeChallenge with
          | none => fail .typeError
          | some false => refuseWriting popped .verifierInvalid
          | some true =>
            let scope := orDefault cfg record.scope
            issueTokens cfg rt env popped
              ⟨record.clientId, scope, scope, record.resource, [], env.clock 1, env.clock 2⟩

def verifyAccessToken (token baseUrl : Text) (store : Store) : Outcome Bool :=
  if token.isEmpty then ⟨none, .ok false⟩
  else match store.tokens.lookup token with
    | none => ⟨none, .ok false⟩
    | some record =>
      if record.expiresAt < env.clock 0 then
        writeStore { store with tokens := store.tokens.erase token } (.ok false)
      else if record.resource ≠ cfg.resourceUrl baseUrl then ⟨none, .ok false⟩
      else ⟨none, .ok (cfg.scopes.all fun w => (words record.scope).contains w)⟩

end Operations

/-! ## Runs -/

inductive Request where
  | register (req : RegisterRequest)
  | authorize (baseUrl : Text) (req : AuthorizeRequest)
  | exchange (baseUrl : Text) (req : TokenRequest)
  | refresh (baseUrl : Text) (req : TokenRequest)
  | verify (token baseUrl : Text)
  deriving DecidableEq

inductive Reply where
  | client (record : ClientRecord)
  | redirect (url : Text)
  | tokens (reply : TokenReply)
  | verdict (valid : Bool)
  deriving DecidableEq

def Outcome.map {α β : Type} (f : α → β) (o : Outcome α) : Outcome β := ⟨o.written, o.result.map f⟩

/-- One request on the persisted store. -/
def perform (cfg : OauthConfig) (rt : OauthRuntime) (env : OauthEnv) (request : Request) (store : Store) :
    Outcome Reply :=
  match request with
  | .register req => (registerClient rt env req store).map .client
  | .authorize baseUrl req => (authorize cfg env baseUrl req store).map .redirect
  | .exchange baseUrl req => (exchangeCode cfg rt env baseUrl req store).map .tokens
  | .refresh baseUrl req => (refreshAccessToken cfg rt env baseUrl req store).map .tokens
  | .verify token baseUrl => (verifyAccessToken cfg env token baseUrl store).map .verdict

/-- A request with its clock readings and draws. -/
structure Call where
  request : Request
  env : OauthEnv

def runCall (cfg : OauthConfig) (rt : OauthRuntime) (call : Call) (store : Store) : Outcome Reply :=
  perform cfg rt call.env call.request store

/-- The persisted store after a sequence of calls. -/
def storeAfter (cfg : OauthConfig) (rt : OauthRuntime) : List Call → Store → Store
  | [], store => store
  | call :: calls, store => storeAfter cfg rt calls ((runCall cfg rt call store).after store)

/-- The stores that calls can lead to from the empty one. -/
def Reachable (cfg : OauthConfig) (rt : OauthRuntime) (store : Store) : Prop :=
  ∃ calls, store = storeAfter cfg rt calls .empty

theorem storeAfter_append (cfg : OauthConfig) (rt : OauthRuntime) (cs ds : List Call) (store : Store) :
    storeAfter cfg rt (cs ++ ds) store = storeAfter cfg rt ds (storeAfter cfg rt cs store) := by
  induction cs generalizing store with
  | nil => rfl
  | cons c cs ih => exact ih _

/-- What every call preserves holds in every reachable store. -/
theorem reachable_induction {cfg : OauthConfig} {rt : OauthRuntime} {P : Store → Prop} (hempty : P .empty)
    (hstep : ∀ call s, P s → P ((runCall cfg rt call s).after s)) {s : Store} (h : Reachable cfg rt s) : P s := by
  have hrun : ∀ calls s, P s → P (storeAfter cfg rt calls s) := by
    intro calls
    induction calls with
    | nil => exact fun s hs => hs
    | cons call calls ih => exact fun s hs => ih _ (hstep call s hs)
  obtain ⟨calls, rfl⟩ := h
  exact hrun calls _ hempty

end WebOauthMcp.OauthOperations
