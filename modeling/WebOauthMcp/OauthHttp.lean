import WebOauthMcp.BytePages
import WebOauthMcp.ConsentPage
import WebOauthMcp.HttpGate
import WebOauthMcp.OauthProvenance

/-!
# The HTTP surface of the OAuth manager

The application is a router behind the bearer middleware. Whatever a request is, it changes
the store only by operations of the manager, so what holds of every run of operations holds
of every run of requests.
-/

namespace WebOauthMcp.OauthHttp
open CodePoints Tables Words OauthStore OauthOperations OauthSteps OauthRuns OauthProvenance HttpGate
open JsonDecoding (Document FloatValue getField dictOf)
open FormEncoding (parseQsl)

variable {F : Type}

/-! ## Requests -/

structure HttpRequest where
  scope : Scope
  queryString : Bytes
  body : Bytes

/-- Why a body cannot be parsed. JSON that is nested too deeply raises no `ValueError`. -/
inductive BodyError
  | valueError
  | recursionError

/-- The web framework and the interpreter: whether a route fully matches a scope, `Request.json`,
`str` of a value that is no string, and whether a float is zero. -/
structure Framework (F : Type) where
  fullMatch : Text → List Text → Scope → Bool
  json : Bytes → Except BodyError (Document F)
  str : Document F → Text
  isZero : FloatValue F → Bool

abbrev Data (F : Type) := List (Text × Document F)

section
variable (fw : Framework F)

def formData (body : Text) : Data F := (dictOf (parseQsl body)).map fun f => (f.1, .str f.2)

/-- `_parse_request_data`. -/
def parseRequestData (req : HttpRequest) : Except BodyError (Data F) :=
  if occursIn (txt "application/json") (req.scope.header (txt "content-type")) then
    (fw.json req.body).map fun payload =>
      match payload with
      | .obj fields => fields
      | _ => []
  else
    match Utf8Units.decodeUtf8 req.body with
    | none => .error .valueError
    | some body => .ok (formData body)

def strOf : Document F → Text
  | .str t => t
  | d => fw.str d

/-- A value of `_string_values`. -/
def stringValue : Document F → Option Text
  | .null => none
  | d => some (strOf fw d)

def textField (data : Data F) (key : Text) : Option Text := (getField key data).bind (stringValue fw)

def isTruthy : Document F → Bool
  | .null => false
  | .bool b => b
  | .int i => i ≠ 0
  | .float x => !fw.isZero x
  | .str t => !t.isEmpty
  | .arr items => !items.isEmpty
  | .obj fields => !fields.isEmpty

def asText : Document F → Option Text
  | .str t => some t
  | _ => none

def registerRequestOf (data : Data F) : RegisterRequest where
  redirectUris :=
    match getField (txt "redirect_uris") data with
    | some (.arr items) => some (items.map asText)
    | _ => none
  clientName := ((getField (txt "client_name") data).filter (isTruthy fw)).map (strOf fw)

def authorizeRequestOf (data : Data F) : AuthorizeRequest where
  loginToken := textField fw data (txt "login_token")
  clientId := textField fw data (txt "client_id")
  redirectUri := textField fw data (txt "redirect_uri")
  codeChallenge := textField fw data (txt "code_challenge")
  responseType := textField fw data (txt "response_type")
  codeChallengeMethod := textField fw data (txt "code_challenge_method")
  resource := textField fw data (txt "resource")
  scope := textField fw data (txt "scope")
  state := textField fw data (txt "state")

def tokenRequestOf (data : Data F) : TokenRequest where
  grantType := textField fw data (txt "grant_type")
  resource := textField fw data (txt "resource")
  code := textField fw data (txt "code")
  clientId := textField fw data (txt "client_id")
  redirectUri := textField fw data (txt "redirect_uri")
  codeVerifier := textField fw data (txt "code_verifier")
  refreshToken := textField fw data (txt "refresh_token")
  scope := textField fw data (txt "scope")

end

/-! ## Replies -/

structure ServerMetadata where
  issuer : Text
  authorizationEndpoint : Text
  tokenEndpoint : Text
  registrationEndpoint : Text
  responseTypesSupported : List Text
  grantTypesSupported : List Text
  tokenEndpointAuthMethodsSupported : List Text
  codeChallengeMethodsSupported : List Text
  scopesSupported : List Text

structure ResourceMetadata where
  resource : Text
  authorizationServers : List Text
  scopesSupported : List Text
  bearerMethodsSupported : List Text
  resourceName : Text

def authorizationServerMetadata (cfg : OauthConfig) (baseUrl : Text) : ServerMetadata where
  issuer := baseUrl
  authorizationEndpoint := baseUrl ++ txt "/oauth/authorize"
  tokenEndpoint := baseUrl ++ txt "/oauth/token"
  registrationEndpoint := baseUrl ++ txt "/oauth/register"
  responseTypesSupported := [txt "code"]
  grantTypesSupported := [txt "authorization_code", txt "refresh_token"]
  tokenEndpointAuthMethodsSupported := [txt "none"]
  codeChallengeMethodsSupported := [txt "S256"]
  scopesSupported := cfg.scopes

def protectedResourceMetadata (cfg : OauthConfig) (baseUrl : Text) : ResourceMetadata where
  resource := cfg.resourceUrl baseUrl
  authorizationServers := [baseUrl]
  scopesSupported := cfg.scopes
  bearerMethodsSupported := [txt "header"]
  resourceName := txt "chatgpt-web-oauth-mcp"

inductive Cause
  | body (e : BodyError)
  | oauth (e : OauthError)

inductive HttpReply
  /-- What the middleware or the dispatcher made of the request. -/
  | handled (handling : Handling)
  | notFound
  | serverCard (schemes : List Text)
  | serverMetadata (m : ServerMetadata)
  | resourceMetadata (m : ResourceMetadata)
  | page (html : Text)
  | done (status : ℕ) (reply : Reply)
  | problem (status : ℕ) (code : Text) (cause : Cause)
  /-- An exception that no handler catches. -/
  | crashed (cause : Cause)

def bodyFailure (code : Text) : BodyError → HttpReply
  | .valueError => .problem 400 code (.body .valueError)
  | .recursionError => .crashed (.body .recursionError)

/-- `except ValueError`. -/
def valueFailure (code : Text) : OauthError → HttpReply
  | .permissionError r => .crashed (.oauth (.permissionError r))
  | .typeError => .crashed (.oauth .typeError)
  | e => .problem 400 code (.oauth e)

def authorizeFailure : OauthError → HttpReply
  | .permissionError r => .problem 401 (txt "access_denied") (.oauth (.permissionError r))
  | e => valueFailure (txt "invalid_request") e

def render (status : ℕ) (failure : OauthError → HttpReply) : Except OauthError Reply → HttpReply
  | .ok reply => .done status reply
  | .error e => failure e

/-! ## Routes -/

inductive Endpoint
  | serverCard
  | authorizationServer
  | protectedResource
  | register
  | authorize
  | token
  deriving DecidableEq

structure Route where
  path : Text
  methods : List Text
  endpoint : Endpoint

/-- The routes in front of the mounted dispatcher. -/
def routes : List Route :=
  [⟨txt "/.well-known/mcp.json", [txt "GET"], .serverCard⟩,
    ⟨txt "/.well-known/mcp/server-card.json", [txt "GET"], .serverCard⟩,
    ⟨txt "/.well-known/oauth-authorization-server", [txt "GET"], .authorizationServer⟩,
    ⟨txt "/.well-known/openid-configuration", [txt "GET"], .authorizationServer⟩,
    ⟨txt "/.well-known/oauth-protected-resource", [txt "GET"], .protectedResource⟩,
    ⟨txt "/.well-known/oauth-protected-resource/mcp", [txt "GET"], .protectedResource⟩,
    ⟨txt "/oauth/register", [txt "POST"], .register⟩,
    ⟨txt "/oauth/authorize", [txt "GET", txt "POST"], .authorize⟩,
    ⟨txt "/oauth/token", [txt "POST"], .token⟩]

def endpointOf (fw : Framework F) (scope : Scope) : Option Endpoint :=
  (routes.find? fun r => fw.fullMatch r.path r.methods scope).map (·.endpoint)

/-- What a handler does: it replies at once, or it performs one request of the manager. -/
inductive Action
  | reply (r : HttpReply)
  | perform (request : Request) (render : Except OauthError Reply → HttpReply)

section
variable (cfg : GateConfig) (fw : Framework F) (req : HttpRequest)

/-- `oauth_base_url`. -/
def oauthBaseUrl : Text := cfg.metadataBaseUrl req.scope.fallbackBaseUrl

/-- The parameters of the query, the last value of each. -/
def queryParams : List (Text × Text) := dictOf (parseQsl (latin1 req.queryString))

/-- A handler that parses the body and performs a request of it. -/
def performParsed (code : Text) (request : Data F → Request) (render : Except OauthError Reply → HttpReply) : Action :=
  match parseRequestData fw req with
  | .error e => .reply (bodyFailure code e)
  | .ok data => .perform (request data) render

def oauthRegister : Action :=
  performParsed fw req (txt "invalid_client_metadata") (fun data => .register (registerRequestOf fw data))
    (render 201 (valueFailure (txt "invalid_client_metadata")))

def oauthAuthorize : Action :=
  if req.scope.method = txt "GET" then .reply (.page (ConsentPage.authorizePage (queryParams req)))
  else
    performParsed fw req (txt "invalid_request")
      (fun data => .authorize (oauthBaseUrl cfg req) (authorizeRequestOf fw data)) (render 303 authorizeFailure)

def oauthToken : Action :=
  performParsed fw req (txt "invalid_grant") (fun data => .exchange (oauthBaseUrl cfg req) (tokenRequestOf fw data))
    (render 200 (valueFailure (txt "invalid_grant")))

def oauthEnabled : Prop := cfg.normalizedAuthMode = txt "oauth"

instance : Decidable (oauthEnabled cfg) := inferInstanceAs (Decidable (cfg.normalizedAuthMode = txt "oauth"))

def whenEnabled (action : Action) : Action := if oauthEnabled cfg then action else .reply .notFound

def actionOf : Endpoint → Action
  | .serverCard => .reply (.serverCard cfg.authSchemes)
  | .authorizationServer =>
    whenEnabled cfg (.reply (.serverMetadata (authorizationServerMetadata cfg.manager (oauthBaseUrl cfg req))))
  | .protectedResource =>
    whenEnabled cfg (.reply (.resourceMetadata (protectedResourceMetadata cfg.manager (oauthBaseUrl cfg req))))
  | .register => whenEnabled cfg (oauthRegister fw req)
  | .authorize => whenEnabled cfg (oauthAuthorize cfg fw req)
  | .token => whenEnabled cfg (oauthToken cfg fw req)

/-- The mounted dispatcher takes what no route does. -/
def routed : Action :=
  match endpointOf fw req.scope with
  | none => .reply (.handled (dispatch cfg req.scope))
  | some endpoint => actionOf cfg fw req endpoint

end

/-! ## The application -/

/-- A request with the readings of the clock and the draws of the middleware and of the handler. -/
structure HttpCall where
  request : HttpRequest
  gateEnv : OauthEnv
  env : OauthEnv

structure HttpServed where
  written : Option Store
  reply : HttpReply

section
variable (cfg : GateConfig) (rt : OauthRuntime) (fw : Framework F)

/-- The middleware; it hands the scope on, or answers itself. -/
def gate (call : HttpCall) (store : Store) : Served :=
  bearerAuth cfg call.gateEnv call.request.scope store (.streamable call.request.scope)

/-- What is done with a request that is handed on. -/
def handOn (call : HttpCall) (store : Store) : HttpServed :=
  match routed cfg fw call.request with
  | .reply r => ⟨none, r⟩
  | .perform request render =>
    ⟨(perform cfg.manager rt call.env request store).written, render (perform cfg.manager rt call.env request store).result⟩

/-- The middleware around the router. -/
def serveHttp (call : HttpCall) (store : Store) : HttpServed :=
  match (gate cfg call store).handling with
  | .streamable _ =>
    ⟨(handOn cfg rt fw call ((gate cfg call store).written.getD store)).written.or (gate cfg call store).written,
      (handOn cfg rt fw call ((gate cfg call store).written.getD store)).reply⟩
  | other => ⟨(gate cfg call store).written, .handled other⟩

def HttpServed.after (served : HttpServed) (store : Store) : Store := served.written.getD store

def httpStoreAfter : List HttpCall → Store → Store
  | [], store => store
  | call :: calls, store => httpStoreAfter calls ((serveHttp cfg rt fw call store).after store)

/-! ## Its operations -/

/-- The access token that the middleware verifies. -/
def gateCalls (call : HttpCall) : List Call :=
  if call.request.scope.isExempt then []
  else if cfg.normalizedAuthMode ≠ txt "oauth" then []
  else if (tokenMatches call.request.scope.providedToken cfg.authToken).isNone then []
  else [⟨.verify call.request.scope.providedToken (oauthBaseUrl cfg call.request), call.gateEnv⟩]

def routeCalls (call : HttpCall) : List Call :=
  match routed cfg fw call.request with
  | .reply _ => []
  | .perform request _ => [⟨request, call.env⟩]

def isHandedOn : Handling → Bool
  | .streamable _ => true
  | _ => false

/-- The operations of the manager that a request performs. -/
def oauthCalls (call : HttpCall) (store : Store) : List Call :=
  gateCalls cfg call ++ if isHandedOn (gate cfg call store).handling then routeCalls cfg fw call else []

def allCalls : List HttpCall → Store → List Call
  | [], _ => []
  | call :: calls, store => oauthCalls cfg fw call store ++ allCalls calls ((serveHttp cfg rt fw call store).after store)

end

/-! ## Requests are runs of operations -/

variable {cfg : GateConfig} {rt : OauthRuntime} {fw : Framework F} {call : HttpCall} {calls : List HttpCall} {s : Store}

theorem serveIf_written (written : Option Store) (matched : Option Bool) (admitted : Handling) (challenge : Text) :
    (serveIf written matched admitted challenge).written = written := by
  rcases matched with _ | _ | _
  · rfl
  · rfl
  · rfl

theorem oauthGate_written {env : OauthEnv} {scope : Scope} (admitted : Handling)
    (h : (tokenMatches scope.providedToken cfg.authToken).isSome = true) :
    (oauthGate cfg env scope s admitted).written =
      (verifyAccessToken cfg.manager env scope.providedToken (cfg.metadataBaseUrl scope.fallbackBaseUrl) s).written := by
  obtain ⟨matched, hmatched⟩ := Option.isSome_iff_exists.mp h
  rw [oauthGate, hmatched]
  simp only
  split
  · rfl
  · apply serveIf_written

/-- The middleware changes the store as the verification of the token does. -/
theorem gate_after (cfg : GateConfig) (rt : OauthRuntime) (call : HttpCall) (s : Store) :
    (gate cfg call s).written.getD s = storeAfter cfg.manager rt (gateCalls cfg call) s := by
  rw [gate, bearerAuth, gateCalls]
  by_cases hexempt : call.request.scope.isExempt = true
  · rw [if_pos hexempt, if_pos hexempt]
    rfl
  rw [if_neg hexempt, if_neg hexempt]
  by_cases hmode : cfg.normalizedAuthMode = txt "oauth"
  · have hnone : cfg.normalizedAuthMode ≠ txt "none" := by
      rw [hmode]
      decide
    have hshared : cfg.normalizedAuthMode ≠ txt "shared_token" := by
      rw [hmode]
      decide
    rw [if_neg hnone, if_neg hshared, if_pos hmode, if_neg (not_not.mpr hmode)]
    by_cases hmatch : (tokenMatches call.request.scope.providedToken cfg.authToken).isNone = true
    · rw [if_pos hmatch, oauthGate, Option.isNone_iff_eq_none.mp hmatch]
      rfl
    · rw [if_neg hmatch, oauthGate_written _ (Option.isSome_iff_ne_none.mpr (by simpa using hmatch))]
      rfl
  · rw [if_pos hmode, if_neg hmode]
    split_ifs
    · rfl
    · rw [serveIf_written]
      rfl
    · rfl

theorem handOn_after (cfg : GateConfig) (rt : OauthRuntime) (fw : Framework F) (call : HttpCall) (s : Store) :
    (handOn cfg rt fw call s).written.getD s = storeAfter cfg.manager rt (routeCalls cfg fw call) s := by
  rw [handOn, routeCalls]
  cases routed cfg fw call.request with
  | reply r => rfl
  | perform request render => rfl

theorem getD_or (a b : Option Store) (s : Store) : (a.or b).getD s = a.getD (b.getD s) := by
  cases a with
  | none => rfl
  | some _ => rfl

/-- One request changes the store as its operations do, one after the other. -/
theorem serveHttp_after (cfg : GateConfig) (rt : OauthRuntime) (fw : Framework F) (call : HttpCall) (s : Store) :
    (serveHttp cfg rt fw call s).after s = storeAfter cfg.manager rt (oauthCalls cfg fw call s) s := by
  have hgate := gate_after cfg rt call s
  rw [HttpServed.after, serveHttp, oauthCalls, storeAfter_append, ← hgate]
  cases (gate cfg call s).handling with
  | streamable scope =>
    simp only [isHandedOn, if_true]
    rw [getD_or, handOn_after]
  | legacySse scope => rfl
  | respond r => rfl
  | raised e => rfl

theorem httpStoreAfter_eq (cfg : GateConfig) (rt : OauthRuntime) (fw : Framework F) (calls : List HttpCall) (s : Store) :
    httpStoreAfter cfg rt fw calls s = storeAfter cfg.manager rt (allCalls cfg rt fw calls s) s := by
  induction calls generalizing s with
  | nil => rfl
  | cons call calls ih => rw [httpStoreAfter, ih, allCalls, storeAfter_append, ← serveHttp_after]

theorem mem_allCalls {c : Call} (h : c ∈ allCalls cfg rt fw calls s) :
    ∃ call ∈ calls, c ∈ gateCalls cfg call ∨ c ∈ routeCalls cfg fw call := by
  induction calls generalizing s with
  | nil => exact absurd h List.not_mem_nil
  | cons call calls ih =>
    rcases List.mem_append.mp h with hfirst | hlater
    · refine ⟨call, List.mem_cons_self, ?_⟩
      rcases List.mem_append.mp hfirst with hgate | hroute
      · exact .inl hgate
      · split_ifs at hroute
        · exact .inr hroute
        · exact absurd hroute List.not_mem_nil
    · obtain ⟨call', hmem, hc⟩ := ih hlater
      exact ⟨call', List.mem_cons_of_mem call hmem, hc⟩

/-! ## Which requests log in -/

/-- A request that the handler of the authorize route turns into this request of the manager. -/
structure Asks (cfg : GateConfig) (fw : Framework F) (req : HttpRequest) (a : AuthorizeRequest) : Prop where
  route : endpointOf fw req.scope = some .authorize
  method : req.scope.method ≠ txt "GET"
  data : ∃ data, parseRequestData fw req = .ok data ∧ a = authorizeRequestOf fw data

theorem request_of_gateCalls {c : Call} (h : c ∈ gateCalls cfg call) : ∃ token baseUrl, c.request = .verify token baseUrl := by
  rw [gateCalls] at h
  split_ifs at h
  · exact absurd h List.not_mem_nil
  · exact absurd h List.not_mem_nil
  · exact absurd h List.not_mem_nil
  · rw [List.mem_singleton.mp h]
    exact ⟨_, _, rfl⟩

theorem performParsed_perform {req : HttpRequest} {code : Text} {f : Data F → Request} {r : Except OauthError Reply → HttpReply}
    {request : Request} {render : Except OauthError Reply → HttpReply}
    (h : performParsed fw req code f r = .perform request render) :
    ∃ data, parseRequestData fw req = .ok data ∧ request = f data := by
  rw [performParsed] at h
  cases hdata : parseRequestData fw req with
  | error e =>
    rw [hdata] at h
    exact nomatch h
  | ok data =>
    rw [hdata] at h
    injection h with hrequest
    exact ⟨data, rfl, hrequest.symm⟩

theorem asks_of_routeCalls {c : Call} {baseUrl : Text} {a : AuthorizeRequest} (h : c ∈ routeCalls cfg fw call)
    (hrequest : c.request = .authorize baseUrl a) : Asks cfg fw call.request a := by
  rw [routeCalls] at h
  cases hrouted : routed cfg fw call.request with
  | reply r =>
    rw [hrouted] at h
    exact absurd h List.not_mem_nil
  | perform request render =>
    rw [hrouted] at h
    rw [List.mem_singleton.mp h] at hrequest
    simp only at hrequest
    subst hrequest
    rw [routed] at hrouted
    cases hendpoint : endpointOf fw call.request.scope with
    | none =>
      rw [hendpoint] at hrouted
      exact nomatch hrouted
    | some endpoint =>
      rw [hendpoint] at hrouted
      cases endpoint with
      | serverCard => exact nomatch hrouted
      | authorizationServer | protectedResource =>
        simp only [actionOf, whenEnabled] at hrouted
        split_ifs at hrouted
      | register =>
        simp only [actionOf, whenEnabled] at hrouted
        split_ifs at hrouted
        obtain ⟨data, -, hsame⟩ := performParsed_perform hrouted
        exact nomatch hsame
      | token =>
        simp only [actionOf, whenEnabled] at hrouted
        split_ifs at hrouted
        obtain ⟨data, -, hsame⟩ := performParsed_perform hrouted
        exact nomatch hsame
      | authorize =>
        simp only [actionOf, whenEnabled, oauthAuthorize] at hrouted
        split_ifs at hrouted with henabled hget
        obtain ⟨data, hdata, hsame⟩ := performParsed_perform hrouted
        injection hsame with _ ha
        exact ⟨hendpoint, hget, data, hdata, ha⟩

/-! ## Who reaches the endpoint -/

/-- The middleware hands on, or answers itself. -/
theorem bearerAuth_cases (cfg : GateConfig) (env : OauthEnv) (scope : Scope) (s : Store) (admitted : Handling) :
    (bearerAuth cfg env scope s admitted).handling = admitted ∨
      (∃ r, (bearerAuth cfg env scope s admitted).handling = .respond r) ∨
      ∃ e, (bearerAuth cfg env scope s admitted).handling = .raised e := by
  have hserve : ∀ written matched challenge, (serveIf written matched admitted challenge).handling = admitted ∨
      (∃ r, (serveIf written matched admitted challenge).handling = .respond r) ∨
      ∃ e, (serveIf written matched admitted challenge).handling = .raised e := by
    intro written matched challenge
    rcases matched with _ | _ | _
    · exact .inr (.inr ⟨_, rfl⟩)
    · exact .inr (.inl ⟨_, rfl⟩)
    · exact .inl rfl
  rw [bearerAuth]
  split_ifs
  · exact .inl rfl
  · exact .inl rfl
  · apply hserve
  · rw [oauthGate]
    cases tokenMatches scope.providedToken cfg.authToken with
    | none => exact .inr (.inr ⟨_, rfl⟩)
    | some matched =>
      simp only
      split
      · exact .inr (.inr ⟨_, rfl⟩)
      · apply hserve
  · exact .inr (.inl ⟨_, rfl⟩)

/-- A protected application handles the request. -/
def HttpReply.Reaches (mcpPath : Text) : HttpReply → Prop
  | .handled h => h.Protected mcpPath
  | _ => False

instance decidable_protected (mcpPath : Text) : (h : Handling) → Decidable (h.Protected mcpPath)
  | .streamable scope => inferInstanceAs (Decidable (scope.path = mcpPath))
  | .legacySse _ => isTrue trivial
  | .respond _ => isFalse id
  | .raised _ => isFalse id

instance decidable_reaches (mcpPath : Text) : (r : HttpReply) → Decidable (r.Reaches mcpPath)
  | .handled h => decidable_protected mcpPath h
  | .notFound => isFalse id
  | .serverCard _ => isFalse id
  | .serverMetadata _ => isFalse id
  | .resourceMetadata _ => isFalse id
  | .page _ => isFalse id
  | .done _ _ => isFalse id
  | .problem _ _ _ => isFalse id
  | .crashed _ => isFalse id

def HttpReply.isHandled : HttpReply → Bool
  | .handled _ => true
  | _ => false

/-- The handler does not answer for the dispatcher. -/
def Action.Own : Action → Prop
  | .reply r => r.isHandled = false
  | .perform _ render => ∀ result, (render result).isHandled = false

theorem isHandled_valueFailure (code : Text) (e : OauthError) : (valueFailure code e).isHandled = false := by
  cases e <;> rfl

theorem isHandled_authorizeFailure (e : OauthError) : (authorizeFailure e).isHandled = false := by
  cases e <;> rfl

theorem isHandled_render {status : ℕ} {failure : OauthError → HttpReply} (h : ∀ e, (failure e).isHandled = false)
    (result : Except OauthError Reply) : (render status failure result).isHandled = false := by
  cases result with
  | ok reply => rfl
  | error e => exact h e

theorem performParsed_own {req : HttpRequest} {code : Text} {f : Data F → Request} {r : Except OauthError Reply → HttpReply}
    (h : ∀ result, (r result).isHandled = false) : (performParsed fw req code f r).Own := by
  rw [performParsed]
  cases parseRequestData fw req with
  | error e => cases e <;> rfl
  | ok data => exact h

theorem whenEnabled_own {action : Action} (h : action.Own) : (whenEnabled cfg action).Own := by
  rw [whenEnabled]
  split_ifs
  · exact h
  · rfl

theorem actionOf_own (cfg : GateConfig) (fw : Framework F) (req : HttpRequest) (endpoint : Endpoint) :
    (actionOf cfg fw req endpoint).Own := by
  cases endpoint with
  | serverCard => rfl
  | authorizationServer => exact whenEnabled_own rfl
  | protectedResource => exact whenEnabled_own rfl
  | register => exact whenEnabled_own (performParsed_own (isHandled_render (isHandled_valueFailure _)))
  | token => exact whenEnabled_own (performParsed_own (isHandled_render (isHandled_valueFailure _)))
  | authorize =>
    apply whenEnabled_own
    rw [oauthAuthorize]
    split_ifs
    · rfl
    · exact performParsed_own (isHandled_render isHandled_authorizeFailure)

/-- Only the dispatcher handles a request that is handed on. -/
theorem handled_of_handOn {h : Handling} (hreply : (handOn cfg rt fw call s).reply = .handled h) :
    h = dispatch cfg call.request.scope := by
  rw [handOn] at hreply
  cases hendpoint : endpointOf fw call.request.scope with
  | none =>
    simp only [routed, hendpoint] at hreply
    exact (HttpReply.handled.inj hreply).symm
  | some endpoint =>
    have hown := actionOf_own cfg fw call.request endpoint
    simp only [routed, hendpoint] at hreply
    cases haction : actionOf cfg fw call.request endpoint with
    | reply r =>
      rw [haction] at hown hreply
      simp only at hreply
      rw [hreply] at hown
      exact nomatch hown
    | perform request render =>
      rw [haction] at hown hreply
      simp only at hreply
      have hresult := hown (perform cfg.manager rt call.env request s).result
      rw [hreply] at hresult
      exact nomatch hresult

/-- A request that reaches a protected application was handed on to the dispatcher. -/
theorem reaches_dispatch {mcpPath : Text} (h : (serveHttp cfg rt fw call s).reply.Reaches mcpPath) :
    (dispatch cfg call.request.scope).Protected mcpPath ∧ (gate cfg call s).handling = .streamable call.request.scope := by
  rw [serveHttp] at h
  rcases bearerAuth_cases cfg call.gateEnv call.request.scope s (.streamable call.request.scope) with hpass | ⟨r, hr⟩ | ⟨e, he⟩
  · have hgate : (gate cfg call s).handling = .streamable call.request.scope := hpass
    simp only [hgate] at h
    cases hreply : (handOn cfg rt fw call ((gate cfg call s).written.getD s)).reply with
    | handled handling =>
      rw [hreply] at h
      rw [← handled_of_handOn hreply]
      exact ⟨h, hgate⟩
    | _ =>
      rw [hreply] at h
      exact h.elim
  · have hgate : (gate cfg call s).handling = .respond r := hr
    simp only [hgate] at h
    exact h.elim
  · have hgate : (gate cfg call s).handling = .raised e := he
    simp only [hgate] at h
    exact h.elim

/-- A verified token has a live record for this server whose scope covers the configured one. -/
theorem verdict_true {cfg : OauthConfig} {env : OauthEnv} {request : Request} {s : Store} {o : Outcome Reply}
    (h : Step cfg rt env request s o) (hr : o.result = .ok (.verdict true)) {token baseUrl : Text}
    (hrequest : request = .verify token baseUrl) :
    ∃ record, s.tokens.lookup token = some record ∧ ∀ w ∈ cfg.scopes, w ∈ words record.scope := by
  cases h with
  | answered t b s valid hvalid =>
    obtain rfl : valid = true := Reply.verdict.inj (Except.ok.inj hr)
    obtain ⟨rfl, rfl⟩ := Request.verify.inj hrequest
    obtain ⟨record, hrecord, -, -, hscope⟩ := hvalid rfl
    exact ⟨record, hrecord, hscope⟩
  | authorized b a s checks encodable => exact nomatch hrequest
  | _ => simp_all [issuedReply]

/-- A login covers the configured scopes when it asks for none of them, or for all of them. -/
theorem asks_all {cfg : OauthConfig} {env : OauthEnv} {baseUrl : Text} {a : AuthorizeRequest}
    (h : ∀ w ∈ cfg.scopes, w ∈ words (authorizedRecord cfg env baseUrl a).scope) :
    requestedScopes (a.scope.getD []) = [] ∨ ∀ w ∈ cfg.scopes, w ∈ requestedScopes (a.scope.getD []) := by
  simp only [authorizedRecord] at h
  have hwords := words_withoutOfflineAccess (a.scope.getD [])
  split_ifs at h with hempty
  · rw [List.isEmpty_iff.mp hempty, words_nil] at hwords
    exact .inl hwords.symm
  · rw [hwords] at h
    exact .inr h

/-- The access token descends from a login among the requests: one to the authorize route, with the configured
login token, for an allowed redirect and for all the configured scopes. -/
def LoginFor (cfg : GateConfig) (rt : OauthRuntime) (fw : Framework F) (calls : List HttpCall) (token : Text) : Prop :=
  ∃ login ∈ calls, ∃ a m, Asks cfg fw login.request a ∧ m.call ∈ routeCalls cfg fw login ∧
    cfg.manager.loginToken ≠ [] ∧ a.loginToken = some cfg.manager.loginToken ∧
    isAllowedRedirectUri rt (a.redirectUri.getD []) = true ∧
    (requestedScopes (a.scope.getD []) = [] ∨ ∀ w ∈ cfg.manager.scopes, w ∈ requestedScopes (a.scope.getD [])) ∧
    Descends cfg.manager rt (moments cfg.manager rt (allCalls cfg rt fw calls .empty) .empty) m (.access token)

/-- The octets that `quote_plus` keeps. -/
def urlSafe : FormEncoding.SafeOctets where
  keeps b := (0x30 ≤ b.val && b.val ≤ 0x39) || (0x41 ≤ b.val && b.val ≤ 0x5A) || (0x61 ≤ b.val && b.val ≤ 0x7A) ||
    [0x5F, 0x2E, 0x2D, 0x7E].contains b.val
  plain b h := by
    simp only [Bool.or_eq_true, Bool.and_eq_true, decide_eq_true_eq, List.contains_eq_mem, List.mem_cons, List.not_mem_nil,
      or_false] at h
    simp only [List.mem_cons, List.not_mem_nil, or_false, not_or]
    omega

def sampleHttpConfig : GateConfig where
  authMode := txt "oauth"
  authToken := txt "secret"
  sharedToken := txt "secret"
  publicBaseUrl := OauthCodes.sampleBase
  manager := OauthCodes.sampleConfig

def registration : Text := txt "\x7b\"redirect_uris\":[\"https://chatgpt.com/cb\"]\x7d"

/-- Routes match by path and method; the only JSON is the registration. -/
def sampleFramework : Framework Empty where
  fullMatch path methods scope := path = scope.path && methods.contains scope.method
  json body :=
    if body = registration.flatMap utf8Bytes then .ok (.obj [(txt "redirect_uris", .arr [.str OauthCodes.sampleUri])])
    else .error .valueError
  str _ := []
  isZero _ := false

def sampleScope (method path : Text) (headers : List (Text × Text)) : Scope where
  method := method
  path := path
  rawPath := path.flatMap utf8Bytes
  scheme := txt "https"
  headers := headers.map fun h => (h.1.flatMap utf8Bytes, h.2.flatMap utf8Bytes)

/-- A request at a time, with one text for every draw. -/
def sampleCall (time : ℤ) (draw : Text) (scope : Scope) (queryString body : Text) : HttpCall where
  request := ⟨scope, queryString.flatMap utf8Bytes, body.flatMap utf8Bytes⟩
  gateEnv := (OauthCodes.callAt time draw (.verify [] [])).env
  env := (OauthCodes.callAt time draw (.verify [] [])).env

def authorizeParams : List (Text × Text) :=
  [(txt "client_id", txt "mcp_client_c1"), (txt "redirect_uri", OauthCodes.sampleUri),
    (txt "code_challenge", txt "iMnq5o6zALKXGivsnlom_0F5_WYda32GHkxlV7mq7hQ"), (txt "response_type", txt "code"),
    (txt "code_challenge_method", txt "S256"), (txt "resource", txt "https://mcp.example/mcp")]

def registerCall : HttpCall :=
  sampleCall 0 (txt "c1") (sampleScope (txt "POST") (txt "/oauth/register") [(txt "content-type", txt "application/json")])
    [] registration

def authorizeCall : HttpCall :=
  sampleCall 0 (txt "k1") (sampleScope (txt "POST") (txt "/oauth/authorize") []) []
    (FormEncoding.encodeForm urlSafe (authorizeParams ++ [(txt "login_token", txt "secret")]))

def tokenCall : HttpCall :=
  sampleCall 10 (txt "a1") (sampleScope (txt "POST") (txt "/oauth/token") []) []
    (FormEncoding.encodeForm urlSafe
      [(txt "grant_type", txt "authorization_code"), (txt "resource", txt "https://mcp.example/mcp"),
        (txt "code", txt "mcp_code_k1"), (txt "client_id", txt "mcp_client_c1"), (txt "redirect_uri", OauthCodes.sampleUri),
        (txt "code_verifier", txt "verifier")])

def useCall : HttpCall :=
  sampleCall 20 [] (sampleScope (txt "POST") (txt "/") [(txt "authorization", txt "Bearer mcp_at_a1")]) [] []

def sampleServe : HttpCall → Store → HttpServed := serveHttp sampleHttpConfig OauthCodes.sampleRuntime sampleFramework

def sampleAfter (calls : List Call) : Store := storeAfter OauthCodes.sampleConfig OauthCodes.sampleRuntime calls .empty

theorem session_store : httpStoreAfter sampleHttpConfig OauthCodes.sampleRuntime sampleFramework
    [registerCall, authorizeCall, tokenCall] .empty =
      sampleAfter [OauthCodes.sampleRegister, OauthCodes.sampleAuthorize, OauthCodes.sampleExchange (txt "verifier")] := by
  have hregister : (sampleServe registerCall .empty).after .empty = sampleAfter [OauthCodes.sampleRegister] := by
    decide +kernel
  have hauthorize : (sampleServe authorizeCall (sampleAfter [OauthCodes.sampleRegister])).after
      (sampleAfter [OauthCodes.sampleRegister]) = sampleAfter [OauthCodes.sampleRegister, OauthCodes.sampleAuthorize] := by
    decide +kernel
  have hexchange : (sampleServe tokenCall (sampleAfter [OauthCodes.sampleRegister, OauthCodes.sampleAuthorize])).after
      (sampleAfter [OauthCodes.sampleRegister, OauthCodes.sampleAuthorize]) =
        sampleAfter [OauthCodes.sampleRegister, OauthCodes.sampleAuthorize, OauthCodes.sampleExchange (txt "verifier")] := by
    decide +kernel
  rw [httpStoreAfter, httpStoreAfter, httpStoreAfter, httpStoreAfter]
  rw [sampleServe] at hregister hauthorize hexchange
  rw [hregister, hauthorize, hexchange]

/-- The parameters of the query, as a handler would find them in a form. -/
def queryData (req : HttpRequest) : Data F := (queryParams req).map fun f => (f.1, .str f.2)

theorem getField_form (key : Text) (fields : List (Text × Text)) :
    getField key (fields.map fun f => (f.1, (.str f.2 : Document F))) = (getField key fields).map .str := by
  simp only [getField, List.find?_map, Option.map_map, Function.comp_def]

theorem isEncodable_latin1 (bs : Bytes) : isEncodable (latin1 bs) = true := by
  rw [isEncodable_iff]
  intro c hc
  obtain ⟨b, -, rfl⟩ := List.mem_map.mp hc
  have hval : (Fin.ofNat 0x110000 b.val).val = b.val := Nat.mod_eq_of_lt (by omega)
  simp only [isSurrogate, hval, Bool.and_eq_false_iff, decide_eq_false_iff_not]
  omega

theorem page_of_oauthAuthorize {req : HttpRequest} {html : Text} (h : oauthAuthorize cfg fw req = .reply (.page html)) :
    html = ConsentPage.authorizePage (queryParams req) := by
  rw [oauthAuthorize] at h
  split_ifs at h
  · exact (HttpReply.page.inj (Action.reply.inj h)).symm
  · rw [performParsed] at h
    cases hdata : parseRequestData fw req with
    | error e =>
      rw [hdata] at h
      cases e <;> exact nomatch h
    | ok data =>
      rw [hdata] at h
      exact nomatch h

theorem authorizeRequestOf_login {data form : Data F} {typed : Text} (h : ∀ key, getField key form =
    if key = ConsentPage.loginTokenKey then some (.str typed) else getField key data) :
    authorizeRequestOf fw form = { authorizeRequestOf fw data with loginToken := some typed } := by
  have hlogin : textField fw form ConsentPage.loginTokenKey = some typed := by
    rw [textField, h, if_pos rfl]
    rfl
  have hother : ∀ key, key ≠ ConsentPage.loginTokenKey → textField fw form key = textField fw data key := by
    intro key hkey
    rw [textField, h, if_neg hkey, textField]
  simp only [authorizeRequestOf, AuthorizeRequest.mk.injEq]
  refine ⟨hlogin, hother _ ?_, hother _ ?_, hother _ ?_, hother _ ?_, hother _ ?_, hother _ ?_, hother _ ?_, hother _ ?_⟩
  all_goals decide

def consentGet : HttpRequest :=
  ⟨sampleScope (txt "GET") (txt "/oauth/authorize") [], (txt "client_id=c&login_token=guess").flatMap utf8Bytes, []⟩

def consentPost : HttpRequest where
  scope := sampleScope (txt "POST") (txt "/oauth/authorize") []
  queryString := []
  body := (ConsentPage.submitted urlSafe (ConsentPage.authorizePage (queryParams consentGet)) (txt "secret")).flatMap utf8Bytes

end WebOauthMcp.OauthHttp
