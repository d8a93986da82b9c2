import WebOauthMcp.OauthOperations

/-!
# The HTTP gate

The bearer middleware in front of the dispatcher of the MCP endpoints. Both classify a request
by its method and its path, each in its own way.
-/

namespace WebOauthMcp.HttpGate
open CodePoints Words OauthStore OauthOperations

/-- An HTTP scope. Methods are ASCII. -/
structure Scope where
  method : Text
  path : Text
  rawPath : Bytes
  scheme : Text
  headers : List (Bytes × Bytes)

/-- What the providers return, and the manager's settings. -/
structure GateConfig where
  authMode : Text
  authToken : Text
  sharedToken : Text
  publicBaseUrl : Text
  manager : OauthConfig

/-! ## Texts -/

def latin1 (bs : Bytes) : Text := bs.map fun b => Fin.ofNat _ b.val

/-- `str.strip`. -/
def strip (t : Text) : Text := ((t.dropWhile isSpace).reverse.dropWhile isSpace).reverse

/-- `str.upper` on a method. -/
def upperAscii (t : Text) : Text :=
  t.map fun c => if 0x61 ≤ c.val ∧ c.val ≤ 0x7A then Fin.ofNat _ (c.val - 0x20) else c

/-- `str.lower` as far as its result is ASCII: the letters and the Kelvin sign. -/
def lowerMode (t : Text) : Text := lowerAscii (t.map fun c => if c.val = 0x212A then 0x4B else c)

def Scope.upperMethod (scope : Scope) : Text := upperAscii scope.method

/-- `Headers.get`: the first header of a name, with the default. -/
def Scope.header (scope : Scope) (name : Text) : Text :=
  match scope.headers.find? fun h => latin1 h.1 = name with
  | some h => latin1 h.2
  | none => []

/-- The dispatcher's dictionary: the last header of a name, in lower case. -/
def Scope.lastHeader (scope : Scope) (name : Text) : Text :=
  match scope.headers.reverse.find? fun h => lowerAscii (latin1 h.1) = name with
  | some h => latin1 h.2
  | none => []

/-! ## Paths -/

def legacySseMessagePaths : List Text := [txt "/messages", txt "/messages/"]

def discoveryPaths : List Text := [txt "/.well-known/mcp.json", txt "/.well-known/mcp/server-card.json"]

def oauthDiscoveryPaths : List Text :=
  [txt "/.well-known/oauth-authorization-server", txt "/.well-known/openid-configuration",
    txt "/.well-known/oauth-protected-resource", txt "/.well-known/oauth-protected-resource/mcp"]

/-- What the middleware lets through without a look at the headers. -/
def Scope.isExempt (scope : Scope) : Bool :=
  [txt "OPTIONS", txt "HEAD"].contains scope.upperMethod || discoveryPaths.contains scope.path ||
    oauthDiscoveryPaths.contains scope.path || (txt "/oauth/").isPrefixOf scope.path

/-! ## The middleware -/

/-- `_extract_bearer_token`. -/
def extractBearerToken (authorization : Text) : Text :=
  let value := strip authorization
  if (txt "bearer ").isPrefixOf (lowerAscii value) then strip (value.drop 7) else []

def Scope.providedToken (scope : Scope) : Text := extractBearerToken (scope.header (txt "authorization"))

/-- `_base_url_from_headers`. -/
def Scope.fallbackBaseUrl (scope : Scope) : Text :=
  let forwardedProto := strip ((scope.header (txt "x-forwarded-proto")).takeWhile fun c => c ≠ 0x2C)
  let proto := if forwardedProto.isEmpty then scope.scheme else forwardedProto
  rstripSlash (proto ++ txt "://" ++ strip (scope.header (txt "host")))

def GateConfig.normalizedAuthMode (cfg : GateConfig) : Text :=
  let mode := lowerMode (strip cfg.authMode)
  if !mode.isEmpty then mode else if cfg.authToken.isEmpty then txt "none" else txt "shared_token"

def GateConfig.metadataBaseUrl (cfg : GateConfig) (fallbackBaseUrl : Text) : Text :=
  if cfg.publicBaseUrl.isEmpty then rstripSlash fallbackBaseUrl else cfg.publicBaseUrl

def GateConfig.resourceMetadataUrl (cfg : GateConfig) (baseUrl : Text) : Text :=
  rstripSlash baseUrl ++ txt "/.well-known/oauth-protected-resource" ++ cfg.manager.mcpPath

inductive Response
  | unauthorized (challenge : Text)
  | noContent
  | methodNotAllowed
  | serverCard (schemes : List Text)

/-- What becomes of a request. -/
inductive Handling
  | streamable (scope : Scope)
  | legacySse (scope : Scope)
  | respond (r : Response)
  | raised (e : OauthError)

def bearerChallenge : Text := txt "Bearer realm=\"mcp\""

def GateConfig.oauthChallenge (cfg : GateConfig) (baseUrl : Text) : Text :=
  if baseUrl.isEmpty then bearerChallenge
  else bearerChallenge ++ txt ", resource_metadata=\"" ++ cfg.resourceMetadataUrl baseUrl ++
    txt "\", scope=\"" ++ cfg.manager.scopeString ++ txt "\""

def unauthorized (challenge : Text) : Handling := .respond (.unauthorized challenge)

/-- A comparison that is made only when both sides are there. -/
def tokenMatches (provided expected : Text) : Option Bool :=
  if provided.isEmpty || expected.isEmpty then some false else compareDigest provided expected

/-- The store the middleware writes, if it writes one, and what becomes of the request. -/
structure Served where
  written : Option Store
  handling : Handling

def serveIf (written : Option Store) (matched : Option Bool) (admitted : Handling) (challenge : Text) : Served :=
  match matched with
  | none => ⟨written, .raised .typeError⟩
  | some true => ⟨written, admitted⟩
  | some false => ⟨written, unauthorized challenge⟩

/-- The mode `oauth`: the access token is verified also after the static token matched. -/
def oauthGate (cfg : GateConfig) (env : OauthEnv) (scope : Scope) (store : Store) (admitted : Handling) : Served :=
  let baseUrl := cfg.metadataBaseUrl scope.fallbackBaseUrl
  match tokenMatches scope.providedToken cfg.authToken with
  | none => ⟨none, .raised .typeError⟩
  | some staticMatches =>
    let verified := verifyAccessToken cfg.manager env scope.providedToken baseUrl store
    match verified.result with
    | .error e => ⟨verified.written, .raised e⟩
    | .ok oauthMatches =>
      serveIf verified.written (some (staticMatches || oauthMatches)) admitted (cfg.oauthChallenge baseUrl)

/-- `HTTPBearerAuthMiddleware.__call__`; `admitted` is what the wrapped application does. -/
def bearerAuth (cfg : GateConfig) (env : OauthEnv) (scope : Scope) (store : Store) (admitted : Handling) : Served :=
  if scope.isExempt then ⟨none, admitted⟩
  else if cfg.normalizedAuthMode = txt "none" then ⟨none, admitted⟩
  else if cfg.normalizedAuthMode = txt "shared_token" then
    serveIf none (tokenMatches scope.providedToken (strip cfg.sharedToken)) admitted bearerChallenge
  else if cfg.normalizedAuthMode = txt "oauth" then oauthGate cfg env scope store admitted
  else ⟨none, unauthorized bearerChallenge⟩

/-! ## The dispatcher -/

def GateConfig.authSchemes (cfg : GateConfig) : List Text :=
  if cfg.normalizedAuthMode = txt "none" then []
  else if cfg.normalizedAuthMode = txt "oauth" then [txt "oauth2", txt "bearer"]
  else if (strip cfg.sharedToken).isEmpty then [] else [txt "bearer"]

/-- The root is an alias of the endpoint. -/
def aliasRoot (mcpPath : Text) (scope : Scope) : Scope :=
  if scope.path = txt "/" then { scope with path := mcpPath, rawPath := mcpPath.flatMap utf8Bytes } else scope

/-- Whether `piece` occurs in the text. -/
def occursIn (piece : Text) : Text → Bool
  | [] => piece.isEmpty
  | c :: t => piece.isPrefixOf (c :: t) || occursIn piece t

def dispatchEndpoint (cfg : GateConfig) (scope : Scope) : Handling :=
  if scope.upperMethod = txt "HEAD" then .respond .noContent
  else if scope.upperMethod = txt "OPTIONS" then .respond .noContent
  else if [txt "POST", txt "DELETE"].contains scope.upperMethod then .streamable scope
  else if scope.upperMethod ≠ txt "GET" then .respond .methodNotAllowed
  else if !occursIn (txt "text/event-stream") (lowerAscii (scope.lastHeader (txt "accept"))) then
    .respond (.serverCard cfg.authSchemes)
  else if !(strip (scope.lastHeader (txt "mcp-session-id"))).isEmpty then .streamable scope
  else .legacySse scope

/-- `MCPCompatibilityDispatcher.__call__`. -/
def dispatch (cfg : GateConfig) (request : Scope) : Handling :=
  let scope := aliasRoot cfg.manager.mcpPath request
  if legacySseMessagePaths.contains scope.path then .legacySse scope
  else if scope.path ≠ cfg.manager.mcpPath then .streamable scope
  else dispatchEndpoint cfg scope

/-- The middleware around the dispatcher. -/
def serve (cfg : GateConfig) (env : OauthEnv) (scope : Scope) (store : Store) : Served :=
  bearerAuth cfg env scope store (dispatch cfg scope)

/-! ## Who gets through -/

variable {cfg : GateConfig} {env : OauthEnv} {scope : Scope} {store : Store}

/-- The streamable application at its endpoint, or the SSE application. -/
def Handling.Protected (mcpPath : Text) : Handling → Prop
  | .streamable scope => scope.path = mcpPath
  | .legacySse _ => True
  | .respond _ => False
  | .raised _ => False

/-- The request carries the static bearer that its mode accepts. -/
def CarriesStaticBearer (cfg : GateConfig) (scope : Scope) : Prop :=
  scope.providedToken ≠ [] ∧
    (cfg.normalizedAuthMode = txt "shared_token" ∧ scope.providedToken = strip cfg.sharedToken ∨
      cfg.normalizedAuthMode = txt "oauth" ∧ scope.providedToken = cfg.authToken)

/-- The request carries an access token that is verified for its base URL. -/
def CarriesAccessToken (cfg : GateConfig) (env : OauthEnv) (scope : Scope) (store : Store) : Prop :=
  cfg.normalizedAuthMode = txt "oauth" ∧
    (verifyAccessToken cfg.manager env scope.providedToken (cfg.metadataBaseUrl scope.fallbackBaseUrl) store).result =
      .ok true

theorem tokenMatches_eq_true {provided expected : Text} (h : tokenMatches provided expected = some true) :
    provided ≠ [] ∧ provided = expected := by
  rw [tokenMatches] at h
  by_cases hempty : (provided.isEmpty || expected.isEmpty) = true
  · rw [if_pos hempty] at h
    exact nomatch h
  · rw [if_neg hempty, compareDigest] at h
    split_ifs at h
    refine ⟨fun hnil => hempty ?_, by simpa using h⟩
    simp [hnil]

theorem serveIf_protected {written : Option Store} {matched : Option Bool} {admitted : Handling} {challenge mcpPath : Text}
    (h : (serveIf written matched admitted challenge).handling.Protected mcpPath) :
    matched = some true ∧ admitted.Protected mcpPath := by
  cases matched with
  | none => exact nomatch h
  | some b => cases b with
    | true => exact ⟨rfl, h⟩
    | false => exact nomatch h

theorem oauthGate_protected {admitted : Handling} {mcpPath : Text} (hmode : cfg.normalizedAuthMode = txt "oauth")
    (h : (oauthGate cfg env scope store admitted).handling.Protected mcpPath) :
    (CarriesStaticBearer cfg scope ∨ CarriesAccessToken cfg env scope store) ∧ admitted.Protected mcpPath := by
  simp only [oauthGate] at h
  cases hstatic : tokenMatches scope.providedToken cfg.authToken with
  | none =>
    rw [hstatic] at h
    exact nomatch h
  | some staticMatches =>
    rw [hstatic] at h
    simp only at h
    split at h
    · exact nomatch h
    · next oauthMatches hverified =>
      have hboth := serveIf_protected h
      refine ⟨?_, hboth.2⟩
      cases hs : staticMatches with
      | true =>
        rw [hs] at hstatic
        have hmatch := tokenMatches_eq_true hstatic
        exact .inl ⟨hmatch.1, .inr ⟨hmode, hmatch.2⟩⟩
      | false =>
        have hoauth : oauthMatches = true := by simpa [hs] using hboth.1
        exact .inr ⟨hmode, hoauth ▸ hverified⟩

/-- Beyond the exemptions, only a bearer of the mode gets through. -/
theorem bearerAuth_protected {admitted : Handling} {mcpPath : Text} (hmode : cfg.normalizedAuthMode ≠ txt "none")
    (hexempt : scope.isExempt = false) (h : (bearerAuth cfg env scope store admitted).handling.Protected mcpPath) :
    CarriesStaticBearer cfg scope ∨ CarriesAccessToken cfg env scope store := by
  rw [bearerAuth, if_neg (by simp [hexempt]), if_neg hmode] at h
  split_ifs at h with hshared hoauth
  · have hmatch := tokenMatches_eq_true (serveIf_protected h).1
    exact .inl ⟨hmatch.1, .inl ⟨hshared, hmatch.2⟩⟩
  · exact (oauthGate_protected hoauth h).1
  · exact nomatch h

/-- The dispatcher leads to a protected application only from the endpoint, its alias, and the
paths of SSE messages. -/
theorem dispatch_protected (h : (dispatch cfg scope).Protected cfg.manager.mcpPath) :
    scope.path = txt "/" ∨ scope.path = cfg.manager.mcpPath ∨ scope.path ∈ legacySseMessagePaths := by
  by_cases hroot : scope.path = txt "/"
  · exact .inl hroot
  · right
    simp only [dispatch, aliasRoot, if_neg hroot] at h
    split_ifs at h with hlegacy hother
    · exact .inr (by simpa using hlegacy)
    · exact absurd h hother
    · exact .inl (not_not.mp hother)

/-- Under the configured path, no path that leads to a protected application is exempt. -/
theorem not_exempt_of_protected (hpath : cfg.manager.mcpPath = txt "/mcp")
    (hmethod : scope.upperMethod ≠ txt "HEAD" ∧ scope.upperMethod ≠ txt "OPTIONS")
    (h : (dispatch cfg scope).Protected cfg.manager.mcpPath) : scope.isExempt = false := by
  have hmethods : [txt "OPTIONS", txt "HEAD"].contains scope.upperMethod = false := by
    simp [hmethod.1, hmethod.2]
  have hpaths : scope.path ∈ [txt "/", txt "/mcp", txt "/messages", txt "/messages/"] := by
    have hcases := dispatch_protected h
    rw [hpath] at hcases
    simpa [legacySseMessagePaths] using hcases
  have hall : ∀ p ∈ [txt "/", txt "/mcp", txt "/messages", txt "/messages/"],
      (discoveryPaths.contains p || oauthDiscoveryPaths.contains p || (txt "/oauth/").isPrefixOf p) = false := by decide
  have hnone := hall scope.path hpaths
  simp only [Scope.isExempt, hmethods, Bool.false_or]
  exact hnone

/-- Whatever the middleware does with a request that is not exempt, it admits or refuses it. -/
theorem bearerAuth_admits {admitted : Handling} {mcpPath : Text}
    (h : (bearerAuth cfg env scope store admitted).handling.Protected mcpPath) : admitted.Protected mcpPath := by
  rw [bearerAuth] at h
  split_ifs at h with hexempt hnone hshared hoauth
  · exact h
  · exact h
  · exact (serveIf_protected h).2
  · exact (oauthGate_protected hoauth h).2
  · exact nomatch h

/-- A request without a bearer reaches neither the streamable application at `/mcp` nor the SSE
application, in every mode but `none`. -/
theorem unauthenticated_not_served (cfg : GateConfig) (env : OauthEnv) (scope : Scope) (store : Store)
    (hpath : cfg.manager.mcpPath = txt "/mcp") (hmode : cfg.normalizedAuthMode ≠ txt "none")
    (hmethod : scope.upperMethod ≠ txt "HEAD" ∧ scope.upperMethod ≠ txt "OPTIONS")
    (hstatic : ¬CarriesStaticBearer cfg scope) (htoken : ¬CarriesAccessToken cfg env scope store) :
    (∀ passed, (serve cfg env scope store).handling = .streamable passed → passed.path ≠ txt "/mcp") ∧
      ∀ passed, (serve cfg env scope store).handling ≠ .legacySse passed := by
  have hnot : ¬(serve cfg env scope store).handling.Protected cfg.manager.mcpPath := by
    intro h
    have hexempt := not_exempt_of_protected hpath hmethod (bearerAuth_admits h)
    cases bearerAuth_protected hmode hexempt h with
    | inl hs => exact hstatic hs
    | inr ht => exact htoken ht
  refine ⟨fun passed hpassed heq => hnot ?_, fun passed hpassed => hnot ?_⟩
  · rw [hpassed]
    exact heq.trans hpath.symm
  · rw [hpassed]
    trivial

theorem noScopes_areWords : ∀ w ∈ ([] : List Text), IsWord w := fun _ => nofun

def sampleGate (authMode : Text) : GateConfig where
  authMode := authMode
  authToken := txt "secret"
  sharedToken := txt "secret"
  publicBaseUrl := []
  manager := ⟨txt "secret", [], [], 60, 60, txt "/mcp", noScopes_areWords⟩

def samplePost (bearer : Text) : Scope where
  method := txt "post"
  path := txt "/"
  rawPath := [0x2F]
  scheme := txt "https"
  headers := [(txt "authorization", txt "Bearer " ++ bearer)].map fun h => (h.1.flatMap utf8Bytes, h.2.flatMap utf8Bytes)

def sampleEnv : OauthEnv := ⟨fun _ => 0, fun _ => [], fun _ => rfl⟩

theorem wrong_bearer_not_served :
    (∀ passed, (serve (sampleGate (txt "OAuth")) sampleEnv (samplePost (txt "guess")) .empty).handling =
      .streamable passed → passed.path ≠ txt "/mcp") ∧
      ∀ passed, (serve (sampleGate (txt "OAuth")) sampleEnv (samplePost (txt "guess")) .empty).handling ≠
        .legacySse passed := by
  apply unauthenticated_not_served (sampleGate (txt "OAuth")) sampleEnv (samplePost (txt "guess")) .empty rfl
  · decide +kernel
  · decide +kernel
  · intro h
    cases h.2 with
    | inl hshared => exact absurd hshared.1 (by decide +kernel)
    | inr hoauth => exact absurd hoauth.2 (by decide +kernel)
  · intro h
    exact absurd h.2 (by decide +kernel)

example : (serve (sampleGate []) sampleEnv (samplePost (txt " secret ")) .empty).handling =
    .streamable { samplePost (txt " secret ") with path := txt "/mcp", rawPath := (txt "/mcp").flatMap utf8Bytes } := rfl

end WebOauthMcp.HttpGate
