import WebOauthMcp.Tables
import WebOauthMcp.Words

/-!
# The OAuth store, its configuration and requests

The store is the JSON document of `oauth.json`: four tables of records. Writing it
encodes every text in it, so a store with a lone surrogate anywhere cannot be written.
-/

namespace WebOauthMcp.OauthStore
open CodePoints Tables Words

structure ClientRecord where
  clientId : Text
  clientName : Text
  redirectUris : List Text
  createdAt : ℤ
  deriving DecidableEq

structure CodeRecord where
  clientId : Text
  redirectUri : Text
  codeChallenge : Text
  scope : Text
  resource : Text
  expiresAt : ℤ
  deriving DecidableEq

structure TokenRecord where
  clientId : Text
  scope : Text
  resource : Text
  expiresAt : ℤ
  deriving DecidableEq

/-- `rotatedAt = none` for a record without the `rotated_at` key. -/
structure RefreshRecord where
  clientId : Text
  scope : Text
  resource : Text
  familyId : Text
  createdAt : ℤ
  expiresAt : ℤ
  rotatedAt : Option ℤ
  deriving DecidableEq

structure Store where
  clients : Table Text ClientRecord
  codes : Table Text CodeRecord
  tokens : Table Text TokenRecord
  refreshTokens : Table Text RefreshRecord
  deriving DecidableEq

def Store.empty : Store := ⟨∅, ∅, ∅, ∅⟩

/-! ## What can be written -/

def ClientRecord.isEncodable (r : ClientRecord) : Bool :=
  CodePoints.isEncodable r.clientId && CodePoints.isEncodable r.clientName &&
    r.redirectUris.all CodePoints.isEncodable

def CodeRecord.isEncodable (r : CodeRecord) : Bool :=
  CodePoints.isEncodable r.clientId && CodePoints.isEncodable r.redirectUri &&
    CodePoints.isEncodable r.codeChallenge && CodePoints.isEncodable r.scope &&
    CodePoints.isEncodable r.resource

def TokenRecord.isEncodable (r : TokenRecord) : Bool :=
  CodePoints.isEncodable r.clientId && CodePoints.isEncodable r.scope && CodePoints.isEncodable r.resource

def RefreshRecord.isEncodable (r : RefreshRecord) : Bool :=
  CodePoints.isEncodable r.clientId && CodePoints.isEncodable r.scope &&
    CodePoints.isEncodable r.resource && CodePoints.isEncodable r.familyId

/-- `json.dumps(store, ensure_ascii=False)` can be encoded to UTF-8. -/
def Store.isEncodable (s : Store) : Bool :=
  allRows (fun k r => CodePoints.isEncodable k && r.isEncodable) s.clients &&
    allRows (fun k r => CodePoints.isEncodable k && r.isEncodable) s.codes &&
    allRows (fun k r => CodePoints.isEncodable k && r.isEncodable) s.tokens &&
    allRows (fun k r => CodePoints.isEncodable k && r.isEncodable) s.refreshTokens

/-! ## Configuration and library functions -/

def defaultScope : Text := txt "local-ops"
def offlineAccessScope : Text := txt "offline_access"
def maxRegisteredClients : ℕ := 50
def refreshTokenReuseGraceSeconds : ℤ := 60
def rotatedRefreshTokenRetentionSeconds : ℤ := 7 * 24 * 60 * 60

/-- `OAuthRuntimeConfig` with the manager's path. The scopes are the pieces of a split. -/
structure OauthConfig where
  authToken : Text
  oauthLoginToken : Text
  oauthScopes : List Text
  oauthTokenTtlSeconds : ℤ
  oauthRefreshTokenTtlSeconds : ℤ
  mcpPath : Text
  scopesAreWords : ∀ w ∈ oauthScopes, IsWord w

def OauthConfig.loginToken (cfg : OauthConfig) : Text :=
  if cfg.oauthLoginToken.isEmpty then cfg.authToken else cfg.oauthLoginToken

def OauthConfig.scopes (cfg : OauthConfig) : List Text :=
  if cfg.oauthScopes.isEmpty then [defaultScope] else cfg.oauthScopes

def OauthConfig.scopeString (cfg : OauthConfig) : Text := joinWords cfg.scopes

/-- `text.rstrip("/")`. -/
def rstripSlash (t : Text) : Text := (t.reverse.dropWhile fun c => c = 0x2F).reverse

def OauthConfig.resourceUrl (cfg : OauthConfig) (baseUrl : Text) : Text := rstripSlash baseUrl ++ cfg.mcpPath

/-- What `urlparse` finds; `port = none` when reading the port raises. -/
structure UrlParts where
  scheme : Text
  username : Option Text
  password : Option Text
  hostname : Option Text
  port : Option (Option ℕ)
  fragment : Text

/-- Library functions: `urlparse` (none for its `ValueError`) and the SHA-256 digest. -/
structure OauthRuntime where
  urlparse : Text → Option UrlParts
  sha256 : Bytes → Bytes

/-- What one request takes from the clock and from `secrets.token_urlsafe`, in the order
of the readings. -/
structure OauthEnv where
  clock : ℕ → ℤ
  draws : ℕ → Text
  draws_ascii : ∀ i, isAscii (draws i) = true

/-! ## Digests -/

def hexDigit (n : ℕ) : CodePoint := if n < 10 then Fin.ofNat _ (0x30 + n) else Fin.ofNat _ (0x57 + n)

def hexdigest (bs : Bytes) : Text := bs.flatMap fun b => [hexDigit (b.val / 16), hexDigit (b.val % 16)]

/-- The alphabet of URL-safe base64. -/
def base64Digit (n : ℕ) : CodePoint :=
  if n < 26 then Fin.ofNat _ (0x41 + n)
  else if n < 52 then Fin.ofNat _ (0x61 + (n - 26))
  else if n < 62 then Fin.ofNat _ (0x30 + (n - 52))
  else if n = 62 then 0x2D else 0x5F

/-- `base64.urlsafe_b64encode(bs).rstrip(b"=")`. -/
def urlsafeBase64 : Bytes → Text
  | [] => []
  | [a] => [base64Digit (a.val / 4), base64Digit (a.val % 4 * 16)]
  | [a, b] => [base64Digit (a.val / 4), base64Digit (a.val % 4 * 16 + b.val / 16),
      base64Digit (b.val % 16 * 4)]
  | a :: b :: c :: rest => base64Digit (a.val / 4) :: base64Digit (a.val % 4 * 16 + b.val / 16) ::
      base64Digit (b.val % 16 * 4 + c.val / 64) :: base64Digit (c.val % 64) :: urlsafeBase64 rest

/-- `_token_hash`; encoding raises on a lone surrogate. -/
def tokenHash (rt : OauthRuntime) (token : Text) : Option Text :=
  (encodeUtf8 token).map fun bs => hexdigest (rt.sha256 bs)

/-- `_pkce_s256`; encoding to ASCII raises on anything else. -/
def pkceS256 (rt : OauthRuntime) (verifier : Text) : Option Text :=
  if isAscii verifier then some (urlsafeBase64 (rt.sha256 (verifier.flatMap utf8Bytes))) else none

/-- `hmac.compare_digest` on two strings, which must both be ASCII. -/
def compareDigest (a b : Text) : Option Bool := if isAscii a && isAscii b then some (a = b) else none

/-! ## Scopes and redirect URIs -/

def withoutOfflineAccess (scope : Text) : Text :=
  joinWords ((words scope).filter fun w => w ≠ offlineAccessScope)

/-- `_scope_set(scope) - {OFFLINE_ACCESS_SCOPE}`. -/
def requestedScopes (scope : Text) : List Text := (words scope).filter fun w => w ≠ offlineAccessScope

/-- `str.lower` on the ASCII letters, as host names have. -/
def lowerAscii (t : Text) : Text :=
  t.map fun c => if 0x41 ≤ c.val ∧ c.val ≤ 0x5A then Fin.ofNat _ (c.val + 0x20) else c

def loopbackHosts : List Text := [txt "127.0.0.1", txt "::1", txt "localhost"]

/-- `_is_allowed_redirect_uri`. -/
def isAllowedRedirectUri (rt : OauthRuntime) (uri : Text) : Bool :=
  if uri.isEmpty || (uri.head?.any isSpace) || (uri.getLast?.any isSpace) then false
  else if uri.contains 0x5C || uri.contains 0x23 then false
  else if uri.any fun c => c.val < 0x20 || c.val = 0x7F then false
  else match rt.urlparse uri with
    | none => false
    | some parsed =>
      if !parsed.fragment.isEmpty || parsed.username.isSome || parsed.password.isSome then false
      else match parsed.hostname with
        | none => false
        | some hostname =>
          if hostname.isEmpty || parsed.port.isNone then false
          else parsed.scheme = txt "https" ||
            (parsed.scheme = txt "http" && loopbackHosts.contains (lowerAscii hostname))

/-- `quote_plus`; encoding raises on a lone surrogate. -/
def quotePlus (t : Text) : Option Text :=
  (encodeUtf8 t).map fun bs => bs.flatMap fun b =>
    let n := b.val
    if (0x41 ≤ n ∧ n ≤ 0x5A) ∨ (0x61 ≤ n ∧ n ≤ 0x7A) ∨ (0x30 ≤ n ∧ n ≤ 0x39) ∨ n = 0x5F ∨ n = 0x2E ∨
      n = 0x2D ∨ n = 0x7E then [Fin.ofNat _ n]
    else if n = 0x20 then [0x2B]
    else [0x25, upperHexDigit (n / 16), upperHexDigit (n % 16)]
where
  upperHexDigit (n : ℕ) : CodePoint := if n < 10 then Fin.ofNat _ (0x30 + n) else Fin.ofNat _ (0x37 + n)

/-! ## Requests and refusals -/

/-- `redirect_uris` is none when missing or no list, an entry when it is no string. -/
structure RegisterRequest where
  redirectUris : Option (List (Option Text))
  clientName : Option Text
  deriving DecidableEq

structure AuthorizeRequest where
  loginToken : Option Text
  clientId : Option Text
  redirectUri : Option Text
  codeChallenge : Option Text
  responseType : Option Text
  codeChallengeMethod : Option Text
  resource : Option Text
  scope : Option Text
  state : Option Text
  deriving DecidableEq

structure TokenRequest where
  grantType : Option Text
  resource : Option Text
  code : Option Text
  clientId : Option Text
  redirectUri : Option Text
  codeVerifier : Option Text
  refreshToken : Option Text
  scope : Option Text
  deriving DecidableEq

/-- The refusals the manager raises itself. -/
inductive Refusal where
  | redirectUrisMissing | redirectUrisNotAllowed | tooManyClients
  | loginTokenNotConfigured | loginTokenInvalid
  | responseType | pkceRequired | resourceMismatch
  | unknownClient | redirectNotRegistered | scopeNotSupported
  | grantType | codeInvalid | codeExpired | clientMismatch | redirectMismatch | verifierInvalid
  | refreshMissing | refreshInvalid | otherResource | reuseDetected | scopeExceedsGrant
  deriving DecidableEq

def Refusal.message : Refusal → Text
  | .redirectUrisMissing => txt "redirect_uris must be a non-empty list"
  | .redirectUrisNotAllowed => txt "redirect_uris must use https or localhost"
  | .tooManyClients => txt "too many registered OAuth clients (limit " ++ decimal maxRegisteredClients ++
      txt "); remove unused entries from oauth.json or raise the limit"
  | .loginTokenNotConfigured => txt "oauth login token is not configured"
  | .loginTokenInvalid => txt "invalid login token"
  | .responseType => txt "response_type must be code"
  | .pkceRequired => txt "PKCE S256 is required"
  | .resourceMismatch => txt "resource does not match this MCP server"
  | .unknownClient => txt "unknown client_id"
  | .redirectNotRegistered => txt "redirect_uri is not registered"
  | .scopeNotSupported => txt "requested scope is not supported"
  | .grantType => txt "grant_type must be authorization_code or refresh_token"
  | .codeInvalid => txt "invalid authorization code"
  | .codeExpired => txt "authorization code expired"
  | .clientMismatch => txt "client_id mismatch"
  | .redirectMismatch => txt "redirect_uri mismatch"
  | .verifierInvalid => txt "invalid code_verifier"
  | .refreshMissing => txt "refresh_token is required"
  | .refreshInvalid => txt "invalid or expired refresh token"
  | .otherResource => txt "refresh token was issued for another resource"
  | .reuseDetected => txt "refresh token reuse detected; the grant was revoked"
  | .scopeExceedsGrant => txt "requested scope exceeds the original grant"

/-- `PermissionError` for the login token, `ValueError` for everything else refused. -/
inductive OauthError where
  | permissionError (r : Refusal)
  | valueError (r : Refusal)
  | unicodeEncodeError
  | unicodeDecodeError
  | typeError
  deriving DecidableEq

/-! ## Facts about digests, scopes and encodability -/

theorem base64Digit_ascii (n : ℕ) : (base64Digit n).val < 0x80 := by
  have hv : ∀ m, m < 0x110000 → (Fin.ofNat 0x110000 m).val = m := fun m hm => Nat.mod_eq_of_lt hm
  unfold base64Digit
  split_ifs
  · rw [hv _ (by omega)]
    omega
  · rw [hv _ (by omega)]
    omega
  · rw [hv _ (by omega)]
    omega
  · decide
  · decide

theorem isAscii_urlsafeBase64 : ∀ bs : Bytes, isAscii (urlsafeBase64 bs) = true
  | [] => rfl
  | [a] => by simp [urlsafeBase64, isAscii, base64Digit_ascii]
  | [a, b] => by simp [urlsafeBase64, isAscii, base64Digit_ascii]
  | a :: b :: c :: rest => by
    have hrest := isAscii_urlsafeBase64 rest
    simp only [isAscii] at hrest
    simp [urlsafeBase64, isAscii, base64Digit_ascii, hrest]

theorem isAscii_hexdigest (bs : Bytes) : isAscii (hexdigest bs) = true := by
  have hv : ∀ m, m < 0x110000 → (Fin.ofNat 0x110000 m).val = m := fun m hm => Nat.mod_eq_of_lt hm
  have hdigit : ∀ n, n < 16 → (hexDigit n).val < 0x80 := by
    intro n hn
    unfold hexDigit
    split_ifs
    · rw [hv _ (by omega)]
      omega
    · rw [hv _ (by omega)]
      omega
  simp only [isAscii, hexdigest, List.all_flatMap, List.all_eq_true, decide_eq_true_eq,
    List.mem_cons, List.not_mem_nil, or_false, forall_eq_or_imp, forall_eq]
  intro b _
  exact ⟨hdigit _ (by omega), hdigit _ (by omega)⟩

theorem tokenHash_encodable {rt : OauthRuntime} {token h : Text} (hh : tokenHash rt token = some h) :
    CodePoints.isEncodable h = true := by
  obtain ⟨bs, -, rfl⟩ := Option.map_eq_some_iff.mp hh
  exact isEncodable_of_isAscii (isAscii_hexdigest _)

theorem isWord_scopes (cfg : OauthConfig) : ∀ w ∈ cfg.scopes, IsWord w := by
  unfold OauthConfig.scopes
  split_ifs
  · intro w hw
    obtain rfl := List.mem_singleton.mp hw
    have hall : defaultScope.all (fun c => !isSpace c) = true := by decide
    exact ⟨by decide, by simpa using hall⟩
  · exact cfg.scopesAreWords

theorem scopes_ne_nil (cfg : OauthConfig) : cfg.scopes ≠ [] := by
  unfold OauthConfig.scopes
  split_ifs with h
  · simp
  · simpa using h

theorem words_scopeString (cfg : OauthConfig) : words cfg.scopeString = cfg.scopes :=
  words_joinWords (isWord_scopes cfg)

theorem scopeString_ne_nil (cfg : OauthConfig) : cfg.scopeString ≠ [] := fun h =>
  scopes_ne_nil cfg (joinWords_eq_nil (isWord_scopes cfg) h)

theorem isWord_requestedScopes (scope : Text) : ∀ w ∈ requestedScopes scope, IsWord w := fun _ hw =>
  isWord_of_mem_words (List.mem_of_mem_filter hw)

theorem words_withoutOfflineAccess (scope : Text) : words (withoutOfflineAccess scope) = requestedScopes scope :=
  words_joinWords (isWord_requestedScopes scope)

end WebOauthMcp.OauthStore
