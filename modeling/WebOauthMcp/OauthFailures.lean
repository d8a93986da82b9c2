import WebOauthMcp.OauthFamilies
import WebOauthMcp.OauthUnreadable

/-!
# Requests that end in an error

A failing request may remove a presented code, expired refresh records, or the family of a
reused token, and nothing else. Writing is the last thing an operation does, except that an
authorization still has to put its code into a URL.
-/

namespace WebOauthMcp.OauthFailures
open CodePoints Tables Words OauthStore OauthOperations OauthSteps OauthRuns OauthCodes OauthFamilies OauthUnreadable

variable {cfg : OauthConfig} {rt : OauthRuntime} {env : OauthEnv} {request : Request} {s : Store}
variable {o : Outcome Reply} {e : OauthError}

/-- What a failing request may leave in the place of the store. -/
inductive Tolerated (cfg : OauthConfig) (rt : OauthRuntime) (env : OauthEnv) (request : Request) (s : Store) : Store → Prop
  | unchanged : Tolerated cfg rt env request s s
  | codeRemoved (baseUrl : Text) (req : TokenRequest) (exchange : IsExchange cfg request baseUrl req) :
      Tolerated cfg rt env request s (dropCode s (req.code.getD []))
  | expiredPruned (baseUrl : Text) (req : TokenRequest) (refresh : IsRefresh request baseUrl req) :
      Tolerated cfg rt env request s (pruneRefreshTokens s (env.clock 0))
  | familyRevoked (baseUrl : Text) (req : TokenRequest) (hash : Text) (record : RefreshRecord)
      (refresh : IsRefresh request baseUrl req) (presents : Presents cfg rt env baseUrl req s hash record)
      (reuse : isReuse (env.clock 0) record = true) :
      Tolerated cfg rt env request s (dropFamily (pruneRefreshTokens s (env.clock 0)) record.familyId)

/-- A refresh that presents the record as it should be presented. -/
structure ProperRefresh (cfg : OauthConfig) (rt : OauthRuntime) (env : OauthEnv) (baseUrl : Text) (req : TokenRequest)
    (s : Store) (hash : Text) (record : RefreshRecord) : Prop where
  presents : Presents cfg rt env baseUrl req s hash record
  token : req.refreshToken.getD [] ≠ []
  resource : MatchesResource cfg baseUrl req
  notReused : isReuse (env.clock 0) record = false
  scope : ∀ w ∈ requestedScopes (req.scope.getD []), w ∈ words (orDefault cfg record.scope)

/-- The record is still there, and a proper refresh with it succeeds. -/
def StillUsable (cfg : OauthConfig) (rt : OauthRuntime) (s : Store) (hash : Text) (record : RefreshRecord) : Prop :=
  s.refreshTokens.lookup hash = some record ∧ ∀ env baseUrl req, ProperRefresh cfg rt env baseUrl req s hash record →
    ∃ reply, (refreshAccessToken cfg rt env baseUrl req s).result = .ok reply

/-- The store after a failing request differs from the one before by what may go, no row is
new or altered, and a presented token that was not reused stays usable. -/
structure FailureFrame (cfg : OauthConfig) (rt : OauthRuntime) (env : OauthEnv) (request : Request) (e : OauthError)
    (s s' : Store) : Prop where
  tolerated : Tolerated cfg rt env request s s'
  clients : s'.clients = s.clients
  tokens : s'.tokens = s.tokens
  codes : ∀ code record, s'.codes.lookup code = some record → s.codes.lookup code = some record
  refreshTokens : ∀ hash record, s'.refreshTokens.lookup hash = some record → s.refreshTokens.lookup hash = some record
  usable : e ≠ .valueError .reuseDetected → ∀ hash record, presentsToken rt hash request = true →
    s.refreshTokens.lookup hash = some record → isLive (env.clock 0) record = true → StillUsable cfg rt s' hash record

/-- An authorization that passes every check, with a state that no URL can hold; the drawn
code is not stored already. -/
def StrandsCode (cfg : OauthConfig) (rt : OauthRuntime) (env : OauthEnv) (s : Store) (request : Request) : Prop :=
  ∃ baseUrl req state, request = .authorize baseUrl req ∧ Writes cfg rt env s request ∧ req.state = some state ∧
    CodePoints.isEncodable state = false ∧
    s.codes.lookup (authorizationCode env) ≠ some (authorizedRecord cfg env baseUrl req)

/-! ## The frame of a step -/

theorem stillUsable_of_lookup (hs : Valid rt s) {hash : Text} {record : RefreshRecord}
    (h : s.refreshTokens.lookup hash = some record) : StillUsable cfg rt s hash record := by
  refine ⟨h, fun env baseUrl req proper => ?_⟩
  obtain ⟨_, -, haccepted⟩ := refresh_accepted hs proper.presents proper.token proper.resource proper.notReused proper.scope
  rw [haccepted]
  exact ⟨_, rfl⟩

/-- Only the rows of the refresh table go, and live ones stay unless their family is revoked. -/
theorem tolerated_rows {s' : Store} (h : Tolerated cfg rt env request s s') :
    s'.clients = s.clients ∧ s'.tokens = s.tokens ∧
      (∀ code record, s'.codes.lookup code = some record → s.codes.lookup code = some record) ∧
      ∀ hash record, s'.refreshTokens.lookup hash = some record → s.refreshTokens.lookup hash = some record := by
  cases h with
  | unchanged => exact ⟨rfl, rfl, fun _ _ h => h, fun _ _ h => h⟩
  | codeRemoved => exact ⟨rfl, rfl, fun _ _ h => ((lookup_erase_iff _ _ _ _).mp h).2, fun _ _ h => h⟩
  | expiredPruned => exact ⟨rfl, rfl, fun _ _ h => h, fun _ _ h => ((lookup_pruned_iff _ _ _ _).mp h).1⟩
  | familyRevoked =>
    exact ⟨rfl, rfl, fun _ _ h => h, fun _ _ h => ((lookup_pruned_iff _ _ _ _).mp ((lookup_select_iff _ _ _ _).mp h).1).1⟩

theorem failureFrame_of_tolerated {s' : Store} (hs' : Valid rt s') (h : Tolerated cfg rt env request s s')
    (hkept : e ≠ .valueError .reuseDetected → ∀ hash record, presentsToken rt hash request = true →
      s.refreshTokens.lookup hash = some record → isLive (env.clock 0) record = true →
      s'.refreshTokens.lookup hash = some record) : FailureFrame cfg rt env request e s s' := by
  obtain ⟨hclients, htokens, hcodes, hrefresh⟩ := tolerated_rows h
  exact ⟨h, hclients, htokens, hcodes, hrefresh, fun hne hash record hpresents hlookup hlive =>
    stillUsable_of_lookup hs' (hkept hne hash record hpresents hlookup hlive)⟩

/-- A redirect to the client fails on its state only. -/
theorem redirectWithCode_error {redirectUri : Text} {state : Option Text}
    (h : redirectWithCode redirectUri (authorizationCode env) state = .error e) :
    ∃ t, state = some t ∧ CodePoints.isEncodable t = false := by
  have hcode : CodePoints.isEncodable (authorizationCode env) = true := isEncodable_drawn env (by decide) 0
  cases state with
  | none => simp [redirectWithCode, quotePlus, encodeUtf8, hcode] at h
  | some t =>
    refine ⟨t, rfl, ?_⟩
    rw [← Bool.not_eq_true]
    intro ht
    cases hempty : t.isEmpty with
    | true => simp [redirectWithCode, quotePlus, encodeUtf8, hcode, hempty] at h
    | false => simp [redirectWithCode, quotePlus, encodeUtf8, hcode, hempty, ht] at h

/-- Every failing step has its frame, except an authorization that has stored its code. -/
theorem error_step_frame (h : Step cfg rt env request s o) (hs : Valid rt s) (he : o.result = .error e) :
    FailureFrame cfg rt env request e s (o.after s) ∨ ∃ baseUrl req state, request = .authorize baseUrl req ∧
      o.written.isSome = true ∧ o.after s = addCode s (authorizationCode env) (authorizedRecord cfg env baseUrl req) ∧
      req.state = some state ∧ CodePoints.isEncodable state = false := by
  have hs' := hs.step h
  cases h with
  | refused => exact Or.inl (failureFrame_of_tolerated hs' .unchanged fun _ _ _ _ hlookup _ => hlookup)
  | authorized baseUrl req _ _ _ =>
    cases hred : redirectWithCode (req.redirectUri.getD []) (authorizationCode env) req.state with
    | ok url => simp [hred, Except.map] at he
    | error _ =>
      obtain ⟨state, hstate, hbad⟩ := redirectWithCode_error hred
      exact Or.inr ⟨baseUrl, req, state, rfl, rfl, rfl, hstate, hbad⟩
  | unknownCode => exact Or.inl (failureFrame_of_tolerated hs' .unchanged fun _ _ _ _ hlookup _ => hlookup)
  | codeDropped _ baseUrl req _ _ exchange _ =>
    exact Or.inl (failureFrame_of_tolerated hs' (.codeRemoved baseUrl req exchange) fun _ _ _ _ hlookup _ => hlookup)
  | pruned _ baseUrl req _ refresh _ =>
    exact Or.inl (failureFrame_of_tolerated hs' (.expiredPruned baseUrl req refresh) fun _ _ _ _ hlookup hlive =>
      (lookup_pruned_iff _ _ _ _).mpr ⟨hlookup, hlive⟩)
  | reused _ baseUrl req _ hash record refresh presents reuse _ =>
    refine Or.inl (failureFrame_of_tolerated hs' (.familyRevoked baseUrl req hash record refresh presents reuse) ?_)
    exact fun hne => absurd (Except.error.inj he).symm hne
  | exchanged => exact absurd he (by simp)
  | refreshed => exact absurd he (by simp)
  | registered => exact absurd he (by simp)
  | answered => exact absurd he (by simp)
  | expired => exact absurd he (by simp)

/-! ## The one exception -/

theorem addCode_stored {code : Text} {record : CodeRecord} (h : s.codes.lookup code = some record) :
    addCode s code record = s := by
  have hcodes : s.codes.insert code record = s.codes := by
    refine Finmap.ext_lookup fun k => Option.ext fun v => ?_
    rw [lookup_insert_iff]
    constructor
    · intro hk
      rcases hk with ⟨rfl, rfl⟩ | ⟨_, hk⟩
      · exact h
      · exact hk
    · intro hk
      by_cases hkey : k = code
      · subst hkey
        exact Or.inl ⟨rfl, Option.some.inj (h.symm.trans hk)⟩
      · exact Or.inr ⟨hkey, hk⟩
  rw [addCode, hcodes]

/-- An authorization that writes stores its code. -/
theorem authorize_stores {baseUrl : Text} {req : AuthorizeRequest} (h : Writes cfg rt env s (.authorize baseUrl req)) :
    ((perform cfg rt env (.authorize baseUrl req) s).after s).codes.lookup (authorizationCode env) =
      some (authorizedRecord cfg env baseUrl req) := by
  have hwritten := (perform_writes cfg rt env (.authorize baseUrl req) s).mpr h
  have hstep := perform_step cfg rt env (.authorize baseUrl req) s
  revert hwritten hstep
  generalize perform cfg rt env (.authorize baseUrl req) s = o
  intro hwritten hstep
  cases hstep with
  | refused => exact nomatch hwritten
  | authorized => exact Finmap.lookup_insert _
  | unknownCode _ _ _ _ exchange => exact nomatch exchange.request_eq
  | codeDropped _ _ _ _ _ exchange => exact nomatch exchange.request_eq
  | exchanged _ _ _ _ _ _ exchange => exact nomatch exchange.request_eq
  | pruned _ _ _ _ refresh => simp [IsRefresh] at refresh
  | reused _ _ _ _ _ _ refresh => simp [IsRefresh] at refresh
  | refreshed _ _ _ _ _ _ _ refresh => simp [IsRefresh] at refresh

/-- A failing request keeps to its frame exactly when it does not strand a code. -/
theorem failure_frame_iff (hs : Reachable cfg rt s) {call : Call} (h : (runCall cfg rt call s).result = .error e) :
    FailureFrame cfg rt call.env call.request e s ((runCall cfg rt call s).after s) ↔
      ¬StrandsCode cfg rt call.env s call.request := by
  have hvalid := reachable_valid hs
  constructor
  · intro hframe hstrands
    obtain ⟨baseUrl, req, _, hrequest, hwrites, -, -, hfresh⟩ := hstrands
    rw [hrequest] at hwrites
    have hstored := authorize_stores hwrites
    rw [← hrequest] at hstored
    exact hfresh (hframe.codes _ _ hstored)
  · intro hno
    cases error_step_frame (perform_step cfg rt call.env call.request s) hvalid h with
    | inl hframe => exact hframe
    | inr hstored =>
      obtain ⟨baseUrl, req, state, hrequest, hwritten, hafter, hstate, hbad⟩ := hstored
      have hwrites := (perform_writes cfg rt call.env call.request s).mp hwritten
      have hlookup : s.codes.lookup (authorizationCode call.env) = some (authorizedRecord cfg call.env baseUrl req) := by
        by_contra hfresh
        exact hno ⟨baseUrl, req, state, hrequest, hwrites, hstate, hbad, hfresh⟩
      rw [addCode_stored hlookup] at hafter
      have hsame : (runCall cfg rt call s).after s = s := hafter
      rw [hsame]
      exact failureFrame_of_tolerated hvalid .unchanged fun _ _ _ _ hlookup _ => hlookup

/-! ## A failing authorization -/

/-- A refresh of another client's token is refused, and the token stays usable. -/
def foreignRefresh : Call := callAt 20 (txt "a2")
  (.refresh sampleBase { sampleRefreshRequest (txt "mcp_rt_a1") none with clientId := some (txt "mcp_client_c2") })

def grantedStore : Store :=
  storeAfter sampleConfig sampleRuntime [sampleRegister, sampleAuthorize, sampleExchange (txt "verifier")] .empty

theorem failure_frame_foreign :
    FailureFrame sampleConfig sampleRuntime foreignRefresh.env foreignRefresh.request (.valueError .clientMismatch)
        grantedStore ((runCall sampleConfig sampleRuntime foreignRefresh grantedStore).after grantedStore) ↔
      ¬StrandsCode sampleConfig sampleRuntime foreignRefresh.env grantedStore foreignRefresh.request := by
  have hrefused : (runCall sampleConfig sampleRuntime foreignRefresh grantedStore).result =
      .error (.valueError .clientMismatch) := by decide +kernel
  exact failure_frame_iff ⟨_, rfl⟩ hrefused

/-- An authorization whose state is a lone surrogate. -/
def surrogateAuthorize : Call := callAt 0 (txt "k1") (.authorize sampleBase {
  loginToken := some (txt "secret")
  clientId := some (txt "mcp_client_c1")
  redirectUri := some sampleUri
  codeChallenge := some (txt "iMnq5o6zALKXGivsnlom_0F5_WYda32GHkxlV7mq7hQ")
  responseType := some (txt "code")
  codeChallengeMethod := some (txt "S256")
  resource := some (txt "https://mcp.example/mcp")
  scope := none
  state := some [0xD800] })

def registeredStore : Store := storeAfter sampleConfig sampleRuntime [sampleRegister] .empty

/-- The authorization ends in an error, and its code is in the store. -/
theorem failed_authorization_stores_code :
    Reachable sampleConfig sampleRuntime registeredStore ∧
    (runCall sampleConfig sampleRuntime surrogateAuthorize registeredStore).result = .error .unicodeEncodeError ∧
    registeredStore.codes.lookup (txt "mcp_code_k1") = none ∧
    ((runCall sampleConfig sampleRuntime surrogateAuthorize registeredStore).after registeredStore).codes.lookup
      (txt "mcp_code_k1") = some sampleCodeRecord :=
  ⟨⟨_, rfl⟩, by decide +kernel, by decide +kernel, by decide +kernel⟩

end WebOauthMcp.OauthFailures
