import WebOauthMcp.OauthCodes

/-!
# Provenance of credentials

Every credential in a reachable store goes back, trade by trade, to one authorize call that
passed the login check, and its scope never leaves the scope that call granted.
-/

namespace WebOauthMcp.OauthProvenance
open CodePoints Tables Words OauthStore OauthOperations OauthSteps OauthRuns OauthCodes

/-- What the manager hands out; a refresh token is known by its hash. -/
inductive Credential where
  | code (code : Text)
  | access (token : Text)
  | refresh (hash : Text)

/-- The request presents this credential. -/
inductive Presented (rt : OauthRuntime) (request : Request) : Credential → Prop
  | code {baseUrl : Text} {req : TokenRequest} (exchange : request = .exchange baseUrl req)
      (grantType : req.grantType = some (txt "authorization_code")) : Presented rt request (.code (req.code.getD []))
  | refresh {baseUrl hash : Text} {req : TokenRequest} (refresh : IsRefresh request baseUrl req)
      (token : tokenHash rt (req.refreshToken.getD []) = some hash) : Presented rt request (.refresh hash)

/-- The reply hands out this credential. -/
inductive Received (rt : OauthRuntime) (reply : TokenReply) : Credential → Prop
  | access : Received rt reply (.access reply.accessToken)
  | refresh {hash : Text} (token : tokenHash rt reply.refreshToken = some hash) : Received rt reply (.refresh hash)

/-- The credential is the code of the login, or was traded in the run for one that descends from it. -/
inductive Descends (cfg : OauthConfig) (rt : OauthRuntime) (run : List Moment) (login : Moment) : Credential → Prop
  | issued (written : (login.outcome cfg rt).written.isSome = true) :
      Descends cfg rt run login (.code (authorizationCode login.call.env))
  | traded {m : Moment} {given got : Credential} {reply : TokenReply} (mem : m ∈ run)
      (descends : Descends cfg rt run login given) (presented : Presented rt m.call.request given)
      (result : (m.outcome cfg rt).result = .ok (.tokens reply)) (received : Received rt reply got) :
      Descends cfg rt run login got

/-- An authorize call of the run that passed the login check for a registered and allowed redirect. -/
structure Login (cfg : OauthConfig) (rt : OauthRuntime) (run : List Moment) (m : Moment) (baseUrl : Text)
    (req : AuthorizeRequest) : Prop where
  mem : m ∈ run
  request_eq : m.call.request = .authorize baseUrl req
  checks : Authorized cfg baseUrl req m.before
  allowed : isAllowedRedirectUri rt (req.redirectUri.getD []) = true

/-- The credential descends from a login for this client, whose code has a configured scope
that covers this one. -/
def Grounded (cfg : OauthConfig) (rt : OauthRuntime) (run : List Moment) (c : Credential) (clientId scope : Text) :
    Prop :=
  ∃ login baseUrl req, Login cfg rt run login baseUrl req ∧ Descends cfg rt run login c ∧
    clientId = req.clientId.getD [] ∧
    (∀ w ∈ words scope, w ∈ words (authorizedRecord cfg login.call.env baseUrl req).scope) ∧
    ∀ w ∈ words (authorizedRecord cfg login.call.env baseUrl req).scope, w ∈ cfg.scopes

variable {cfg : OauthConfig} {rt : OauthRuntime} {run : List Moment} {login m : Moment}

theorem Descends.mono {run' : List Moment} {c : Credential} (h : Descends cfg rt run login c)
    (hsub : ∀ m ∈ run, m ∈ run') : Descends cfg rt run' login c := by
  induction h with
  | issued written => exact .issued written
  | traded mem _ presented result received ih => exact .traded (hsub _ mem) ih presented result received

theorem Grounded.mono {run' : List Moment} {c : Credential} {clientId scope : Text}
    (h : Grounded cfg rt run c clientId scope) (hsub : ∀ m ∈ run, m ∈ run') :
    Grounded cfg rt run' c clientId scope := by
  obtain ⟨login, baseUrl, req, hlogin, hdescends, hrest⟩ := h
  exact ⟨login, baseUrl, req, ⟨hsub _ hlogin.mem, hlogin.request_eq, hlogin.checks, hlogin.allowed⟩,
    hdescends.mono hsub, hrest⟩

/-- A trade for a scope within the one presented keeps the ground. -/
theorem Grounded.trade {given got : Credential} {clientId scope scope' : Text} {reply : TokenReply}
    (h : Grounded cfg rt run given clientId scope) (mem : m ∈ run) (presented : Presented rt m.call.request given)
    (result : (m.outcome cfg rt).result = .ok (.tokens reply)) (received : Received rt reply got)
    (hscope : ∀ w ∈ words scope', w ∈ words scope) : Grounded cfg rt run got clientId scope' := by
  obtain ⟨login, baseUrl, req, hlogin, hdescends, hclient, hcovers, hconfigured⟩ := h
  exact ⟨login, baseUrl, req, hlogin, .traded mem hdescends presented result received, hclient,
    fun w hw => hcovers w (hscope w hw), hconfigured⟩

/-! ## Scopes -/

theorem authorizedRecord_scope {env : OauthEnv} {baseUrl : Text} {req : AuthorizeRequest} {s : Store}
    (h : Authorized cfg baseUrl req s) : ∀ w ∈ words (authorizedRecord cfg env baseUrl req).scope, w ∈ cfg.scopes := by
  simp only [authorizedRecord]
  split_ifs
  · rw [words_scopeString]
    exact fun w hw => hw
  · rw [words_withoutOfflineAccess]
    exact h.scope

theorem orDefault_of_ne_nil {scope : Text} (h : scope ≠ []) : orDefault cfg scope = scope := by
  simp [orDefault, h]

/-- A refreshed scope lies within the scope that the refresh record carries. -/
theorem refreshGrant_scope (env : OauthEnv) {req : TokenRequest} {record : RefreshRecord}
    (hscope : ∀ w ∈ requestedScopes (req.scope.getD []), w ∈ words (orDefault cfg record.scope)) :
    ∀ w ∈ words (refreshGrant cfg env req record).scope, w ∈ words (orDefault cfg record.scope) := by
  simp only [refreshGrant]
  split_ifs
  · exact fun w hw => hw
  · have hword : ∀ w ∈ sortedSet (requestedScopes (req.scope.getD [])), IsWord w := by
      intro w hw
      exact isWord_requestedScopes _ w (mem_sortedSet.mp hw)
    rw [words_joinWords hword]
    intro w hw
    exact hscope w (mem_sortedSet.mp hw)

/-! ## The invariant -/

/-- Every row of the three credential tables is grounded in the run. -/
structure Provenance (cfg : OauthConfig) (rt : OauthRuntime) (run : List Moment) (s : Store) : Prop where
  codes : ∀ code record, s.codes.lookup code = some record →
    Grounded cfg rt run (.code code) record.clientId record.scope
  tokens : ∀ token record, s.tokens.lookup token = some record →
    Grounded cfg rt run (.access token) record.clientId record.scope
  refreshTokens : ∀ hash record, s.refreshTokens.lookup hash = some record →
    Grounded cfg rt run (.refresh hash) record.clientId record.scope

/-- What a call issues is grounded in the row it was issued from. -/
theorem issued_grounded (hs : Valid rt m.before) (h : Provenance cfg rt run m.before) (mem : m ∈ run) {hash : Text}
    {g : Grant} (issues : Issues cfg rt m.call.env m.call.request m.before hash g)
    (result : (m.outcome cfg rt).result = .ok (issuedReply cfg m.call.env g)) :
    Grounded cfg rt run (.access (accessTokenDrawn m.call.env)) g.clientId g.scope ∧
      Grounded cfg rt run (.refresh hash) g.clientId g.granted := by
  have hfresh := issues.fresh
  cases issues with
  | exchanged baseUrl req _ record exchange lookup _ _ =>
    have hground := h.codes _ record lookup
    have hscope : orDefault cfg record.scope = record.scope := orDefault_of_ne_nil (hs.codes _ record lookup).2
    have hpresented : Presented rt m.call.request (.code (req.code.getD [])) :=
      .code exchange.request_eq exchange.grantType
    simp only [exchangeGrant, hscope] at result ⊢
    exact ⟨hground.trade mem hpresented result .access (fun w hw => hw),
      hground.trade mem hpresented result (.refresh hfresh) (fun w hw => hw)⟩
  | refreshed baseUrl req old _ record refresh presents _ scope _ =>
    have hground := h.refreshTokens old record presents.lookup
    have hpresented : Presented rt m.call.request (.refresh old) := .refresh refresh presents.token
    have hdefault : orDefault cfg record.scope = record.scope :=
      orDefault_of_ne_nil (hs.refreshTokens old record presents.lookup).2.1
    have hcovered := refreshGrant_scope m.call.env scope
    rw [hdefault] at hcovered
    have hgranted : (refreshGrant cfg m.call.env req record).granted = record.scope := hdefault
    refine ⟨hground.trade mem hpresented result .access hcovered, ?_⟩
    rw [hgranted]
    exact hground.trade mem hpresented result (.refresh hfresh) (fun w hw => hw)

theorem authorized_grounded (hs : Valid rt m.before) (mem : m ∈ run) {baseUrl : Text} {req : AuthorizeRequest}
    (request_eq : m.call.request = .authorize baseUrl req) (checks : Authorized cfg baseUrl req m.before)
    (written : (m.outcome cfg rt).written.isSome = true) :
    Grounded cfg rt run (.code (authorizationCode m.call.env)) (req.clientId.getD [])
      (authorizedRecord cfg m.call.env baseUrl req).scope := by
  obtain ⟨client, hclient, huri⟩ := checks.registered
  have allowed := hs.clients _ client hclient _ huri
  exact ⟨m, baseUrl, req, ⟨mem, request_eq, checks, allowed⟩, .issued written, rfl, fun w hw => hw,
    authorizedRecord_scope checks⟩

theorem Provenance.mono {run' : List Moment} {s : Store} (h : Provenance cfg rt run s)
    (hsub : ∀ m ∈ run, m ∈ run') : Provenance cfg rt run' s where
  codes c r hc := (h.codes c r hc).mono hsub
  tokens t r ht := (h.tokens t r ht).mono hsub
  refreshTokens k r hk := (h.refreshTokens k r hk).mono hsub

/-- One call keeps every row grounded. -/
theorem Provenance.step (hs : Valid rt m.before) (h : Provenance cfg rt run m.before) :
    Provenance cfg rt (run ++ [m]) (m.after cfg rt) := by
  have hstep := moment_step cfg rt m
  have hmem : m ∈ run ++ [m] := by simp
  have hkept : Provenance cfg rt (run ++ [m]) m.before := h.mono fun m' hm' => List.mem_append_left _ hm'
  refine ⟨?_, ?_, ?_⟩
  · intro code record hcode
    cases code_origin hstep hcode with
    | inl hold => exact hkept.codes code record hold
    | inr hnew =>
      obtain ⟨baseUrl, req, hrequest, checks, hwritten, rfl, rfl⟩ := hnew
      exact authorized_grounded hs hmem hrequest checks hwritten
  · intro token record htoken
    cases token_origin hstep htoken with
    | inl hold => exact hkept.tokens token record hold
    | inr hnew =>
      obtain ⟨hash, g, issues, result, rfl, rfl⟩ := hnew
      exact (issued_grounded hs hkept hmem issues result).1
  · intro hash record hhash
    rcases refresh_origin hstep hhash with ⟨hold, -⟩ | ⟨g, issues, result, rfl⟩ | ⟨old, hold, rfl, -⟩
    · exact hkept.refreshTokens hash record hold
    · exact (issued_grounded hs hkept hmem issues result).2
    · rw [rotate_clientId, rotate_scope]
      exact hkept.refreshTokens hash old hold

/-- After every sequence of calls every row is grounded in them. -/
theorem provenance_run (cfg : OauthConfig) (rt : OauthRuntime) (calls : List Call) :
    Provenance cfg rt (moments cfg rt calls .empty) (storeAfter cfg rt calls .empty) := by
  induction calls using List.reverseRecOn with
  | nil =>
    refine ⟨?_, ?_, ?_⟩
    · simp [storeAfter, Store.empty]
    · simp [storeAfter, Store.empty]
    · simp [storeAfter, Store.empty]
  | append_singleton calls call ih =>
    rw [moments_append, storeAfter_append]
    exact Provenance.step (m := ⟨call, _⟩) (reachable_valid ⟨calls, rfl⟩) ih

/-- In every reachable store every code, access token and refresh token belongs to a
registered client and is grounded in a login; so is every pair of tokens replied. -/
theorem credentials_grounded (cfg : OauthConfig) (rt : OauthRuntime) (calls : List Call) :
    (∀ code record, (storeAfter cfg rt calls .empty).codes.lookup code = some record →
      ((storeAfter cfg rt calls .empty).clients.lookup record.clientId).isSome = true ∧
      Grounded cfg rt (moments cfg rt calls .empty) (.code code) record.clientId record.scope) ∧
    (∀ token record, (storeAfter cfg rt calls .empty).tokens.lookup token = some record →
      ((storeAfter cfg rt calls .empty).clients.lookup record.clientId).isSome = true ∧
      Grounded cfg rt (moments cfg rt calls .empty) (.access token) record.clientId record.scope) ∧
    (∀ hash record, (storeAfter cfg rt calls .empty).refreshTokens.lookup hash = some record →
      ((storeAfter cfg rt calls .empty).clients.lookup record.clientId).isSome = true ∧
      Grounded cfg rt (moments cfg rt calls .empty) (.refresh hash) record.clientId record.scope) ∧
    ∀ m ∈ moments cfg rt calls .empty, ∀ reply, (m.outcome cfg rt).result = .ok (.tokens reply) →
      ∃ clientId, Grounded cfg rt (moments cfg rt calls .empty) (.access reply.accessToken) clientId reply.scope := by
  have hvalid : Valid rt (storeAfter cfg rt calls .empty) := reachable_valid ⟨calls, rfl⟩
  have hrun := provenance_run cfg rt calls
  refine ⟨?_, ?_, ?_, ?_⟩
  · intro code record h
    exact ⟨(hvalid.codes code record h).1, hrun.codes code record h⟩
  · intro token record h
    exact ⟨hvalid.tokens token record h, hrun.tokens token record h⟩
  · intro hash record h
    exact ⟨(hvalid.refreshTokens hash record h).1, hrun.refreshTokens hash record h⟩
  · intro m hm reply hreply
    obtain ⟨hash, g, issues, hissued, -⟩ := tokens_reply (moment_step cfg rt m) hreply
    obtain ⟨earlier, later, hcalls, hbefore⟩ := moments_split hm
    have hsub : ∀ m' ∈ moments cfg rt earlier .empty, m' ∈ moments cfg rt calls .empty := by
      intro m' hm'
      rw [hcalls, moments_append]
      exact List.mem_append_left _ hm'
    have hearlier := (provenance_run cfg rt earlier).mono hsub
    rw [← hbefore] at hearlier
    rw [hissued] at hreply
    obtain rfl := Reply.tokens.inj hissued
    exact ⟨g.clientId, (issued_grounded (reachable_valid (moment_reachable hm)) hearlier hm issues hreply).1⟩

theorem credentials_grounded_sample :
    ((storeAfter sampleConfig sampleRuntime sampleGrantCalls .empty).clients.lookup
      (txt "mcp_client_c1")).isSome = true ∧
    Grounded sampleConfig sampleRuntime (moments sampleConfig sampleRuntime sampleGrantCalls .empty)
      (.access (txt "mcp_at_a2")) (txt "mcp_client_c1") (txt "local-ops") := by
  have hrun := credentials_grounded sampleConfig sampleRuntime sampleGrantCalls
  exact hrun.2.1 (txt "mcp_at_a2")
    ⟨txt "mcp_client_c1", txt "local-ops", txt "https://mcp.example/mcp", 3620⟩ (by decide +kernel)

end WebOauthMcp.OauthProvenance
