import WebOauthMcp.OauthFailures
import WebOauthMcp.OauthUsability
import WebOauthMcp.RedirectUrls

/-!
# A client that keeps to the protocol

A client registers, is authorized by its user, exchanges its code and then refreshes, each
time with the newest token. Other calls come between. What its requests get from a store that
has its rows, and how long its rows stay.
-/

namespace WebOauthMcp.OauthSessions
open CodePoints Tables Words OauthStore OauthOperations OauthSteps OauthRuns OauthCodes OauthFamilies OauthProvenance
open OauthUsability RedirectUrls

/-! ## The client -/

/-- A client with its user and the verifier that it drew. -/
structure Party where
  redirectUri : Text
  clientName : Option Text
  verifier : Text
  challenge : Text
  scope : Option Text
  state : Option Text
  baseUrl : Text

/-- What the client has learned. -/
inductive Stage
  | unregistered
  | registered (clientId : Text)
  | authorized (clientId code : Text)
  | granted (clientId accessToken refreshToken : Text)
  deriving DecidableEq

section
variable (cfg : OauthConfig) (p : Party)

def Party.registration : RegisterRequest := ⟨some [some p.redirectUri], p.clientName⟩

def Party.authorization (clientId : Text) : AuthorizeRequest where
  loginToken := some cfg.loginToken
  clientId := some clientId
  redirectUri := some p.redirectUri
  codeChallenge := some p.challenge
  responseType := some (txt "code")
  codeChallengeMethod := some (txt "S256")
  resource := some (cfg.resourceUrl p.baseUrl)
  scope := p.scope
  state := p.state

def Party.exchange (clientId code : Text) : TokenRequest where
  grantType := some (txt "authorization_code")
  resource := some (cfg.resourceUrl p.baseUrl)
  code := some code
  clientId := some clientId
  redirectUri := some p.redirectUri
  codeVerifier := some p.verifier
  refreshToken := none
  scope := none

def Party.refresh (clientId refreshToken : Text) : TokenRequest where
  grantType := some (txt "refresh_token")
  resource := none
  code := none
  clientId := some clientId
  redirectUri := none
  codeVerifier := none
  refreshToken := some refreshToken
  scope := p.scope

/-- The next request of the client. -/
def Party.request : Stage → Request
  | .unregistered => .register p.registration
  | .registered clientId => .authorize p.baseUrl (p.authorization cfg clientId)
  | .authorized clientId code => .exchange p.baseUrl (p.exchange cfg clientId code)
  | .granted clientId _ refreshToken => .exchange p.baseUrl (p.refresh clientId refreshToken)

/-- What the client makes of the reply; it checks that its state came back. -/
def Party.next : Stage → Reply → Option Stage
  | .unregistered, .client record => some (.registered record.clientId)
  | .registered clientId, .redirect url =>
    if stateFields p.state = [] ∨ queryField url (txt "state") = p.state then
      (queryField url (txt "code")).map (.authorized clientId)
    else none
  | .authorized clientId _, .tokens reply => some (.granted clientId reply.accessToken reply.refreshToken)
  | .granted clientId _ _, .tokens reply => some (.granted clientId reply.accessToken reply.refreshToken)
  | _, _ => none

end

/-- A turn of the client, or a call of somebody else. -/
inductive Turn
  | own (env : OauthEnv)
  | other (call : Call)

def Turn.env : Turn → OauthEnv
  | .own env => env
  | .other call => call.env

/-- The store, and how far the client is; `none` once one of its requests was refused. -/
structure World where
  store : Store
  stage : Option Stage

section
variable (cfg : OauthConfig) (rt : OauthRuntime) (p : Party)

def ownTurn (env : OauthEnv) (store : Store) (stage : Stage) : World where
  store := (perform cfg rt env (p.request cfg stage) store).after store
  stage :=
    match (perform cfg rt env (p.request cfg stage) store).result with
    | .ok reply => p.next stage reply
    | .error _ => none

def turn (w : World) : Turn → World
  | .other call => { w with store := (runCall cfg rt call w.store).after w.store }
  | .own env =>
    match w.stage with
    | none => w
    | some stage => ownTurn cfg rt p env w.store stage

def worldAfter (turns : List Turn) : World := turns.foldl (turn cfg rt p) ⟨.empty, some .unregistered⟩

/-- The client can be served: its texts, its login token, its verifier and the scope it asks for. -/
structure Party.Servable : Prop where
  configured : cfg.loginToken ≠ []
  login : isAscii cfg.loginToken = true
  allowed : isAllowedRedirectUri rt p.redirectUri = true
  redirectUri : isEncodable p.redirectUri = true
  clientName : p.clientName.all isEncodable = true
  state : p.state.all isEncodable = true
  resource : isEncodable (cfg.resourceUrl p.baseUrl) = true
  scopes : isEncodable cfg.scopeString = true
  pkce : pkceS256 rt p.verifier = some p.challenge
  challenge : p.challenge ≠ []
  within : ∀ w ∈ requestedScopes (p.scope.getD []), w ∈ cfg.scopes
  full : requestedScopes (p.scope.getD []) = [] ∨ Covers cfg (requestedScopes (p.scope.getD []))

end

/-! ## Runs -/

def ownEnvs (turns : List Turn) : List OauthEnv := turns.filterMap fun t =>
  match t with
  | .own env => some env
  | .other _ => none

def isRegistration : Request → Bool
  | .register _ => true
  | _ => false

def Turn.registers : Turn → Bool
  | .own _ => false
  | .other call => isRegistration call.request

/-- The call presents neither the code nor the refresh token drawn for the client. -/
structure Stranger (rt : OauthRuntime) (env : OauthEnv) (call : Call) : Prop where
  code : ∀ baseUrl req, call.request = .exchange baseUrl req → req.code.getD [] ≠ authorizationCode env
  token : ∀ hash, tokenHash rt (refreshTokenDrawn env) = some hash → presentsToken rt hash call.request = false

/-- Draws differ, the clock does not go back, others do not have the secrets of the client and leave
it room, and it comes back within the lifetime of its code and of each refresh token. -/
structure Undisturbed (cfg : OauthConfig) (rt : OauthRuntime) (turns : List Turn) : Prop where
  drawn : turns.Pairwise fun t u => t.env.draws 0 ≠ u.env.draws 0
  hashes : turns.Pairwise fun t u => tokenHash rt (refreshTokenDrawn t.env) ≠ tokenHash rt (refreshTokenDrawn u.env)
  families : turns.Pairwise fun t u => t.env.draws 2 ≠ u.env.draws 2
  clocks : turns.Pairwise fun t u => ∀ i j, t.env.clock i ≤ u.env.clock j
  ticks : ∀ t ∈ turns, ∀ i j, i ≤ j → t.env.clock i ≤ t.env.clock j
  strangers : ∀ env call, .own env ∈ turns → .other call ∈ turns → Stranger rt env call
  room : turns.countP Turn.registers < maxRegisteredClients
  codeTime : ∀ env env', (ownEnvs turns)[1]? = some env → (ownEnvs turns)[2]? = some env' → env'.clock 0 ≤ env.clock 0 + 300
  refreshTime : ∀ i env env', 2 ≤ i → (ownEnvs turns)[i]? = some env → (ownEnvs turns)[i + 1]? = some env' →
    env'.clock 0 ≤ env.clock 0 + max cfg.oauthRefreshTokenTtlSeconds 60

/-! ## What a request of the client gets -/

variable {cfg : OauthConfig} {rt : OauthRuntime} {p : Party} {env : OauthEnv} {s : Store} {id : Text}

theorem registerClient_accepts (hp : p.Servable cfg rt) (hs : Valid rt s) (hroom : s.clients.keys.card < maxRegisteredClients) :
    registerClient rt env p.registration s =
      ⟨some (addClient s (registeredClient env p.registration [p.redirectUri])),
        .ok (registeredClient env p.registration [p.redirectUri])⟩ := by
  have hname : CodePoints.isEncodable (registeredClient env p.registration [p.redirectUri]).clientName = true := by
    have hparty := hp.clientName
    simp only [registeredClient, Party.registration]
    cases hclient : p.clientName with
    | none => decide
    | some name =>
      rw [hclient] at hparty
      simp only
      split_ifs
      · decide
      · exact hparty
  have hrecord : (registeredClient env p.registration [p.redirectUri]).isEncodable = true := by
    simp only [ClientRecord.isEncodable, hname]
    simp [registeredClient, hp.redirectUri, isEncodable_drawn env (by decide : isAscii (txt "mcp_client_") = true) 0]
  have hencodable : (addClient s (registeredClient env p.registration [p.redirectUri])).isEncodable = true := by
    have hrows := (storeEncodable_iff s).mp hs.encodable
    rw [storeEncodable_iff]
    refine ⟨?_, hrows.2⟩
    intro k r hk
    rcases (lookup_insert_iff _ _ _ _ _).mp hk with ⟨rfl, rfl⟩ | ⟨-, hk⟩
    · exact ⟨isEncodable_drawn env (by decide) 0, hrecord⟩
    · exact hrows.1 k r hk
  simp only [registerClient, Party.registration]
  rw [if_neg (by simp), if_neg (by simp [hp.allowed]), if_neg (Nat.not_le.mpr hroom)]
  exact if_pos hencodable

theorem words_scope_encodable (hp : p.Servable cfg rt) : CodePoints.isEncodable (withoutOfflineAccess (p.scope.getD [])) = true := by
  apply isEncodable_joinWords
  intro w hw
  have hscope := hp.within w hw
  rw [← words_scopeString cfg] at hscope
  exact isEncodable_of_mem_words hp.scopes hscope

theorem pkceS256_ascii {verifier challenge : Text} (h : pkceS256 rt verifier = some challenge) : isAscii challenge = true := by
  rcases pkceS256_cases rt verifier with ⟨-, hnone⟩ | ⟨-, expected, hsome, hascii⟩
  · cases hnone.symm.trans h
  · obtain rfl := Option.some.inj (hsome.symm.trans h)
    exact hascii

theorem compareDigest_self {t : Text} (h : isAscii t = true) : compareDigest t t = some true := by
  rw [compareDigest, h]
  simp

/-- The record of the client's code. -/
abbrev codeRecord (cfg : OauthConfig) (p : Party) (id : Text) (env : OauthEnv) : CodeRecord :=
  authorizedRecord cfg env p.baseUrl (p.authorization cfg id)

/-- An authorization that passes every check writes its code. -/
theorem authorize_eq (env : OauthEnv) {baseUrl : Text} (req : AuthorizeRequest) (configured : cfg.loginToken ≠ [])
    (login : compareDigest (req.loginToken.getD []) cfg.loginToken = some true)
    (responseType : req.responseType = some (txt "code")) (method : req.codeChallengeMethod = some (txt "S256"))
    (challenge : req.codeChallenge.getD [] ≠ []) (resource : req.resource = some (cfg.resourceUrl baseUrl))
    {client : ClientRecord} (registered : s.clients.lookup (req.clientId.getD []) = some client)
    (redirect : req.redirectUri.getD [] ∈ client.redirectUris) (scope : ∀ w ∈ requestedScopes (req.scope.getD []), w ∈ cfg.scopes) :
    authorize cfg env baseUrl req s =
      writeStore (addCode s (authorizationCode env) (authorizedRecord cfg env baseUrl req))
        (redirectWithCode (req.redirectUri.getD []) (authorizationCode env) req.state) := by
  have hpkce : ¬(req.codeChallengeMethod ≠ some (txt "S256") ∨ (req.codeChallenge.getD []).isEmpty = true) := by
    simp [method, challenge]
  simp only [authorize, login, registered]
  rw [if_neg (by simpa using configured), if_neg (not_not.mpr responseType), if_neg hpkce, if_neg (not_not.mpr resource),
    if_neg (by simpa using redirect), if_neg (by simpa using scope)]
  rfl

theorem codeRecord_encodable (hp : p.Servable cfg rt) (hid : CodePoints.isEncodable id = true) :
    (codeRecord cfg p id env).isEncodable = true := by
  have hscope : CodePoints.isEncodable (codeRecord cfg p id env).scope = true := by
    change CodePoints.isEncodable (if (withoutOfflineAccess (p.scope.getD [])).isEmpty then cfg.scopeString
      else withoutOfflineAccess (p.scope.getD [])) = true
    split
    · exact hp.scopes
    · exact words_scope_encodable hp
  simp only [CodeRecord.isEncodable, hscope]
  simp [authorizedRecord, Party.authorization, hp.redirectUri, hp.resource, isEncodable_of_isAscii (pkceS256_ascii hp.pkce), hid]

theorem authorize_accepts (hp : p.Servable cfg rt) (hs : Valid rt s) {client : ClientRecord}
    (hrow : s.clients.lookup id = some client) (huri : p.redirectUri ∈ client.redirectUris) :
    authorize cfg env p.baseUrl (p.authorization cfg id) s =
      ⟨some (addCode s (authorizationCode env) (codeRecord cfg p id env)),
        redirectWithCode p.redirectUri (authorizationCode env) p.state⟩ := by
  have hrows := (storeEncodable_iff s).mp hs.encodable
  have hencodable : (addCode s (authorizationCode env) (codeRecord cfg p id env)).isEncodable = true := by
    rw [storeEncodable_iff]
    refine ⟨hrows.1, ?_, hrows.2.2⟩
    intro k r hk
    rcases (lookup_insert_iff _ _ _ _ _).mp hk with ⟨rfl, rfl⟩ | ⟨-, hk⟩
    · exact ⟨isEncodable_drawn env (by decide) 0, codeRecord_encodable hp (hrows.1 id client hrow).1⟩
    · exact hrows.2.1 k r hk
  have hwritten := authorize_eq env (p.authorization cfg id) hp.configured (compareDigest_self hp.login) rfl rfl
    hp.challenge rfl hrow huri hp.within
  rw [hwritten]
  exact if_pos hencodable

/-- An exchange that matches its code issues tokens. -/
theorem exchangeCode_eq {baseUrl : Text} (req : TokenRequest) {record : CodeRecord}
    (exchange : IsExchange cfg (.exchange baseUrl req) baseUrl req) (lookup : s.codes.lookup (req.code.getD []) = some record)
    (matched : Matches rt env req record) :
    exchangeCode cfg rt env baseUrl req s =
      issueTokens cfg rt env (dropCode s (req.code.getD [])) (exchangeGrant cfg env record) := by
  have hgrant : req.grantType ≠ some (txt "refresh_token") := by
    rw [exchange.grantType]
    decide
  simp only [exchangeCode, lookup, matched.challenge, compareDigest_self (pkceS256_ascii matched.challenge)]
  rw [if_neg hgrant, if_neg (not_not.mpr exchange.grantType), if_neg (not_not.mpr exchange.resource), if_neg matched.unexpired,
    if_neg (not_not.mpr matched.client), if_neg (not_not.mpr matched.redirect)]
  rfl

theorem exchangeCode_accepts (env : OauthEnv) (hp : p.Servable cfg rt) (hs : Valid rt s) {code : Text} {env' : OauthEnv}
    (hrow : s.codes.lookup code = some (codeRecord cfg p id env')) (htime : env.clock 0 ≤ env'.clock 0 + 300) :
    ∃ hash, tokenHash rt (refreshTokenDrawn env) = some hash ∧
      exchangeCode cfg rt env p.baseUrl (p.exchange cfg id code) s =
        ⟨some (issuedStore cfg env hash (dropCode s code) (exchangeGrant cfg env (codeRecord cfg p id env'))),
          .ok ⟨accessTokenDrawn env, expiresIn cfg, (exchangeGrant cfg env (codeRecord cfg p id env')).scope,
            refreshTokenDrawn env⟩⟩ := by
  have hmatched : Matches rt env (p.exchange cfg id code) (codeRecord cfg p id env') :=
    ⟨Int.not_lt.mpr htime, rfl, rfl, hp.pkce⟩
  have hissued := exchangeCode_eq (p.exchange cfg id code) ⟨rfl, rfl, rfl⟩ hrow hmatched
  rw [hissued]
  exact issueTokens_eq cfg rt env (dropCode_encodable hs.encodable code) (exchangeGrant_encodable cfg env hs hrow)

/-! ## What a call of somebody else leaves -/

section
variable {request : Request} {o : Outcome Reply}

/-- A record stays while its identifier is not drawn again. -/
theorem client_stays (h : Step cfg rt env request s o) {client : ClientRecord} (hrow : s.clients.lookup id = some client)
    (hdraw : txt "mcp_client_" ++ env.draws 0 ≠ id) : (o.after s).clients.lookup id = some client := by
  cases h with
  | registered req _ _ _ => exact (Finmap.lookup_insert_of_ne _ hdraw.symm).trans hrow
  | exchanged _ _ _ _ _ _ _ _ _ _ _ hs _ =>
    subst hs
    exact hrow
  | refreshed _ _ _ _ _ _ _ _ _ _ _ _ _ hs _ =>
    subst hs
    exact hrow
  | _ => exact hrow

/-- A code stays while it is not drawn again and no exchange presents it. -/
theorem code_stays (h : Step cfg rt env request s o) {code : Text} {record : CodeRecord} (hrow : s.codes.lookup code = some record)
    (hdraw : authorizationCode env ≠ code) (hother : ∀ baseUrl req, request = .exchange baseUrl req → req.code.getD [] ≠ code) :
    (o.after s).codes.lookup code = some record := by
  cases h with
  | authorized _ _ _ _ _ => exact (Finmap.lookup_insert_of_ne _ hdraw.symm).trans hrow
  | codeDropped _ baseUrl req _ _ exchange _ =>
    exact (lookup_erase_iff _ _ _ _).mpr ⟨(hother baseUrl req exchange.request_eq).symm, hrow⟩
  | exchanged _ baseUrl req _ _ _ exchange _ _ _ _ hs _ =>
    subst hs
    exact (lookup_erase_iff _ _ _ _).mpr ⟨(hother baseUrl req exchange.request_eq).symm, hrow⟩
  | refreshed _ _ _ _ _ _ _ _ _ _ _ _ _ hs _ =>
    subst hs
    exact hrow
  | _ => exact hrow

/-- A refresh record stays until it expires while its token is not drawn again and no token of its family is presented. -/
theorem refresh_stays (h : Step cfg rt env request s o) {hash : Text} {record : RefreshRecord}
    (hrow : s.refreshTokens.lookup hash = some record) (hdraw : tokenHash rt (refreshTokenDrawn env) ≠ some hash)
    (hfamily : ∀ hash' record', s.refreshTokens.lookup hash' = some record' → record'.familyId = record.familyId →
      presentsToken rt hash' request = false) (htime : ∀ i, env.clock i ≤ record.expiresAt) :
    (o.after s).refreshTokens.lookup hash = some record := by
  have hlive : ∀ i, isLive (env.clock i) record = true := by
    intro i
    rw [isLive, Bool.not_eq_true', decide_eq_false_iff_not]
    exact Int.not_lt.mpr (htime i)
  have hpruned : ∀ i, (pruneRefreshTokens s (env.clock i)).refreshTokens.lookup hash = some record := fun i =>
    (lookup_pruned_iff _ _ _ _).mpr ⟨hrow, hlive i⟩
  have hpresented : ∀ {baseUrl req hash' record'}, IsRefresh request baseUrl req → Presents cfg rt env baseUrl req s hash' record' →
      record'.familyId ≠ record.familyId := by
    intro baseUrl req hash' record' refresh presents hsame
    have hnot := hfamily hash' record' presents.lookup hsame
    rw [presentsToken_iff.mpr ⟨baseUrl, req, refresh, presents.token⟩] at hnot
    cases hnot
  cases h with
  | exchanged _ _ _ _ _ newHash _ _ _ fresh _ hs _ =>
    subst hs
    have hne : hash ≠ newHash := fun heq => hdraw (heq ▸ fresh)
    exact (Finmap.lookup_insert_of_ne _ hne).trans (hpruned 2)
  | pruned _ _ _ _ _ _ => exact hpruned 0
  | reused _ baseUrl req _ hash' record' refresh presents _ _ =>
    refine (lookup_select_iff _ _ _ _).mpr ⟨hpruned 0, ?_⟩
    rw [decide_eq_true_eq]
    exact (hpresented refresh presents).symm
  | refreshed _ baseUrl req _ old newHash record' refresh presents _ _ fresh _ hs _ =>
    subst hs
    have hne : hash ≠ newHash := fun heq => hdraw (heq ▸ fresh)
    have hold : hash ≠ old := by
      intro heq
      subst heq
      obtain rfl := Option.some.inj (hrow.symm.trans presents.lookup)
      exact hpresented refresh presents rfl
    refine (Finmap.lookup_insert_of_ne _ hne).trans ((lookup_pruned_iff _ _ _ _).mpr ⟨?_, hlive 0⟩)
    exact (Finmap.lookup_insert_of_ne _ hold).trans (hpruned 0)
  | _ => exact hrow

/-- Only a registration adds a client. -/
theorem clients_card (h : Step cfg rt env request s o) :
    (o.after s).clients.keys.card ≤ s.clients.keys.card + (isRegistration request).toNat := by
  cases h with
  | registered req _ _ _ =>
    have hkeys : (s.clients.insert (registeredClient env req (registeredUris req)).clientId
        (registeredClient env req (registeredUris req))).keys =
          insert (registeredClient env req (registeredUris req)).clientId s.clients.keys := by
      ext id
      rw [Finmap.mem_keys, Finmap.mem_insert, Finset.mem_insert, Finmap.mem_keys]
    change (Finmap.keys (Finmap.insert _ _ _)).card ≤ _
    rw [hkeys]
    exact Finset.card_insert_le _ _
  | exchanged _ _ _ _ _ _ _ _ _ _ _ hs _ =>
    subst hs
    exact Nat.le_add_right _ _
  | refreshed _ _ _ _ _ _ _ _ _ _ _ _ _ hs _ =>
    subst hs
    exact Nat.le_add_right _ _
  | _ => exact Nat.le_add_right _ _

/-- A family after a call was there before, or the call drew it, or it is the one that a refresh presents. -/
theorem family_origin (h : Step cfg rt env request s o) (hs : Valid rt s) {hash : Text} {record : RefreshRecord}
    (hrow : (o.after s).refreshTokens.lookup hash = some record) :
    (∃ old, s.refreshTokens.lookup hash = some old ∧ old.familyId = record.familyId) ∨
      tokenHash rt (refreshTokenDrawn env) = some hash ∧ (record.familyId = txt "rtf_" ++ env.draws 2 ∨
        ∃ hash' old, s.refreshTokens.lookup hash' = some old ∧ old.familyId = record.familyId ∧
          presentsToken rt hash' request = true) := by
  rcases refresh_origin h hrow with ⟨hold, -⟩ | ⟨g, issues, -, rfl⟩ | ⟨old, hold, rfl, -⟩
  · exact .inl ⟨record, hold, rfl⟩
  · refine .inr ⟨issues.fresh, ?_⟩
    cases issues with
    | exchanged => exact .inl rfl
    | refreshed baseUrl req old _ record' refresh presents _ _ _ =>
      have hne := (hs.refreshTokens old record' presents.lookup).2.2
      refine .inr ⟨old, record', presents.lookup, ?_, presentsToken_iff.mpr ⟨baseUrl, req, refresh, presents.token⟩⟩
      simp [grantRecord, refreshRecord, refreshGrant, hne]
  · exact .inl ⟨old, hold, (rotate_familyId _ old).symm⟩

end

/-! ## Turns -/

/-- All readings of the clock so far are not later. -/
def Past (turns : List Turn) (now : ℤ) : Prop := ∀ t ∈ turns, ∀ i, t.env.clock i ≤ now

theorem ownEnvs_append (turns : List Turn) (t : Turn) :
    ownEnvs (turns ++ [t]) = ownEnvs turns ++ match t with
      | .own env => [env]
      | .other _ => [] := by
  rw [ownEnvs, List.filterMap_append]
  cases t <;> rfl

theorem own_mem {turns : List Turn} {e : OauthEnv} (h : e ∈ ownEnvs turns) : .own e ∈ turns := by
  obtain ⟨t, ht, hte⟩ := List.mem_filterMap.mp h
  cases t with
  | own env =>
    obtain rfl := Option.some.inj hte
    exact ht
  | other call => cases hte

theorem past_append {turns : List Turn} {t : Turn} {now : ℤ} :
    Past (turns ++ [t]) now ↔ Past turns now ∧ ∀ i, t.env.clock i ≤ now := by
  simp only [Past, List.mem_append, List.mem_singleton]
  constructor
  · exact fun h => ⟨fun u hu => h u (.inl hu), h t (.inr rfl)⟩
  · rintro ⟨hturns, ht⟩ u (hu | rfl)
    · exact hturns u hu
    · exact ht

theorem Undisturbed.front {turns : List Turn} {t : Turn} (h : Undisturbed cfg rt (turns ++ [t])) : Undisturbed cfg rt turns := by
  have hfront : ∀ (i : ℕ) (env : OauthEnv), (ownEnvs turns)[i]? = some env → (ownEnvs (turns ++ [t]))[i]? = some env := by
    intro i env hi
    rw [ownEnvs_append]
    exact (List.getElem?_append_left (List.getElem?_eq_some_iff.mp hi).1).trans hi
  have hmem : ∀ u ∈ turns, u ∈ turns ++ [t] := fun u hu => List.mem_append_left _ hu
  exact {
    drawn := (List.pairwise_append.mp h.drawn).1
    hashes := (List.pairwise_append.mp h.hashes).1
    families := (List.pairwise_append.mp h.families).1
    clocks := (List.pairwise_append.mp h.clocks).1
    ticks := fun u hu => h.ticks u (hmem u hu)
    strangers := fun env call henv hcall => h.strangers env call (hmem _ henv) (hmem _ hcall)
    room := Nat.lt_of_le_of_lt (by simp [List.countP_append]) h.room
    codeTime := fun env env' henv henv' => h.codeTime env env' (hfront _ _ henv) (hfront _ _ henv')
    refreshTime := fun i env env' hi henv henv' => h.refreshTime i env env' hi (hfront _ _ henv) (hfront _ _ henv') }

/-- The new turn draws what no turn drew before, and later. -/
structure Newest (rt : OauthRuntime) (turns : List Turn) (env : OauthEnv) : Prop where
  drawn : ∀ t ∈ turns, t.env.draws 0 ≠ env.draws 0
  hashes : ∀ t ∈ turns, tokenHash rt (refreshTokenDrawn t.env) ≠ tokenHash rt (refreshTokenDrawn env)
  families : ∀ t ∈ turns, t.env.draws 2 ≠ env.draws 2
  past : Past turns (env.clock 0)

theorem Undisturbed.newest {turns : List Turn} {t : Turn} (h : Undisturbed cfg rt (turns ++ [t])) : Newest rt turns t.env where
  drawn := fun u hu => (List.pairwise_append.mp h.drawn).2.2 u hu t (List.mem_singleton_self t)
  hashes := fun u hu => (List.pairwise_append.mp h.hashes).2.2 u hu t (List.mem_singleton_self t)
  families := fun u hu => (List.pairwise_append.mp h.families).2.2 u hu t (List.mem_singleton_self t)
  past := fun u hu i => (List.pairwise_append.mp h.clocks).2.2 u hu t (List.mem_singleton_self t) i 0

end WebOauthMcp.OauthSessions
