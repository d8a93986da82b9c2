import WebOauthMcp.OauthSessions

/-!
# A client is never refused

What a client has learned says which rows of the store are its own. A call of another party,
who has none of its secrets, keeps them, and its own next request is answered from them.
-/

namespace WebOauthMcp.SessionLiveness
open CodePoints Tables Words OauthStore OauthOperations OauthSteps OauthRuns OauthCodes OauthFamilies OauthProvenance
open OauthUsability RedirectUrls OauthSessions

variable {cfg : OauthConfig} {rt : OauthRuntime} {p : Party} {env : OauthEnv} {s : Store} {id : Text}

/-! ## What the client holds -/

/-- Some record of the client with its redirect URI is registered. -/
def IsRegistered (p : Party) (id : Text) (s : Store) : Prop :=
  ∃ client, s.clients.lookup id = some client ∧ p.redirectUri ∈ client.redirectUris

/-- The newest access token works until it expires. -/
structure HoldsAccess (cfg : OauthConfig) (p : Party) (turns : List Turn) (env : OauthEnv) (s : Store) (record : TokenRecord) :
    Prop where
  resource : record.resource = cfg.resourceUrl p.baseUrl
  covers : Covers cfg (words record.scope)
  lasts : env.clock 0 + expiresIn cfg ≤ record.expiresAt
  found : ∀ now, Past turns now → now ≤ record.expiresAt → s.tokens.lookup (accessTokenDrawn env) = some record

/-- The newest refresh token is stored until it expires, was never presented, and nobody else has one of its family. -/
structure HoldsRefresh (cfg : OauthConfig) (rt : OauthRuntime) (p : Party) (turns : List Turn) (id : Text) (env : OauthEnv)
    (s : Store) (hash : Text) (record : RefreshRecord) : Prop where
  hashed : tokenHash rt (refreshTokenDrawn env) = some hash
  client : record.clientId = id
  resource : record.resource = cfg.resourceUrl p.baseUrl
  covers : Covers cfg (words record.scope)
  unrotated : record.rotatedAt = none
  lasts : env.clock 0 + max cfg.oauthRefreshTokenTtlSeconds 60 ≤ record.expiresAt
  found : ∀ now, Past turns now → now ≤ record.expiresAt → s.refreshTokens.lookup hash = some record
  drawn : ∃ e ∈ ownEnvs turns, record.familyId = txt "rtf_" ++ e.draws 2
  family : ∀ hash' record', s.refreshTokens.lookup hash' = some record' → record'.familyId = record.familyId →
    ∃ e ∈ ownEnvs turns, tokenHash rt (refreshTokenDrawn e) = some hash'

/-- What a stage means in the store. -/
inductive Knows (cfg : OauthConfig) (rt : OauthRuntime) (p : Party) (turns : List Turn) (s : Store) : Stage → Prop
  | unregistered (own : ownEnvs turns = []) (room : s.clients.keys.card ≤ turns.countP Turn.registers) :
      Knows cfg rt p turns s .unregistered
  | registered (env : OauthEnv) (own : ownEnvs turns = [env])
      (client : IsRegistered p (txt "mcp_client_" ++ env.draws 0) s) :
      Knows cfg rt p turns s (.registered (txt "mcp_client_" ++ env.draws 0))
  | authorized (first env : OauthEnv) (own : ownEnvs turns = [first, env])
      (client : IsRegistered p (txt "mcp_client_" ++ first.draws 0) s)
      (code : s.codes.lookup (authorizationCode env) = some (codeRecord cfg p (txt "mcp_client_" ++ first.draws 0) env)) :
      Knows cfg rt p turns s (.authorized (txt "mcp_client_" ++ first.draws 0) (authorizationCode env))
  | granted (id : Text) (earlier : List OauthEnv) (env : OauthEnv) (own : ownEnvs turns = earlier ++ [env])
      (long : 2 ≤ earlier.length) (client : IsRegistered p id s) (drawn : ∃ e ∈ ownEnvs turns, id = txt "mcp_client_" ++ e.draws 0)
      (access : TokenRecord) (holdsAccess : HoldsAccess cfg p turns env s access) (hash : Text) (refresh : RefreshRecord)
      (holdsRefresh : HoldsRefresh cfg rt p turns id env s hash refresh) :
      Knows cfg rt p turns s (.granted id (accessTokenDrawn env) (refreshTokenDrawn env))

/-- The families in the store were drawn in the run. -/
def FamiliesDrawn (turns : List Turn) (s : Store) : Prop :=
  ∀ hash record, s.refreshTokens.lookup hash = some record → ∃ t ∈ turns, record.familyId = txt "rtf_" ++ t.env.draws 2

/-! ## What a call of somebody else leaves -/

theorem FamiliesDrawn.step {turns : List Turn} {t : Turn} {request : Request} {o : Outcome Reply}
    (hfamilies : FamiliesDrawn turns s) (h : Step cfg rt t.env request s o) (hs : Valid rt s) :
    FamiliesDrawn (turns ++ [t]) (o.after s) := by
  intro hash record hrow
  have hold : ∀ {hash' old}, s.refreshTokens.lookup hash' = some old → old.familyId = record.familyId →
      ∃ u ∈ turns ++ [t], record.familyId = txt "rtf_" ++ u.env.draws 2 := by
    intro hash' old hlookup hsame
    obtain ⟨u, hu, hfamily⟩ := hfamilies hash' old hlookup
    exact ⟨u, List.mem_append_left _ hu, hsame.symm.trans hfamily⟩
  rcases family_origin h hs hrow with ⟨old, hlookup, hsame⟩ | ⟨-, hdrawn | ⟨hash', old, hlookup, hsame, -⟩⟩
  · exact hold hlookup hsame
  · exact ⟨t, List.mem_append_right _ (List.mem_singleton_self t), hdrawn⟩
  · exact hold hlookup hsame

variable {turns : List Turn} {stage : Stage} {hash : Text}

theorem draws_inj {a b start : Text} (h : start ++ a = start ++ b) : a = b := List.append_cancel_left h

theorem IsRegistered.stays {request : Request} {o : Outcome Reply} (h : IsRegistered p id s)
    (hdrawn : ∃ e ∈ ownEnvs turns, id = txt "mcp_client_" ++ e.draws 0) (hnewest : Newest rt turns env)
    (hstep : Step cfg rt env request s o) : IsRegistered p id (o.after s) := by
  obtain ⟨client, hrow, huri⟩ := h
  obtain ⟨e, he, rfl⟩ := hdrawn
  refine ⟨client, client_stays hstep hrow ?_, huri⟩
  exact fun heq => hnewest.drawn _ (own_mem he) (draws_inj heq).symm

theorem HoldsAccess.other {call : Call} {o : Outcome Reply} {e : OauthEnv} {record : TokenRecord}
    (h : HoldsAccess cfg p turns e s record) (he : .own e ∈ turns) (hnewest : Newest rt turns call.env)
    (hstep : Step cfg rt call.env call.request s o) : HoldsAccess cfg p (turns ++ [.other call]) e (o.after s) record where
  resource := h.resource
  covers := h.covers
  lasts := h.lasts
  found := by
    intro now hpast hnow
    obtain ⟨hturns, hcall⟩ := past_append.mp hpast
    apply row_stays hstep (h.found now hturns hnow)
    · exact fun heq => hnewest.drawn _ he (draws_inj heq).symm
    · exact le_trans (hcall 0) hnow

theorem HoldsRefresh.other {call : Call} {o : Outcome Reply} {e : OauthEnv} {record : RefreshRecord} (hs : Valid rt s)
    (h : HoldsRefresh cfg rt p turns id e s hash record) (he : .own e ∈ turns)
    (hstrangers : ∀ e, .own e ∈ turns → Stranger rt e call) (hnewest : Newest rt turns call.env)
    (hstep : Step cfg rt call.env call.request s o) :
    HoldsRefresh cfg rt p (turns ++ [.other call]) id e (o.after s) hash record := by
  have hown : ownEnvs (turns ++ [.other call]) = ownEnvs turns := by
    rw [ownEnvs_append]
    exact List.append_nil _
  have hunpresented : ∀ hash' record', s.refreshTokens.lookup hash' = some record' → record'.familyId = record.familyId →
      presentsToken rt hash' call.request = false := by
    intro hash' record' hlookup hsame
    obtain ⟨e', he', hhash'⟩ := h.family hash' record' hlookup hsame
    exact (hstrangers e' (own_mem he')).token hash' hhash'
  refine ⟨h.hashed, h.client, h.resource, h.covers, h.unrotated, h.lasts, ?_, hown ▸ h.drawn, ?_⟩
  · intro now hpast hnow
    obtain ⟨hturns, hcall⟩ := past_append.mp hpast
    apply refresh_stays hstep (h.found now hturns hnow) _ hunpresented
    · exact fun i => le_trans (hcall i) hnow
    · rw [← h.hashed]
      exact (hnewest.hashes _ he).symm
  · intro hash' record' hrow hsame
    rw [hown]
    rcases family_origin hstep hs hrow with ⟨old, hlookup, hfamily⟩ | ⟨-, hdrawn | ⟨old, record₀, hlookup, hfamily, hpresents⟩⟩
    · exact h.family hash' old hlookup (hfamily.trans hsame)
    · obtain ⟨e', he', hfamily⟩ := h.drawn
      have hdraws := draws_inj (hfamily.symm.trans (hsame.symm.trans hdrawn))
      exact absurd hdraws (hnewest.families _ (own_mem he'))
    · rw [hunpresented old record₀ hlookup (hfamily.trans hsame)] at hpresents
      cases hpresents

/-- A call of somebody else changes nothing that the client knows. -/
theorem Knows.other {call : Call} {o : Outcome Reply} (hs : Valid rt s) (h : Knows cfg rt p turns s stage)
    (hundisturbed : Undisturbed cfg rt (turns ++ [.other call])) (hstep : Step cfg rt call.env call.request s o) :
    Knows cfg rt p (turns ++ [.other call]) (o.after s) stage := by
  have hnewest : Newest rt turns call.env := hundisturbed.newest
  have hown : ownEnvs (turns ++ [.other call]) = ownEnvs turns := by
    rw [ownEnvs_append]
    exact List.append_nil _
  have hstrangers : ∀ e, .own e ∈ turns → Stranger rt e call := fun e he =>
    hundisturbed.strangers e call (List.mem_append_left _ he) (List.mem_append_right _ (List.mem_singleton_self _))
  cases h with
  | unregistered own room =>
    refine .unregistered (hown.trans own) (le_trans (clients_card hstep) ?_)
    rw [List.countP_append]
    have hlast : [Turn.other call].countP Turn.registers = (isRegistration call.request).toNat := by
      cases hkind : isRegistration call.request <;> simp [Turn.registers, hkind]
    omega
  | registered e own client =>
    exact .registered e (hown.trans own) (client.stays ⟨e, own ▸ List.mem_singleton_self e, rfl⟩ hnewest hstep)
  | authorized first e own client code =>
    have hfirst : first ∈ ownEnvs turns := own ▸ List.mem_cons_self
    have he : e ∈ ownEnvs turns := own ▸ List.mem_cons_of_mem first (List.mem_singleton_self e)
    refine .authorized first e (hown.trans own) (client.stays ⟨first, hfirst, rfl⟩ hnewest hstep) (code_stays hstep code ?_ ?_)
    · exact fun heq => hnewest.drawn _ (own_mem he) (draws_inj heq).symm
    · exact (hstrangers e (own_mem he)).code
  | granted id earlier e own long client drawn access holdsAccess hash refresh holdsRefresh =>
    have he : .own e ∈ turns := own_mem (own ▸ List.mem_append_right _ (List.mem_singleton_self e))
    exact .granted id earlier e (hown.trans own) long (client.stays drawn hnewest hstep) (hown ▸ drawn) access
      (holdsAccess.other he hnewest hstep) hash refresh (holdsRefresh.other hs he hstrangers hnewest hstep)

/-! ## What a request of the client leaves -/

theorem ownEnvs_own (turns : List Turn) (env : OauthEnv) : ownEnvs (turns ++ [.own env]) = ownEnvs turns ++ [env] :=
  ownEnvs_append turns (.own env)

/-- The client's request is answered, and the client learns the next stage from the reply. -/
def Advances (cfg : OauthConfig) (rt : OauthRuntime) (p : Party) (turns : List Turn) (env : OauthEnv) (s : Store)
    (stage : Stage) : Prop :=
  ∃ next, (ownTurn cfg rt p env s stage).stage = some next ∧
    Knows cfg rt p (turns ++ [.own env]) (ownTurn cfg rt p env s stage).store next

theorem advances_of_result {reply : Reply} {next : Stage} {after : Store}
    (hperform : perform cfg rt env (p.request cfg stage) s = ⟨some after, .ok reply⟩) (hnext : p.next stage reply = some next)
    (h : Knows cfg rt p (turns ++ [.own env]) after next) : Advances cfg rt p turns env s stage := by
  refine ⟨next, ?_, ?_⟩
  · simp only [ownTurn, hperform, hnext]
  · simpa only [ownTurn, hperform, Outcome.after, Option.getD_some] using h

theorem advances_unregistered (hp : p.Servable cfg rt) (hs : Valid rt s) (hroom : turns.countP Turn.registers < maxRegisteredClients)
    (own : ownEnvs turns = []) (room : s.clients.keys.card ≤ turns.countP Turn.registers) :
    Advances cfg rt p turns env s .unregistered := by
  have hperform : perform cfg rt env (p.request cfg .unregistered) s =
      ⟨some (addClient s (registeredClient env p.registration [p.redirectUri])),
        .ok (.client (registeredClient env p.registration [p.redirectUri]))⟩ := by
    rw [Party.request, perform, registerClient_accepts hp hs (by omega)]
    rfl
  refine advances_of_result hperform rfl (.registered env ?_ ⟨_, Finmap.lookup_insert _, List.mem_singleton_self _⟩)
  rw [ownEnvs_own, own, List.nil_append]

theorem redirectWithCode_party (hp : p.Servable cfg rt) (env : OauthEnv) :
    ∃ url, redirectWithCode p.redirectUri (authorizationCode env) p.state = .ok url := by
  cases hurl : redirectWithCode p.redirectUri (authorizationCode env) p.state with
  | ok url => exact ⟨url, rfl⟩
  | error e =>
    obtain ⟨t, hstate, hbad⟩ := OauthFailures.redirectWithCode_error hurl
    have hgood := hp.state
    rw [hstate, Option.all_some, hbad] at hgood
    cases hgood

theorem next_redirect (hp : p.Servable cfg rt) {url : Text}
    (hurl : redirectWithCode p.redirectUri (authorizationCode env) p.state = .ok url) :
    p.next (.registered id) (.redirect url) = some (.authorized id (authorizationCode env)) := by
  have hread := redirect_read (allowed_noHash hp.allowed) hurl
  have hcode : queryField url (txt "code") = some (authorizationCode env) := by
    rw [hread, if_neg fun h => absurd h.2 (by decide), if_pos rfl]
  have hstate : stateFields p.state = [] ∨ queryField url (txt "state") = p.state := by
    by_cases hsent : stateFields p.state = []
    · exact .inl hsent
    · right
      rw [hread, if_pos ⟨hsent, rfl⟩]
  rw [Party.next, if_pos hstate, hcode]
  rfl

theorem advances_registered (hp : p.Servable cfg rt) (hs : Valid rt s) {first : OauthEnv}
    (own : ownEnvs turns = [first]) (client : IsRegistered p (txt "mcp_client_" ++ first.draws 0) s) :
    Advances cfg rt p turns env s (.registered (txt "mcp_client_" ++ first.draws 0)) := by
  obtain ⟨record, hrow, huri⟩ := client
  obtain ⟨url, hurl⟩ := redirectWithCode_party hp env
  have hperform : perform cfg rt env (p.request cfg (.registered (txt "mcp_client_" ++ first.draws 0))) s =
      ⟨some (addCode s (authorizationCode env) (codeRecord cfg p (txt "mcp_client_" ++ first.draws 0) env)),
        .ok (.redirect url)⟩ := by
    rw [Party.request, perform, authorize_accepts hp hs hrow huri, hurl]
    rfl
  refine advances_of_result hperform (next_redirect hp hurl) (.authorized first env ?_ ⟨record, hrow, huri⟩ (Finmap.lookup_insert _))
  rw [ownEnvs_own, own]
  rfl

/-- What a grant for all configured scopes leaves. -/
structure FullyGranted (cfg : OauthConfig) (p : Party) (env : OauthEnv) (g : Grant) : Prop where
  resource : g.resource = cfg.resourceUrl p.baseUrl
  covers : Covers cfg (words g.scope)
  granted : Covers cfg (words g.granted)
  issued : env.clock 0 ≤ g.issuedAt
  now : env.clock 0 ≤ g.now

theorem holdsAccess_issued {g : Grant} (hg : FullyGranted cfg p env g) (turns : List Turn) (s : Store) (hash : Text) :
    HoldsAccess cfg p turns env (issuedStore cfg env hash s g) (accessRecord cfg g) where
  resource := hg.resource
  covers := hg.covers
  lasts := Int.add_le_add_right hg.issued _
  found := fun _ _ _ => Finmap.lookup_insert _

theorem holdsRefresh_issued {g : Grant} (hg : FullyGranted cfg p env g) (hhash : tokenHash rt (refreshTokenDrawn env) = some hash)
    (hdrawn : ∃ e ∈ ownEnvs turns, (grantRecord cfg env g).familyId = txt "rtf_" ++ e.draws 2)
    (hfamily : ∀ hash' record', (issuedStore cfg env hash s g).refreshTokens.lookup hash' = some record' →
      record'.familyId = (grantRecord cfg env g).familyId → ∃ e ∈ ownEnvs turns, tokenHash rt (refreshTokenDrawn e) = some hash') :
    HoldsRefresh cfg rt p turns g.clientId env (issuedStore cfg env hash s g) hash (grantRecord cfg env g) where
  hashed := hhash
  client := rfl
  resource := hg.resource
  covers := hg.granted
  unrotated := rfl
  lasts := Int.add_le_add_right hg.now _
  found := fun _ _ _ => Finmap.lookup_insert _
  drawn := hdrawn
  family := hfamily

theorem covers_codeRecord (hp : p.Servable cfg rt) (id : Text) (env : OauthEnv) : Covers cfg (words (codeRecord cfg p id env).scope) := by
  have hrequested := words_withoutOfflineAccess (p.scope.getD [])
  change Covers cfg (words (if (withoutOfflineAccess (p.scope.getD [])).isEmpty then cfg.scopeString
    else withoutOfflineAccess (p.scope.getD [])))
  split
  · rw [words_scopeString]
    exact fun w hw => hw
  · next hscope =>
    rw [hrequested]
    rcases hp.full with hnone | hfull
    · rw [hnone] at hrequested
      have hempty : withoutOfflineAccess (p.scope.getD []) = [] := by
        change joinWords (requestedScopes (p.scope.getD [])) = []
        rw [hnone]
        rfl
      rw [hempty] at hscope
      exact absurd rfl hscope
    · exact hfull

theorem advances_authorized (hp : p.Servable cfg rt) (hs : Valid rt s) (hfamilies : FamiliesDrawn turns s) {first e : OauthEnv}
    (hnewest : Newest rt turns env) (hticks : ∀ i j, i ≤ j → env.clock i ≤ env.clock j)
    (htime : env.clock 0 ≤ e.clock 0 + 300) (own : ownEnvs turns = [first, e])
    (client : IsRegistered p (txt "mcp_client_" ++ first.draws 0) s)
    (code : s.codes.lookup (authorizationCode e) = some (codeRecord cfg p (txt "mcp_client_" ++ first.draws 0) e)) :
    Advances cfg rt p turns env s (.authorized (txt "mcp_client_" ++ first.draws 0) (authorizationCode e)) := by
  obtain ⟨hash, hhash, hexchange⟩ := exchangeCode_accepts env hp hs code htime
  have hperform : perform cfg rt env (p.request cfg (.authorized (txt "mcp_client_" ++ first.draws 0) (authorizationCode e))) s =
      ⟨some (issuedStore cfg env hash (dropCode s (authorizationCode e))
        (exchangeGrant cfg env (codeRecord cfg p (txt "mcp_client_" ++ first.draws 0) e))),
        .ok (issuedReply cfg env (exchangeGrant cfg env (codeRecord cfg p (txt "mcp_client_" ++ first.draws 0) e)))⟩ := by
    rw [Party.request, perform, hexchange]
    rfl
  have hscope : orDefault cfg (codeRecord cfg p (txt "mcp_client_" ++ first.draws 0) e).scope =
      (codeRecord cfg p (txt "mcp_client_" ++ first.draws 0) e).scope := orDefault_of_ne_nil (hs.codes _ _ code).2
  have hcovers := covers_codeRecord hp (txt "mcp_client_" ++ first.draws 0) e
  have hgrant : FullyGranted cfg p env (exchangeGrant cfg env (codeRecord cfg p (txt "mcp_client_" ++ first.draws 0) e)) := by
    refine ⟨rfl, ?_, ?_, hticks 0 1 (by omega), hticks 0 2 (by omega)⟩
    · simpa only [exchangeGrant, hscope] using hcovers
    · simpa only [exchangeGrant, hscope] using hcovers
  have hlast : env ∈ ownEnvs (turns ++ [.own env]) := by
    rw [ownEnvs_own]
    exact List.mem_append_right _ (List.mem_singleton_self env)
  have hstep := perform_step cfg rt env (p.request cfg (.authorized (txt "mcp_client_" ++ first.draws 0) (authorizationCode e))) s
  rw [hperform] at hstep
  refine advances_of_result hperform rfl ?_
  refine .granted _ [first, e] env ?_ (le_refl 2) client ⟨first, ?_, rfl⟩ _ (holdsAccess_issued hgrant _ _ hash) hash _
    (holdsRefresh_issued hgrant hhash ⟨env, hlast, rfl⟩ ?_)
  · rw [ownEnvs_own, own]
  · rw [ownEnvs_own, own]
    exact List.mem_cons_self
  · intro hash' record' hrow hsame
    rcases family_origin hstep hs hrow with ⟨old, hlookup, hfamily⟩ | ⟨hdrawn, -⟩
    · obtain ⟨t, ht, hold⟩ := hfamilies hash' old hlookup
      have hdraws := draws_inj (hold.symm.trans (hfamily.trans hsame))
      exact absurd hdraws (hnewest.families t ht)
    · exact ⟨env, hlast, hdrawn⟩

theorem advances_granted (hp : p.Servable cfg rt) (hs : Valid rt s) {earlier : List OauthEnv} {e : OauthEnv}
    (hnewest : Newest rt turns env) (htime : env.clock 0 ≤ e.clock 0 + max cfg.oauthRefreshTokenTtlSeconds 60)
    (own : ownEnvs turns = earlier ++ [e]) (long : 2 ≤ earlier.length) (client : IsRegistered p id s)
    (drawn : ∃ e ∈ ownEnvs turns, id = txt "mcp_client_" ++ e.draws 0) {record : RefreshRecord}
    (h : HoldsRefresh cfg rt p turns id e s hash record) :
    Advances cfg rt p turns env s (.granted id (accessTokenDrawn e) (refreshTokenDrawn e)) := by
  have hrow := h.found (env.clock 0) hnewest.past (le_trans htime h.lasts)
  have hrecord := hs.refreshTokens hash record hrow
  have hscope : orDefault cfg record.scope = record.scope := orDefault_of_ne_nil hrecord.2.1
  have hpresents : Presents cfg rt env p.baseUrl (p.refresh id (refreshTokenDrawn e)) s hash record := by
    refine ⟨h.hashed, hrow, ?_, congrArg some h.client.symm, h.resource, hrecord.1⟩
    rw [isLive, Bool.not_eq_true', decide_eq_false_iff_not]
    exact Int.not_lt.mpr (le_trans htime h.lasts)
  have hreuse : isReuse (env.clock 0) record = false := by rw [isReuse, h.unrotated, Option.any_none]
  have hwithin : ∀ w ∈ requestedScopes (p.scope.getD []), w ∈ words (orDefault cfg record.scope) := by
    intro w hw
    rw [hscope]
    exact h.covers w (hp.within w hw)
  have hraw : (p.refresh id (refreshTokenDrawn e)).refreshToken.getD [] ≠ [] := by simp [Party.refresh, refreshTokenDrawn, txt]
  obtain ⟨newHash, hnew, haccepted⟩ := refresh_accepted hs hpresents hraw rfl hreuse hwithin
  have hrefresh : IsRefresh (p.request cfg (.granted id (accessTokenDrawn e) (refreshTokenDrawn e))) p.baseUrl
      (p.refresh id (refreshTokenDrawn e)) := .inr ⟨rfl, rfl⟩
  have hperform : perform cfg rt env (p.request cfg (.granted id (accessTokenDrawn e) (refreshTokenDrawn e))) s =
      ⟨some (issuedStore cfg env newHash (setRefresh (pruneRefreshTokens s (env.clock 0)) hash (rotate (env.clock 0) record))
        (refreshGrant cfg env (p.refresh id (refreshTokenDrawn e)) record)),
        .ok (issuedReply cfg env (refreshGrant cfg env (p.refresh id (refreshTokenDrawn e)) record))⟩ := by
    rw [perform_refresh hrefresh, haccepted]
    rfl
  have hgrant : FullyGranted cfg p env (refreshGrant cfg env (p.refresh id (refreshTokenDrawn e)) record) := by
    refine ⟨h.resource, ?_, ?_, le_refl _, le_refl _⟩
    · intro w hw
      rw [words_refreshGrant env _ hrecord.2.1]
      split_ifs with hnone
      · exact h.covers w hw
      · exact hp.full.resolve_left hnone w hw
    · simpa only [refreshGrant, hscope] using h.covers
  have hfamilyEq : (grantRecord cfg env (refreshGrant cfg env (p.refresh id (refreshTokenDrawn e)) record)).familyId =
      record.familyId := by
    simp [grantRecord, refreshRecord, refreshGrant, hrecord.2.2]
  have hfront : ∀ e ∈ ownEnvs turns, e ∈ ownEnvs (turns ++ [.own env]) := by
    intro e he
    rw [ownEnvs_own]
    exact List.mem_append_left _ he
  have hlast : env ∈ ownEnvs (turns ++ [.own env]) := by
    rw [ownEnvs_own]
    exact List.mem_append_right _ (List.mem_singleton_self env)
  have hstep := perform_step cfg rt env (p.request cfg (.granted id (accessTokenDrawn e) (refreshTokenDrawn e))) s
  rw [hperform] at hstep
  refine advances_of_result hperform rfl ?_
  have hholds : HoldsRefresh cfg rt p (turns ++ [.own env]) record.clientId env _ newHash _ :=
    holdsRefresh_issued (s := setRefresh (pruneRefreshTokens s (env.clock 0)) hash (rotate (env.clock 0) record)) hgrant hnew ?_ ?_
  · rw [h.client] at hholds
    refine .granted id (earlier ++ [e]) env ?_ (by simp; omega) client ?_ _ (holdsAccess_issued hgrant _ _ newHash) newHash _ hholds
    · rw [ownEnvs_own, own]
    · obtain ⟨e', he', hid⟩ := drawn
      exact ⟨e', hfront e' he', hid⟩
  · rw [hfamilyEq]
    obtain ⟨e', he', hfamily⟩ := h.drawn
    exact ⟨e', hfront e' he', hfamily⟩
  · intro hash' record' hlookup hsame
    rw [hfamilyEq] at hsame
    rcases family_origin hstep hs hlookup with ⟨old, hold, hfamily⟩ | ⟨hdrawn, -⟩
    · obtain ⟨e', he', hhash'⟩ := h.family hash' old hold (hfamily.trans hsame)
      exact ⟨e', hfront e' he', hhash'⟩
    · exact ⟨env, hlast, hdrawn⟩

/-- The next request of the client is answered at every stage. -/
theorem Knows.own (hp : p.Servable cfg rt) (hs : Valid rt s) (hfamilies : FamiliesDrawn turns s)
    (hundisturbed : Undisturbed cfg rt (turns ++ [.own env])) (h : Knows cfg rt p turns s stage) :
    Advances cfg rt p turns env s stage := by
  have hnewest : Newest rt turns env := hundisturbed.newest
  have hticks := hundisturbed.ticks (.own env) (List.mem_append_right _ (List.mem_singleton_self _))
  cases h with
  | unregistered own room => exact advances_unregistered hp hs hundisturbed.front.room own room
  | registered first own client => exact advances_registered hp hs own client
  | authorized first e own client code =>
    have hlist : ownEnvs (turns ++ [.own env]) = [first, e, env] := by
      rw [ownEnvs_own, own]
      rfl
    have htime : env.clock 0 ≤ e.clock 0 + 300 := by
      apply hundisturbed.codeTime
      · rw [hlist]
        rfl
      · rw [hlist]
        rfl
    exact advances_authorized hp hs hfamilies hnewest hticks htime own client code
  | granted id earlier e own long client drawn access _ hash refresh holdsRefresh =>
    have htime : env.clock 0 ≤ e.clock 0 + max cfg.oauthRefreshTokenTtlSeconds 60 := by
      apply hundisturbed.refreshTime earlier.length e env long
      · rw [ownEnvs_own, own, List.append_assoc]
        simp
      · rw [ownEnvs_own, own]
        simp
    exact advances_granted hp hs hnewest htime own long client drawn holdsRefresh

/-- What holds of the world after a run. -/
structure Served (cfg : OauthConfig) (rt : OauthRuntime) (p : Party) (turns : List Turn) (w : World) : Prop where
  valid : Valid rt w.store
  families : FamiliesDrawn turns w.store
  knows : ∃ stage, w.stage = some stage ∧ Knows cfg rt p turns w.store stage

theorem served_turn (hp : p.Servable cfg rt) {t : Turn} {w : World} (hundisturbed : Undisturbed cfg rt (turns ++ [t]))
    (h : Served cfg rt p turns w) : Served cfg rt p (turns ++ [t]) (turn cfg rt p w t) := by
  obtain ⟨stage, hstage, hknows⟩ := h.knows
  cases t with
  | other call =>
    have hstep := perform_step cfg rt call.env call.request w.store
    exact ⟨h.valid.step hstep, h.families.step (t := .other call) hstep h.valid, stage, hstage,
      hknows.other h.valid hundisturbed hstep⟩
  | own env =>
    have hstep := perform_step cfg rt env (p.request cfg stage) w.store
    have hturn : turn cfg rt p w (.own env) = ownTurn cfg rt p env w.store stage := by
      rw [turn, hstage]
    rw [hturn]
    exact ⟨h.valid.step hstep, h.families.step (t := .own env) hstep h.valid, hknows.own hp h.valid h.families hundisturbed⟩

theorem served_run (hp : p.Servable cfg rt) (hundisturbed : Undisturbed cfg rt turns) :
    Served cfg rt p turns (worldAfter cfg rt p turns) := by
  induction turns using List.reverseRecOn with
  | nil =>
    refine ⟨valid_empty rt, ?_, .unregistered, rfl, .unregistered rfl (Nat.zero_le _)⟩
    intro hash record hrow
    simp [worldAfter, Store.empty] at hrow
  | append_singleton turns t ih =>
    rw [worldAfter, List.foldl_append]
    exact served_turn hp hundisturbed (ih hundisturbed.front)

def sampleParty : Party where
  redirectUri := sampleUri
  clientName := none
  verifier := txt "verifier"
  challenge := txt "iMnq5o6zALKXGivsnlom_0F5_WYda32GHkxlV7mq7hQ"
  scope := none
  state := some (txt "xyz")
  baseUrl := sampleBase

def envAt (time : ℤ) (draw : Text) : OauthEnv := (callAt time draw (.verify [] [])).env

def sampleTurns : List Turn :=
  [.own (envAt 0 (txt "c1")), .own (envAt 0 (txt "k1")), .other (callAt 5 (txt "a3") (.register ⟨some [some sampleUri], none⟩)),
    .own (envAt 10 (txt "a1")), .own (envAt 3000 (txt "a2"))]

theorem sampleParty_servable : sampleParty.Servable sampleConfig sampleRuntime where
  configured := by decide
  login := by decide
  allowed := by decide +kernel
  redirectUri := by decide
  clientName := rfl
  state := by decide
  resource := by decide +kernel
  scopes := by decide +kernel
  pkce := by decide +kernel
  challenge := by decide
  within := by simp [sampleParty, requestedScopes]
  full := .inl (by simp [sampleParty, requestedScopes])

theorem sampleTurns_undisturbed : Undisturbed sampleConfig sampleRuntime sampleTurns where
  drawn := by decide +kernel
  hashes := by decide +kernel
  families := by decide +kernel
  clocks := by simp [sampleTurns, Turn.env, envAt, callAt]
  ticks := by simp [sampleTurns, Turn.env, envAt, callAt]
  strangers := by
    intro env call _ hcall
    obtain rfl : call = callAt 5 (txt "a3") (.register ⟨some [some sampleUri], none⟩) := by simpa [sampleTurns] using hcall
    exact ⟨fun _ _ h => (by cases h), fun _ _ => rfl⟩
  room := by decide
  codeTime := by
    intro env env' henv henv'
    obtain rfl := Option.some.inj henv
    obtain rfl := Option.some.inj henv'
    decide
  refreshTime := by
    intro i env env' hi henv henv'
    rcases i with _ | _ | _ | i
    · omega
    · omega
    · obtain rfl := Option.some.inj henv
      obtain rfl := Option.some.inj henv'
      decide +kernel
    · cases henv'

end WebOauthMcp.SessionLiveness
