import WebOauthMcp.OauthSteps

/-!
# Runs of the OAuth manager

For each table, where a row found after a call comes from. From these the facts that hold
of every reachable store, and the moments of a run.
-/

namespace WebOauthMcp.OauthRuns
open CodePoints Tables Words OauthStore OauthOperations OauthSteps

variable {cfg : OauthConfig} {rt : OauthRuntime} {env : OauthEnv} {request : Request} {s : Store}
variable {o : Outcome Reply}

/-! ## Where a row comes from -/

/-- The call issued a pair of tokens, the refresh token under this hash. -/
inductive Issues (cfg : OauthConfig) (rt : OauthRuntime) (env : OauthEnv) (request : Request) (s : Store) :
    Text → Grant → Prop
  | exchanged (baseUrl : Text) (req : TokenRequest) (hash : Text) (record : CodeRecord)
      (exchange : IsExchange cfg request baseUrl req)
      (lookup : s.codes.lookup (req.code.getD []) = some record) (matched : Matches rt env req record)
      (fresh : tokenHash rt (refreshTokenDrawn env) = some hash) :
      Issues cfg rt env request s hash (exchangeGrant cfg env record)
  | refreshed (baseUrl : Text) (req : TokenRequest) (old hash : Text) (record : RefreshRecord)
      (refresh : IsRefresh request baseUrl req) (presents : Presents cfg rt env baseUrl req s old record)
      (reuse : isReuse (env.clock 0) record = false)
      (scope : ∀ w ∈ requestedScopes (req.scope.getD []), w ∈ words (orDefault cfg record.scope))
      (fresh : tokenHash rt (refreshTokenDrawn env) = some hash) :
      Issues cfg rt env request s hash (refreshGrant cfg env req record)

theorem Issues.fresh {hash : Text} {g : Grant} (h : Issues cfg rt env request s hash g) :
    tokenHash rt (refreshTokenDrawn env) = some hash := by
  cases h with
  | exchanged _ _ _ _ _ _ _ fresh => exact fresh
  | refreshed _ _ _ _ _ _ _ _ _ fresh => exact fresh

/-- The record of the refresh token that a grant issues. -/
def grantRecord (cfg : OauthConfig) (env : OauthEnv) (g : Grant) : RefreshRecord :=
  refreshRecord cfg env g.clientId g.granted g.resource g.familyId g.now

theorem client_origin (h : Step cfg rt env request s o) {id : Text} {client : ClientRecord}
    (hc : (o.after s).clients.lookup id = some client) :
    s.clients.lookup id = some client ∨ ∀ u ∈ client.redirectUris, isAllowedRedirectUri rt u = true := by
  cases h with
  | registered req _ allowed _ =>
    have hc := (lookup_insert_iff _ _ _ _ _).mp hc
    cases hc with
    | inl hc =>
      rw [← hc.2]
      exact Or.inr allowed
    | inr hc => exact Or.inl hc.2
  | exchanged _ _ _ _ _ _ _ _ _ _ hs _ =>
    subst hs
    exact Or.inl hc
  | refreshed _ _ _ _ _ _ _ _ _ _ _ _ _ hs _ =>
    subst hs
    exact Or.inl hc
  | _ => exact Or.inl hc

/-- Clients stay registered. -/
theorem client_kept (h : Step cfg rt env request s o) {id : Text} (hc : (s.clients.lookup id).isSome = true) :
    ((o.after s).clients.lookup id).isSome = true := by
  cases h with
  | registered req _ _ _ =>
    show ((addClient s _).clients.lookup id).isSome = true
    simp only [addClient]
    by_cases hid : id = (registeredClient env req (registeredUris req)).clientId
    · rw [hid, Finmap.lookup_insert]
      rfl
    · rw [Finmap.lookup_insert_of_ne _ hid]
      exact hc
  | exchanged _ _ _ _ _ _ _ _ _ _ hs _ =>
    subst hs
    exact hc
  | refreshed _ _ _ _ _ _ _ _ _ _ _ _ _ hs _ =>
    subst hs
    exact hc
  | _ => exact hc

theorem code_origin (h : Step cfg rt env request s o) {code : Text} {record : CodeRecord}
    (hc : (o.after s).codes.lookup code = some record) :
    s.codes.lookup code = some record ∨ ∃ baseUrl req, request = .authorize baseUrl req ∧
      Authorized cfg baseUrl req s ∧ o.written.isSome = true ∧ code = authorizationCode env ∧
      record = authorizedRecord cfg env baseUrl req := by
  cases h with
  | authorized baseUrl req _ checks _ =>
    have hc := (lookup_insert_iff _ _ _ _ _).mp hc
    cases hc with
    | inl hc => exact Or.inr ⟨baseUrl, req, rfl, checks, rfl, hc.1, hc.2.symm⟩
    | inr hc => exact Or.inl hc.2
  | codeDropped _ _ _ _ _ _ _ => exact Or.inl ((lookup_erase_iff _ _ _ _).mp hc).2
  | exchanged _ _ _ _ _ _ _ _ _ _ hs _ =>
    subst hs
    exact Or.inl ((lookup_erase_iff _ _ _ _).mp hc).2
  | refreshed _ _ _ _ _ _ _ _ _ _ _ _ _ hs _ =>
    subst hs
    exact Or.inl hc
  | _ => exact Or.inl hc

theorem token_origin (h : Step cfg rt env request s o) {token : Text} {record : TokenRecord}
    (hc : (o.after s).tokens.lookup token = some record) :
    s.tokens.lookup token = some record ∨ ∃ hash g, Issues cfg rt env request s hash g ∧
      o.result = .ok (issuedReply cfg env g) ∧ token = accessTokenDrawn env ∧ record = accessRecord cfg g := by
  cases h with
  | exchanged _ baseUrl req _ r hash exchange lookup matched fresh _ hs _ =>
    subst hs
    have hc := (lookup_insert_iff _ _ _ _ _).mp hc
    cases hc with
    | inl hc =>
      exact Or.inr ⟨hash, _, .exchanged baseUrl req hash r exchange lookup matched fresh, rfl, hc.1, hc.2.symm⟩
    | inr hc => exact Or.inl hc.2
  | refreshed _ baseUrl req _ old hash r refresh presents reuse scope fresh _ hs _ =>
    subst hs
    have hc := (lookup_insert_iff _ _ _ _ _).mp hc
    cases hc with
    | inl hc =>
      exact Or.inr ⟨hash, _, .refreshed baseUrl req old hash r refresh presents reuse scope fresh, rfl,
        hc.1, hc.2.symm⟩
    | inr hc => exact Or.inl hc.2
  | expired _ _ _ _ _ _ _ => exact Or.inl ((lookup_erase_iff _ _ _ _).mp hc).2
  | _ => exact Or.inl hc

/-- The request is a refresh that presents the token with this hash. -/
def presentsToken (rt : OauthRuntime) (hash : Text) (request : Request) : Bool :=
  match request with
  | .refresh _ req => decide (tokenHash rt (req.refreshToken.getD []) = some hash)
  | .exchange _ req => decide (req.grantType = some (txt "refresh_token")) &&
      decide (tokenHash rt (req.refreshToken.getD []) = some hash)
  | _ => false

theorem presentsToken_iff {hash : Text} : presentsToken rt hash request = true ↔
    ∃ baseUrl req, IsRefresh request baseUrl req ∧ tokenHash rt (req.refreshToken.getD []) = some hash := by
  constructor
  · intro h
    cases request with
    | refresh baseUrl req => exact ⟨baseUrl, req, Or.inl rfl, of_decide_eq_true h⟩
    | exchange baseUrl req =>
      simp only [presentsToken, Bool.and_eq_true, decide_eq_true_eq] at h
      exact ⟨baseUrl, req, Or.inr ⟨rfl, h.1⟩, h.2⟩
    | _ => exact absurd h (by simp [presentsToken])
  · intro h
    obtain ⟨baseUrl, req, hrefresh, htoken⟩ := h
    cases hrefresh with
    | inl h => simp [h, presentsToken, htoken]
    | inr h => simp [h.1, h.2, presentsToken, htoken]

theorem isRefresh_unique {baseUrl baseUrl' : Text} {req req' : TokenRequest} (h : IsRefresh request baseUrl req)
    (h' : IsRefresh request baseUrl' req') : baseUrl = baseUrl' ∧ req = req' := by
  rcases h with rfl | ⟨rfl, -⟩ <;> rcases h' with h' | ⟨h', -⟩ <;> simp_all

theorem isExchange_presentsToken {baseUrl : Text} {req : TokenRequest} (h : IsExchange cfg request baseUrl req)
    (hash : Text) : presentsToken rt hash request = false := by
  have hne : (some (txt "authorization_code") : Option Text) ≠ some (txt "refresh_token") := by decide
  simp [h.request_eq, presentsToken, h.grantType, hne]

/-- The call accepts the token with this hash. -/
def accepts (rt : OauthRuntime) (hash : Text) (request : Request) (o : Outcome Reply) : Bool :=
  presentsToken rt hash request && o.result.isOk

/-- An accepted token has a live record that is no reuse. -/
theorem accepts_spec (h : Step cfg rt env request s o) {hash : Text} (ha : accepts rt hash request o = true) :
    ∃ baseUrl req record, IsRefresh request baseUrl req ∧ Presents cfg rt env baseUrl req s hash record ∧
      isReuse (env.clock 0) record = false := by
  simp only [accepts, Bool.and_eq_true] at ha
  obtain ⟨hpresents, hok⟩ := ha
  cases h with
  | exchanged _ _ _ _ _ _ exchange =>
    rw [isExchange_presentsToken exchange] at hpresents
    exact absurd hpresents (by simp)
  | refreshed _ baseUrl req _ old _ record refresh presents reuse =>
    obtain ⟨baseUrl', req', refresh', token⟩ := presentsToken_iff.mp hpresents
    obtain ⟨rfl, rfl⟩ := isRefresh_unique refresh refresh'
    obtain rfl := Option.some.inj (presents.token.symm.trans token)
    exact ⟨baseUrl, req, record, refresh, presents, reuse⟩
  | registered | authorized | answered | expired => simp [presentsToken] at hpresents
  | _ => simp [Except.isOk, Except.toBool] at hok

/-- A refresh record found after a call was there and is not the one the call accepts, was
issued by the call, or was accepted and rotated by it. -/
theorem refresh_origin (h : Step cfg rt env request s o) {hash : Text} {record : RefreshRecord}
    (hc : (o.after s).refreshTokens.lookup hash = some record) :
    (s.refreshTokens.lookup hash = some record ∧ accepts rt hash request o = false) ∨
      (∃ g, Issues cfg rt env request s hash g ∧ o.result = .ok (issuedReply cfg env g) ∧
        record = grantRecord cfg env g) ∨
      ∃ old, s.refreshTokens.lookup hash = some old ∧ record = rotate (env.clock 0) old ∧
        accepts rt hash request o = true := by
  cases h with
  | exchanged _ baseUrl req _ r new exchange lookup matched fresh _ hs _ =>
    subst hs
    have hc := (lookup_insert_iff _ _ _ _ _).mp hc
    cases hc with
    | inl hc =>
      rw [hc.1]
      exact Or.inr (Or.inl ⟨_, .exchanged baseUrl req new r exchange lookup matched fresh, rfl, hc.2.symm⟩)
    | inr hc =>
      refine Or.inl ⟨((lookup_pruned_iff _ _ _ _).mp hc.2).1, ?_⟩
      simp [accepts, isExchange_presentsToken exchange]
  | pruned _ _ _ _ _ _ => exact Or.inl ⟨((lookup_pruned_iff _ _ _ _).mp hc).1, by simp [accepts, Except.isOk, Except.toBool]⟩
  | reused _ _ _ _ _ _ _ _ _ _ =>
    exact Or.inl ⟨((lookup_pruned_iff _ _ _ _).mp ((lookup_select_iff _ _ _ _).mp hc).1).1,
      by simp [accepts, Except.isOk, Except.toBool]⟩
  | refreshed _ baseUrl req _ old new r refresh presents reuse scope fresh _ hs _ =>
    subst hs
    have hc := (lookup_insert_iff _ _ _ _ _).mp hc
    cases hc with
    | inl hc =>
      rw [hc.1]
      exact Or.inr (Or.inl ⟨_, .refreshed baseUrl req old new r refresh presents reuse scope fresh, rfl,
        hc.2.symm⟩)
    | inr hc =>
      have hset := (lookup_insert_iff _ _ _ _ _).mp ((lookup_pruned_iff _ _ _ _).mp hc.2).1
      cases hset with
      | inl hset =>
        rw [hset.1]
        have hpresents := presentsToken_iff.mpr ⟨baseUrl, req, refresh, presents.token⟩
        refine Or.inr (Or.inr ⟨r, presents.lookup, hset.2.symm, ?_⟩)
        rw [accepts, hpresents]
        rfl
      | inr hset =>
        refine Or.inl ⟨((lookup_pruned_iff _ _ _ _).mp hset.2).1, ?_⟩
        have hnot : presentsToken rt hash request = false := by
          rw [← Bool.not_eq_true]
          intro hpresents
          obtain ⟨_, _, refresh', token⟩ := presentsToken_iff.mp hpresents
          obtain ⟨-, rfl⟩ := isRefresh_unique refresh refresh'
          exact hset.1 (Option.some.inj (token.symm.trans presents.token))
        simp [accepts, hnot]
  | registered | authorized | answered | expired => exact Or.inl ⟨hc, by simp [accepts, presentsToken]⟩
  | _ => exact Or.inl ⟨hc, by simp [accepts, Except.isOk, Except.toBool]⟩

/-- A reply with tokens comes from an issue, whose records are found afterwards. -/
theorem tokens_reply (h : Step cfg rt env request s o) {reply : TokenReply} (hr : o.result = .ok (.tokens reply)) :
    ∃ hash g, Issues cfg rt env request s hash g ∧ .tokens reply = issuedReply cfg env g ∧
      (o.after s).refreshTokens.lookup hash = some (grantRecord cfg env g) := by
  cases h with
  | authorized baseUrl req _ _ _ =>
    cases hred : redirectWithCode (req.redirectUri.getD []) (authorizationCode env) req.state with
    | error e => simp [hred, Except.map] at hr
    | ok url => simp [hred, Except.map] at hr
  | exchanged _ baseUrl req _ r hash exchange lookup matched fresh _ hs _ =>
    subst hs
    exact ⟨hash, _, .exchanged baseUrl req hash r exchange lookup matched fresh, (Except.ok.inj hr).symm,
      Finmap.lookup_insert _⟩
  | refreshed _ baseUrl req _ old hash r refresh presents reuse scope fresh _ hs _ =>
    subst hs
    exact ⟨hash, _, .refreshed baseUrl req old hash r refresh presents reuse scope fresh, (Except.ok.inj hr).symm,
      Finmap.lookup_insert _⟩
  | _ => simp at hr

/-! ## What can be written -/

theorem storeEncodable_iff (s : Store) : s.isEncodable = true ↔
    (∀ id r, s.clients.lookup id = some r → CodePoints.isEncodable id = true ∧ r.isEncodable = true) ∧
    (∀ code r, s.codes.lookup code = some r → CodePoints.isEncodable code = true ∧ r.isEncodable = true) ∧
    (∀ token r, s.tokens.lookup token = some r → CodePoints.isEncodable token = true ∧ r.isEncodable = true) ∧
    (∀ hash r, s.refreshTokens.lookup hash = some r →
      CodePoints.isEncodable hash = true ∧ r.isEncodable = true) := by
  simp only [Store.isEncodable, Bool.and_eq_true, allRows_iff, and_assoc]

theorem step_encodable (h : Step cfg rt env request s o) (hs : s.isEncodable = true) :
    (o.after s).isEncodable = true := by
  cases h with
  | refused => exact hs
  | answered => exact hs
  | registered _ _ _ encodable => exact encodable
  | authorized _ _ _ _ encodable => exact encodable
  | unknownCode => exact hs
  | codeDropped _ _ _ _ _ _ encodable => exact encodable
  | exchanged _ _ _ _ _ _ _ _ _ _ _ _ encodable => exact encodable
  | pruned _ _ _ _ _ encodable => exact encodable
  | reused _ _ _ _ _ _ _ _ _ encodable => exact encodable
  | refreshed _ _ _ _ _ _ _ _ _ _ _ _ _ _ encodable => exact encodable
  | expired _ _ _ _ _ _ encodable => exact encodable

theorem dropCode_encodable (hs : s.isEncodable = true) (code : Text) : (dropCode s code).isEncodable = true := by
  rw [storeEncodable_iff] at hs ⊢
  refine ⟨hs.1, ?_, hs.2.2⟩
  intro k r hk
  exact hs.2.1 k r ((lookup_erase_iff _ _ _ _).mp hk).2

theorem prune_encodable (hs : s.isEncodable = true) (now : ℤ) : (pruneRefreshTokens s now).isEncodable = true := by
  rw [storeEncodable_iff] at hs ⊢
  refine ⟨hs.1, hs.2.1, hs.2.2.1, ?_⟩
  intro k r hk
  exact hs.2.2.2 k r ((lookup_pruned_iff _ _ _ _).mp hk).1

theorem dropFamily_encodable (hs : s.isEncodable = true) (familyId : Text) :
    (dropFamily s familyId).isEncodable = true := by
  rw [storeEncodable_iff] at hs ⊢
  refine ⟨hs.1, hs.2.1, hs.2.2.1, ?_⟩
  intro k r hk
  exact hs.2.2.2 k r ((lookup_select_iff _ _ _ _).mp hk).1

theorem setRefresh_encodable (hs : s.isEncodable = true) {hash : Text} {record : RefreshRecord}
    (hhash : CodePoints.isEncodable hash = true) (hrecord : record.isEncodable = true) :
    (setRefresh s hash record).isEncodable = true := by
  rw [storeEncodable_iff] at hs ⊢
  refine ⟨hs.1, hs.2.1, hs.2.2.1, ?_⟩
  intro k r hk
  have hk := (lookup_insert_iff _ _ _ _ _).mp hk
  cases hk with
  | inl hk =>
    rw [hk.1, ← hk.2]
    exact ⟨hhash, hrecord⟩
  | inr hk => exact hs.2.2.2 k r hk.2

/-- The texts of a grant can be encoded. -/
structure Grant.Encodable (g : Grant) : Prop where
  clientId : CodePoints.isEncodable g.clientId = true
  scope : CodePoints.isEncodable g.scope = true
  granted : CodePoints.isEncodable g.granted = true
  resource : CodePoints.isEncodable g.resource = true
  familyId : CodePoints.isEncodable g.familyId = true

theorem isEncodable_drawn (env : OauthEnv) {start : Text} (h : isAscii start = true) (i : ℕ) :
    CodePoints.isEncodable (start ++ env.draws i) = true := by
  apply isEncodable_of_isAscii
  have hdraw := env.draws_ascii i
  simp only [isAscii] at h hdraw ⊢
  rw [List.all_append, h, hdraw]
  rfl

theorem issuedStore_encodable (cfg : OauthConfig) (env : OauthEnv) (hs : s.isEncodable = true) {g : Grant} (hg : Grant.Encodable g) {hash : Text}
    (hhash : CodePoints.isEncodable hash = true) : (issuedStore cfg env hash s g).isEncodable = true := by
  have hpruned := prune_encodable hs g.now
  rw [storeEncodable_iff] at hs hpruned ⊢
  refine ⟨hs.1, hs.2.1, ?_, ?_⟩
  · intro k r hk
    have hk := (lookup_insert_iff _ _ _ _ _).mp hk
    cases hk with
    | inl hk =>
      rw [hk.1, ← hk.2]
      refine ⟨isEncodable_drawn env (by decide) 0, ?_⟩
      simp [TokenRecord.isEncodable, accessRecord, hg.clientId, hg.scope, hg.resource]
    | inr hk => exact hs.2.2.1 k r hk.2
  · intro k r hk
    have hk := (lookup_insert_iff _ _ _ _ _).mp hk
    cases hk with
    | inl hk =>
      rw [hk.1, ← hk.2]
      refine ⟨hhash, ?_⟩
      have hfamily : CodePoints.isEncodable (grantRecord cfg env g).familyId = true := by
        simp only [grantRecord, refreshRecord]
        split_ifs
        · exact isEncodable_drawn env (by decide) 2
        · exact hg.familyId
      simp only [grantRecord] at hfamily
      simp only [RefreshRecord.isEncodable, hfamily]
      simp [refreshRecord, hg.clientId, hg.granted, hg.resource]
    | inr hk => exact hpruned.2.2.2 k r hk.2

theorem refreshTokenDrawn_hash (rt : OauthRuntime) (env : OauthEnv) :
    ∃ hash, tokenHash rt (refreshTokenDrawn env) = some hash := by
  have henc : CodePoints.isEncodable (refreshTokenDrawn env) = true := isEncodable_drawn env (by decide) 1
  simp [tokenHash, encodeUtf8, henc]

/-- The draws can be encoded, so issuing tokens from a grant of texts that can be succeeds. -/
theorem issueTokens_eq (cfg : OauthConfig) (rt : OauthRuntime) (env : OauthEnv) (hs : s.isEncodable = true)
    {g : Grant} (hg : Grant.Encodable g) :
    ∃ hash, tokenHash rt (refreshTokenDrawn env) = some hash ∧
      issueTokens cfg rt env s g = ⟨some (issuedStore cfg env hash s g),
        .ok ⟨accessTokenDrawn env, expiresIn cfg, g.scope, refreshTokenDrawn env⟩⟩ := by
  obtain ⟨hash, hhash⟩ := refreshTokenDrawn_hash rt env
  have henc := issuedStore_encodable cfg env hs hg (tokenHash_encodable hhash)
  refine ⟨hash, hhash, ?_⟩
  simp only [issueTokens, issueRefreshToken, hhash, Option.map_some]
  exact if_pos henc

/-! ## What holds of every reachable store -/

/-- Every row can be written, has a registered client and a scope. -/
structure Valid (rt : OauthRuntime) (s : Store) : Prop where
  encodable : s.isEncodable = true
  clients : ∀ id client, s.clients.lookup id = some client →
    ∀ u ∈ client.redirectUris, isAllowedRedirectUri rt u = true
  codes : ∀ code record, s.codes.lookup code = some record →
    (s.clients.lookup record.clientId).isSome = true ∧ record.scope ≠ []
  tokens : ∀ token record, s.tokens.lookup token = some record →
    (s.clients.lookup record.clientId).isSome = true
  refreshTokens : ∀ hash record, s.refreshTokens.lookup hash = some record →
    (s.clients.lookup record.clientId).isSome = true ∧ record.scope ≠ [] ∧ record.familyId ≠ []

theorem valid_empty (rt : OauthRuntime) : Valid rt .empty where
  encodable := by decide
  clients := by simp [Store.empty]
  codes := by simp [Store.empty]
  tokens := by simp [Store.empty]
  refreshTokens := by simp [Store.empty]

theorem orDefault_ne_nil (cfg : OauthConfig) (scope : Text) : orDefault cfg scope ≠ [] := by
  simp only [orDefault]
  split_ifs with h
  · exact scopeString_ne_nil cfg
  · simpa using h

theorem Issues.granted_ne_nil {hash : Text} {g : Grant} (h : Issues cfg rt env request s hash g) :
    g.granted ≠ [] := by
  cases h with
  | exchanged => exact orDefault_ne_nil cfg _
  | refreshed => exact orDefault_ne_nil cfg _

theorem Issues.registered {hash : Text} {g : Grant} (h : Issues cfg rt env request s hash g) (hs : Valid rt s) :
    (s.clients.lookup g.clientId).isSome = true := by
  cases h with
  | exchanged _ req _ record _ lookup _ _ => exact (hs.codes _ record lookup).1
  | refreshed _ _ _ _ _ _ presents _ _ _ => exact presents.registered

theorem grantRecord_familyId_ne_nil (cfg : OauthConfig) (env : OauthEnv) (g : Grant) :
    (grantRecord cfg env g).familyId ≠ [] := by
  simp only [grantRecord, refreshRecord]
  split_ifs with h
  · simp [txt]
  · simpa using h

@[simp] theorem rotate_clientId (now : ℤ) (r : RefreshRecord) : (rotate now r).clientId = r.clientId := by
  simp only [rotate]
  split_ifs <;> rfl

@[simp] theorem rotate_scope (now : ℤ) (r : RefreshRecord) : (rotate now r).scope = r.scope := by
  simp only [rotate]
  split_ifs <;> rfl

@[simp] theorem rotate_resource (now : ℤ) (r : RefreshRecord) : (rotate now r).resource = r.resource := by
  simp only [rotate]
  split_ifs <;> rfl

@[simp] theorem rotate_familyId (now : ℤ) (r : RefreshRecord) : (rotate now r).familyId = r.familyId := by
  simp only [rotate]
  split_ifs <;> rfl

theorem authorizedRecord_scope_ne_nil (cfg : OauthConfig) (env : OauthEnv) (baseUrl : Text)
    (req : AuthorizeRequest) : (authorizedRecord cfg env baseUrl req).scope ≠ [] := by
  simp only [authorizedRecord]
  split_ifs with h
  · exact scopeString_ne_nil cfg
  · simpa using h

theorem Valid.step (h : Step cfg rt env request s o) (hs : Valid rt s) : Valid rt (o.after s) where
  encodable := step_encodable h hs.encodable
  clients := by
    intro id client hc
    cases client_origin h hc with
    | inl hc => exact hs.clients id client hc
    | inr allowed => exact allowed
  codes := by
    intro code record hc
    cases code_origin h hc with
    | inl hc => exact ⟨client_kept h (hs.codes code record hc).1, (hs.codes code record hc).2⟩
    | inr hnew =>
      obtain ⟨baseUrl, req, -, checks, -, -, rfl⟩ := hnew
      obtain ⟨client, hclient, -⟩ := checks.registered
      exact ⟨client_kept h (Option.isSome_iff_exists.mpr ⟨client, hclient⟩),
        authorizedRecord_scope_ne_nil cfg env baseUrl req⟩
  tokens := by
    intro token record hc
    cases token_origin h hc with
    | inl hc => exact client_kept h (hs.tokens token record hc)
    | inr hnew =>
      obtain ⟨hash, g, issues, -, -, rfl⟩ := hnew
      exact client_kept h (issues.registered hs)
  refreshTokens := by
    intro hash record hc
    rcases refresh_origin h hc with ⟨hc, -⟩ | ⟨g, issues, -, rfl⟩ | ⟨old, hold, rfl, -⟩
    · have hrow := hs.refreshTokens hash record hc
      exact ⟨client_kept h hrow.1, hrow.2⟩
    · exact ⟨client_kept h (issues.registered hs), issues.granted_ne_nil, grantRecord_familyId_ne_nil cfg env g⟩
    · have hrow := hs.refreshTokens hash old hold
      rw [rotate_clientId, rotate_scope, rotate_familyId]
      exact ⟨client_kept h hrow.1, hrow.2⟩

theorem reachable_valid (h : Reachable cfg rt s) : Valid rt s :=
  reachable_induction (valid_empty rt) (fun call s hs => hs.step (perform_step cfg rt call.env call.request s)) h

/-! ## The moments of a run -/

/-- A call with the store it finds. -/
structure Moment where
  call : Call
  before : Store

def Moment.outcome (cfg : OauthConfig) (rt : OauthRuntime) (m : Moment) : Outcome Reply :=
  runCall cfg rt m.call m.before

def Moment.after (cfg : OauthConfig) (rt : OauthRuntime) (m : Moment) : Store :=
  (m.outcome cfg rt).after m.before

/-- The calls of a run from a store, each with the store it finds. -/
def moments (cfg : OauthConfig) (rt : OauthRuntime) : List Call → Store → List Moment
  | [], _ => []
  | call :: calls, s => ⟨call, s⟩ :: moments cfg rt calls ((runCall cfg rt call s).after s)

theorem moments_append (cs ds : List Call) (s : Store) :
    moments cfg rt (cs ++ ds) s = moments cfg rt cs s ++ moments cfg rt ds (storeAfter cfg rt cs s) := by
  induction cs generalizing s with
  | nil => rfl
  | cons c cs ih => exact congrArg _ (ih _)

theorem moment_step (cfg : OauthConfig) (rt : OauthRuntime) (m : Moment) :
    Step cfg rt m.call.env m.call.request m.before (m.outcome cfg rt) :=
  perform_step cfg rt m.call.env m.call.request m.before

/-- The store a moment of a run finds is the one its earlier calls leave. -/
theorem moments_split {calls : List Call} {s : Store} {m : Moment} (h : m ∈ moments cfg rt calls s) :
    ∃ earlier later, calls = earlier ++ m.call :: later ∧ m.before = storeAfter cfg rt earlier s := by
  induction calls generalizing s with
  | nil => exact absurd h (List.not_mem_nil)
  | cons c calls ih =>
    cases List.mem_cons.mp h with
    | inl hm => exact ⟨[], calls, by simp [hm], by simp [hm, storeAfter]⟩
    | inr hm =>
      obtain ⟨earlier, later, hcalls, hbefore⟩ := ih hm
      exact ⟨c :: earlier, later, by simp [hcalls], hbefore⟩

theorem moment_call_mem {calls : List Call} {s : Store} {m : Moment} (h : m ∈ moments cfg rt calls s) :
    m.call ∈ calls := by
  obtain ⟨earlier, later, hcalls, -⟩ := moments_split h
  simp [hcalls]

/-- Moments of a run whose calls differ pairwise in a drawn value are known by that value. -/
theorem moments_unique {α : Type} (drawn : Call → α) {calls : List Call} {s : Store}
    (hfresh : calls.Pairwise fun c d => drawn c ≠ drawn d) {m m' : Moment} (hm : m ∈ moments cfg rt calls s)
    (hm' : m' ∈ moments cfg rt calls s) (hsame : drawn m.call = drawn m'.call) : m = m' := by
  induction calls generalizing s with
  | nil => exact absurd hm List.not_mem_nil
  | cons c calls ih =>
    have hhead := (List.pairwise_cons.mp hfresh).1
    have hrest := (List.pairwise_cons.mp hfresh).2
    cases List.mem_cons.mp hm with
    | inl hm => cases List.mem_cons.mp hm' with
      | inl hm' => rw [hm, hm']
      | inr hm' =>
        subst hm
        exact absurd hsame (hhead _ (moment_call_mem hm'))
    | inr hm => cases List.mem_cons.mp hm' with
      | inl hm' =>
        subst hm'
        exact absurd hsame.symm (hhead _ (moment_call_mem hm))
      | inr hm' => exact ih hrest hm hm'

theorem moment_reachable {calls : List Call} {m : Moment} (h : m ∈ moments cfg rt calls .empty) :
    Reachable cfg rt m.before := by
  obtain ⟨earlier, -, -, hbefore⟩ := moments_split h
  exact ⟨earlier, hbefore⟩

end WebOauthMcp.OauthRuns
