import WebOauthMcp.OauthCodes

/-!
# Refresh-token families

A ledger of the run fixes, for every retained refresh record, the call that issued it, the
draw its family goes back to and the moment its token was first accepted. With fresh draws
a family that reuse detection empties stays empty.
-/

namespace WebOauthMcp.OauthFamilies
open CodePoints Tables Words OauthStore OauthOperations OauthSteps OauthRuns OauthCodes

variable {cfg : OauthConfig} {rt : OauthRuntime} {env : OauthEnv} {request : Request} {s : Store}
variable {o : Outcome Reply} {calls : List Call} {m : Moment}

/-! ## The history of a token -/

def acceptsToken (cfg : OauthConfig) (rt : OauthRuntime) (hash : Text) (m : Moment) : Bool :=
  accepts rt hash m.call.request (m.outcome cfg rt)

/-- When the run first accepted the token with this hash. -/
def rotationTime (cfg : OauthConfig) (rt : OauthRuntime) (run : List Moment) (hash : Text) : Option ℤ :=
  (run.find? (acceptsToken cfg rt hash)).map fun m => m.call.env.clock 0

/-- The call replied with this token, and its record belongs to the family. -/
def IssuedIn (cfg : OauthConfig) (rt : OauthRuntime) (m : Moment) (token family : Text) : Prop :=
  ∃ reply hash record, (m.outcome cfg rt).result = .ok (.tokens reply) ∧ reply.refreshToken = token ∧
    tokenHash rt token = some hash ∧ (m.after cfg rt).refreshTokens.lookup hash = some record ∧
    record.familyId = family

/-- No two calls draw refresh tokens of one hash or one family. -/
structure Fresh (rt : OauthRuntime) (calls : List Call) : Prop where
  hashes : calls.Pairwise fun c d =>
    tokenHash rt (refreshTokenDrawn c.env) ≠ tokenHash rt (refreshTokenDrawn d.env)
  families : calls.Pairwise fun c d => c.env.draws 2 ≠ d.env.draws 2

theorem Fresh.append_left {cs ds : List Call} (h : Fresh rt (cs ++ ds)) : Fresh rt cs :=
  ⟨(List.pairwise_append.mp h.hashes).1, (List.pairwise_append.mp h.families).1⟩

theorem Fresh.family_ne {cs ds : List Call} (h : Fresh rt (cs ++ ds)) {c d : Call} (hc : c ∈ cs) (hd : d ∈ ds) :
    c.env.draws 2 ≠ d.env.draws 2 :=
  (List.pairwise_append.mp h.families).2.2 c hc d hd

/-- A token issued by a moment is the one its call drew. -/
theorem issuedIn_drawn {token family : Text} (h : IssuedIn cfg rt m token family) :
    token = refreshTokenDrawn m.call.env := by
  obtain ⟨reply, hash, record, hresult, rfl, -⟩ := h
  obtain ⟨_, g, -, hreply, -⟩ := tokens_reply (moment_step cfg rt m) hresult
  obtain rfl := Reply.tokens.inj hreply
  rfl

/-- Under fresh draws tokens of one hash are issued once, in one family. -/
theorem issuedIn_unique (hfresh : Fresh rt calls) {m m' : Moment} (hm : m ∈ moments cfg rt calls .empty)
    (hm' : m' ∈ moments cfg rt calls .empty) {token token' family family' : Text}
    (h : IssuedIn cfg rt m token family) (h' : IssuedIn cfg rt m' token' family')
    (hhash : tokenHash rt token = tokenHash rt token') : m = m' ∧ family = family' := by
  have hdrawn : tokenHash rt (refreshTokenDrawn m.call.env) = tokenHash rt (refreshTokenDrawn m'.call.env) := by
    rw [← issuedIn_drawn h, ← issuedIn_drawn h', hhash]
  have hsame := moments_unique (fun c => tokenHash rt (refreshTokenDrawn c.env)) hfresh.hashes hm hm' hdrawn
  subst hsame
  obtain ⟨_, hash, record, -, -, htoken, hrecord, rfl⟩ := h
  obtain ⟨_, hash', record', -, -, htoken', hrecord', rfl⟩ := h'
  obtain rfl := Option.some.inj (htoken.symm.trans (hhash.trans htoken'))
  obtain rfl := Option.some.inj (hrecord.symm.trans hrecord')
  exact ⟨rfl, rfl⟩

/-! ## The ledger of a run -/

/-- What the calls of a run say about a retained refresh record. -/
structure Ledger (cfg : OauthConfig) (rt : OauthRuntime) (calls : List Call) (hash : Text)
    (record : RefreshRecord) : Prop where
  issued : ∃ m ∈ moments cfg rt calls .empty, ∃ token, tokenHash rt token = some hash ∧
    IssuedIn cfg rt m token record.familyId
  drawn : ∃ c ∈ calls, record.familyId = txt "rtf_" ++ c.env.draws 2
  rotated : record.rotatedAt = rotationTime cfg rt (moments cfg rt calls .empty) hash

/-- A family comes from the draw of the call, or from the record that was refreshed. -/
theorem grantRecord_family {hash : Text} {g : Grant} (h : Issues cfg rt env request s hash g)
    (hs : Valid rt s) : (grantRecord cfg env g).familyId = txt "rtf_" ++ env.draws 2 ∨
      ∃ old record, s.refreshTokens.lookup old = some record ∧
        (grantRecord cfg env g).familyId = record.familyId := by
  cases h with
  | exchanged => exact Or.inl rfl
  | refreshed _ _ old _ record _ presents =>
    refine Or.inr ⟨old, record, presents.lookup, ?_⟩
    have hne := (hs.refreshTokens old record presents.lookup).2.2
    simp [grantRecord, refreshRecord, refreshGrant, hne]

theorem rotationTime_append (run : List Moment) (m : Moment) (hash : Text) :
    rotationTime cfg rt (run ++ [m]) hash = (rotationTime cfg rt run hash).or
      (if acceptsToken cfg rt hash m then some (m.call.env.clock 0) else none) := by
  simp only [rotationTime, List.find?_append, List.find?_singleton]
  cases run.find? (acceptsToken cfg rt hash) with
  | some first => rfl
  | none => cases acceptsToken cfg rt hash m <;> rfl

theorem rotate_rotatedAt (now : ℤ) (record : RefreshRecord) :
    (rotate now record).rotatedAt = record.rotatedAt.or (some now) := by
  simp only [rotate]
  cases h : record.rotatedAt <;> simp [h]

theorem moments_snoc (calls : List Call) (call : Call) : moments cfg rt (calls ++ [call]) .empty =
    moments cfg rt calls .empty ++ [⟨call, storeAfter cfg rt calls .empty⟩] := moments_append calls [call] .empty

theorem storeAfter_snoc (calls : List Call) (call : Call) : storeAfter cfg rt (calls ++ [call]) .empty =
    Moment.after cfg rt ⟨call, storeAfter cfg rt calls .empty⟩ := storeAfter_append cfg rt calls [call] .empty

/-- A token that a call accepts was issued before, by the ledger of the store it finds. -/
theorem accepted_issued {call : Call} {hash : Text} (hledger : ∀ hash record,
      (storeAfter cfg rt calls .empty).refreshTokens.lookup hash = some record → Ledger cfg rt calls hash record)
    (h : acceptsToken cfg rt hash ⟨call, storeAfter cfg rt calls .empty⟩ = true) :
    ∃ c ∈ calls, tokenHash rt (refreshTokenDrawn c.env) = some hash := by
  obtain ⟨_, _, record, -, presents, -⟩ := accepts_spec (moment_step cfg rt _) h
  obtain ⟨m, hm, token, htoken, hissued⟩ := (hledger hash record presents.lookup).issued
  rw [issuedIn_drawn hissued] at htoken
  exact ⟨m.call, moment_call_mem hm, htoken⟩

/-- Under fresh draws a call rotates, keeps or issues records as the ledger says. -/
theorem ledger_step {call : Call} (hfresh : Fresh rt (calls ++ [call]))
    (hledger : ∀ hash record, (storeAfter cfg rt calls .empty).refreshTokens.lookup hash = some record →
      Ledger cfg rt calls hash record)
    (haccepted : ∀ m ∈ moments cfg rt calls .empty, ∀ hash, acceptsToken cfg rt hash m = true →
      ∃ c ∈ calls, tokenHash rt (refreshTokenDrawn c.env) = some hash)
    {hash : Text} {record : RefreshRecord}
    (h : (storeAfter cfg rt (calls ++ [call]) .empty).refreshTokens.lookup hash = some record) :
    Ledger cfg rt (calls ++ [call]) hash record := by
  have hlast : (⟨call, storeAfter cfg rt calls .empty⟩ : Moment) ∈ moments cfg rt (calls ++ [call]) .empty := by
    simp [moments_snoc]
  have hsub : ∀ m ∈ moments cfg rt calls .empty, m ∈ moments cfg rt (calls ++ [call]) .empty := by
    intro m hm
    rw [moments_snoc]
    exact List.mem_append_left _ hm
  rw [storeAfter_snoc] at h
  rcases refresh_origin (moment_step cfg rt _) h with ⟨hold, hnot⟩ | ⟨g, issues, result, rfl⟩ | ⟨old, hold, rfl, hyes⟩
  · obtain ⟨⟨m, hm, hissued⟩, ⟨c, hc, hdrawn⟩, hrotated⟩ := hledger hash record hold
    refine ⟨⟨m, hsub m hm, hissued⟩, ⟨c, List.mem_append_left _ hc, hdrawn⟩, ?_⟩
    rw [moments_snoc, rotationTime_append, ← hrotated, acceptsToken, hnot]
    simp
  · refine ⟨⟨_, hlast, _, issues.fresh, ?_⟩, ?_, ?_⟩
    · exact ⟨_, hash, _, result, rfl, issues.fresh, h, rfl⟩
    · cases grantRecord_family issues (reachable_valid ⟨calls, rfl⟩) with
      | inl hnew => exact ⟨call, by simp, hnew⟩
      | inr hfrom =>
        obtain ⟨old, record, hold, hfamily⟩ := hfrom
        obtain ⟨c, hc, hdrawn⟩ := (hledger old record hold).drawn
        exact ⟨c, List.mem_append_left _ hc, hfamily.trans hdrawn⟩
    · have hnever : ∀ c ∈ calls, tokenHash rt (refreshTokenDrawn c.env) ≠ some hash := by
        intro c hc
        rw [← issues.fresh]
        exact (List.pairwise_append.mp hfresh.hashes).2.2 c hc call (by simp)
      have hnone : rotationTime cfg rt (moments cfg rt (calls ++ [call]) .empty) hash = none := by
        rw [moments_snoc, rotationTime, Option.map_eq_none_iff, List.find?_eq_none]
        intro m hm haccepts
        cases List.mem_append.mp hm with
        | inl hm =>
          obtain ⟨c, hc, hdrawn⟩ := haccepted m hm hash haccepts
          exact hnever c hc hdrawn
        | inr hm =>
          rw [List.mem_singleton.mp hm] at haccepts
          obtain ⟨c, hc, hdrawn⟩ := accepted_issued hledger haccepts
          exact hnever c hc hdrawn
      rw [hnone]
      rfl
  · obtain ⟨⟨m, hm, hissued⟩, ⟨c, hc, hdrawn⟩, hrotated⟩ := hledger hash old hold
    refine ⟨⟨m, hsub m hm, ?_⟩, ⟨c, List.mem_append_left _ hc, ?_⟩, ?_⟩
    · rw [rotate_familyId]
      exact hissued
    · rw [rotate_familyId]
      exact hdrawn
    · rw [rotate_rotatedAt, moments_snoc, rotationTime_append, ← hrotated, acceptsToken, hyes]
      rfl

/-- After every run of fresh calls the retained records are as the ledger says. -/
theorem ledger_run (hfresh : Fresh rt calls) :
    (∀ hash record, (storeAfter cfg rt calls .empty).refreshTokens.lookup hash = some record →
      Ledger cfg rt calls hash record) ∧
    ∀ m ∈ moments cfg rt calls .empty, ∀ hash, acceptsToken cfg rt hash m = true →
      ∃ c ∈ calls, tokenHash rt (refreshTokenDrawn c.env) = some hash := by
  induction calls using List.reverseRecOn with
  | nil => exact ⟨by simp [storeAfter, Store.empty], by simp [moments]⟩
  | append_singleton calls call ih =>
    obtain ⟨hledger, haccepted⟩ := ih hfresh.append_left
    refine ⟨fun hash record h => ledger_step hfresh hledger haccepted h, ?_⟩
    intro m hm hash haccepts
    rw [moments_snoc] at hm
    have hbefore : ∃ c ∈ calls, tokenHash rt (refreshTokenDrawn c.env) = some hash := by
      cases List.mem_append.mp hm with
      | inl hm => exact haccepted m hm hash haccepts
      | inr hm =>
        rw [List.mem_singleton.mp hm] at haccepts
        exact accepted_issued hledger haccepts
    obtain ⟨c, hc, hdrawn⟩ := hbefore
    exact ⟨c, List.mem_append_left _ hc, hdrawn⟩

/-! ## A family that is gone -/

/-- No record of the family is left. -/
def FamilyGone (family : Text) (s : Store) : Prop :=
  ∀ hash record, s.refreshTokens.lookup hash = some record → record.familyId ≠ family

theorem familyGone_step {family : Text} (h : FamilyGone family s) (hs : Valid rt s)
    (hdraw : txt "rtf_" ++ env.draws 2 ≠ family) (hstep : Step cfg rt env request s o) :
    FamilyGone family (o.after s) := by
  intro hash record hrecord
  rcases refresh_origin hstep hrecord with ⟨hold, -⟩ | ⟨g, issues, -, rfl⟩ | ⟨old, hold, rfl, -⟩
  · exact h hash record hold
  · cases grantRecord_family issues hs with
    | inl hnew =>
      rw [hnew]
      exact hdraw
    | inr hfrom =>
      obtain ⟨old, record, hold, hfamily⟩ := hfrom
      rw [hfamily]
      exact h old record hold
  · rw [rotate_familyId]
    exact h hash old hold

/-- A family that is gone stays gone while no call draws it again. -/
theorem familyGone_run {family : Text} {later : List Call} (h : FamilyGone family s) (hs : Valid rt s)
    (hdraws : ∀ c ∈ later, txt "rtf_" ++ c.env.draws 2 ≠ family) :
    ∀ m ∈ moments cfg rt later s, FamilyGone family m.before := by
  induction later generalizing s with
  | nil => exact fun m hm => absurd hm List.not_mem_nil
  | cons call later ih =>
    intro m hm
    cases List.mem_cons.mp hm with
    | inl hm =>
      rw [hm]
      exact h
    | inr hm =>
      have hstep := perform_step cfg rt call.env call.request s
      have hafter := familyGone_step h hs (hdraws call (by simp)) hstep
      exact ih hafter (hs.step hstep) (fun c hc => hdraws c (List.mem_cons_of_mem call hc)) m hm

/-! ## One refresh -/

/-- The resource of the request, where it names one, is this server's. -/
def MatchesResource (cfg : OauthConfig) (baseUrl : Text) (req : TokenRequest) : Prop :=
  (req.resource.any fun r => !r.isEmpty && r ≠ cfg.resourceUrl baseUrl) = false

/-- A refresh of a retained token of its own client is decided by its age and its scope. -/
theorem refreshAccessToken_eq {baseUrl : Text} {req : TokenRequest} {hash : Text} {record : RefreshRecord}
    (hp : Presents cfg rt env baseUrl req s hash record) (hraw : req.refreshToken.getD [] ≠ [])
    (hres : MatchesResource cfg baseUrl req) :
    refreshAccessToken cfg rt env baseUrl req s =
      if isReuse (env.clock 0) record then
        refuseWriting (dropFamily (pruneRefreshTokens s (env.clock 0)) record.familyId) .reuseDetected
      else if !((requestedScopes (req.scope.getD [])).all fun w =>
          (words (orDefault cfg record.scope)).contains w) then refuse .scopeExceedsGrant
      else issueTokens cfg rt env
        (setRefresh (pruneRefreshTokens s (env.clock 0)) hash (rotate (env.clock 0) record))
        (refreshGrant cfg env req record) := by
  have hlookup := (lookup_pruned_iff s (env.clock 0) hash record).mpr ⟨hp.lookup, hp.live⟩
  have hclient : ((pruneRefreshTokens s (env.clock 0)).clients.lookup record.clientId).isNone = false := by
    rw [Option.isNone_eq_false_iff]
    exact hp.registered
  simp only [MatchesResource] at hres
  simp only [refreshAccessToken]
  rw [if_neg (by simpa using hraw), hres, if_neg (by simp)]
  simp only [hp.token, hlookup]
  rw [if_neg (by simp [hp.client]), if_neg (by simp [hp.resource]), hclient, if_neg (by simp)]
  simp only [refreshGrant, setRefresh, ← hp.resource]

theorem rotate_encodable (now : ℤ) {record : RefreshRecord} (h : record.isEncodable = true) :
    (rotate now record).isEncodable = true := by
  simpa [RefreshRecord.isEncodable] using h

theorem refreshGrant_encodable {baseUrl : Text} {req : TokenRequest} {hash : Text} {record : RefreshRecord}
    (hs : Valid rt s) (hp : Presents cfg rt env baseUrl req s hash record)
    (hscope : ∀ w ∈ requestedScopes (req.scope.getD []), w ∈ words (orDefault cfg record.scope)) :
    Grant.Encodable (refreshGrant cfg env req record) := by
  have hrecord := (((storeEncodable_iff s).mp hs.encodable).2.2.2 hash record hp.lookup).2
  have hdefault : orDefault cfg record.scope = record.scope := by
    simp [orDefault, (hs.refreshTokens hash record hp.lookup).2.1]
  simp only [RefreshRecord.isEncodable, Bool.and_eq_true] at hrecord
  rw [hdefault] at hscope
  refine ⟨hrecord.1.1.1, ?_, ?_, hrecord.1.2, hrecord.2⟩
  · simp only [refreshGrant, hdefault]
    split_ifs
    · exact hrecord.1.1.2
    · apply isEncodable_joinWords
      intro w hw
      exact isEncodable_of_mem_words hrecord.1.1.2 (hscope w (mem_sortedSet.mp hw))
  · simp only [refreshGrant, hdefault]
    exact hrecord.1.1.2

theorem setRotated_encodable {baseUrl : Text} {req : TokenRequest} {hash : Text} {record : RefreshRecord}
    (hs : Valid rt s) (hp : Presents cfg rt env baseUrl req s hash record) :
    (setRefresh (pruneRefreshTokens s (env.clock 0)) hash (rotate (env.clock 0) record)).isEncodable = true := by
  have hrecord := ((storeEncodable_iff s).mp hs.encodable).2.2.2 hash record hp.lookup
  exact setRefresh_encodable (prune_encodable hs.encodable _) hrecord.1 (rotate_encodable _ hrecord.2)

theorem refuseWriting_eq {α : Type} (h : s.isEncodable = true) (r : Refusal) :
    refuseWriting (α := α) s r = ⟨some s, .error (.valueError r)⟩ := if_pos h

/-- A reuse empties the family. -/
theorem refresh_reused {baseUrl : Text} {req : TokenRequest} {hash : Text} {record : RefreshRecord}
    (hs : Valid rt s) (hp : Presents cfg rt env baseUrl req s hash record) (hraw : req.refreshToken.getD [] ≠ [])
    (hres : MatchesResource cfg baseUrl req) (hreuse : isReuse (env.clock 0) record = true) :
    refreshAccessToken cfg rt env baseUrl req s =
      ⟨some (dropFamily (pruneRefreshTokens s (env.clock 0)) record.familyId),
        .error (.valueError .reuseDetected)⟩ := by
  rw [refreshAccessToken_eq hp hraw hres, if_pos hreuse]
  exact refuseWriting_eq (dropFamily_encodable (prune_encodable hs.encodable _) _) _

/-- Without reuse and with a scope within the grant the refresh succeeds. -/
theorem refresh_accepted {baseUrl : Text} {req : TokenRequest} {hash : Text} {record : RefreshRecord}
    (hs : Valid rt s) (hp : Presents cfg rt env baseUrl req s hash record) (hraw : req.refreshToken.getD [] ≠ [])
    (hres : MatchesResource cfg baseUrl req) (hreuse : isReuse (env.clock 0) record = false)
    (hscope : ∀ w ∈ requestedScopes (req.scope.getD []), w ∈ words (orDefault cfg record.scope)) :
    ∃ newHash, tokenHash rt (refreshTokenDrawn env) = some newHash ∧
      refreshAccessToken cfg rt env baseUrl req s =
        ⟨some (issuedStore cfg env newHash
          (setRefresh (pruneRefreshTokens s (env.clock 0)) hash (rotate (env.clock 0) record))
          (refreshGrant cfg env req record)),
          .ok ⟨accessTokenDrawn env, expiresIn cfg, (refreshGrant cfg env req record).scope, refreshTokenDrawn env⟩⟩ := by
  rw [refreshAccessToken_eq hp hraw hres, hreuse, if_neg (by simp), if_neg (by simpa using hscope)]
  exact issueTokens_eq cfg rt env (setRotated_encodable hs hp) (refreshGrant_encodable hs hp hscope)

theorem refresh_invalid {baseUrl hash : Text} {req : TokenRequest} (hs : Valid rt s)
    (hraw : req.refreshToken.getD [] ≠ []) (hres : MatchesResource cfg baseUrl req)
    (htoken : tokenHash rt (req.refreshToken.getD []) = some hash)
    (hlookup : (pruneRefreshTokens s (env.clock 0)).refreshTokens.lookup hash = none) :
    (refreshAccessToken cfg rt env baseUrl req s).result = .error (.valueError .refreshInvalid) := by
  simp only [MatchesResource] at hres
  simp only [refreshAccessToken]
  rw [if_neg (by simpa using hraw), hres, if_neg (by simp)]
  simp only [htoken, hlookup]
  split_ifs
  · rw [refuseWriting_eq (prune_encodable hs.encodable _)]
  · rfl

/-- Two stores with the same clients that show a request the same live record answer it alike. -/
theorem refresh_result_congr {s' : Store} {baseUrl : Text} {req : TokenRequest} (hs : Valid rt s)
    (hs' : Valid rt s') (hclients : s'.clients = s.clients)
    (hfound : ∀ hash, tokenHash rt (req.refreshToken.getD []) = some hash →
      (pruneRefreshTokens s' (env.clock 0)).refreshTokens.lookup hash =
        (pruneRefreshTokens s (env.clock 0)).refreshTokens.lookup hash) :
    (refreshAccessToken cfg rt env baseUrl req s').result = (refreshAccessToken cfg rt env baseUrl req s).result := by
  by_cases hraw : req.refreshToken.getD [] = []
  · simp [refreshAccessToken, hraw]
  by_cases hres : MatchesResource cfg baseUrl req
  swap
  · simp only [MatchesResource, Bool.not_eq_false] at hres
    simp only [refreshAccessToken, hres, if_true, if_neg (show ¬(req.refreshToken.getD []).isEmpty = true by simpa using hraw)]
  cases htoken : tokenHash rt (req.refreshToken.getD []) with
  | none => simp only [refreshAccessToken, htoken]
  | some hash =>
    have hsame := hfound hash htoken
    cases hlookup : (pruneRefreshTokens s (env.clock 0)).refreshTokens.lookup hash with
    | none =>
      rw [refresh_invalid hs hraw hres htoken hlookup, refresh_invalid hs' hraw hres htoken (hsame.trans hlookup)]
    | some record =>
      have hrecord := (lookup_pruned_iff s _ hash record).mp hlookup
      have hrecord' := (lookup_pruned_iff s' _ hash record).mp (hsame.trans hlookup)
      by_cases hclient : req.clientId = some record.clientId
      swap
      · simp only [refreshAccessToken, htoken, hsame, hlookup, if_pos hclient]
      by_cases hother : record.resource = cfg.resourceUrl baseUrl
      swap
      · simp only [refreshAccessToken, htoken, hsame, hlookup, if_pos hother]
      have hregistered := (hs.refreshTokens hash record hrecord.1).1
      have hp : Presents cfg rt env baseUrl req s hash record :=
        ⟨htoken, hrecord.1, hrecord.2, hclient, hother, hregistered⟩
      have hp' : Presents cfg rt env baseUrl req s' hash record :=
        ⟨htoken, hrecord'.1, hrecord'.2, hclient, hother, by rw [hclients]; exact hregistered⟩
      cases hreuse : isReuse (env.clock 0) record with
      | true => rw [refresh_reused hs hp hraw hres hreuse, refresh_reused hs' hp' hraw hres hreuse]
      | false =>
        by_cases hscope : ∀ w ∈ requestedScopes (req.scope.getD []), w ∈ words (orDefault cfg record.scope)
        · obtain ⟨_, -, h⟩ := refresh_accepted hs hp hraw hres hreuse hscope
          obtain ⟨_, -, h'⟩ := refresh_accepted hs' hp' hraw hres hreuse hscope
          rw [h, h']
        · have hexceeds : (!((requestedScopes (req.scope.getD [])).all fun w =>
              (words (orDefault cfg record.scope)).contains w)) = true := by
            simpa using hscope
          rw [refreshAccessToken_eq hp hraw hres, refreshAccessToken_eq hp' hraw hres, hreuse, hexceeds]
          rfl

theorem perform_refresh {baseUrl : Text} {req : TokenRequest} (h : IsRefresh request baseUrl req) :
    perform cfg rt env request s = (refreshAccessToken cfg rt env baseUrl req s).map .tokens := by
  cases h with
  | inl h => rw [h, perform]
  | inr h =>
    rw [h.1, perform]
    simp only [exchangeCode]
    rw [if_pos h.2]

/-! ## Presenting a rotated token -/

/-- After these calls a call presents a retained token of the family, first accepted at
`r`, with its own client and a matching resource. -/
structure Replay (cfg : OauthConfig) (rt : OauthRuntime) (earlier : List Call) (call : Call) (baseUrl : Text)
    (req : TokenRequest) (token hash family : Text) (record : RefreshRecord) (r : ℤ) : Prop where
  refresh : IsRefresh call.request baseUrl req
  token_eq : req.refreshToken = some token
  hash_eq : tokenHash rt token = some hash
  issued : ∃ m ∈ moments cfg rt earlier .empty, IssuedIn cfg rt m token family
  rotated : rotationTime cfg rt (moments cfg rt earlier .empty) hash = some r
  retained : (storeAfter cfg rt earlier .empty).refreshTokens.lookup hash = some record
  live : isLive (call.env.clock 0) record = true
  client : req.clientId = some record.clientId
  resource : record.resource = cfg.resourceUrl baseUrl
  matching : MatchesResource cfg baseUrl req

/-- The retained record belongs to the family the token was issued in. -/
theorem retained_family (hfresh : Fresh rt calls) {m : Moment} (hm : m ∈ moments cfg rt calls .empty)
    {token hash family : Text} (hissued : IssuedIn cfg rt m token family) (hhash : tokenHash rt token = some hash)
    {record : RefreshRecord} (h : (storeAfter cfg rt calls .empty).refreshTokens.lookup hash = some record) :
    record.familyId = family := by
  obtain ⟨m', hm', token', htoken', hissued'⟩ := ((ledger_run hfresh).1 hash record h).issued
  exact (issuedIn_unique hfresh hm' hm hissued' hissued (htoken'.trans hhash.symm)).2

variable {earlier later : List Call} {call : Call} {baseUrl : Text} {req : TokenRequest}
variable {token hash family : Text} {record : RefreshRecord} {r : ℤ}

theorem replay_raw (h : Replay cfg rt earlier call baseUrl req token hash family record r) :
    req.refreshToken.getD [] ≠ [] := by
  obtain ⟨m, -, hissued⟩ := h.issued
  rw [h.token_eq, issuedIn_drawn hissued]
  simp [refreshTokenDrawn, txt]

theorem replay_presents (h : Replay cfg rt earlier call baseUrl req token hash family record r) :
    Presents cfg rt call.env baseUrl req (storeAfter cfg rt earlier .empty) hash record := by
  have hvalid : Valid rt (storeAfter cfg rt earlier .empty) := reachable_valid ⟨earlier, rfl⟩
  refine ⟨?_, h.retained, h.live, h.client, h.resource, (hvalid.refreshTokens hash record h.retained).1⟩
  rw [h.token_eq]
  exact h.hash_eq

theorem replay_reuse_iff (hfresh : Fresh rt earlier)
    (h : Replay cfg rt earlier call baseUrl req token hash family record r) :
    isReuse (call.env.clock 0) record = true ↔ r + 60 < call.env.clock 0 := by
  have hrotated := ((ledger_run hfresh).1 hash record h.retained).rotated.trans h.rotated
  simp only [isReuse, hrotated, Option.any_some, refreshTokenReuseGraceSeconds, gt_iff_lt, decide_eq_true_eq]
  omega

/-- What a late replay leaves behind. -/
theorem replay_late (hfresh : Fresh rt earlier)
    (h : Replay cfg rt earlier call baseUrl req token hash family record r) (hlate : r + 60 < call.env.clock 0) :
    runCall cfg rt call (storeAfter cfg rt earlier .empty) =
      ⟨some (dropFamily (pruneRefreshTokens (storeAfter cfg rt earlier .empty) (call.env.clock 0)) family),
        .error (.valueError .reuseDetected)⟩ := by
  obtain ⟨m, hm, hissued⟩ := h.issued
  rw [runCall, perform_refresh h.refresh, refresh_reused (reachable_valid ⟨earlier, rfl⟩) (replay_presents h)
    (replay_raw h) h.matching ((replay_reuse_iff hfresh h).mpr hlate),
    retained_family hfresh hm hissued h.hash_eq h.retained]
  rfl

/-- After a late replay no token of the family is accepted again. -/
theorem family_never_accepted (hfresh : Fresh rt (earlier ++ call :: later))
    (h : Replay cfg rt earlier call baseUrl req token hash family record r) (hlate : r + 60 < call.env.clock 0)
    {m m' : Moment} (hm : m ∈ moments cfg rt later (storeAfter cfg rt (earlier ++ [call]) .empty))
    (hm' : m' ∈ moments cfg rt (earlier ++ call :: later) .empty) {token' hash' : Text}
    (hissued : IssuedIn cfg rt m' token' family) (hhash : tokenHash rt token' = some hash') :
    acceptsToken cfg rt hash' m = false := by
  have hrun : earlier ++ call :: later = (earlier ++ [call]) ++ later := by simp
  have hearlier := hfresh.append_left
  have hgone : FamilyGone family (storeAfter cfg rt (earlier ++ [call]) .empty) := by
    intro k row hrow
    rw [storeAfter_snoc, Moment.after, Moment.outcome, replay_late hearlier h hlate] at hrow
    simpa using ((lookup_select_iff _ _ _ _).mp hrow).2
  have hdraws : ∀ c ∈ later, txt "rtf_" ++ c.env.draws 2 ≠ family := by
    intro c hc hfamily
    obtain ⟨m₀, hm₀, hissued₀⟩ := h.issued
    obtain ⟨d, hd, hdrawn⟩ := ((ledger_run hearlier).1 hash record h.retained).drawn
    rw [retained_family hearlier hm₀ hissued₀ h.hash_eq h.retained, ← hfamily] at hdrawn
    exact hfresh.family_ne hd (List.mem_cons_of_mem call hc) (List.append_cancel_left hdrawn).symm
  rw [← Bool.not_eq_true]
  intro haccepts
  obtain ⟨_, _, row, -, presents, -⟩ := accepts_spec (moment_step cfg rt m) haccepts
  have hother := familyGone_run hgone (reachable_valid ⟨_, rfl⟩) hdraws m hm hash' row presents.lookup
  obtain ⟨between, after, hlater, hbefore⟩ := moments_split hm
  have hsplit : earlier ++ call :: later = (earlier ++ [call] ++ between) ++ m.call :: after := by simp [hlater]
  rw [hsplit] at hfresh hm'
  have hrow := presents.lookup
  rw [hbefore, ← storeAfter_append] at hrow
  obtain ⟨m₁, hm₁, token₁, htoken₁, hissued₁⟩ := ((ledger_run hfresh.append_left).1 hash' row hrow).issued
  have hm₁' : m₁ ∈ moments cfg rt ((earlier ++ [call] ++ between) ++ m.call :: after) .empty := by
    rw [moments_append]
    exact List.mem_append_left _ hm₁
  exact hother (issuedIn_unique hfresh hm₁' hm' hissued₁ hissued (htoken₁.trans hhash.symm)).2

/-- A late replay leaves the answer to every token of another family as it was. -/
theorem other_families_kept (hfresh : Fresh rt earlier)
    (h : Replay cfg rt earlier call baseUrl req token hash family record r) (hlate : r + 60 < call.env.clock 0)
    {m' : Moment} (hm' : m' ∈ moments cfg rt earlier .empty) {token' family' : Text}
    (hissued : IssuedIn cfg rt m' token' family') (hother : family' ≠ family) {env' : OauthEnv} {baseUrl' : Text}
    {req' : TokenRequest} (hnow : call.env.clock 0 ≤ env'.clock 0) (htoken : req'.refreshToken = some token') :
    (refreshAccessToken cfg rt env' baseUrl' req' (storeAfter cfg rt (earlier ++ [call]) .empty)).result =
      (refreshAccessToken cfg rt env' baseUrl' req' (storeAfter cfg rt earlier .empty)).result := by
  have hstore : storeAfter cfg rt (earlier ++ [call]) .empty =
      dropFamily (pruneRefreshTokens (storeAfter cfg rt earlier .empty) (call.env.clock 0)) family := by
    rw [storeAfter_snoc, Moment.after, Moment.outcome, replay_late hfresh h hlate]
    rfl
  apply refresh_result_congr (reachable_valid ⟨earlier, rfl⟩) (reachable_valid ⟨_, rfl⟩)
  · rw [hstore]
    rfl
  · intro hash' hhash'
    rw [htoken, Option.getD_some] at hhash'
    apply Option.ext
    intro row
    rw [lookup_pruned_iff, lookup_pruned_iff, hstore]
    constructor
    · intro hrow
      exact ⟨((lookup_pruned_iff _ _ _ _).mp ((lookup_select_iff _ _ _ _).mp hrow.1).1).1, hrow.2⟩
    · intro hkept
      obtain ⟨hrow, hlive⟩ := hkept
      have hfamily := retained_family hfresh hm' hissued hhash' hrow
      have hlive' : isLive (call.env.clock 0) row = true := by
        simp only [isLive, Bool.not_eq_true', decide_eq_false_iff_not] at hlive ⊢
        omega
      refine ⟨(lookup_select_iff _ _ _ _).mpr ⟨(lookup_pruned_iff _ _ _ _).mpr ⟨hrow, hlive'⟩, ?_⟩, hlive⟩
      simpa [hfamily] using hother

/-- A replay in the grace window with a scope within the grant yields a token of the family. -/
theorem replay_in_grace (hfresh : Fresh rt earlier)
    (h : Replay cfg rt earlier call baseUrl req token hash family record r) (hgrace : call.env.clock 0 ≤ r + 60)
    (hscope : ∀ w ∈ requestedScopes (req.scope.getD []), w ∈ words (orDefault cfg record.scope)) :
    ∃ reply, (runCall cfg rt call (storeAfter cfg rt earlier .empty)).result = .ok (.tokens reply) ∧
      IssuedIn cfg rt ⟨call, storeAfter cfg rt earlier .empty⟩ reply.refreshToken family := by
  have hvalid : Valid rt (storeAfter cfg rt earlier .empty) := reachable_valid ⟨earlier, rfl⟩
  have hreuse : isReuse (call.env.clock 0) record = false := by
    rw [← Bool.not_eq_true, replay_reuse_iff hfresh h]
    omega
  obtain ⟨newHash, hnew, heq⟩ := refresh_accepted hvalid (replay_presents h) (replay_raw h) h.matching hreuse hscope
  have hcall : runCall cfg rt call (storeAfter cfg rt earlier .empty) = _ := perform_refresh h.refresh
  rw [heq] at hcall
  obtain ⟨m, hm, hissued⟩ := h.issued
  have hfamily := retained_family hfresh hm hissued h.hash_eq h.retained
  refine ⟨_, congrArg Outcome.result hcall, _, newHash, grantRecord cfg call.env (refreshGrant cfg call.env req record),
    congrArg Outcome.result hcall, rfl, hnew, ?_, ?_⟩
  · simp only [Moment.after, Moment.outcome, hcall]
    exact Finmap.lookup_insert _
  · have hne := (hvalid.refreshTokens hash record h.retained).2.2
    rw [← hfamily]
    simp [grantRecord, refreshRecord, refreshGrant, hne]

/-- Presenting a rotated token: late, the request fails, its family is never accepted again
and every other family keeps its answers; in the grace window, with a scope within the
grant, it yields a token of its family. -/
theorem rotated_token_presented (cfg : OauthConfig) (rt : OauthRuntime) (earlier later : List Call) (call : Call)
    (hfresh : Fresh rt (earlier ++ call :: later)) (baseUrl : Text) (req : TokenRequest) (token hash family : Text)
    (record : RefreshRecord) (r : ℤ) (h : Replay cfg rt earlier call baseUrl req token hash family record r) :
    (r + 60 < call.env.clock 0 →
      (runCall cfg rt call (storeAfter cfg rt earlier .empty)).result = .error (.valueError .reuseDetected) ∧
      (∀ m ∈ moments cfg rt later (storeAfter cfg rt (earlier ++ [call]) .empty),
        ∀ m' ∈ moments cfg rt (earlier ++ call :: later) .empty, ∀ token' hash', IssuedIn cfg rt m' token' family →
          tokenHash rt token' = some hash' → acceptsToken cfg rt hash' m = false) ∧
      ∀ m' ∈ moments cfg rt earlier .empty, ∀ token' family', IssuedIn cfg rt m' token' family' → family' ≠ family →
        ∀ env' baseUrl' req', call.env.clock 0 ≤ env'.clock 0 → req'.refreshToken = some token' →
          (refreshAccessToken cfg rt env' baseUrl' req' (storeAfter cfg rt (earlier ++ [call]) .empty)).result =
            (refreshAccessToken cfg rt env' baseUrl' req' (storeAfter cfg rt earlier .empty)).result) ∧
    (call.env.clock 0 ≤ r + 60 →
      (∀ w ∈ requestedScopes (req.scope.getD []), w ∈ words (orDefault cfg record.scope)) →
      ∃ reply, (runCall cfg rt call (storeAfter cfg rt earlier .empty)).result = .ok (.tokens reply) ∧
        IssuedIn cfg rt ⟨call, storeAfter cfg rt earlier .empty⟩ reply.refreshToken family) := by
  have hearlier := hfresh.append_left
  refine ⟨?_, ?_⟩
  · intro hlate
    refine ⟨?_, ?_, ?_⟩
    · rw [replay_late hearlier h hlate]
    · intro m hm m' hm' token' hash' hissued hhash
      exact family_never_accepted hfresh h hlate hm hm' hissued hhash
    · intro m' hm' token' family' hissued hother env' baseUrl' req' hnow htoken
      exact other_families_kept hearlier h hlate hm' hissued hother hnow htoken
  · intro hgrace hscope
    exact replay_in_grace hearlier h hgrace hscope

/-! ## A grant whose first token is presented again -/

def sampleHash : Text := txt "07225d0b934b1bd71812221d2125c6c3169e28e044f2edd5af4be1262c182df5"

/-- The record of the first token after its rotation. -/
def sampleRotated : RefreshRecord where
  clientId := txt "mcp_client_c1"
  scope := defaultScope
  resource := txt "https://mcp.example/mcp"
  familyId := txt "rtf_a1"
  createdAt := 10
  expiresAt := 604820
  rotatedAt := some 20

/-- The first token presented again. -/
def sampleReplay (time : ℤ) (scope : Option Text) : Call :=
  sampleRefresh time (txt "a3") (txt "mcp_rt_a1") scope

theorem sample_replay {time : ℤ} (h : time < 604820) (scope : Option Text) :
    Replay sampleConfig sampleRuntime sampleGrantCalls (sampleReplay time scope) sampleBase
      (sampleRefreshRequest (txt "mcp_rt_a1") scope) (txt "mcp_rt_a1") sampleHash (txt "rtf_a1") sampleRotated 20 where
  refresh := Or.inl rfl
  token_eq := rfl
  hash_eq := by decide +kernel
  issued := by
    refine ⟨⟨sampleExchange (txt "verifier"), sampleStore⟩, by simp [moments, sampleGrantCalls, sampleStore, storeAfter], ?_⟩
    exact ⟨⟨txt "mcp_at_a1", 3600, defaultScope, txt "mcp_rt_a1"⟩, sampleHash,
      { sampleRotated with expiresAt := 15552010, rotatedAt := none }, by decide +kernel, rfl, by decide +kernel,
      by decide +kernel, rfl⟩
  rotated := by decide +kernel
  retained := by decide +kernel
  live := by
    have hlive : ¬(604820 : ℤ) < time := by omega
    exact (Bool.not_eq_true' _).mpr (decide_eq_false hlive)
  client := rfl
  resource := by decide +kernel
  matching := rfl

/-- The sample grant, its replay, and a refresh of the second token. -/
def sampleReplayRun (time : ℤ) : List Call := sampleGrantCalls ++ sampleReplay time none ::
  [sampleRefresh 110 (txt "a4") (txt "mcp_rt_a2") none]

theorem sample_fresh (time : ℤ) : Fresh sampleRuntime (sampleReplayRun time) := by
  have hdraws : [txt "c1", txt "k1", txt "a1", txt "a2", txt "a3", txt "a4"].Pairwise fun a b =>
      tokenHash sampleRuntime (txt "mcp_rt_" ++ a) ≠ tokenHash sampleRuntime (txt "mcp_rt_" ++ b) ∧ a ≠ b := by
    decide +kernel
  have hascii : [txt "c1", txt "k1", txt "a1", txt "a2", txt "a3", txt "a4"].map asciiDraw =
      [txt "c1", txt "k1", txt "a1", txt "a2", txt "a3", txt "a4"] := by decide +kernel
  have hcalls : ∀ i, (sampleReplayRun time).map (fun c => c.env.draws i) =
      [txt "c1", txt "k1", txt "a1", txt "a2", txt "a3", txt "a4"] := fun i => hascii
  refine ⟨?_, ?_⟩
  · rw [← hcalls 1, List.pairwise_map] at hdraws
    exact hdraws.imp fun h => h.1
  · rw [← hcalls 2, List.pairwise_map] at hdraws
    exact hdraws.imp fun h => h.2

theorem rotated_token_presented_sample :
    (runCall sampleConfig sampleRuntime (sampleReplay 100 none)
        (storeAfter sampleConfig sampleRuntime sampleGrantCalls .empty)).result =
      .error (.valueError .reuseDetected) ∧
    ∃ reply, (runCall sampleConfig sampleRuntime (sampleReplay 80 none)
        (storeAfter sampleConfig sampleRuntime sampleGrantCalls .empty)).result = .ok (.tokens reply) ∧
      IssuedIn sampleConfig sampleRuntime
        ⟨sampleReplay 80 none, storeAfter sampleConfig sampleRuntime sampleGrantCalls .empty⟩
        reply.refreshToken (txt "rtf_a1") := by
  refine ⟨?_, ?_⟩
  · exact ((rotated_token_presented sampleConfig sampleRuntime sampleGrantCalls _ _ (sample_fresh 100) _ _ _ _ _ _ _
      (sample_replay (by decide) none)).1 (by decide)).1
  · exact (rotated_token_presented sampleConfig sampleRuntime sampleGrantCalls _ _ (sample_fresh 80) _ _ _ _ _ _ _
      (sample_replay (by decide) none)).2 (by decide) (by decide +kernel)

/-- A replay in the grace window that asks for more than the grant is refused. -/
theorem replay_beyond_grant_refused :
    Replay sampleConfig sampleRuntime sampleGrantCalls (sampleReplay 80 (some (txt "admin"))) sampleBase
      (sampleRefreshRequest (txt "mcp_rt_a1") (some (txt "admin"))) (txt "mcp_rt_a1") sampleHash (txt "rtf_a1")
      sampleRotated 20 ∧
    (80 : ℤ) ≤ 20 + 60 ∧
    (runCall sampleConfig sampleRuntime (sampleReplay 80 (some (txt "admin")))
        (storeAfter sampleConfig sampleRuntime sampleGrantCalls .empty)).result =
      .error (.valueError .scopeExceedsGrant) :=
  ⟨sample_replay (by decide) _, by decide, by decide +kernel⟩

end WebOauthMcp.OauthFamilies
