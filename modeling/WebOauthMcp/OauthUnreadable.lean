import WebOauthMcp.OauthCodes

/-!
# Reading a file that cannot be read

A failed read yields an empty table or an empty store, and what an operation writes then
replaces the file. So the file is kept exactly by the requests that write nothing on the
store a failed read yields.
-/

namespace WebOauthMcp.OauthUnreadable
open CodePoints Tables Words OauthStore OauthOperations OauthSteps OauthRuns OauthCodes

variable {cfg : OauthConfig} {rt : OauthRuntime} {env : OauthEnv} {s : Store} {baseUrl : Text}

/-! ## The file -/

/-- A table of the document: missing, of another type, or a dictionary. -/
inductive Field (V : Type) where
  | missing
  | wrongType
  | table (rows : Table Text V)
  deriving DecidableEq

structure Fields where
  clients : Field ClientRecord
  codes : Field CodeRecord
  tokens : Field TokenRecord
  refreshTokens : Field RefreshRecord
  deriving DecidableEq

/-- What `oauth.json` can hold. -/
inductive Document where
  | absent
  | notUtf8 (content : Bytes)
  | notJson (content : Text)
  | notObject (content : Text)
  | object (fields : Fields)
  deriving DecidableEq

def Document.ofStore (s : Store) : Document :=
  .object ⟨.table s.clients, .table s.codes, .table s.tokens, .table s.refreshTokens⟩

def Field.rows {V : Type} : Field V → Table Text V
  | .table rows => rows
  | _ => ∅

/-- `_read_store`; `none` when decoding the file raises. -/
def readStore (ioError : Bool) : Document → Option Store
  | .absent => some .empty
  | .notUtf8 _ => if ioError then some .empty else none
  | .notJson _ => some .empty
  | .notObject _ => some .empty
  | .object fields =>
    if ioError then some .empty
    else some ⟨fields.clients.rows, fields.codes.rows, fields.tokens.rows, fields.refreshTokens.rows⟩

def Field.isWrongType {V : Type} : Field V → Bool
  | .wrongType => true
  | _ => false

/-- The read meets an I/O error, or content that is no UTF-8, no JSON, no object or has a
table of another type. -/
def readFails (ioError : Bool) : Document → Bool
  | .absent => false
  | .object fields => ioError || fields.clients.isWrongType || fields.codes.isWrongType ||
      fields.tokens.isWrongType || fields.refreshTokens.isWrongType
  | _ => true

/-! ## Which requests read and write -/

def refreshReads (cfg : OauthConfig) (baseUrl : Text) (req : TokenRequest) : Bool :=
  !(req.refreshToken.getD []).isEmpty && !(req.resource.any fun r => !r.isEmpty && r ≠ cfg.resourceUrl baseUrl)

/-- The request passes the checks that come before the store is read. -/
def readsStore (cfg : OauthConfig) (rt : OauthRuntime) : Request → Bool
  | .register req => req.redirectUris.any fun entries =>
      !entries.isEmpty && entries.all fun entry => entry.any (isAllowedRedirectUri rt)
  | .authorize baseUrl req => !cfg.loginToken.isEmpty &&
      decide (compareDigest (req.loginToken.getD []) cfg.loginToken = some true) &&
      decide (req.responseType = some (txt "code")) &&
      (decide (req.codeChallengeMethod = some (txt "S256")) && !(req.codeChallenge.getD []).isEmpty) &&
      decide (req.resource = some (cfg.resourceUrl baseUrl))
  | .exchange baseUrl req =>
      if req.grantType = some (txt "refresh_token") then refreshReads cfg baseUrl req
      else decide (req.grantType = some (txt "authorization_code")) &&
        decide (req.resource = some (cfg.resourceUrl baseUrl))
  | .refresh baseUrl req => refreshReads cfg baseUrl req
  | .verify token _ => !token.isEmpty

/-- One request on the file, and what it replies. -/
def performOnFile (cfg : OauthConfig) (rt : OauthRuntime) (env : OauthEnv) (request : Request) (ioError : Bool)
    (doc : Document) : Document × Except OauthError Reply :=
  match readStore ioError doc with
  | some store =>
    let outcome := perform cfg rt env request store
    (match outcome.written with
      | some written => .ofStore written
      | none => doc, outcome.result)
  | none =>
    (doc, if readsStore cfg rt request then .error .unicodeDecodeError
      else (perform cfg rt env request .empty).result)

theorem writeStore_written {α : Type} (s : Store) (result : Except OauthError α) :
    (writeStore s result).written.isSome = s.isEncodable := by
  simp only [writeStore]
  cases s.isEncodable <;> rfl

/-- A refresh writes when it prunes, finds a reuse or succeeds, and its texts can be encoded. -/
def RefreshWrites (cfg : OauthConfig) (rt : OauthRuntime) (env : OauthEnv) (baseUrl : Text) (req : TokenRequest)
    (s : Store) : Prop :=
  let pruned := pruneRefreshTokens s (env.clock 0)
  ∃ hash, tokenHash rt (req.refreshToken.getD []) = some hash ∧
    ((pruned.refreshTokens.lookup hash = none ∧ prunes s (env.clock 0) = true ∧ pruned.isEncodable = true) ∨
      ∃ record, pruned.refreshTokens.lookup hash = some record ∧ req.clientId = some record.clientId ∧
        record.resource = cfg.resourceUrl baseUrl ∧ (s.clients.lookup record.clientId).isSome = true ∧
        ((isReuse (env.clock 0) record = true ∧ (dropFamily pruned record.familyId).isEncodable = true) ∨
          (isReuse (env.clock 0) record = false ∧
            (∀ w ∈ requestedScopes (req.scope.getD []), w ∈ words (orDefault cfg record.scope)) ∧
            ∃ newHash, tokenHash rt (refreshTokenDrawn env) = some newHash ∧
              (issuedStore cfg env newHash (setRefresh pruned hash (rotate (env.clock 0) record))
                (refreshGrant cfg env req record)).isEncodable = true)))

/-- An exchange writes unless a digest raises, when its texts can be encoded. -/
def ExchangeWrites (cfg : OauthConfig) (rt : OauthRuntime) (env : OauthEnv) (req : TokenRequest) (s : Store) : Prop :=
  let popped := dropCode s (req.code.getD [])
  (s.codes.lookup (req.code.getD []) = none ∧ s.isEncodable = true) ∨
    ∃ record, s.codes.lookup (req.code.getD []) = some record ∧ EndsWithoutRaising (env.clock 0) req record ∧
      ((¬Matches rt env req record ∧ popped.isEncodable = true) ∨
        (Matches rt env req record ∧ ∃ hash, tokenHash rt (refreshTokenDrawn env) = some hash ∧
          (issuedStore cfg env hash popped (exchangeGrant cfg env record)).isEncodable = true))

/-- The request writes the store. -/
def Writes (cfg : OauthConfig) (rt : OauthRuntime) (env : OauthEnv) (s : Store) (request : Request) : Prop :=
  readsStore cfg rt request = true ∧ match request with
    | .register req => s.clients.keys.card < maxRegisteredClients ∧
        (addClient s (registeredClient env req (registeredUris req))).isEncodable = true
    | .authorize baseUrl req => (∃ client, s.clients.lookup (req.clientId.getD []) = some client ∧
        req.redirectUri.getD [] ∈ client.redirectUris) ∧
        (∀ w ∈ requestedScopes (req.scope.getD []), w ∈ cfg.scopes) ∧
        (addCode s (authorizationCode env) (authorizedRecord cfg env baseUrl req)).isEncodable = true
    | .exchange baseUrl req =>
        if req.grantType = some (txt "refresh_token") then RefreshWrites cfg rt env baseUrl req s
        else ExchangeWrites cfg rt env req s
    | .refresh baseUrl req => RefreshWrites cfg rt env baseUrl req s
    | .verify token _ => ∃ record, s.tokens.lookup token = some record ∧ record.expiresAt < env.clock 0 ∧
        (dropToken s token).isEncodable = true

/-! ## Every request writes exactly then -/

theorem ite_refuse_written {α : Type} {c : Prop} [Decidable c] {r : Refusal} {o : Outcome α} :
    (if c then refuse r else o).written.isSome = true ↔ ¬c ∧ o.written.isSome = true := by
  by_cases h : c <;> simp [h, refuse, fail]

theorem fail_written {α : Type} (e : OauthError) : (fail (α := α) e).written.isSome = false := rfl

theorem refuse_written {α : Type} (r : Refusal) : (refuse (α := α) r).written.isSome = false := rfl

theorem registerClient_writes (req : RegisterRequest) (s : Store) :
    (registerClient rt env req s).written.isSome = true ↔ Writes cfg rt env s (.register req) := by
  simp only [Writes, readsStore, registerClient, registeredUris]
  cases req.redirectUris with
  | none => simp [refuse_written]
  | some entries =>
    simp only [ite_refuse_written, writeStore_written, Option.any_some, Option.getD_some, Bool.and_eq_true,
      Bool.not_eq_true', Bool.not_eq_true, Bool.not_eq_false, ge_iff_le, not_le, and_assoc]
    rfl

theorem authorize_writes (baseUrl : Text) (req : AuthorizeRequest) (s : Store) :
    (authorize cfg env baseUrl req s).written.isSome = true ↔ Writes cfg rt env s (.authorize baseUrl req) := by
  simp only [Writes, readsStore, authorize]
  cases hconf : cfg.loginToken.isEmpty with
  | true => simp [fail_written]
  | false =>
    cases hlogin : compareDigest (req.loginToken.getD []) cfg.loginToken with
    | none => simp [fail_written]
    | some same => cases same with
      | false => simp [fail_written]
      | true =>
        cases hclient : s.clients.lookup (req.clientId.getD []) with
        | none =>
          simp only [Bool.false_eq_true, if_false, ite_refuse_written, refuse_written]
          simp
        | some client =>
          simp only [Bool.false_eq_true, if_false, ite_refuse_written, writeStore_written]
          simp [addCode, and_assoc, not_or]

theorem issueTokens_written (s : Store) (g : Grant) :
    (issueTokens cfg rt env s g).written.isSome = true ↔
      ∃ hash, tokenHash rt (refreshTokenDrawn env) = some hash ∧
        (issuedStore cfg env hash s g).isEncodable = true := by
  simp only [issueTokens, issueRefreshToken]
  cases tokenHash rt (refreshTokenDrawn env) with
  | none => simp [fail_written]
  | some hash =>
    simp only [Option.map_some, writeStore_written, Option.some.injEq, exists_eq_left']
    rfl

theorem refreshAccessToken_writes (baseUrl : Text) (req : TokenRequest) (s : Store) :
    (refreshAccessToken cfg rt env baseUrl req s).written.isSome = true ↔
      refreshReads cfg baseUrl req = true ∧ RefreshWrites cfg rt env baseUrl req s := by
  simp only [refreshReads, RefreshWrites, refreshAccessToken, ite_refuse_written, Bool.and_eq_true, Bool.not_eq_true',
    Bool.not_eq_true, and_assoc]
  refine and_congr_right fun _ => and_congr_right fun _ => ?_
  cases htoken : tokenHash rt (req.refreshToken.getD []) with
  | none => simp [fail_written]
  | some hash =>
    simp only [Option.some.injEq, exists_eq_left']
    cases hlookup : (pruneRefreshTokens s (env.clock 0)).refreshTokens.lookup hash with
    | none =>
      cases prunes s (env.clock 0) with
      | false => simp [refuse_written]
      | true => simp [refuseWriting, writeStore_written]
    | some record =>
      simp only [ite_refuse_written, Option.some.injEq, exists_eq_left', reduceCtorEq, false_and, false_or]
      have hclients : (pruneRefreshTokens s (env.clock 0)).clients = s.clients := rfl
      simp only [hclients, not_not, Bool.not_eq_true, Option.isNone_eq_false_iff]
      refine and_congr_right fun _ => and_congr_right fun hother => and_congr_right fun _ => ?_
      cases hreuse : isReuse (env.clock 0) record with
      | true => simp [refuseWriting, writeStore_written]
      | false =>
        simp only [Bool.false_eq_true, if_false, ite_refuse_written, issueTokens_written, false_and, false_or, true_and,
          ← hother]
        simp [setRefresh, refreshGrant, hclients]

theorem exchangeCode_writes (baseUrl : Text) (req : TokenRequest) (s : Store) :
    (exchangeCode cfg rt env baseUrl req s).written.isSome = true ↔ Writes cfg rt env s (.exchange baseUrl req) := by
  simp only [Writes, readsStore, exchangeCode]
  by_cases hrefresh : req.grantType = some (txt "refresh_token")
  · simp only [hrefresh, if_true]
    exact refreshAccessToken_writes baseUrl req s
  simp only [hrefresh, if_false, ite_refuse_written, Bool.and_eq_true, decide_eq_true_eq, not_not, and_assoc]
  refine and_congr_right fun _ => and_congr_right fun _ => ?_
  cases hlookup : s.codes.lookup (req.code.getD []) with
  | none => simp [ExchangeWrites, hlookup, refuseWriting, writeStore_written]
  | some record =>
    simp only [ExchangeWrites, hlookup, Option.some.injEq, exists_eq_left', reduceCtorEq, false_and, false_or]
    have hwritten : ∀ r, (refuseWriting (α := TokenReply) (dropCode s (req.code.getD [])) r).written.isSome =
        (dropCode s (req.code.getD [])).isEncodable := fun r => writeStore_written _ _
    simp only [dropCode] at hwritten
    by_cases hexpired : record.expiresAt < env.clock 0
    · have hno : ¬Matches rt env req record := fun h => h.unexpired hexpired
      simp [hexpired, hno, EndsWithoutRaising, hwritten, dropCode]
    by_cases hclient : req.clientId = some record.clientId
    swap
    · have hno : ¬Matches rt env req record := fun h => hclient h.client
      simp [hexpired, hclient, hno, EndsWithoutRaising, hwritten, dropCode]
    by_cases huri : req.redirectUri = some record.redirectUri
    swap
    · have hno : ¬Matches rt env req record := fun h => huri h.redirect
      simp [hexpired, hclient, huri, hno, EndsWithoutRaising, hwritten, dropCode]
    have hmatches : Matches rt env req record ↔ pkceS256 rt (req.codeVerifier.getD []) = some record.codeChallenge :=
      ⟨fun h => h.challenge, fun h => ⟨hexpired, hclient, huri, h⟩⟩
    simp only [hmatches]
    rcases pkceS256_cases rt (req.codeVerifier.getD []) with ⟨hverifier, hpkce⟩ | ⟨hverifier, expected, hpkce, hascii⟩
    · simp [hexpired, hclient, huri, hpkce, hverifier, EndsWithoutRaising, fail_written]
    · cases hchallenge : isAscii record.codeChallenge with
      | false =>
        simp [hexpired, hclient, huri, hpkce, hverifier, hchallenge, EndsWithoutRaising, fail_written, compareDigest]
      | true =>
        simp only [hexpired, hclient, huri, hpkce, EndsWithoutRaising, hverifier, hchallenge, compareDigest, hascii]
        by_cases hsame : expected = record.codeChallenge
        · simp [hsame, issueTokens_written, dropCode, exchangeGrant]
        · simp [hsame, hwritten, dropCode]

theorem verifyAccessToken_writes (token baseUrl : Text) (s : Store) :
    (verifyAccessToken cfg env token baseUrl s).written.isSome = true ↔ Writes cfg rt env s (.verify token baseUrl) := by
  simp only [Writes, readsStore, verifyAccessToken]
  cases hempty : token.isEmpty with
  | true => simp
  | false =>
    cases hlookup : s.tokens.lookup token with
    | none => simp
    | some record =>
      by_cases hexpired : record.expiresAt < env.clock 0
      · simp [hexpired, writeStore_written, dropToken]
      · by_cases hother : record.resource = cfg.resourceUrl baseUrl
        · simp [hexpired, hother]
        · simp [hexpired, hother]

/-- A request writes the store exactly when `Writes` says so. -/
theorem perform_writes (cfg : OauthConfig) (rt : OauthRuntime) (env : OauthEnv) (request : Request) (s : Store) :
    (perform cfg rt env request s).written.isSome = true ↔ Writes cfg rt env s request := by
  cases request with
  | register req => exact registerClient_writes req s
  | authorize baseUrl req => exact authorize_writes baseUrl req s
  | exchange baseUrl req => exact exchangeCode_writes baseUrl req s
  | refresh baseUrl req => exact refreshAccessToken_writes baseUrl req s
  | verify token baseUrl => exact verifyAccessToken_writes token baseUrl s

/-! ## When a failed read leaves the file -/

/-- The store that holds only what the request adds. -/
def aloneStore (env : OauthEnv) : Request → Store
  | .register req => addClient .empty (registeredClient env req (registeredUris req))
  | _ => .empty

theorem written_on_empty {request : Request} {written : Store}
    (h : (perform cfg rt env request .empty).written = some written) : written = aloneStore env request := by
  have hno : ∀ hash record, Store.empty.refreshTokens.lookup hash ≠ some record := by simp [Store.empty]
  have hstep := perform_step cfg rt env request .empty
  generalize perform cfg rt env request .empty = o at h hstep
  cases hstep with
  | refused => exact absurd h (by simp)
  | answered => exact absurd h (by simp)
  | registered req _ _ _ => exact (Option.some.inj h).symm
  | authorized baseUrl req _ checks _ =>
    obtain ⟨client, hclient, -⟩ := checks.registered
    simp [Store.empty] at hclient
  | unknownCode _ _ req _ exchange =>
    rw [exchange.request_eq]
    exact (Option.some.inj h).symm
  | codeDropped _ _ req _ _ exchange _ =>
    rw [exchange.request_eq, ← Option.some.inj h]
    rfl
  | exchanged _ _ _ _ _ _ _ lookup => exact absurd lookup (by simp [Store.empty])
  | pruned _ _ req _ refresh _ =>
    rw [← Option.some.inj h]
    cases refresh with
    | inl hreq =>
      rw [hreq]
      rfl
    | inr hreq =>
      rw [hreq.1]
      rfl
  | reused _ _ _ _ _ _ _ presents => exact absurd presents.lookup (hno _ _)
  | refreshed _ _ _ _ _ _ _ _ presents => exact absurd presents.lookup (hno _ _)
  | expired _ _ _ _ lookup => exact absurd lookup (by simp [Store.empty])

/-- The read raises, or the request writes nothing on the store it yields, or the file
holds just what the request writes on an empty store. -/
def KeepsFile (cfg : OauthConfig) (rt : OauthRuntime) (env : OauthEnv) (request : Request) (ioError : Bool)
    (doc : Document) : Prop :=
  ∀ s, readStore ioError doc = some s → ¬Writes cfg rt env s request ∨ doc = .ofStore (aloneStore env request)

theorem ofStore_reads (s : Store) : readFails false (.ofStore s) = false := rfl

/-- An operation whose read failed keeps the file exactly under `KeepsFile`. -/
theorem performOnFile_keeps_iff {request : Request} {ioError : Bool} {doc : Document}
    (hfails : readFails ioError doc = true) :
    (performOnFile cfg rt env request ioError doc).1 = doc ↔ KeepsFile cfg rt env request ioError doc := by
  simp only [performOnFile, KeepsFile]
  cases hread : readStore ioError doc with
  | none => simp
  | some s =>
    simp only [Option.some.injEq, forall_eq']
    have hwrites := perform_writes cfg rt env request s
    cases hwritten : (perform cfg rt env request s).written with
    | none =>
      rw [hwritten] at hwrites
      have hnot : ¬Writes cfg rt env s request := fun h => absurd (hwrites.mpr h) (by simp)
      simp [hnot]
    | some written =>
      rw [hwritten] at hwrites
      simp only [hwrites.mp rfl, not_true, false_or]
      cases ioError with
      | true =>
        have hempty : s = .empty := by
          cases doc <;> simpa [readStore, eq_comm] using hread
        subst hempty
        rw [written_on_empty hwritten, eq_comm]
      | false =>
        have hne : ∀ w, doc ≠ .ofStore w := by
          intro w hw
          rw [hw, ofStore_reads] at hfails
          exact absurd hfails (by simp)
        exact iff_of_false (fun h => hne written h.symm) (hne _)

/-! ## Runs -/

structure FileCall where
  call : Call
  ioError : Bool

def fileAfter (cfg : OauthConfig) (rt : OauthRuntime) (c : FileCall) (doc : Document) : Document :=
  (performOnFile cfg rt c.call.env c.call.request c.ioError doc).1

def runFile (cfg : OauthConfig) (rt : OauthRuntime) : List FileCall → Document → Document
  | [], doc => doc
  | c :: cs, doc => runFile cfg rt cs (fileAfter cfg rt c doc)

/-- The calls of a run, each with the document it finds. -/
def fileMoments (cfg : OauthConfig) (rt : OauthRuntime) : List FileCall → Document → List (FileCall × Document)
  | [], _ => []
  | c :: cs, doc => (c, doc) :: fileMoments cfg rt cs (fileAfter cfg rt c doc)

inductive Row where
  | client (id : Text) (record : ClientRecord)
  | token (token : Text) (record : TokenRecord)
  | refresh (hash : Text) (record : RefreshRecord)

def Document.holds : Document → Row → Prop
  | .object fields, .client id record => fields.clients.rows.lookup id = some record
  | .object fields, .token token record => fields.tokens.rows.lookup token = some record
  | .object fields, .refresh hash record => fields.refreshTokens.rows.lookup hash = some record
  | _, _ => False

/-- The file keeps every registered client when the call can read it. -/
theorem fileAfter_keeps_client (cfg : OauthConfig) (rt : OauthRuntime) {c : FileCall} {doc : Document} (hreads : readFails c.ioError doc = false) {id : Text}
    {client : ClientRecord} (h : doc.holds (.client id client)) :
    ∃ client', (fileAfter cfg rt c doc).holds (.client id client') := by
  cases doc with
  | object fields =>
    have hio : c.ioError = false := by
      simp only [readFails, Bool.or_eq_false_iff] at hreads
      exact hreads.1.1.1.1
    let s : Store := ⟨fields.clients.rows, fields.codes.rows, fields.tokens.rows, fields.refreshTokens.rows⟩
    have hread : readStore c.ioError (.object fields) = some s := by
      rw [hio]
      rfl
    simp only [fileAfter, performOnFile, hread]
    cases hwritten : (perform cfg rt c.call.env c.call.request s).written with
    | none => exact ⟨client, h⟩
    | some written =>
      have hkept := client_kept (perform_step cfg rt c.call.env c.call.request s)
        (Option.isSome_iff_exists.mpr ⟨client, h⟩)
      simp only [Outcome.after, hwritten, Option.getD_some] at hkept
      exact Option.isSome_iff_exists.mp hkept
  | _ => exact absurd h (by simp [Document.holds])

/-- A row that a run loses is removed by a call that could read the file. -/
theorem row_lost {calls : List FileCall} {doc : Document} {row : Row}
    (hkeeps : ∀ m ∈ fileMoments cfg rt calls doc, readFails m.1.ioError m.2 = true →
      KeepsFile cfg rt m.1.call.env m.1.call.request m.1.ioError m.2)
    (h : doc.holds row) (hlost : ¬(runFile cfg rt calls doc).holds row) :
    ∃ m ∈ fileMoments cfg rt calls doc, readFails m.1.ioError m.2 = false ∧ m.2.holds row ∧
      ¬(fileAfter cfg rt m.1 m.2).holds row := by
  induction calls generalizing doc with
  | nil => exact absurd h hlost
  | cons c calls ih =>
    by_cases hstep : (fileAfter cfg rt c doc).holds row
    · obtain ⟨m, hm, hrest⟩ := ih (fun m hm => hkeeps m (List.mem_cons_of_mem _ hm)) hstep hlost
      exact ⟨m, List.mem_cons_of_mem _ hm, hrest⟩
    · cases hreads : readFails c.ioError doc with
      | false => exact ⟨(c, doc), List.mem_cons_self, hreads, h, hstep⟩
      | true =>
        have hsame := (performOnFile_keeps_iff hreads).mpr (hkeeps (c, doc) List.mem_cons_self hreads)
        rw [fileAfter, hsame] at hstep
        exact absurd h hstep

theorem clients_kept {calls : List FileCall} {doc : Document}
    (hkeeps : ∀ m ∈ fileMoments cfg rt calls doc, readFails m.1.ioError m.2 = true →
      KeepsFile cfg rt m.1.call.env m.1.call.request m.1.ioError m.2)
    {id : Text} {client : ClientRecord} (h : doc.holds (.client id client)) :
    ∃ client', (runFile cfg rt calls doc).holds (.client id client') := by
  induction calls generalizing doc client with
  | nil => exact ⟨client, h⟩
  | cons c calls ih =>
    have hrest : ∀ m ∈ fileMoments cfg rt calls (fileAfter cfg rt c doc), readFails m.1.ioError m.2 = true →
        KeepsFile cfg rt m.1.call.env m.1.call.request m.1.ioError m.2 := fun m hm =>
      hkeeps m (List.mem_cons_of_mem _ hm)
    cases hreads : readFails c.ioError doc with
    | false =>
      obtain ⟨client', h'⟩ := fileAfter_keeps_client cfg rt hreads h
      exact ih hrest h'
    | true =>
      have hsame := (performOnFile_keeps_iff hreads).mpr (hkeeps (c, doc) List.mem_cons_self hreads)
      rw [← fileAfter] at hsame
      rw [← hsame] at h
      exact ih hrest h

/-- An operation whose read failed leaves the file exactly under `KeepsFile`; in a run where
every failed read meets it, a row is only lost to an operation that could read the file,
and no registered client is lost. -/
theorem unreadable_file_kept_iff (cfg : OauthConfig) (rt : OauthRuntime) :
    (∀ env request ioError doc, readFails ioError doc = true →
      ((performOnFile cfg rt env request ioError doc).1 = doc ↔ KeepsFile cfg rt env request ioError doc)) ∧
    ∀ calls doc, (∀ m ∈ fileMoments cfg rt calls doc, readFails m.1.ioError m.2 = true →
        KeepsFile cfg rt m.1.call.env m.1.call.request m.1.ioError m.2) →
      (∀ m ∈ fileMoments cfg rt calls doc, readFails m.1.ioError m.2 = true → fileAfter cfg rt m.1 m.2 = m.2) ∧
      (∀ row, doc.holds row → ¬(runFile cfg rt calls doc).holds row →
        ∃ m ∈ fileMoments cfg rt calls doc, readFails m.1.ioError m.2 = false ∧ m.2.holds row ∧
          ¬(fileAfter cfg rt m.1 m.2).holds row) ∧
      ∀ id client, doc.holds (.client id client) →
        ∃ client', (runFile cfg rt calls doc).holds (.client id client') := by
  refine ⟨fun env request ioError doc hfails => performOnFile_keeps_iff hfails, ?_⟩
  intro calls doc hkeeps
  refine ⟨?_, ?_, ?_⟩
  · intro m hm hfails
    exact (performOnFile_keeps_iff hfails).mpr (hkeeps m hm hfails)
  · intro row h hlost
    exact row_lost hkeeps h hlost
  · intro id client h
    exact clients_kept hkeeps h

/-! ## A registration that erases the file -/

/-- The file of the sample grant. -/
def sampleDocument : Document := .ofStore (storeAfter sampleConfig sampleRuntime sampleGrantCalls .empty)

def sampleClient : ClientRecord := ⟨txt "mcp_client_c1", txt "ChatGPT", [sampleUri], 0⟩

/-- A verification and a registration whose reads meet an I/O error. -/
def sampleBlindVerify : FileCall := ⟨callAt 30 (txt "v1") (.verify (txt "mcp_at_a2") sampleBase), true⟩

def sampleBlindRegister : FileCall :=
  ⟨callAt 30 (txt "c2") (.register ⟨some [some sampleUri], none⟩), true⟩

theorem sample_blind_keeps : KeepsFile sampleConfig sampleRuntime sampleBlindVerify.call.env
    sampleBlindVerify.call.request true sampleDocument := by
  intro s hs
  obtain rfl := Option.some.inj hs
  refine Or.inl fun h => ?_
  obtain ⟨record, hrecord, -⟩ := h.2
  exact absurd hrecord (by simp [Store.empty])

theorem unreadable_file_kept_iff_sample :
    ((performOnFile sampleConfig sampleRuntime sampleBlindVerify.call.env sampleBlindVerify.call.request true
        sampleDocument).1 = sampleDocument ↔
      KeepsFile sampleConfig sampleRuntime sampleBlindVerify.call.env sampleBlindVerify.call.request true
        sampleDocument) ∧
    ∃ client', (runFile sampleConfig sampleRuntime [sampleBlindVerify] sampleDocument).holds
      (.client (txt "mcp_client_c1") client') := by
  have hkept := unreadable_file_kept_iff sampleConfig sampleRuntime
  refine ⟨hkept.1 _ _ _ _ rfl, ?_⟩
  refine (hkept.2 [sampleBlindVerify] sampleDocument ?_).2.2 _ sampleClient ?_
  · intro m hm _
    rw [List.mem_singleton.mp hm]
    exact sample_blind_keeps
  · show (storeAfter sampleConfig sampleRuntime sampleGrantCalls .empty).clients.lookup _ = _
    decide +kernel

/-- A registration whose read meets an I/O error replaces the file by its own client. -/
theorem blind_register_erases :
    readFails true sampleDocument = true ∧ sampleDocument.holds (.client (txt "mcp_client_c1") sampleClient) ∧
    ¬(fileAfter sampleConfig sampleRuntime sampleBlindRegister sampleDocument).holds
      (.client (txt "mcp_client_c1") sampleClient) := by
  refine ⟨rfl, ?_, ?_⟩
  · show (storeAfter sampleConfig sampleRuntime sampleGrantCalls .empty).clients.lookup _ = _
    decide +kernel
  · have hafter : fileAfter sampleConfig sampleRuntime sampleBlindRegister sampleDocument =
        .ofStore (aloneStore sampleBlindRegister.call.env sampleBlindRegister.call.request) := by
      have hempty : readStore true sampleDocument = some .empty := rfl
      have hwritten : (perform sampleConfig sampleRuntime sampleBlindRegister.call.env
          sampleBlindRegister.call.request .empty).written.isSome = true := by decide +kernel
      obtain ⟨written, hwritten⟩ := Option.isSome_iff_exists.mp hwritten
      show (performOnFile _ _ _ _ true sampleDocument).1 = _
      simp only [performOnFile, hempty, hwritten]
      rw [written_on_empty hwritten]
    rw [hafter]
    show ¬(aloneStore sampleBlindRegister.call.env sampleBlindRegister.call.request).clients.lookup _ = _
    decide +kernel

end WebOauthMcp.OauthUnreadable
