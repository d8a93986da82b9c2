import WebOauthMcp.OauthRuns

/-!
# Authorization codes

An exchange drops the code it presents on every exit but two: hashing a verifier that is
not ASCII and comparing with a challenge that is not ASCII raise before the store is
written. Over a run a code yields at most as many token pairs as it was issued.
-/

namespace WebOauthMcp.OauthCodes
open CodePoints Tables Words OauthStore OauthOperations OauthSteps OauthRuns

variable {cfg : OauthConfig} {rt : OauthRuntime} {env : OauthEnv} {s : Store}

/-- The exchange ends before the verifier is hashed, or the digests can be compared. -/
def EndsWithoutRaising (now : ℤ) (req : TokenRequest) (record : CodeRecord) : Prop :=
  record.expiresAt < now ∨ req.clientId ≠ some record.clientId ∨
    req.redirectUri ≠ some record.redirectUri ∨
    (isAscii (req.codeVerifier.getD []) = true ∧ isAscii record.codeChallenge = true)

/-! ## One exchange -/

theorem pkceS256_cases (rt : OauthRuntime) (verifier : Text) :
    (isAscii verifier = false ∧ pkceS256 rt verifier = none) ∨
      (isAscii verifier = true ∧ ∃ expected, pkceS256 rt verifier = some expected ∧ isAscii expected = true) := by
  simp only [pkceS256]
  cases isAscii verifier with
  | false => exact Or.inl ⟨rfl, rfl⟩
  | true => exact Or.inr ⟨rfl, _, rfl, isAscii_urlsafeBase64 _⟩

theorem lookup_dropCode (s : Store) (code : Text) : (dropCode s code).codes.lookup code = none := by
  simp [dropCode]

theorem refuseWriting_drops {α : Type} (hs : s.isEncodable = true) (code : Text) (r : Refusal) :
    ((refuseWriting (α := α) (dropCode s code) r).after s).codes.lookup code = none := by
  simp only [refuseWriting, writeStore, dropCode_encodable hs code, if_true, Outcome.after, Option.getD_some]
  exact lookup_dropCode s code

theorem exchangeGrant_encodable (cfg : OauthConfig) (env : OauthEnv) {code : Text} {record : CodeRecord}
    (hs : Valid rt s) (hlookup : s.codes.lookup code = some record) : Grant.Encodable (exchangeGrant cfg env record) := by
  have hrecord := ((storeEncodable_iff s).mp hs.encodable).2.1 code record hlookup
  have hscope : orDefault cfg record.scope = record.scope := by
    simp [orDefault, (hs.codes code record hlookup).2]
  simp only [CodeRecord.isEncodable, Bool.and_eq_true] at hrecord
  refine ⟨hrecord.2.1.1.1.1, ?_, ?_, hrecord.2.2, rfl⟩
  · rw [exchangeGrant, hscope]
    exact hrecord.2.1.2
  · rw [exchangeGrant, hscope]
    exact hrecord.2.1.2

theorem issueTokens_drops {code : Text} {record : CodeRecord} (hs : Valid rt s)
    (hlookup : s.codes.lookup code = some record) :
    ((issueTokens cfg rt env (dropCode s code) (exchangeGrant cfg env record)).after s).codes.lookup code =
      none := by
  obtain ⟨hash, -, hissue⟩ := issueTokens_eq cfg rt env (dropCode_encodable hs.encodable code)
    (exchangeGrant_encodable cfg env hs hlookup)
  rw [hissue]
  exact lookup_dropCode s code

/-- An exchange of a stored code drops it exactly when nothing raises on the way. -/
theorem exchangeCode_drops_iff (hs : Valid rt s) {baseUrl : Text} {req : TokenRequest} {record : CodeRecord}
    (htype : req.grantType = some (txt "authorization_code"))
    (hres : req.resource = some (cfg.resourceUrl baseUrl))
    (hlookup : s.codes.lookup (req.code.getD []) = some record) :
    ((exchangeCode cfg rt env baseUrl req s).after s).codes.lookup (req.code.getD []) = none ↔
      EndsWithoutRaising (env.clock 0) req record := by
  have hnot : req.grantType ≠ some (txt "refresh_token") := by
    rw [htype]
    decide
  have hkept : ¬s.codes.lookup (req.code.getD []) = none := by simp [hlookup]
  have hdrop : ∀ r, ((refuseWriting (α := TokenReply) (dropCode s (req.code.getD [])) r).after s).codes.lookup
      (req.code.getD []) = none := fun r => refuseWriting_drops hs.encodable _ r
  simp only [exchangeCode, hlookup]
  rw [if_neg hnot, if_neg (by simpa using htype), if_neg (by simpa using hres)]
  by_cases hexpired : record.expiresAt < env.clock 0
  · rw [if_pos hexpired]
    exact iff_of_true (hdrop _) (Or.inl hexpired)
  rw [if_neg hexpired]
  by_cases hclient : req.clientId ≠ some record.clientId
  · rw [if_pos hclient]
    exact iff_of_true (hdrop _) (Or.inr (Or.inl hclient))
  rw [if_neg hclient]
  by_cases huri : req.redirectUri ≠ some record.redirectUri
  · rw [if_pos huri]
    exact iff_of_true (hdrop _) (Or.inr (Or.inr (Or.inl huri)))
  rw [if_neg huri]
  simp only [EndsWithoutRaising, hexpired, hclient, huri, false_or]
  rcases pkceS256_cases rt (req.codeVerifier.getD []) with ⟨hverifier, hpkce⟩ | ⟨hverifier, expected, hpkce, hascii⟩
  · simp only [hpkce, hverifier]
    exact iff_of_false hkept (by simp)
  · simp only [hpkce, hverifier, true_and]
    cases hchallenge : isAscii record.codeChallenge with
    | false =>
      simp only [compareDigest, hchallenge, Bool.and_false, Bool.false_eq_true, if_false, iff_false]
      exact hkept
    | true =>
      simp only [compareDigest, hascii, hchallenge, Bool.and_true, if_true, iff_true]
      by_cases hsame : expected = record.codeChallenge
      · simp only [hsame, decide_true]
        exact issueTokens_drops hs hlookup
      · simp only [hsame, decide_false]
        exact hdrop _

/-! ## Counting over a run -/

/-- The call exchanges this code for tokens. -/
def yieldsTokens (cfg : OauthConfig) (rt : OauthRuntime) (code : Text) (m : Moment) : Bool :=
  match m.call.request with
  | .exchange _ req => decide (req.grantType = some (txt "authorization_code")) &&
      decide (req.code.getD [] = code) && (m.outcome cfg rt).result.isOk
  | _ => false

/-- The call stores this code. -/
def issuesCode (cfg : OauthConfig) (rt : OauthRuntime) (code : Text) (m : Moment) : Bool :=
  match m.call.request with
  | .authorize _ _ => (m.outcome cfg rt).written.isSome && decide (authorizationCode m.call.env = code)
  | _ => false

/-- A code that yields tokens was stored, matches the request, and is gone afterwards. -/
theorem yieldsTokens_spec {code : Text} {m : Moment} (h : yieldsTokens cfg rt code m = true) :
    ∃ baseUrl req record, m.call.request = .exchange baseUrl req ∧ req.code.getD [] = code ∧
      m.before.codes.lookup code = some record ∧ Matches rt m.call.env req record ∧
      (m.after cfg rt).codes.lookup code = none := by
  have hstep := moment_step cfg rt m
  simp only [Moment.after]
  simp only [yieldsTokens] at h
  generalize m.outcome cfg rt = o at h hstep ⊢
  cases hrequest : m.call.request with
  | exchange baseUrl req =>
    rw [hrequest] at h hstep
    simp only [Bool.and_eq_true, decide_eq_true_eq] at h
    obtain ⟨⟨htype, rfl⟩, hok⟩ := h
    cases hstep with
    | exchanged _ base req' _ record hash exchange lookup matched fresh _ hs _ =>
      obtain ⟨rfl, rfl⟩ := Request.exchange.inj exchange.request_eq
      subst hs
      exact ⟨_, _, record, rfl, rfl, lookup, matched, lookup_dropCode _ _⟩
    | refreshed _ base req' _ hash newHash record refresh =>
      cases refresh with
      | inl hr => exact absurd hr (by simp)
      | inr hr =>
        obtain ⟨rfl, rfl⟩ := Request.exchange.inj hr.1
        exact absurd (htype.symm.trans hr.2) (by decide)
    | _ => simp [Except.isOk, Except.toBool] at hok
  | _ => simp [hrequest] at h

theorem codes_appear {code : Text} {m : Moment} (hbefore : m.before.codes.lookup code = none)
    (hafter : (m.after cfg rt).codes.lookup code ≠ none) : issuesCode cfg rt code m = true := by
  obtain ⟨record, hrecord⟩ := Option.ne_none_iff_exists'.mp hafter
  cases code_origin (moment_step cfg rt m) hrecord with
  | inl hold => exact absurd (hbefore.symm.trans hold) (by simp)
  | inr hnew =>
    obtain ⟨baseUrl, req, hrequest, -, hwritten, rfl, -⟩ := hnew
    simp only [issuesCode, hrequest, hwritten, decide_true, Bool.and_true]

def present (code : Text) (s : Store) : ℕ := (s.codes.lookup code).isSome.toNat

/-- A call that yields tokens uses up the code, and only an issue brings one. -/
theorem yieldsTokens_step (cfg : OauthConfig) (rt : OauthRuntime) (code : Text) (m : Moment) :
    (yieldsTokens cfg rt code m).toNat + present code (m.after cfg rt) ≤
      (issuesCode cfg rt code m).toNat + present code m.before := by
  cases hyields : yieldsTokens cfg rt code m with
  | true =>
    obtain ⟨_, _, record, -, -, hlookup, -, hgone⟩ := yieldsTokens_spec hyields
    simp [present, hlookup, hgone]
  | false =>
    cases hbefore : m.before.codes.lookup code with
    | some record =>
      simp only [present, hbefore, Bool.toNat_false, zero_add, Option.isSome_some, Bool.toNat_true]
      exact le_trans (Bool.toNat_le _) (Nat.le_add_left 1 _)
    | none =>
      cases hafter : (m.after cfg rt).codes.lookup code with
      | none => simp [present, hbefore, hafter]
      | some record =>
        have hissues : issuesCode cfg rt code m = true := codes_appear hbefore (by simp [hafter])
        simp [present, hbefore, hafter, hissues]

theorem countP_yieldsTokens_le (cfg : OauthConfig) (rt : OauthRuntime) (code : Text) (calls : List Call) (s : Store) :
    (moments cfg rt calls s).countP (yieldsTokens cfg rt code) + present code (storeAfter cfg rt calls s) ≤
      (moments cfg rt calls s).countP (issuesCode cfg rt code) + present code s := by
  induction calls generalizing s with
  | nil => exact le_refl _
  | cons call calls ih =>
    have hstep := yieldsTokens_step cfg rt code ⟨call, s⟩
    have hrest := ih ((runCall cfg rt call s).after s)
    simp only [moments, storeAfter, List.countP_cons]
    simp only [Moment.after, Moment.outcome] at hstep
    cases hy : yieldsTokens cfg rt code ⟨call, s⟩ <;> cases hi : issuesCode cfg rt code ⟨call, s⟩ <;>
      simp only [hy, hi, Bool.toNat_true, Bool.toNat_false, if_true, Bool.false_eq_true, if_false] at hstep ⊢ <;>
      omega

/-- In every reachable store an exchange drops the stored code it presents exactly when no
helper raises, and over every run a code yields at most as many token pairs as it was
issued, each for a request that matches what was recorded with it. -/
theorem exchange_consumes_iff (cfg : OauthConfig) (rt : OauthRuntime) :
    (∀ s, Reachable cfg rt s → ∀ env baseUrl req record,
      req.grantType = some (txt "authorization_code") → req.resource = some (cfg.resourceUrl baseUrl) →
      s.codes.lookup (req.code.getD []) = some record →
      (((perform cfg rt env (.exchange baseUrl req) s).after s).codes.lookup (req.code.getD []) = none ↔
        EndsWithoutRaising (env.clock 0) req record)) ∧
    ∀ calls code,
      (moments cfg rt calls .empty).countP (yieldsTokens cfg rt code) ≤
        (moments cfg rt calls .empty).countP (issuesCode cfg rt code) ∧
      ∀ m ∈ moments cfg rt calls .empty, yieldsTokens cfg rt code m = true →
        ∃ baseUrl req record, m.call.request = .exchange baseUrl req ∧ req.code.getD [] = code ∧
          m.before.codes.lookup code = some record ∧ Matches rt m.call.env req record := by
  refine ⟨?_, ?_⟩
  · intro s hs env baseUrl req record htype hres hlookup
    exact exchangeCode_drops_iff (reachable_valid hs) htype hres hlookup
  · intro calls code
    refine ⟨?_, ?_⟩
    · have hcount := countP_yieldsTokens_le cfg rt code calls .empty
      simp only [present, Store.empty, Finmap.lookup_empty, Option.isSome_none, Bool.toNat_false] at hcount
      exact le_trans (Nat.le_add_right _ _) hcount
    · intro m _ hyields
      obtain ⟨baseUrl, req, record, hrequest, hcode, hlookup, hmatches, -⟩ := yieldsTokens_spec hyields
      exact ⟨baseUrl, req, record, hrequest, hcode, hlookup, hmatches⟩

/-! ## A run -/

def sampleConfig : OauthConfig := ⟨txt "secret", [], [], 3600, 15552000, txt "/mcp", by simp⟩

def sampleUri : Text := txt "https://chatgpt.com/cb"

/-- The digests of the texts the sample runs hash. -/
def sampleDigests : List (Text × List ℕ) := [
  (txt "verifier", [136, 201, 234, 230, 142, 179, 0, 178, 151, 26, 43, 236, 158, 90, 38, 255, 65, 121,
    253, 102, 29, 107, 125, 134, 30, 76, 101, 87, 185, 170, 238, 20]),
  (txt "mcp_rt_c1", [6, 215, 246, 211, 39, 89, 78, 46, 76, 79, 114, 117, 49, 198, 42, 77, 35, 147,
    122, 144, 221, 151, 181, 30, 207, 65, 230, 100, 87, 123, 85, 107]),
  (txt "mcp_rt_k1", [181, 22, 147, 126, 173, 239, 235, 140, 193, 148, 205, 81, 250, 145, 51, 93, 204,
    216, 219, 39, 119, 164, 216, 19, 225, 59, 105, 209, 172, 128, 232, 146]),
  (txt "mcp_rt_a1", [7, 34, 93, 11, 147, 75, 27, 215, 24, 18, 34, 29, 33, 37, 198, 195, 22, 158, 40,
    224, 68, 242, 237, 213, 175, 75, 225, 38, 44, 24, 45, 245]),
  (txt "mcp_rt_a2", [58, 211, 21, 157, 207, 127, 67, 115, 74, 114, 172, 20, 135, 210, 182, 130, 159,
    241, 234, 91, 220, 19, 41, 7, 171, 243, 35, 250, 73, 225, 86, 131]),
  (txt "mcp_rt_a3", [246, 196, 36, 126, 211, 66, 117, 232, 216, 129, 255, 87, 204, 98, 148, 25, 114,
    232, 172, 109, 160, 49, 68, 112, 239, 125, 39, 227, 67, 159, 7, 221]),
  (txt "mcp_rt_a4", [108, 76, 18, 229, 99, 72, 18, 176, 199, 244, 214, 198, 106, 16, 137, 236, 139,
    199, 182, 249, 210, 233, 28, 108, 216, 162, 47, 87, 6, 121, 52, 158])]

def sampleRuntime : OauthRuntime where
  urlparse uri := if uri = sampleUri then
      some ⟨txt "https", none, none, some (txt "chatgpt.com"), some none, []⟩
    else none
  sha256 bs := match sampleDigests.find? fun d => d.1.flatMap utf8Bytes = bs with
    | some d => d.2.map (Fin.ofNat _)
    | none => []

/-- The text if it is ASCII. -/
def asciiDraw (draw : Text) : Text := if isAscii draw then draw else []

theorem isAscii_asciiDraw (draw : Text) : isAscii (asciiDraw draw) = true := by
  simp only [asciiDraw]
  split_ifs with h
  · exact h
  · rfl

/-- A call at a time, with one ASCII text for every draw. -/
def callAt (time : ℤ) (draw : Text) (request : Request) : Call :=
  ⟨request, fun _ => time, fun _ => asciiDraw draw, fun _ => isAscii_asciiDraw draw⟩

def sampleBase : Text := txt "https://mcp.example"

def sampleRegister : Call :=
  callAt 0 (txt "c1") (.register ⟨some [some sampleUri], none⟩)

def sampleAuthorize : Call := callAt 0 (txt "k1") (.authorize sampleBase {
  loginToken := some (txt "secret")
  clientId := some (txt "mcp_client_c1")
  redirectUri := some sampleUri
  codeChallenge := some (txt "iMnq5o6zALKXGivsnlom_0F5_WYda32GHkxlV7mq7hQ")
  responseType := some (txt "code")
  codeChallengeMethod := some (txt "S256")
  resource := some (txt "https://mcp.example/mcp")
  scope := none
  state := none })

def sampleTokenRequest (verifier : Text) : TokenRequest where
  grantType := some (txt "authorization_code")
  resource := some (txt "https://mcp.example/mcp")
  code := some (txt "mcp_code_k1")
  clientId := some (txt "mcp_client_c1")
  redirectUri := some sampleUri
  codeVerifier := some verifier
  refreshToken := none
  scope := none

def sampleExchange (verifier : Text) : Call :=
  callAt 10 (txt "a1") (.exchange sampleBase (sampleTokenRequest verifier))

def sampleRefreshRequest (token : Text) (scope : Option Text) : TokenRequest where
  grantType := some (txt "refresh_token")
  resource := none
  code := none
  clientId := some (txt "mcp_client_c1")
  redirectUri := none
  codeVerifier := none
  refreshToken := some token
  scope := scope

def sampleRefresh (time : ℤ) (draw token : Text) (scope : Option Text) : Call :=
  callAt time draw (.refresh sampleBase (sampleRefreshRequest token scope))

/-- A grant from its registration to its first refresh. -/
def sampleGrantCalls : List Call := [sampleRegister, sampleAuthorize, sampleExchange (txt "verifier"),
  sampleRefresh 20 (txt "a2") (txt "mcp_rt_a1") none]

def sampleCodeRecord : CodeRecord where
  clientId := txt "mcp_client_c1"
  redirectUri := sampleUri
  codeChallenge := txt "iMnq5o6zALKXGivsnlom_0F5_WYda32GHkxlV7mq7hQ"
  scope := defaultScope
  resource := txt "https://mcp.example/mcp"
  expiresAt := 300

/-- The store once the client is registered and the code is issued. -/
def sampleStore : Store := storeAfter sampleConfig sampleRuntime [sampleRegister, sampleAuthorize] .empty

theorem exchange_consumes_iff_sample :
    (((perform sampleConfig sampleRuntime (sampleExchange (txt "verifier")).env
        (.exchange sampleBase (sampleTokenRequest (txt "verifier"))) sampleStore).after sampleStore).codes.lookup
        (txt "mcp_code_k1") = none ↔
      EndsWithoutRaising 10 (sampleTokenRequest (txt "verifier")) sampleCodeRecord) ∧
    ∃ baseUrl req record, (sampleExchange (txt "verifier")).request = .exchange baseUrl req ∧
      req.code.getD [] = txt "mcp_code_k1" ∧ sampleStore.codes.lookup (txt "mcp_code_k1") = some record ∧
      Matches sampleRuntime (sampleExchange (txt "verifier")).env req record := by
  have hrun := exchange_consumes_iff sampleConfig sampleRuntime
  refine ⟨?_, ?_⟩
  · exact hrun.1 sampleStore ⟨_, rfl⟩ (sampleExchange (txt "verifier")).env sampleBase
      (sampleTokenRequest (txt "verifier")) sampleCodeRecord rfl (by decide +kernel) (by decide +kernel)
  · exact (hrun.2 [sampleRegister, sampleAuthorize, sampleExchange (txt "verifier")] (txt "mcp_code_k1")).2
      ⟨sampleExchange (txt "verifier"), sampleStore⟩ (by simp [moments, sampleStore, storeAfter])
      (by decide +kernel)

/-- The code stays in the store when the verifier is not ASCII. -/
theorem exchange_nonAscii_keeps_code :
    Reachable sampleConfig sampleRuntime sampleStore ∧
    (sampleTokenRequest (txt "é")).grantType = some (txt "authorization_code") ∧
    (sampleTokenRequest (txt "é")).resource = some (sampleConfig.resourceUrl sampleBase) ∧
    sampleStore.codes.lookup ((sampleTokenRequest (txt "é")).code.getD []) = some sampleCodeRecord ∧
    ((perform sampleConfig sampleRuntime (sampleExchange (txt "é")).env
        (.exchange sampleBase (sampleTokenRequest (txt "é"))) sampleStore).after sampleStore).codes.lookup
      ((sampleTokenRequest (txt "é")).code.getD []) = some sampleCodeRecord :=
  ⟨⟨_, rfl⟩, rfl, by decide +kernel, by decide +kernel, by decide +kernel⟩

end WebOauthMcp.OauthCodes
