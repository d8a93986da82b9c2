import WebOauthMcp.OauthHttp

/-!
# What a redirect carries back

The client reads its code and its state out of the query of the URL. A registered URI may
have a query of its own, whose other fields stay as they are.
-/

namespace WebOauthMcp.RedirectUrls
open CodePoints OauthStore OauthOperations OauthSteps OauthRuns
open FormEncoding (parseQsl encodeForm encodePart encodePair encodeOctet ampersand equals percentSign plus)
open JsonDecoding (getField dictOf)
open OauthHttp (urlSafe)

def questionMark : CodePoint := 0x3F
def hashMark : CodePoint := 0x23

/-- The query of a URL: from the first question mark up to the fragment. -/
def queryOf (url : Text) : Text := ((url.takeWhile (· != hashMark)).dropWhile (· != questionMark)).drop 1

/-- A field of the query; of several with one name the last. -/
def queryField (url key : Text) : Option Text := getField key (dictOf (parseQsl (queryOf url)))

/-- A state that is empty is not sent back. -/
def stateFields (state : Option Text) : List (Text × Text) :=
  match state with
  | some t => if t.isEmpty then [] else [(txt "state", t)]
  | none => []

/-- The fields that a redirect adds. -/
def redirectFields (code : Text) (state : Option Text) : List (Text × Text) := (txt "code", code) :: stateFields state

def separatorOf (uri : Text) : CodePoint := if uri.contains questionMark then ampersand else questionMark

/-! ## Writing -/

theorem encodeOctet_urlSafe (b : Byte) : encodeOctet urlSafe b =
    let n := b.val
    if (0x41 ≤ n ∧ n ≤ 0x5A) ∨ (0x61 ≤ n ∧ n ≤ 0x7A) ∨ (0x30 ≤ n ∧ n ≤ 0x39) ∨ n = 0x5F ∨ n = 0x2E ∨
      n = 0x2D ∨ n = 0x7E then [Fin.ofNat _ n]
    else if n = 0x20 then [0x2B]
    else [0x25, quotePlus.upperHexDigit (n / 16), quotePlus.upperHexDigit (n % 16)] := by
  have hkeeps : urlSafe.keeps b = true ↔ (0x41 ≤ b.val ∧ b.val ≤ 0x5A) ∨ (0x61 ≤ b.val ∧ b.val ≤ 0x7A) ∨
      (0x30 ≤ b.val ∧ b.val ≤ 0x39) ∨ b.val = 0x5F ∨ b.val = 0x2E ∨ b.val = 0x2D ∨ b.val = 0x7E := by
    simp only [urlSafe, Bool.or_eq_true, Bool.and_eq_true, decide_eq_true_eq, List.contains_eq_mem, List.mem_cons,
      List.not_mem_nil, or_false]
    omega
  rw [encodeOctet]
  by_cases h : urlSafe.keeps b = true
  · rw [if_pos h]
    exact (if_pos (hkeeps.mp h)).symm
  · rw [if_neg h]
    simp only [if_neg fun hs => h (hkeeps.mpr hs)]
    rfl

/-- `quote_plus` is the form encoding that keeps the URL-safe octets. -/
theorem quotePlus_eq {t : Text} (h : isEncodable t = true) : quotePlus t = some (encodePart urlSafe t) := by
  rw [quotePlus, encodeUtf8, if_pos h, Option.map_some, encodePart]
  congr 2
  funext b
  exact (encodeOctet_urlSafe b).symm

/-- A text that can be quoted can be encoded. -/
theorem quotePlus_some {t quoted : Text} (h : quotePlus t = some quoted) :
    isEncodable t = true ∧ quoted = encodePart urlSafe t := by
  have hencodable : isEncodable t = true := by
    rw [quotePlus, encodeUtf8] at h
    split_ifs at h with hencodable
    · exact hencodable
    · cases h
  rw [quotePlus_eq hencodable] at h
  exact ⟨hencodable, (Option.some.inj h).symm⟩

theorem encodePair_code (code : Text) : encodePair urlSafe (txt "code", code) = txt "code=" ++ encodePart urlSafe code := by
  have hname : encodePart urlSafe (txt "code") = txt "code" := by decide
  rw [encodePair, hname]
  rfl

theorem encodePair_state (t : Text) : encodePair urlSafe (txt "state", t) = txt "state=" ++ encodePart urlSafe t := by
  have hname : encodePart urlSafe (txt "state") = txt "state" := by decide
  rw [encodePair, hname]
  rfl

theorem encodeForm_cons (f : Text × Text) (fields : List (Text × Text)) :
    encodeForm urlSafe (f :: fields) = encodePair urlSafe f ++ fields.flatMap fun g => ampersand :: encodePair urlSafe g := by
  induction fields generalizing f with
  | nil => simp [encodeForm, List.intercalate]
  | cons g fields ih =>
    have hnext : encodeForm urlSafe (f :: g :: fields) = encodePair urlSafe f ++ ampersand :: encodeForm urlSafe (g :: fields) := by
      simp [encodeForm, List.intercalate]
    rw [hnext, ih, List.flatMap_cons, List.cons_append]

theorem isEncodable_codeKey : isEncodable (txt "code") = true := by decide

theorem isEncodable_stateKey : isEncodable (txt "state") = true := by decide

/-- The fields that can be encoded. -/
def FieldsEncodable (fields : List (Text × Text)) : Prop := ∀ f ∈ fields, isEncodable f.1 = true ∧ isEncodable f.2 = true

theorem stateQuery_some {state : Option Text} {query : Text}
    (h : (match state with
      | some t => if t.isEmpty then some [] else (quotePlus t).map (txt "&state=" ++ ·)
      | none => some []) = some query) :
    FieldsEncodable (stateFields state) ∧ query = (stateFields state).flatMap fun g => ampersand :: encodePair urlSafe g := by
  rcases state with _ | t
  · exact ⟨fun f hf => absurd hf List.not_mem_nil, (Option.some.inj h).symm⟩
  · simp only [stateFields] at h ⊢
    split_ifs at h ⊢ with hempty
    · exact ⟨fun f hf => absurd hf List.not_mem_nil, (Option.some.inj h).symm⟩
    · obtain ⟨quoted, hquoted, rfl⟩ := Option.map_eq_some_iff.mp h
      obtain ⟨hencodable, rfl⟩ := quotePlus_some hquoted
      constructor
      · intro f hf
        rw [List.mem_singleton.mp hf]
        exact ⟨isEncodable_stateKey, hencodable⟩
      · rw [List.flatMap_singleton, encodePair_state]
        rfl

/-- A redirect is the URI, a separator and the form of the added fields. -/
theorem redirectWithCode_ok {uri code url : Text} {state : Option Text} (h : redirectWithCode uri code state = .ok url) :
    FieldsEncodable (redirectFields code state) ∧
      url = uri ++ separatorOf uri :: encodeForm urlSafe (redirectFields code state) := by
  have hseparator : (if uri.contains 0x3F then txt "&" else txt "?") = [separatorOf uri] := by
    rw [separatorOf, questionMark]
    split_ifs <;> rfl
  simp only [redirectWithCode, hseparator] at h
  split at h
  · rename_i quoted query hquoted hquery
    obtain ⟨hcode, rfl⟩ := quotePlus_some hquoted
    obtain ⟨hstate, rfl⟩ := stateQuery_some hquery
    constructor
    · intro f hf
      rcases List.mem_cons.mp hf with rfl | hf
      · exact ⟨isEncodable_codeKey, hcode⟩
      · exact hstate f hf
    · rw [← Except.ok.inj h, redirectFields, encodeForm_cons, encodePair_code]
      simp only [List.append_assoc, List.cons_append, List.nil_append]
  · cases h

/-! ## Reading -/

theorem encodeOctet_noHash (b : Byte) : hashMark ∉ encodeOctet urlSafe b := by
  intro h
  have hdigit : ∀ n, n < 16 → FormEncoding.upperHexDigit n ≠ hashMark := by
    intro n hn heq
    have hval := FormEncoding.upperHexDigit_val hn
    rw [heq] at hval
    change 0x23 = _ at hval
    split_ifs at hval <;> omega
  rw [encodeOctet] at h
  split_ifs at h with hsafe hspace
  · have hval := congrArg Fin.val (List.mem_singleton.mp h)
    rw [FormEncoding.octetChar_val] at hval
    change 0x23 = _ at hval
    have hb : b = 0x23 := Fin.ext hval.symm
    rw [hb] at hsafe
    exact absurd hsafe (by decide)
  · exact absurd (List.mem_singleton.mp h) (by decide)
  · simp only [List.mem_cons, List.not_mem_nil, or_false] at h
    rcases h with h | h | h
    · exact absurd h (by decide)
    · exact hdigit _ (by omega) h.symm
    · exact hdigit _ (by omega) h.symm

theorem encodePair_noHash (f : Text × Text) : hashMark ∉ encodePair urlSafe f := by
  have hpart : ∀ t, hashMark ∉ encodePart urlSafe t := by
    intro t h
    obtain ⟨b, -, hb⟩ := List.mem_flatMap.mp h
    exact encodeOctet_noHash b hb
  intro h
  rcases List.mem_append.mp h with hname | hvalue
  · exact hpart _ hname
  · rcases List.mem_cons.mp hvalue with heq | hvalue
    · exact absurd heq (by decide)
    · exact hpart _ hvalue

theorem encodeForm_noHash (f : Text × Text) (fields : List (Text × Text)) : hashMark ∉ encodeForm urlSafe (f :: fields) := by
  rw [encodeForm_cons]
  intro h
  rcases List.mem_append.mp h with hfirst | hrest
  · exact encodePair_noHash f hfirst
  · obtain ⟨g, -, hg⟩ := List.mem_flatMap.mp hrest
    rcases List.mem_cons.mp hg with heq | hg
    · exact absurd heq (by decide)
    · exact encodePair_noHash g hg

theorem takeWhile_bne {a : CodePoint} {t : Text} (h : a ∉ t) : t.takeWhile (· != a) = t := by
  rw [List.takeWhile_eq_self_iff]
  intro c hc
  exact bne_iff_ne.mpr fun heq => h (heq ▸ hc)

theorem dropWhile_bne {a : CodePoint} {t : Text} (h : a ∉ t) : t.dropWhile (· != a) = [] := by
  rw [List.dropWhile_eq_nil_iff]
  intro c hc
  exact bne_iff_ne.mpr fun heq => h (heq ▸ hc)

/-- Pieces on the two sides of a separator are read one after the other. -/
theorem parseQsl_append (p q : Text) : parseQsl (p ++ ampersand :: q) = parseQsl p ++ parseQsl q := by
  rw [parseQsl, List.splitOn_append_cons_self, List.filter_append, List.map_append]
  rfl

/-- The redirect has the fields of the URI and then the added ones. -/
theorem parseQsl_redirect {uri : Text} (huri : hashMark ∉ uri) {f : Text × Text} {fields : List (Text × Text)}
    (hfields : FieldsEncodable (f :: fields)) :
    parseQsl (queryOf (uri ++ separatorOf uri :: encodeForm urlSafe (f :: fields))) = parseQsl (queryOf uri) ++ f :: fields := by
  have hform := encodeForm_noHash f fields
  have hwhole : hashMark ∉ uri ++ separatorOf uri :: encodeForm urlSafe (f :: fields) := by
    intro h
    rcases List.mem_append.mp h with h | h
    · exact huri h
    · rcases List.mem_cons.mp h with h | h
      · rw [separatorOf] at h
        split_ifs at h
        · exact absurd h (by decide)
        · exact absurd h (by decide)
      · exact hform h
  rw [queryOf, takeWhile_bne hwhole, queryOf, takeWhile_bne huri]
  cases hquery : uri.dropWhile (· != questionMark) with
  | nil =>
    have hno : questionMark ∉ uri := fun h => by simpa using List.dropWhile_eq_nil_iff.mp hquery _ h
    have hseparator : separatorOf uri = questionMark := if_neg (by simpa using hno)
    have hstop : ¬(questionMark != questionMark) = true := by decide
    rw [List.dropWhile_append, hquery, List.isEmpty_nil, if_pos rfl, hseparator,
      List.dropWhile_cons_of_neg (p := (· != questionMark)) hstop, List.drop_one, List.tail_cons,
      FormEncoding.parseQsl_encodeForm urlSafe hfields]
    rfl
  | cons c query =>
    have hmem : questionMark ∈ uri := by
      by_contra hno
      rw [dropWhile_bne hno] at hquery
      cases hquery
    have hseparator : separatorOf uri = ampersand := if_pos (List.contains_iff_mem.mpr hmem)
    rw [List.dropWhile_append, hquery, List.isEmpty_cons, if_neg Bool.false_ne_true, hseparator, List.cons_append,
      List.drop_one, List.tail_cons, List.drop_one, List.tail_cons, parseQsl_append,
      FormEncoding.parseQsl_encodeForm urlSafe hfields]

/-- The client finds the code, the state that it sent, and the fields that its URI had. -/
theorem redirect_read {uri code url : Text} {state : Option Text} (huri : hashMark ∉ uri)
    (h : redirectWithCode uri code state = .ok url) (key : Text) : queryField url key =
      if stateFields state ≠ [] ∧ key = txt "state" then state
      else if key = txt "code" then some code
      else queryField uri key := by
  obtain ⟨hfields, rfl⟩ := redirectWithCode_ok h
  rw [queryField, redirectFields, parseQsl_redirect huri hfields]
  have hcode : getField key (dictOf (parseQsl (queryOf uri) ++ [(txt "code", code)])) =
      if key = txt "code" then some code else queryField uri key :=
    ConsentPage.getField_dictOf_append (parseQsl (queryOf uri)) (txt "code", code) key
  by_cases hstate : stateFields state = []
  · rw [hstate, hcode]
    exact (if_neg fun h => h.1 rfl).symm
  · obtain ⟨t, hsome, hsent⟩ : ∃ t, state = some t ∧ stateFields state = [(txt "state", t)] := by
      rcases state with _ | t
      · exact absurd rfl hstate
      · rw [stateFields] at hstate ⊢
        split_ifs at hstate ⊢ with hempty
        · exact absurd rfl hstate
        · exact ⟨t, rfl, rfl⟩
    have hlast := ConsentPage.getField_dictOf_append (parseQsl (queryOf uri) ++ [(txt "code", code)]) (txt "state", t) key
    rw [hsent, List.append_cons, hlast, hcode, hsome]
    simp only [ne_eq, List.cons_ne_nil, not_false_eq_true, true_and]

/-! ## The redirect of an authorization -/

variable {cfg : OauthConfig} {rt : OauthRuntime} {env : OauthEnv} {s : Store}

theorem allowed_noHash {uri : Text} (h : isAllowedRedirectUri rt uri = true) : hashMark ∉ uri := by
  intro hmem
  rw [isAllowedRedirectUri] at h
  split_ifs at h with hblank hmarks
  have hcontains : uri.contains 0x23 = true := List.contains_iff_mem.mpr hmem
  rw [hcontains, Bool.or_true] at hmarks
  exact absurd rfl hmarks

/-- In every reachable store an authorization that redirects has stored the code, and the client reads
from the URL this code, the state that it sent, and every other field of the URI that it registered. -/
theorem redirect_carries_code (hs : Reachable cfg rt s) {baseUrl url : Text} {req : AuthorizeRequest}
    (h : (perform cfg rt env (.authorize baseUrl req) s).result = .ok (.redirect url)) :
    ((perform cfg rt env (.authorize baseUrl req) s).after s).codes.lookup (authorizationCode env) =
        some (authorizedRecord cfg env baseUrl req) ∧
      ∀ key, queryField url key =
        if stateFields req.state ≠ [] ∧ key = txt "state" then req.state
        else if key = txt "code" then some (authorizationCode env)
        else queryField (req.redirectUri.getD []) key := by
  have hstep := perform_step cfg rt env (.authorize baseUrl req) s
  revert h hstep
  generalize perform cfg rt env (.authorize baseUrl req) s = o
  intro h hstep
  cases hstep with
  | authorized _ _ _ checks _ =>
    obtain ⟨reply, hreply, hurl⟩ := ExceptSteps.map_ok_iff.mp h
    obtain rfl := Reply.redirect.inj hurl
    obtain ⟨client, hclient, huri⟩ := checks.registered
    have hallowed := (reachable_valid hs).clients _ client hclient _ huri
    exact ⟨Finmap.lookup_insert _, redirect_read (allowed_noHash hallowed) hreply⟩
  | refused => cases h
  | unknownCode => cases h
  | codeDropped => cases h
  | exchanged _ _ _ _ _ _ exchange => cases exchange.request_eq
  | pruned => cases h
  | reused => cases h
  | refreshed _ _ _ _ _ _ _ refresh => simp [IsRefresh] at refresh

/-- A client whose URI has a query of its own. -/
def queriedUri : Text := txt "https://chatgpt.com/cb?tenant=a%26b&state=x"

def queriedRuntime : OauthRuntime where
  urlparse uri := if uri = queriedUri then some ⟨txt "https", none, none, some (txt "chatgpt.com"), some none, []⟩ else none
  sha256 _ := []

def queriedStore : Store := storeAfter OauthCodes.sampleConfig queriedRuntime
  [OauthCodes.callAt 0 (txt "c1") (.register ⟨some [some queriedUri], none⟩)] .empty

def queriedAuthorize : AuthorizeRequest where
  loginToken := some (txt "secret")
  clientId := some (txt "mcp_client_c1")
  redirectUri := some queriedUri
  codeChallenge := some (txt "challenge")
  responseType := some (txt "code")
  codeChallengeMethod := some (txt "S256")
  resource := some (txt "https://mcp.example/mcp")
  scope := none
  state := some (txt "a+b&c")

def queriedUrl : Text := txt "https://chatgpt.com/cb?tenant=a%26b&state=x&code=mcp_code_k1&state=a%2Bb%26c"

theorem queried_redirect : queryField queriedUrl (txt "code") = some (txt "mcp_code_k1") ∧
    queryField queriedUrl (txt "state") = some (txt "a+b&c") ∧ queryField queriedUrl (txt "tenant") = some (txt "a&b") := by
  have hredirected : (perform OauthCodes.sampleConfig queriedRuntime (OauthCodes.callAt 0 (txt "k1") (.verify [] [])).env
      (.authorize OauthCodes.sampleBase queriedAuthorize) queriedStore).result = .ok (.redirect queriedUrl) := by decide +kernel
  have hread := (redirect_carries_code (s := queriedStore) ⟨_, rfl⟩ hredirected).2
  rw [hread, hread, hread]
  decide +kernel

end WebOauthMcp.RedirectUrls
