import WebOauthMcp.ElicitationRouting

/-!
# Who accepts elicitations

The handler of an MCP call: a policy for computer use first, and else a bridge to the client
of the call. An acceptance comes from that client, asked about this very elicitation, or from
the policy for an app of the allow list.
-/

namespace WebOauthMcp.ElicitationApproval
open CodePoints JsonText BudgetMetadata ExceptSteps FaultyPrograms RelyGuarantee AppServerAdapter AppServerCalls AppServerParties ElicitationRouting

variable {σ ι : Type}

/-- What the handler of a call has kept of the call and of the configuration. -/
structure Handler (σ : Type) where
  outerSession : σ
  outerRequestId : Text
  approvalMode : Text
  allowedApps : List Text

/-- A call of `elicit_form`. -/
structure Question (σ : Type) where
  session : σ
  message : Text
  requestedSchema : Json
  relatedRequestId : Text

/-- What a client makes of a question. An exception is also a timeout, or a session that is gone. -/
inductive OuterAnswer
  | raises
  | answered (action content : Json)

/-- How the clients answer what they are asked. -/
abbrev Outer (σ : Type) : Type := Question σ → OuterAnswer

/-! ## The policy -/

def accept : Text := txt "accept"
def decline : Text := txt "decline"
def cancel : Text := txt "cancel"

def responseJson (action content metaData : Json) : Json :=
  .obj [(txt "action", action), (txt "content", content), (txt "_meta", metaData)]

def isHashable : Json → Bool
  | .arr _ | .obj _ => false
  | _ => true

/-- Whether a value is in a set of strings. An unhashable one raises. -/
def isOneOf (words : List Text) (value : Json) : Except Unit Bool :=
  if isHashable value then .ok ((textOf value).any fun t => decide (t ∈ words)) else .error ()

def isNull : Json → Bool
  | .null => true
  | _ => false

def isEmptyObject : Json → Bool
  | .obj [] => true
  | _ => false

/-- `{"type": "object", "properties": {}}`. -/
def isEmptyForm : Json → Bool
  | .obj fields => fields.all (fun f => decide (f.1 = txt "type" ∨ f.1 = txt "properties")) &&
      decide ((dictGet (txt "type") fields).bind textOf = some (txt "object")) &&
      (dictGet (txt "properties") fields).any isEmptyObject
  | _ => false

/-- The field is that text. -/
def fieldIs (k v : String) (value : Json) : Bool := decide ((field k value).bind textOf = some (txt v))

/-- The `_meta` of a computer-use elicitation. A field of anything but a dict is none. -/
def computerUseMeta (params : Json) : Option Json := (field "_meta" params).filter (fieldIs "connector_id" "computer-use")

/-- The conditions on an approval up to its risk level. -/
def asksForAppState (params metaData : Json) : Bool :=
  fieldIs "serverName" "cua_repl" params && isNull ((field "turnId" params).getD .null) &&
    ((field "threadId" params).bind textOf).any (fun t => !t.isEmpty) &&
    decide (textOf ((field "mode" params).getD (.str (txt "form"))) = some (txt "form")) &&
    (field "requestedSchema" params).any isEmptyForm &&
    fieldIs "codex_approval_kind" "mcp_tool_call" metaData && fieldIs "tool_name" "get_app_state" metaData

/-- The app, when it is the only parameter of the tool. -/
def onlyApp (metaData : Json) : Option Text :=
  match field "tool_params" metaData with
  | some (.obj fields) =>
    if fields.all fun f => decide (f.1 = txt "app") then (dictGet (txt "app") fields).bind textOf else none
  | _ => none

/-- What of the offered persistence is taken. -/
def persistence : Json → Option Text
  | .arr items => do
    let offered ← items.mapM textOf
    if offered ≠ [] ∧ offered.Nodup ∧ ∀ t ∈ offered, t = txt "session" ∨ t = txt "always" then
      if txt "always" ∈ offered then some (txt "always")
      else if txt "session" ∈ offered then some (txt "session")
      else none
    else none
  | _ => none

/-- The conditions on an approval from its risk level on. -/
def approveApp (allowedApps : List Text) (metaData : Json) : Option Json := do
  let app ← onlyApp metaData
  if app ∈ allowedApps then do
    let persist ← persistence ((field "persist" metaData).getD .null)
    some (responseJson (.str accept) (.obj []) (.obj [(txt "persist", .str persist)]))
  else none

/-- `_computer_use_approval_response`. -/
def computerUseApprovalResponse (h : Handler σ) (interaction : Interaction) : Except Unit (Option Json) :=
  if h.approvalMode = txt "interactive" then .ok none
  else if interaction.method ≠ elicitationMethod then .ok none
  else match computerUseMeta interaction.params with
    | none => .ok none
    | some metaData =>
      if h.approvalMode = txt "deny" then .ok (some (responseJson (.str decline) .null .null))
      else if h.approvalMode ≠ txt "prototype" then .ok none
      else if asksForAppState interaction.params metaData then do
        let known ← isOneOf [txt "low", txt "high"] ((field "riskLevel" metaData).getD .null)
        pure (if known then approveApp h.allowedApps metaData else none)
      else .ok none

/-! ## The bridge -/

/-- Whether the mode of an elicitation is a form. -/
def isForm (mode : Option Json) : Except Unit Bool :=
  isOneOf [txt "form", txt "openai/form", txt "openaiForm"] (mode.getD (.str (txt "form")))

/-- The question that an elicitation is for its client, if it is one. -/
def questionOf (h : Handler σ) (interaction : Interaction) : Except Unit (Option (Question σ)) :=
  match interaction.params with
  | .obj fields => do
    let known ← isForm (dictGet (txt "mode") fields)
    match known, (dictGet (txt "message") fields).bind textOf, dictGet (txt "requestedSchema") fields with
    | true, some message, some (.obj schema) => pure (some ⟨h.outerSession, message, .obj schema, h.outerRequestId⟩)
    | _, _, _ => pure none
  | _ => .ok none

/-- An answer as it is passed on. -/
def passOn : OuterAnswer → Except Unit Json
  | .raises => .error ()
  | .answered action content => do
    let known ← isOneOf elicitationActions action
    if known then pure (responseJson action (if textOf action = some accept then content else .null) .null) else throw ()

/-- `_bridge_elicitation`. -/
def bridgeElicitation (h : Handler σ) (interaction : Interaction) (outer : Outer σ) : Except Unit Json := do
  let question ← questionOf h interaction
  match question with
  | some question => passOn (outer question)
  | none => pure (responseJson (.str cancel) .null .null)

/-- `handle_interaction`. -/
def handleInteraction (h : Handler σ) (interaction : Interaction) (outer : Outer σ) : Except Unit Json := do
  let policy ← computerUseApprovalResponse h interaction
  match policy with
  | some response => pure response
  | none => bridgeElicitation h interaction outer

/-! ## What an acceptance rests on -/

/-- The client of the call accepted this elicitation, with its message and its schema. -/
def AcceptedByClient (h : Handler σ) (params : Json) (outer : Outer σ) (response : ElicitationResponse) : Prop :=
  ∃ message schema content, isForm (field "mode" params) = .ok true ∧ field "message" params = some (.str message) ∧
    field "requestedSchema" params = some (.obj schema) ∧
    outer ⟨h.outerSession, message, .obj schema, h.outerRequestId⟩ = .answered (.str accept) content ∧ response.content = content

/-- The prototype policy accepted: the elicitation is an approval of the state of an allowed app, and it
offers the persistence that it gets. -/
def AcceptedByPolicy (h : Handler σ) (params : Json) (response : ElicitationResponse) : Prop :=
  h.approvalMode = txt "prototype" ∧ ∃ metaData app offered persist, computerUseMeta params = some metaData ∧
    asksForAppState params metaData = true ∧ onlyApp metaData = some app ∧ app ∈ h.allowedApps ∧
    field "persist" metaData = some (.arr offered) ∧ .str persist ∈ offered ∧ response.metaData = .obj [(txt "persist", .str persist)]

theorem textOf_eq_some {j : Json} {t : Text} (h : textOf j = some t) : j = .str t := by
  cases j with
  | str u => exact congrArg Json.str (Option.some.inj h)
  | _ => exact absurd h nofun

theorem objectOrNull_ok {j k : Json} (h : objectOrNull j = .ok k) : k = j := by
  cases j with
  | null | obj => exact (Except.ok.inj h).symm
  | _ => exact absurd h nofun

/-- A normalised response is what the handler answered. -/
theorem normalize_responseJson {action content metaData : Json} {response : ElicitationResponse}
    (h : normalizeElicitationResponse (responseJson action content metaData) = .ok response) :
    action = .str response.action ∧ response.metaData = metaData ∧ (response.action = accept → response.content = content) := by
  have hfields : field "action" (responseJson action content metaData) = some action ∧
      field "content" (responseJson action content metaData) = some content ∧
      field "_meta" (responseJson action content metaData) = some metaData := ⟨rfl, rfl, rfl⟩
  simp only [normalizeElicitationResponse, hfields.1, hfields.2.1, hfields.2.2, Option.bind_some, Option.getD_some] at h
  cases haction : textOf action with
  | none => simp [haction] at h
  | some t =>
    simp only [haction] at h
    split at h
    · obtain ⟨c, hc, h⟩ := bind_eq_ok.mp h
      obtain ⟨m, hm, h⟩ := bind_eq_ok.mp h
      cases Except.ok.inj h
      refine ⟨textOf_eq_some haction, objectOrNull_ok hm, fun haccept => ?_⟩
      have htaken : (if t = txt "accept" then content else Json.null) = content := if_pos haccept
      exact (objectOrNull_ok hc).trans htaken
    · exact absurd h nofun

/-- One that cancels for a handler that raised accepts nothing. -/
theorem settled_accept {r : Except Unit ElicitationResponse} (h : (settled r).action = accept) : r = .ok (settled r) := by
  have hcancel : cancelResponse.action ≠ accept := by decide
  cases r with
  | ok response => rfl
  | error e => exact absurd h hcancel

/-! ## The policy decides -/

theorem mem_of_texts {items : List Json} {texts : List Text} (h : items.mapM textOf = some texts) {t : Text} (ht : t ∈ texts) :
    .str t ∈ items := by
  induction items generalizing texts with
  | nil =>
    cases Option.some.inj h
    exact absurd ht List.not_mem_nil
  | cons j items ih =>
    rw [List.mapM_cons] at h
    obtain ⟨u, hu, h⟩ := Option.bind_eq_some_iff.mp h
    obtain ⟨us, hus, h⟩ := Option.bind_eq_some_iff.mp h
    cases Option.some.inj h
    cases List.mem_cons.mp ht with
    | inl heq => exact List.mem_cons.mpr (.inl (heq ▸ (textOf_eq_some hu).symm))
    | inr hmem => exact List.mem_cons_of_mem _ (ih hus hmem)

theorem persistence_offered {offered : Json} {t : Text} (h : persistence offered = some t) :
    ∃ items, offered = .arr items ∧ .str t ∈ items := by
  cases offered with
  | arr items =>
    obtain ⟨texts, htexts, h⟩ := Option.bind_eq_some_iff.mp h
    have hmem : t ∈ texts := by
      split at h
      · split at h
        · next halways => exact Option.some.inj h ▸ halways
        · split at h
          · next hsession => exact Option.some.inj h ▸ hsession
          · exact absurd h nofun
      · exact absurd h nofun
    exact ⟨items, rfl, mem_of_texts htexts hmem⟩
  | _ => exact absurd h nofun

/-- The policy declines in deny mode, and otherwise it accepts for an allowed app. -/
theorem policy_decides {h : Handler σ} {interaction : Interaction} {r : Json}
    (hr : computerUseApprovalResponse h interaction = .ok (some r)) :
    h.approvalMode = txt "deny" ∧ r = responseJson (.str decline) .null .null ∨
      h.approvalMode = txt "prototype" ∧ ∃ metaData, computerUseMeta interaction.params = some metaData ∧
        asksForAppState interaction.params metaData = true ∧ approveApp h.allowedApps metaData = some r := by
  unfold computerUseApprovalResponse at hr
  split at hr
  · exact absurd hr nofun
  split at hr
  · exact absurd hr nofun
  cases hmeta : computerUseMeta interaction.params with
  | none => simp [hmeta] at hr
  | some metaData =>
    simp only [hmeta] at hr
    split at hr
    · next hdeny => exact .inl ⟨hdeny, (Option.some.inj (Except.ok.inj hr)).symm⟩
    split at hr
    · exact absurd hr nofun
    · next hprototype =>
      refine .inr ⟨Decidable.not_not.mp hprototype, metaData, rfl, ?_⟩
      split at hr
      · next hasks =>
        obtain ⟨known, -, hr⟩ := bind_eq_ok.mp hr
        cases known with
        | true => exact ⟨hasks, Except.ok.inj hr⟩
        | false => exact absurd (Except.ok.inj hr) nofun
      · exact absurd hr nofun

/-- In deny mode the policy declines whatever is about computer use. -/
theorem policy_denies {h : Handler σ} {interaction : Interaction} (hdeny : h.approvalMode = txt "deny")
    (hmethod : interaction.method = elicitationMethod) (hcomputer : (computerUseMeta interaction.params).isSome = true) :
    computerUseApprovalResponse h interaction = .ok (some (responseJson (.str decline) .null .null)) := by
  obtain ⟨metaData, hmeta⟩ := Option.isSome_iff_exists.mp hcomputer
  have hmode : txt "deny" ≠ txt "interactive" := by decide
  rw [computerUseApprovalResponse, hdeny, if_neg hmode, if_neg (not_not.mpr hmethod), hmeta]
  exact if_pos rfl

/-- What the prototype policy accepts for an app. -/
theorem approveApp_accepts {allowedApps : List Text} {metaData r : Json} (hr : approveApp allowedApps metaData = some r) :
    ∃ app offered persist, onlyApp metaData = some app ∧ app ∈ allowedApps ∧ field "persist" metaData = some (.arr offered) ∧
      .str persist ∈ offered ∧ r = responseJson (.str accept) (.obj []) (.obj [(txt "persist", .str persist)]) := by
  obtain ⟨app, happ, hr⟩ := Option.bind_eq_some_iff.mp hr
  split at hr
  · next hallowed =>
    obtain ⟨persist, hpersist, hr⟩ := Option.bind_eq_some_iff.mp hr
    obtain ⟨offered, hoffered, hmem⟩ := persistence_offered hpersist
    refine ⟨app, offered, persist, happ, hallowed, ?_, hmem, (Option.some.inj hr).symm⟩
    cases hfield : field "persist" metaData with
    | none => simp [hfield] at hoffered
    | some j => exact congrArg some ((congrArg (Option.getD · .null) hfield).symm.trans hoffered)
  · exact absurd hr nofun

/-! ## The bridge passes on -/

theorem questionOf_some {h : Handler σ} {interaction : Interaction} {question : Question σ}
    (hquestion : questionOf h interaction = .ok (some question)) :
    ∃ message schema, isForm (field "mode" interaction.params) = .ok true ∧ field "message" interaction.params = some (.str message) ∧
      field "requestedSchema" interaction.params = some (.obj schema) ∧
      question = ⟨h.outerSession, message, .obj schema, h.outerRequestId⟩ := by
  unfold questionOf at hquestion
  split at hquestion
  · next fields hparams =>
    obtain ⟨known, hknown, hquestion⟩ := bind_eq_ok.mp hquestion
    split at hquestion
    · next message schema hmessage hschema =>
      obtain ⟨value, hvalue, htext⟩ := Option.bind_eq_some_iff.mp hmessage
      rw [hparams]
      refine ⟨message, schema, hknown, ?_, hschema, (Option.some.inj (Except.ok.inj hquestion)).symm⟩
      exact hvalue.trans (congrArg some (textOf_eq_some htext))
    · exact absurd (Except.ok.inj hquestion) nofun
  · exact absurd (Except.ok.inj hquestion) nofun

/-- The bridge accepts when the client of the call does. -/
theorem bridge_accepts {h : Handler σ} {interaction : Interaction} {outer : Outer σ} {response : ElicitationResponse}
    (hr : (bridgeElicitation h interaction outer).bind normalizeElicitationResponse = .ok response)
    (haccept : response.action = accept) : AcceptedByClient h interaction.params outer response := by
  obtain ⟨r, hr, hnormal⟩ := bind_eq_ok.mp hr
  obtain ⟨question, hquestion, hr⟩ := bind_eq_ok.mp hr
  cases question with
  | none =>
    cases Except.ok.inj hr
    have hcancel := (normalize_responseJson hnormal).1
    exact absurd (Json.str.inj hcancel) (by rw [haccept]; decide)
  | some question =>
    obtain ⟨message, schema, hform, hmessage, hschema, rfl⟩ := questionOf_some hquestion
    simp only at hr
    cases hanswer : outer ⟨h.outerSession, message, .obj schema, h.outerRequestId⟩ with
    | raises => rw [hanswer] at hr; exact absurd hr nofun
    | answered action content =>
      rw [hanswer] at hr
      obtain ⟨known, hknown, hr⟩ := bind_eq_ok.mp hr
      cases known with
      | false => exact absurd hr nofun
      | true =>
        cases Except.ok.inj hr
        obtain ⟨haction, -, hcontent⟩ := normalize_responseJson hnormal
        rw [haccept] at haction
        subst haction
        exact ⟨message, schema, content, hform, hmessage, hschema, hanswer, hcontent haccept⟩

/-- Whatever a handler accepts was accepted by its client or by the policy. -/
theorem handler_accepts {h : Handler σ} {interaction : Interaction} {outer : Outer σ}
    (haccept : (settled ((handleInteraction h interaction outer).bind normalizeElicitationResponse)).action = accept) :
    AcceptedByClient h interaction.params outer (settled ((handleInteraction h interaction outer).bind normalizeElicitationResponse)) ∨
      AcceptedByPolicy h interaction.params (settled ((handleInteraction h interaction outer).bind normalizeElicitationResponse)) := by
  have hok := settled_accept haccept
  generalize settled ((handleInteraction h interaction outer).bind normalizeElicitationResponse) = response at hok haccept ⊢
  obtain ⟨r, hr, hnormal⟩ := bind_eq_ok.mp hok
  obtain ⟨policy, hpolicy, hr⟩ := bind_eq_ok.mp hr
  cases policy with
  | none => exact .inl (bridge_accepts (bind_eq_ok.mpr ⟨r, hr, hnormal⟩) haccept)
  | some decided =>
    cases Except.ok.inj hr
    cases policy_decides hpolicy with
    | inl hdeny =>
      have hdeclines := (normalize_responseJson (hdeny.2 ▸ hnormal)).1
      exact absurd (Json.str.inj hdeclines) (by rw [haccept]; decide)
    | inr hprototype =>
      obtain ⟨hmode, metaData, hmeta, hasks, happrove⟩ := hprototype
      obtain ⟨app, offered, persist, happ, hallowed, hoffered, hmem, rfl⟩ := approveApp_accepts happrove
      exact .inr ⟨hmode, metaData, app, offered, persist, hmeta, hasks, happ, hallowed, hoffered, hmem, (normalize_responseJson hnormal).2.1⟩

/-- In deny mode a handler declines whatever is about computer use. -/
theorem handler_denies {h : Handler σ} {interaction : Interaction} (outer : Outer σ) (hdeny : h.approvalMode = txt "deny")
    (hmethod : interaction.method = elicitationMethod) (hcomputer : (computerUseMeta interaction.params).isSome = true) :
    settled ((handleInteraction h interaction outer).bind normalizeElicitationResponse) = ⟨decline, .null, .null⟩ := by
  have hanswer : handleInteraction h interaction outer = .ok (responseJson (.str decline) .null .null) := by
    rw [handleInteraction, policy_denies hdeny hmethod hcomputer]
    rfl
  rw [hanswer]
  rfl

/-! ## Runs -/

/-- The handler of the one call that a request was found to be about answered it, and what came of it is that response. -/
def Answered (q : Observed (Handler σ) ι (Outer σ)) (y : Reply ι) (response : ElicitationResponse) (v : Invocation (Handler σ) ι)
    (outer : Outer σ) : Prop :=
  v ∈ q.state.2.invocations ∧ v.party = y.party ∧ v.process = y.process ∧ v.message = y.message ∧
    q.state.2.correlated v.party = some ⟨v.process, v.message, [v.call]⟩ ∧ (q.state.1.requests v.call).handler = some v.handler ∧
    q.state.2.outer v.party = some outer ∧
    response = settled ((handleInteraction v.handler (newInteraction v.message) outer).bind normalizeElicitationResponse)

/-- What is recorded of the replies: acceptances are authorised, computer use is declined in deny mode, and no request has two. -/
structure Authorised (q : Observed (Handler σ) ι (Outer σ)) : Prop where
  accepted : ∀ y ∈ q.state.2.replies, ∀ response, y.reply = .result response → response.action = accept →
    ∃ v outer, Answered q y response v outer ∧
      (AcceptedByClient v.handler v.message.params outer response ∨ AcceptedByPolicy v.handler v.message.params response)
  denied : ∀ v ∈ q.state.2.invocations, v.handler.approvalMode = txt "deny" →
    (computerUseMeta v.message.params).isSome = true →
      (∀ y ∈ q.state.2.replies, y.party = v.party → ∀ response, y.reply = .result response → response = ⟨decline, .null, .null⟩) ∧
      ∀ r, q.rest v.party = .done r → Gone v.process q.state.1 ∨
        (encodableReply v.message (.result ⟨decline, .null, .null⟩) = true →
          Sent v.party v.process (.result ⟨decline, .null, .null⟩) q.state)
  once : (q.state.2.replies.map Reply.party).Nodup

section
variable {parties : ι → Party (Handler σ)}

theorem asks_same {i : ι} {p p' : ℕ} {m m' : ServerRequest} (h : Asks parties i p m) (h' : Asks parties i p' m') : p = p' ∧ m = m' := by
  obtain ⟨n, hparty⟩ := h
  obtain ⟨n', hparty'⟩ := h'
  cases hparty.symm.trans hparty'
  exact ⟨rfl, rfl⟩

/-- A party runs one handler. -/
theorem invocation_unique {x : Adapter (Handler σ) ι × History (Handler σ) ι (Outer σ)} (hroutes : Routes handleInteraction parties x.1 x.2)
    {v v' : Invocation (Handler σ) ι} (hv : v ∈ x.2.invocations) (hv' : v' ∈ x.2.invocations) (hparty : v'.party = v.party) : v' = v := by
  obtain ⟨-, -, hcorrelated, -, hhandler⟩ := hroutes.invoked v hv
  obtain ⟨-, -, hcorrelated', -, hhandler'⟩ := hroutes.invoked v' hv'
  rw [hparty, hcorrelated] at hcorrelated'
  obtain ⟨party, p, m, call, handler⟩ := v
  obtain ⟨party', p', m', call', handler'⟩ := v'
  cases hparty
  cases Option.some.inj hcorrelated'
  cases Option.some.inj (hhandler.symm.trans hhandler')
  rfl

theorem answered_of_justified {q : Observed (Handler σ) ι (Outer σ)} (hroutes : Routes handleInteraction parties q.state.1 q.state.2)
    {y : Reply ι} (hy : y ∈ q.state.2.replies) {response : ElicitationResponse} (hresponse : y.reply = .result response) :
    ∃ v outer, Answered q y response v outer := by
  obtain ⟨v, hv, hparty, outer, houter, hsettled⟩ := hroutes.justified y hy response hresponse
  obtain ⟨hasks, -, hcorrelated, -, hhandler⟩ := hroutes.invoked v hv
  obtain ⟨hprocess, hmessage⟩ := asks_same (hparty ▸ hasks) (hroutes.replied y hy)
  exact ⟨v, outer, hv, hparty, hprocess, hmessage, hcorrelated, hhandler, hparty ▸ houter, hsettled⟩

/-- Whatever is accepted in a run is authorised. -/
theorem accepts_are_authorised [DecidableEq ι] (parties : ι → Party (Handler σ)) {q : Observed (Handler σ) ι (Outer σ)}
    (hrun : Runs Sane (observed handleInteraction parties) q) : Authorised q := by
  obtain ⟨⟨-, hroutes⟩, hserved⟩ := runs_served hrun
  have hdenies : ∀ v ∈ q.state.2.invocations, v.handler.approvalMode = txt "deny" → (computerUseMeta v.message.params).isSome = true →
      ∀ outer, settled ((handleInteraction v.handler (newInteraction v.message) outer).bind normalizeElicitationResponse) =
        ⟨decline, .null, .null⟩ :=
    fun v hv hdeny hcomputer outer => handler_denies outer hdeny (hroutes.invoked v hv).2.1 hcomputer
  refine ⟨fun y hy response hresponse haccept => ?_, fun v hv hdeny hcomputer => ⟨fun y hy hparty response hresponse => ?_, fun r hdone => ?_⟩,
    hroutes.once⟩
  · obtain ⟨v, outer, hanswered⟩ := answered_of_justified hroutes hy hresponse
    have hsettled := hanswered.2.2.2.2.2.2.2
    refine ⟨v, outer, hanswered, ?_⟩
    rw [hsettled] at haccept ⊢
    exact handler_accepts haccept
  · obtain ⟨v', outer, hanswered⟩ := answered_of_justified hroutes hy hresponse
    obtain ⟨hv', hparty', -, -, -, -, -, hsettled⟩ := hanswered
    cases invocation_unique hroutes hv hv' (hparty'.trans hparty)
    exact hsettled.trans (hdenies v hv hdeny hcomputer outer)
  · obtain ⟨⟨n, hparty⟩, -⟩ := hroutes.invoked v hv
    refine (hserved v.party r hdone n v.process v.message hparty).2.imp_right fun hreached => ?_
    cases hreached with
    | inl hspoken =>
      obtain ⟨response, ⟨v', hv', hparty', outer, -, hsettled⟩, hsent⟩ := hspoken
      cases invocation_unique hroutes hv hv' hparty'
      exact hsettled.trans (hdenies v hv hdeny hcomputer outer) ▸ hsent
    | inr hrejected => exact absurd rfl (hrejected.1 v hv)

end

/-! ## Acceptances of both kinds -/

def sampleHandler : Handler Unit := ⟨(), txt "r1", txt "prototype", [txt "Notes"]⟩

def sampleTarget : List (Text × Json) := [(txt "threadId", .str (txt "t1")), (txt "serverName", .str (txt "cua_repl"))]

/-- A question for the client. -/
def sampleForm : ServerRequest :=
  ⟨.int 5, .str elicitationMethod, .obj (sampleTarget ++ [(txt "message", .str (txt "Go on?")), (txt "requestedSchema", .obj [])])⟩

/-- An approval for the policy. -/
def sampleApproval : ServerRequest :=
  ⟨.int 6, .str elicitationMethod, .obj (sampleTarget ++ [
    (txt "requestedSchema", .obj [(txt "type", .str (txt "object")), (txt "properties", .obj [])]),
    (txt "_meta", .obj [(txt "connector_id", .str (txt "computer-use")), (txt "codex_approval_kind", .str (txt "mcp_tool_call")),
      (txt "tool_name", .str (txt "get_app_state")), (txt "riskLevel", .str (txt "low")),
      (txt "tool_params", .obj [(txt "app", .str (txt "Notes"))]), (txt "persist", .arr [.str (txt "session")])])])⟩

def sampleParties : ℕ → Party (Handler Unit)
  | 0 => .call 1 ⟨.mcpServerToolCall, some (txt "t1"), some (txt "cua_repl"), some sampleHandler, true⟩
  | 9 => .serverRequest 1 0 sampleForm
  | 10 => .serverRequest 1 0 sampleApproval
  | k => .response 0 ⟨.int k, none, .obj []⟩

/-- The client accepts whatever it is asked. -/
def sampleOuter (_ : Question Unit) : OuterAnswer := .answered (.str accept) (.obj [])

def sampleSteps : List (ℕ × Answer (Outer Unit)) :=
  (startSteps ++ sampleActs 0 4 ++ sampleActs 9 15 ++ sampleActs 10 15).map fun step =>
    (step.1, ⟨step.2.opens, step.2.writes, step.2.workerStarts, step.2.late, step.2.rounds, sampleOuter⟩)

def sampleSystem : Observed (Handler Unit) ℕ (Outer Unit) := observed handleInteraction sampleParties

def replyAction : ServerReply → Option Text
  | .result response => some response.action
  | .error _ _ => none

theorem both_acceptances_are_authorised : Authorised (sampleSystem.acts sampleSteps) ∧
    (sampleSystem.acts sampleSteps).state.2.replies.map (fun y => (y.party, replyAction y.reply)) = [(10, some accept), (9, some accept)] := by
  have hmet : sampleSystem.AllMeet Sane sampleSteps := by decide +kernel
  refine ⟨accepts_are_authorised sampleParties (runs_acts_of_allMeet hmet (Runs.refl sampleSystem)), ?_⟩
  decide +kernel

end WebOauthMcp.ElicitationApproval
