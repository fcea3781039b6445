import LlmGateway.GatewayForward

namespace LlmGateway.Gateway

open Json (Members dumps defaultSeparators)
open Response (Renderable)

variable {rt : Runtime} {config : GatewayConfig} {downstream : Post → Except TransportError Upstream}
variable {header : Option Text} {body : Bytes} {principal : Principal} {payload : Members} {method : Text}

section Errors

/-- A JSON-RPC error for the request with the id. -/
structure IsError (id : Json) (code : Int) (response : Response) : Prop where
  status : response.status = 200
  answers : ∃ members error : Members, response.content = .json (.dict members) ∧
    members.get? (str "id") = some id ∧ members.get? (str "error") = some (.dict error) ∧
    error.get? (str "code") = some (.int code)

/-- An id that survives the typed model and that can be rendered. -/
def Echoes (rt : Runtime) (id : Json) : Prop := rt.validateId id = some id ∧ Renderable id

def errorMembers (id : Json) (code : Int) (message : Text) (data : Option Json) : Members :=
  [(str "jsonrpc", .str (str "2.0")), (str "id", id),
    (str "error", .dict ([(str "code", .int code), (str "message", .str message)] ++
      data.toList.map fun d => (str "data", d)))]

theorem renderable_errorMembers {id : Json} {code : Int} {message : Text} {data : Option Json}
    (hmessage : Utf8.scalar message) :
    Renderable (.dict (errorMembers id code message data)) ↔ Renderable id ∧ ∀ d ∈ data, Renderable d := by
  have hjsonrpc : Utf8.scalar (str "jsonrpc") = true := by decide
  have hversion : Utf8.scalar (str "2.0") = true := by decide
  have hid : Utf8.scalar (str "id") = true := by decide
  have herror : Utf8.scalar (str "error") = true := by decide
  have hcode : Utf8.scalar (str "code") = true := by decide
  have hname : Utf8.scalar (str "message") = true := by decide
  have hdata : Utf8.scalar (str "data") = true := by decide
  cases data with
  | none =>
      simp [errorMembers, Renderable, Json.every, Json.everyMember, hmessage, hjsonrpc, hversion, hid, herror, hcode, hname]
  | some d =>
      simp [errorMembers, Renderable, Json.every, Json.everyMember, hmessage, hjsonrpc, hversion, hid, herror, hcode,
        hname, hdata]
      tauto

theorem get?_errorMembers (id : Json) (code : Int) (message : Text) (data : Option Json) :
    Members.get? (errorMembers id code message data) (str "id") = some id ∧
      ∃ error : Members, Members.get? (errorMembers id code message data) (str "error") = some (.dict error) ∧
        error.get? (str "code") = some (.int code) := ⟨rfl, _, rfl, rfl⟩

theorem rpcError_eq {id : Json} {code : Int} {message : Text} {data : Option Json} :
    rpcError rt id code message data =
      match rt.validateId id with
      | none => .error .validationError
      | some id' => Response.ofJson (.dict (errorMembers id' code message data)) 200 [] := by
  rw [rpcError, JsonRpc.errorResponse]
  cases rt.validateId id <;> rfl

theorem rpcError_of_echoes {id : Json} {message : Text} {data : Option Json} (code : Int) (hmessage : Utf8.scalar message)
    (hid : Echoes rt id) (hdata : ∀ d ∈ data, Renderable d) :
    ∃ response, rpcError rt id code message data = .ok response ∧ IsError id code response := by
  obtain ⟨hget, error, herror, hcode⟩ := get?_errorMembers id code message data
  refine ⟨⟨200, [], .json (.dict (errorMembers id code message data))⟩, ?_, rfl, _, error, rfl, hget, herror, hcode⟩
  rw [rpcError_eq, hid.1]
  exact Response.ofJson_eq_ok.mpr ⟨(renderable_errorMembers hmessage).mpr ⟨hid.2, hdata⟩, rfl⟩

theorem rpcError_ne_noContent {id : Json} {code : Int} {message : Text} {data : Option Json} :
    rpcError rt id code message data ≠ .ok Response.noContent := by
  intro h
  rw [rpcError_eq] at h
  cases hid : rt.validateId id with
  | none =>
      rw [hid] at h
      cases h
  | some id' =>
      rw [hid] at h
      obtain ⟨-, hresponse⟩ := Response.ofJson_eq_ok.mp h
      cases hresponse

/-- A local error has the id of its request exactly when the id echoes. -/
theorem rpcError_isError_iff {id : Json} {code : Int} {message : Text} {data : Option Json}
    (hmessage : Utf8.scalar message) :
    (∃ code' response, rpcError rt id code message data = .ok response ∧ IsError id code' response) ↔
      Echoes rt id ∧ ∀ d ∈ data, Renderable d := by
  constructor
  · rintro ⟨code', response, hresponse, herror⟩
    rw [rpcError_eq] at hresponse
    cases hid : rt.validateId id with
    | none =>
        rw [hid] at hresponse
        cases hresponse
    | some id' =>
        rw [hid] at hresponse
        obtain ⟨hrender, rfl⟩ := Response.ofJson_eq_ok.mp hresponse
        obtain ⟨members, error, hcontent, hmem, -⟩ := herror.answers
        cases hcontent
        obtain rfl : id' = id := Option.some.inj ((get?_errorMembers id' code message data).1.symm.trans hmem)
        have h := (renderable_errorMembers hmessage).mp hrender
        exact ⟨⟨hid, h.1⟩, h.2⟩
  · rintro ⟨hid, hdata⟩
    exact ⟨code, rpcError_of_echoes code hmessage hid hdata⟩

end Errors

section Relay

/-- A list of tools to be filtered is one that can be read, and rendered
afterwards. -/
def Relayable (rt : Runtime) (config : GatewayConfig) (upstream : Upstream) (principal : Principal) (method : Text) :
    Prop :=
  config.filterToolList = true → method = str "tools/list" →
    match rt.json.loadsBytes upstream.content with
    | .error e => e.isValueError
    | .ok (.dict members) =>
      match (Members.get? members (str "result")).getD (.dict []) with
      | .dict result => ∀ tools, (Members.get? result (str "tools")).getD .null = .list tools →
          Renderable (withTools (.dict members) (visibleTools tools principal))
      | _ => False
    | .ok _ => True

theorem ofJson_ok_iff {value : Json} {status : Int} {headers : List (Text × Text)} :
    (∃ response, Response.ofJson value status headers = .ok response) ↔ Renderable value := by
  constructor
  · rintro ⟨response, h⟩
    exact (Response.ofJson_eq_ok.mp h).1
  · intro h
    exact ⟨_, Response.ofJson_eq_ok.mpr ⟨h, rfl⟩⟩

theorem relay_ok_iff {upstream : Upstream} :
    (∃ response, relay rt config upstream principal method = .ok response) ↔
      Relayable rt config upstream principal method := by
  by_cases hfilter : config.filterToolList = true ∧ method = str "tools/list"
  · simp only [relay, Relayable, hfilter.1, hfilter.2, forall_const]
    cases rt.json.loadsBytes upstream.content with
    | error e => cases h : e.isValueError <;> simp [h]
    | ok body =>
        cases body with
        | dict members =>
            simp only [toolsOf]
            cases (Members.get? members (str "result")).getD (.dict []) with
            | dict result =>
                simp only
                cases (Members.get? result (str "tools")).getD .null with
                | list tools => simp [ofJson_ok_iff]
                | _ => simp
            | _ => simp
        | _ => simp [toolsOf]
  · have hcond : (!(config.filterToolList && method = str "tools/list")) = true := by
      rw [Bool.not_eq_true', Bool.and_eq_false_iff]
      by_cases hon : config.filterToolList = true
      · exact Or.inr (decide_eq_false fun hm => hfilter ⟨hon, hm⟩)
      · exact Or.inl (Bool.not_eq_true _ ▸ hon)
    rw [relay, if_pos hcond]
    exact iff_of_true ⟨_, rfl⟩ fun hon hm => absurd ⟨hon, hm⟩ hfilter

end Relay

section Objects

def requestId (payload : Members) : Json := (payload.get? (str "id")).getD .null

/-- The gateway has an answer of the downstream to relay. -/
def Forwards (config : GatewayConfig) (downstream : Post → Except TransportError Upstream) (principal : Principal)
    (payload : Members) : Prop :=
  ∃ method content upstream, payload.get? (str "method") = some (.str method) ∧
    decide principal method ((payload.get? (str "params")).getD .null) = .allow ∧
    Utf8.encode (dumps defaultSeparators (.dict payload)) = some content ∧
    downstream (postOf config content) = .ok upstream

/-- How an object is to be answered. -/
structure Correlated (config : GatewayConfig) (downstream : Post → Except TransportError Upstream)
    (principal : Principal) (payload : Members) (result : Except Unhandled Response) : Prop where
  handled : ∃ response, result = .ok response
  notification : JsonRpc.isNotification payload → result = .ok Response.noContent
  request : ¬ JsonRpc.isNotification payload → ¬ Forwards config downstream principal payload →
    ∃ code response, result = .ok response ∧ IsError (requestId payload) code response

/-- The objects that the gateway answers so. -/
def Answerable (rt : Runtime) (config : GatewayConfig) (downstream : Post → Except TransportError Upstream)
    (principal : Principal) (payload : Members) : Prop :=
  match payload.get? (str "method") with
  | some (.str method) =>
    match decide principal method ((payload.get? (str "params")).getD .null) with
    | .deny _ _ data => JsonRpc.isNotification payload ∨ Echoes rt (requestId payload) ∧ ∀ d ∈ data, Renderable d
    | .allow =>
      ∀ content, Utf8.encode (dumps defaultSeparators (.dict payload)) = some content →
        match downstream (postOf config content) with
        | .error .other => False
        | .error .httpError => JsonRpc.isNotification payload ∨ Echoes rt (requestId payload)
        | .ok upstream => JsonRpc.isNotification payload ∨ Relayable rt config upstream principal method
  | _ => ¬ JsonRpc.isNotification payload ∧ Echoes rt (requestId payload)

variable {code : Int} {message : Text} {data : Option Json} {result : Except Unhandled Response}

/-- A local answer, with the notification check in front of it. -/
theorem correlated_local_iff (hmessage : Utf8.scalar message) (hlocal : ¬ Forwards config downstream principal payload)
    (hresult : result = if JsonRpc.isNotification payload then .ok Response.noContent
      else rpcError rt (requestId payload) code message data) :
    Correlated config downstream principal payload result ↔
      JsonRpc.isNotification payload ∨ Echoes rt (requestId payload) ∧ ∀ d ∈ data, Renderable d := by
  by_cases hn : JsonRpc.isNotification payload
  · rw [if_pos hn] at hresult
    apply iff_of_true _ (Or.inl hn)
    exact ⟨⟨_, hresult⟩, fun _ => hresult, fun h => absurd hn h⟩
  · rw [if_neg hn] at hresult
    rw [hresult, or_iff_right hn, ← rpcError_isError_iff hmessage]
    constructor
    · intro h
      exact h.request hn hlocal
    · rintro ⟨code', response, h, herror⟩
      exact ⟨⟨response, h⟩, fun h' => absurd h' hn, fun _ _ => ⟨code', response, h, herror⟩⟩

/-- A local answer without the check is wrong for every notification. -/
theorem correlated_unchecked_iff (hmessage : Utf8.scalar message)
    (hlocal : ¬ Forwards config downstream principal payload)
    (hresult : result = rpcError rt (requestId payload) code message none) :
    Correlated config downstream principal payload result ↔
      ¬ JsonRpc.isNotification payload ∧ Echoes rt (requestId payload) := by
  by_cases hn : JsonRpc.isNotification payload
  · apply iff_of_false
    · intro h
      exact rpcError_ne_noContent (hresult.symm.trans (h.notification hn))
    · exact fun h => h.1 hn
  · have h := correlated_local_iff hmessage hlocal (hresult.trans (if_neg hn).symm)
    rw [h, or_iff_right hn]
    exact ⟨fun h => ⟨hn, h.1⟩, fun h => ⟨h.2, fun d hd => by cases hd⟩⟩

theorem correlated_forwarded_iff {upstream : Upstream} (hforwards : Forwards config downstream principal payload)
    (hresult : result = if JsonRpc.isNotification payload then .ok Response.noContent
      else relay rt config upstream principal method) :
    Correlated config downstream principal payload result ↔
      JsonRpc.isNotification payload ∨ Relayable rt config upstream principal method := by
  by_cases hn : JsonRpc.isNotification payload
  · rw [if_pos hn] at hresult
    apply iff_of_true _ (Or.inl hn)
    exact ⟨⟨_, hresult⟩, fun _ => hresult, fun h => absurd hn h⟩
  · rw [if_neg hn] at hresult
    rw [or_iff_right hn, ← relay_ok_iff, ← hresult]
    constructor
    · exact fun h => h.handled
    · intro h
      exact ⟨h, fun h' => absurd h' hn, fun _ h' => absurd hforwards h'⟩

theorem scalar_of_deny {params : Json} (h : decide principal method params = .deny code message data) :
    Utf8.scalar message := by
  unfold decide at h
  split at h
  · cases h
  · split at h
    · split at h
      · cases h; rfl
      · split at h <;> cases h; rfl
      · cases h; rfl
    · cases h; rfl

theorem forward_result {content : Bytes} (h : Utf8.encode (dumps defaultSeparators (.dict payload)) = some content) :
    (forward rt config downstream principal payload method).result =
      match downstream (postOf config content) with
      | .error .other => .error .transport
      | .error .httpError =>
        if JsonRpc.isNotification payload then .ok Response.noContent
        else rpcError rt (requestId payload) JsonRpc.internalError (str "Downstream MCP server is unreachable") none
      | .ok upstream =>
        if JsonRpc.isNotification payload then .ok Response.noContent
        else relay rt config upstream principal method := by
  rw [forward, h]
  rfl

theorem classify_denied (h : decide principal method ((payload.get? (str "params")).getD .null) = .deny code message data) :
    (classify rt config downstream principal payload method).result =
      if JsonRpc.isNotification payload then .ok Response.noContent
      else rpcError rt (requestId payload) code message data := by
  rw [classify, h]
  cases JsonRpc.isNotification payload <;> rfl

/-- What follows the check of the method. -/
theorem correlated_classify_iff (hmethod : payload.get? (str "method") = some (.str method)) :
    Correlated config downstream principal payload (classify rt config downstream principal payload method).result ↔
      Answerable rt config downstream principal payload := by
  simp only [Answerable, hmethod]
  cases hdecide : decide principal method ((payload.get? (str "params")).getD .null) with
  | deny code message data =>
      have hlocal : ¬ Forwards config downstream principal payload := by
        rintro ⟨method', content, upstream, hmethod', hallow, -⟩
        rw [hmethod] at hmethod'
        cases hmethod'
        rw [hdecide] at hallow
        cases hallow
      exact correlated_local_iff (scalar_of_deny hdecide) hlocal (classify_denied hdecide)
  | allow =>
      rw [classify, hdecide]
      dsimp only
      obtain ⟨content, hcontent, -⟩ := forward_posts rt config downstream principal payload method
      have hforward : (forward rt config downstream principal payload method).result = _ := forward_result hcontent
      have hlocal (e : TransportError) (he : downstream (postOf config content) = .error e) :
          ¬ Forwards config downstream principal payload := by
        rintro ⟨method', content', upstream, -, -, hcontent', hpost⟩
        cases hcontent.symm.trans hcontent'
        rw [he] at hpost
        cases hpost
      simp only [hcontent, Option.some.injEq, forall_eq']
      cases hpost : downstream (postOf config content) with
      | error e =>
          cases e with
          | other =>
              apply iff_of_false _ id
              intro h
              obtain ⟨response, hresponse⟩ := h.handled
              rw [hforward, hpost] at hresponse
              cases hresponse
          | httpError =>
              have hmessage : Utf8.scalar (str "Downstream MCP server is unreachable") = true := by decide
              rw [hpost] at hforward
              rw [correlated_local_iff hmessage (hlocal _ hpost) hforward]
              simp
      | ok upstream =>
          apply correlated_forwarded_iff ⟨method, content, upstream, hmethod, hdecide, hcontent, hpost⟩
          rw [hforward, hpost]

theorem correlated_invalid_iff (hmethod : ∀ method, payload.get? (str "method") ≠ some (.str method)) :
    Correlated config downstream principal payload
        (rpcError rt (requestId payload) JsonRpc.invalidRequest (str "Invalid Request") none) ↔
      Answerable rt config downstream principal payload := by
  have hlocal : ¬ Forwards config downstream principal payload := by
    rintro ⟨method, content, upstream, hmethod', -⟩
    exact hmethod method hmethod'
  rw [correlated_unchecked_iff (by decide) hlocal rfl, Answerable]
  split
  · next method h => exact absurd h (hmethod method)
  · exact Iff.rfl

end Objects

section Bodies

/-- How a body is to be answered. -/
def Correlates (rt : Runtime) (config : GatewayConfig) (downstream : Post → Except TransportError Upstream)
    (principal : Principal) (body : Bytes) (result : Except Unhandled Response) : Prop :=
  match rt.json.loadsBytes body with
  | .error _ => ∃ response, result = .ok response ∧ IsError .null JsonRpc.parseError response
  | .ok (.dict payload) => Correlated config downstream principal payload result
  | .ok _ => ∃ response, result = .ok response

def AnswerableBody (rt : Runtime) (config : GatewayConfig) (downstream : Post → Except TransportError Upstream)
    (principal : Principal) (body : Bytes) : Prop :=
  match rt.json.loadsBytes body with
  | .error e => e = .jsonDecodeError
  | .ok (.dict payload) => Answerable rt config downstream principal payload
  | .ok _ => True

/-- The gateway answers as JSON-RPC asks for exactly when the body is one that
it can answer so. -/
theorem correlates_iff (rt : Runtime) (config : GatewayConfig) (downstream : Post → Except TransportError Upstream)
    (header : Option Text) (body : Bytes) (principal : Principal)
    (hauth : authenticate rt.unicode header config.tokens = .ok principal) (hnull : rt.validateId .null = some .null) :
    Correlates rt config downstream principal body (proxy rt config downstream header body).result ↔
      AnswerableBody rt config downstream principal body := by
  have hlocal (code : Int) (message : Text) (hmessage : Utf8.scalar message) :
      ∃ response, rpcError rt .null code message none = .ok response ∧ IsError .null code response :=
    rpcError_of_echoes code hmessage ⟨hnull, rfl, rfl⟩ fun d hd => by cases hd
  rw [Correlates, AnswerableBody, proxy, hauth]
  cases hload : rt.json.loadsBytes body with
  | error e =>
      cases e with
      | jsonDecodeError => exact iff_of_true (hlocal JsonRpc.parseError (str "Parse error") (by decide)) rfl
      | _ =>
          apply iff_of_false
          · rintro ⟨response, hresponse, -⟩
            cases hresponse
          · intro h
            cases h
  | ok value =>
      cases value with
      | dict payload =>
          dsimp only
          cases hmethod : Members.get? payload (str "method") with
          | none =>
              apply correlated_invalid_iff
              intro method h
              rw [hmethod] at h
              cases h
          | some v =>
              cases v with
              | str method => exact correlated_classify_iff hmethod
              | _ =>
                  apply correlated_invalid_iff
                  intro method h
                  rw [hmethod] at h
                  cases h
      | list items =>
          obtain ⟨response, hresponse, -⟩ := hlocal JsonRpc.invalidRequest
            (str "Batch requests are not supported by this gateway") (by decide)
          exact iff_of_true ⟨response, hresponse⟩ trivial
      | _ =>
          obtain ⟨response, hresponse, -⟩ := hlocal JsonRpc.invalidRequest (str "Invalid Request") (by decide)
          exact iff_of_true ⟨response, hresponse⟩ trivial

/-- What pydantic makes of an id: a bool becomes an int. -/
def typedId : Json → Option Json
  | .null => some .null
  | .bool b => some (.int (if b then 1 else 0))
  | .int n => some (.int n)
  | .float repr => some (.float repr)
  | .str s => some (.str s)
  | .list _ | .dict _ => none

def adminCall : Members :=
  [(str "id", .int 7), (str "method", .str (str "tools/call")), (str "params", .dict [(str "name", .str (str "admin_x"))])]

def listId : Members := [(str "id", .list [.int 1])]

def typedRuntime : Runtime where
  unicode := .ascii
  repr t := t
  validateId := typedId
  json :=
    { parse := fun _ => .error .jsonDecodeError
      parseBytes := fun x =>
        if x = [Utf8.byteOf 255] then .error .unicodeDecodeError
        else if x = written (.dict adminCall) then .ok (.dict adminCall)
        else if x = written (.dict listId) then .ok (.dict listId)
        else if x = written (.dict []) then .ok (.dict [])
        else .error .jsonDecodeError
      integral := fun _ => none }

/-- What a viewer is answered while the downstream is down. -/
def viewerResult (body : Bytes) : Except Unhandled Response :=
  (proxy typedRuntime viewerConfig (fun _ => .error .httpError) (some (str "bearer tok_viewer")) body).result

theorem correlates_denied : Correlates typedRuntime viewerConfig (fun _ => .error .httpError)
    ⟨str "tok_viewer", str "viewer"⟩ (written (.dict adminCall)) (viewerResult (written (.dict adminCall))) := by
  apply (correlates_iff typedRuntime viewerConfig (fun _ => .error .httpError) (some (str "bearer tok_viewer"))
    (written (.dict adminCall)) ⟨str "tok_viewer", str "viewer"⟩ rfl rfl).mpr
  have hload : typedRuntime.json.loadsBytes (written (.dict adminCall)) = .ok (.dict adminCall) := by rfl
  rw [AnswerableBody, hload]
  refine Or.inr ⟨⟨rfl, rfl, rfl⟩, fun d hd => ?_⟩
  cases hd
  exact ⟨rfl, rfl⟩

/-- A body that is no UTF-8 and an id that is a list are not answered at all,
and an object without id and method is answered with an error. -/
theorem uncorrelated :
    ¬ Correlates typedRuntime viewerConfig (fun _ => .error .httpError) ⟨str "tok_viewer", str "viewer"⟩
        [Utf8.byteOf 255] (viewerResult [Utf8.byteOf 255]) ∧
      ¬ Correlates typedRuntime viewerConfig (fun _ => .error .httpError) ⟨str "tok_viewer", str "viewer"⟩
        (written (.dict listId)) (viewerResult (written (.dict listId))) ∧
      ¬ Correlates typedRuntime viewerConfig (fun _ => .error .httpError) ⟨str "tok_viewer", str "viewer"⟩
        (written (.dict [])) (viewerResult (written (.dict []))) := by
  refine ⟨?_, ?_, ?_⟩
  · rintro ⟨response, h, -⟩
    cases h
  · intro h
    obtain ⟨response, h⟩ := Correlated.handled h
    cases h
  · intro h
    have hanswer := Correlated.notification h rfl
    cases hanswer

end Bodies

end LlmGateway.Gateway
