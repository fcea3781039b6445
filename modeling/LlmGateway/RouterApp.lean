import LlmGateway.GatewayTools
import LlmGateway.RouterBoundary

namespace LlmGateway.Router

open Limiter
open Json (Members)
open Response (Renderable)

def isHexDigit (c : CodePoint) : Bool := asciiDigit c || between 'a' 'f' c

/-- new_request_id: a text of hexadecimal digits. -/
structure RequestId where
  text : Text
  hex : text.all isHexDigit

section Handlers

/-- _tenant_from: the key of the bucket that a request is metered in. -/
def tenantFrom (U : Unicode) (authorization : Option Text) : Text :=
  match authorization with
  | none | some [] => str "anonymous"
  | some authorization =>
    let (scheme, credential) := partition authorization (chr ' ')
    if U.lower scheme ≠ str "bearer" ∨ U.strip credential = [] then str "anonymous" else U.strip credential

def routingMembers (routed : RoutedResponse) : Members :=
  [(str "request_id", .str routed.requestId), (str "served_by", .str routed.provider),
    (str "attempts", .list (routed.attempts.map .str)), (str "tokens_charged", .int routed.tokensCharged)]

def responseBody (routed : RoutedResponse) : Members := routed.payload.set (str "_gateway") (.dict (routingMembers routed))

def retryHeaders (retryAfter : Option ℚ) : List (Text × Text) :=
  retryAfter.toList.map fun d => (str "Retry-After", Json.integerText (truncate d + 1))

def gatewayErrorHandler (exc : GatewayError) : Except Unhandled Response :=
  Response.ofJson exc.toResponse exc.statusCode (retryHeaders exc.retryAfter)

/-- _catch_all, for an exception that is no GatewayError. -/
def catchAll (exc : Exn) (freshId : RequestId) : Except Unhandled Response :=
  let error := sanitize exc freshId.text
  Response.ofJson error.toResponse error.statusCode []

variable (U : Unicode) (py : Builtins) (client : Client) (config : RouterConfig) (settings : EstimateConfig)
  (reserve : Text → Int → Except ReserveError Reservation)

/-- The POST handler with the exception handlers around it. requestId is drawn
by route_completion, freshId by an error outside of it. -/
def completions (requestId freshId : RequestId) (authorization : Option Text) (body : Bytes) : Except Unhandled Response :=
  let tenantKey := tenantFrom U authorization
  match py.json.loadsBytes body with
  | .error e =>
    if e.isValueError then gatewayErrorHandler ⟨.invalidRequest, freshId.text, none⟩ else catchAll recursionError freshId
  | .ok (.dict request) =>
    match routeCompletion py client config settings reserve tenantKey request requestId.text with
    | .error (.gatewayError e) => gatewayErrorHandler e
    | .error exc => catchAll exc freshId
    | .ok routed =>
      match Response.ofJson (.dict (responseBody routed)) 200 [] with
      | .error _ => catchAll valueError freshId
      | .ok response => .ok response
  | .ok _ => gatewayErrorHandler ⟨.invalidRequest, freshId.text, none⟩

end Handlers

section Tenants

/-- The router meters a caller under the token that the tool gateway reads in
the same header, and under one shared key where that finds none. -/
theorem tenantFrom_eq (U : Unicode) (authorization : Option Text) :
    tenantFrom U authorization = ((Gateway.parseBearer U authorization).toOption).getD (str "anonymous") := by
  cases authorization with
  | none => rfl
  | some header =>
      cases header with
      | nil => rfl
      | cons c header =>
          simp only [tenantFrom, Gateway.parseBearer]
          by_cases hscheme : U.lower (partition (c :: header) (chr ' ')).1 = str "bearer"
          · by_cases hempty : U.strip (partition (c :: header) (chr ' ')).2 = []
            · simp [hscheme, hempty, Except.toOption]
            · simp [hscheme, hempty, Except.toOption]
          · simp [hscheme, Except.toOption]

end Tenants

section Envelopes

theorem RequestId.scalar (id : RequestId) : Utf8.scalar id.text := by
  apply Utf8.scalar_of_ascii
  rw [List.all_eq_true]
  intro c hc
  have hhex := List.all_eq_true.mp id.hex c hc
  have h9 : '9'.toNat = 57 := rfl
  have hf : 'f'.toNat = 102 := rfl
  simp only [isHexDigit, asciiDigit, between, Bool.or_eq_true, Bool.and_eq_true, decide_eq_true_eq, isAscii] at hhex ⊢
  omega

/-- The client is told the kind of the error and an id, and nothing else. -/
def envelope (errorType : ErrorType) (id : RequestId) (retryAfter : Option ℚ) : Response :=
  ⟨errorType.status, retryHeaders retryAfter, .json (GatewayError.toResponse ⟨errorType, id.text, retryAfter⟩)⟩

theorem renderable_toResponse (errorType : ErrorType) (id : RequestId) (retryAfter : Option ℚ) :
    Renderable (GatewayError.toResponse ⟨errorType, id.text, retryAfter⟩) := by
  have hid := id.scalar
  constructor
  · rfl
  · cases errorType <;> simp [GatewayError.toResponse, Json.every, Json.everyMember, hid] <;> decide

theorem gatewayErrorHandler_eq (errorType : ErrorType) (id : RequestId) (retryAfter : Option ℚ) :
    gatewayErrorHandler ⟨errorType, id.text, retryAfter⟩ = .ok (envelope errorType id retryAfter) :=
  Response.ofJson_eq_ok.mpr ⟨renderable_toResponse errorType id retryAfter, rfl⟩

theorem catchAll_eq {exc : Exn} (h : ∀ e, exc ≠ .gatewayError e) (freshId : RequestId) :
    catchAll exc freshId = .ok (envelope .internalError freshId none) := by
  have hsanitize : sanitize exc freshId.text = ⟨.internalError, freshId.text, none⟩ := by
    cases exc with
    | gatewayError e => exact absurd rfl (h e)
    | providerRateLimited _ _ | providerTimeout _ _ | providerUnavailable _ _ | cancelled | other _ => rfl
  rw [catchAll, hsanitize]
  exact Response.ofJson_eq_ok.mpr ⟨renderable_toResponse .internalError freshId none, rfl⟩

end Envelopes

section Outcomes

/-- What a client may learn of how a post to a provider ended. -/
inductive Seen
  | timedOut
  | busy
  | broken
  | crashed
  | answered (parsed : Json)

variable (py : Builtins) (client : Client) (spec : ProviderSpec) (request : Members)

def seen : PostOutcome → Seen
  | .timeoutError => .timedOut
  | .httpError _ => .broken
  | .cancelled | .other _ => .crashed
  | .response response =>
    if response.statusCode = 429 then .busy
    else if 400 ≤ response.statusCode then .broken
    else
      match py.json.loadsBytes response.content with
      | .error e => if e.isValueError then .broken else .crashed
      | .ok parsed => .answered parsed

/-- What there is to see of one attempt. -/
def attempt : Seen := seen py (client spec.url (request.set (str "model") (.str spec.model)) spec.timeoutSeconds)

/-- The two outcomes after which the other provider is asked. -/
def Saturated (s : Seen) : Prop := s = .timedOut ∨ s = .busy

/-- Exceptions that are no answer of a provider. -/
def Foreign (exc : Exn) : Prop := exc = .cancelled ∨ ∃ name, exc = .other name

/-- How an attempt ends, by what there is to see of it. -/
def Ends : Seen → Except Exn ProviderResult → Prop
  | .timedOut, x => x = .error (.providerTimeout spec.name spec.timeoutSeconds)
  | .busy, x => ∃ retryAfter, x = .error (.providerRateLimited spec.name retryAfter)
  | .broken, x => ∃ detail, x = .error (.providerUnavailable spec.name detail)
  | .crashed, x => ∃ exc, Foreign exc ∧ x = .error exc
  | .answered parsed, x => x = resultOf py spec parsed

theorem callProvider_ends : Ends py spec (attempt py client spec request) (callProvider py client spec request) := by
  rw [attempt, callProvider]
  cases client spec.url (request.set (str "model") (.str spec.model)) spec.timeoutSeconds with
  | timeoutError => exact rfl
  | httpError className => exact ⟨className, rfl⟩
  | cancelled => exact ⟨_, Or.inl rfl, rfl⟩
  | other name => exact ⟨_, Or.inr ⟨name, rfl⟩, rfl⟩
  | response response =>
      simp only [seen]
      by_cases hbusy : response.statusCode = 429
      · rw [if_pos hbusy, if_pos hbusy]
        exact ⟨_, rfl⟩
      rw [if_neg hbusy, if_neg hbusy]
      by_cases hbroken : 400 ≤ response.statusCode
      · rw [if_pos hbroken, if_pos hbroken]
        exact ⟨_, rfl⟩
      rw [if_neg hbroken, if_neg hbroken]
      cases py.json.loadsBytes response.content with
      | ok parsed => exact rfl
      | error e =>
          dsimp only
          cases e.isValueError with
          | true => exact ⟨_, rfl⟩
          | false => exact ⟨_, Or.inr ⟨_, rfl⟩, rfl⟩

end Outcomes

section Interference

variable {py : Builtins} {client client' : Client} {config config' : RouterConfig} {spec spec' : ProviderSpec}
  {request : Members} {exc : Exn}

/-- The error that the boundary makes of the end of an admitted call. -/
def boundaryError (exc : Exn) (requestId : Text) : GatewayError :=
  if exc.isProviderError then asGatewayError exc requestId else sanitize exc requestId

/-- Two ends of an attempt that no client can tell apart. -/
inductive Alike : Except Exn ProviderResult → Except Exn ProviderResult → Prop
  | ok {r r' : ProviderResult} (hprovider : r.provider = r'.provider) (hpayload : r.payload = r'.payload)
      (htokens : r.totalTokens = r'.totalTokens) : Alike (.ok r) (.ok r')
  | error {exc exc' : Exn} (hover : exc.failsOver = exc'.failsOver)
      (hboundary : boundaryError exc = boundaryError exc') : Alike (.error exc) (.error exc')

theorem resultOf_alike (hname : spec.name = spec'.name) (parsed : Json) :
    Alike (resultOf py spec parsed) (resultOf py spec' parsed) := by
  cases parsed with
  | dict payload =>
      simp only [resultOf]
      split
      · split
        · exact .error rfl rfl
        · split
          · exact .error rfl rfl
          · exact .ok hname rfl rfl
      · exact .error rfl rfl
  | null | bool _ | int _ | float _ | str _ | list _ => exact .error rfl rfl

theorem foreign_boundary (h : Foreign exc) : exc.failsOver = false ∧ exc.isProviderError = false ∧
    boundaryError exc = fun id => ⟨.internalError, id, none⟩ := by
  rcases h with rfl | ⟨name, rfl⟩
  · exact ⟨rfl, rfl, rfl⟩
  · exact ⟨rfl, rfl, rfl⟩

theorem alike_of_ends {s : Seen} {x x' : Except Exn ProviderResult} (hname : spec.name = spec'.name)
    (h : Ends py spec s x) (h' : Ends py spec' s x') : Alike x x' := by
  cases s with
  | timedOut =>
      rw [h, h']
      exact .error rfl rfl
  | busy =>
      obtain ⟨d, rfl⟩ := h
      obtain ⟨d', rfl⟩ := h'
      exact .error rfl rfl
  | broken =>
      obtain ⟨t, rfl⟩ := h
      obtain ⟨t', rfl⟩ := h'
      exact .error rfl rfl
  | crashed =>
      obtain ⟨e, he, rfl⟩ := h
      obtain ⟨e', he', rfl⟩ := h'
      exact .error ((foreign_boundary he).1.trans (foreign_boundary he').1.symm) ((foreign_boundary he).2.2.trans (foreign_boundary he').2.2.symm)
  | answered parsed =>
      rw [h, h']
      exact resultOf_alike hname parsed

/-- The outcomes of both attempts look the same under two configurations. -/
structure SameView (py : Builtins) (client client' : Client) (config config' : RouterConfig) : Prop where
  primaryName : config.primary.name = config'.primary.name
  secondaryName : config.secondary.name = config'.secondary.name
  primary : ∀ request, attempt py client config.primary request = attempt py client' config'.primary request
  secondary : ∀ request, attempt py client config.secondary request = attempt py client' config'.secondary request

theorem callProvider_alike (hname : spec.name = spec'.name)
    (h : attempt py client spec request = attempt py client' spec' request) :
    Alike (callProvider py client spec request) (callProvider py client' spec' request) := by
  have hends := callProvider_ends py client spec request
  rw [h] at hends
  exact alike_of_ends hname hends (callProvider_ends py client' spec' request)

theorem callWithFailover_alike (h : SameView py client client' config config') (request : Members) :
    (callWithFailover py client config request).1 = (callWithFailover py client' config' request).1 ∧
      Alike (callWithFailover py client config request).2 (callWithFailover py client' config' request).2 := by
  have hprimary := callProvider_alike h.primaryName (h.primary request)
  have hsecondary := callProvider_alike h.secondaryName (h.secondary request)
  rw [callWithFailover, callWithFailover]
  generalize callProvider py client config.primary request = x at hprimary
  generalize callProvider py client' config'.primary request = x' at hprimary
  cases hprimary with
  | ok hprovider hpayload htokens =>
      refine ⟨?_, .ok hprovider hpayload htokens⟩
      dsimp only
      rw [h.primaryName]
  | @error exc exc' hover hboundary =>
      dsimp only
      rw [← hover, h.primaryName, h.secondaryName]
      cases exc.failsOver with
      | true => exact ⟨rfl, hsecondary⟩
      | false => exact ⟨rfl, .error hover hboundary⟩

theorem routeCompletion_eq_of_sameView (h : SameView py client client' config config') (settings : EstimateConfig)
    (reserve : Text → Int → Except ReserveError Reservation) (tenantKey : Text) (request : Members) (requestId : Text) :
    routeCompletion py client config settings reserve tenantKey request requestId =
      routeCompletion py client' config' settings reserve tenantKey request requestId := by
  obtain ⟨hattempts, halike⟩ := callWithFailover_alike h request
  rw [routeCompletion, routeCompletion]
  cases estimateTokens py settings request with
  | error exc => rfl
  | ok estimate =>
      dsimp only
      cases reserve tenantKey estimate with
      | error exc => cases exc <;> rfl
      | ok reservation =>
          dsimp only
          generalize callWithFailover py client config request = x at hattempts halike
          generalize callWithFailover py client' config' request = x' at hattempts halike
          obtain ⟨attempts, outcome⟩ := x
          obtain ⟨attempts', outcome'⟩ := x'
          obtain rfl : attempts = attempts' := hattempts
          cases halike with
          | ok hprovider hpayload htokens =>
              dsimp only
              rw [chargedFor, chargedFor, htokens, hprovider, hpayload]
          | error hover hboundary =>
              exact congrArg (fun e : GatewayError => Except.error (Exn.gatewayError e)) (congrFun hboundary requestId)

/-- No answer depends on anything of a provider but its configured name, the
kind of its failure and the JSON of its success: not on its URL, its model or
its timeout, nor on the text, the headers or the exact status of an error. -/
theorem completions_eq_of_sameView (h : SameView py client client' config config') (U : Unicode) (settings : EstimateConfig)
    (reserve : Text → Int → Except ReserveError Reservation) (requestId freshId : RequestId)
    (authorization : Option Text) (body : Bytes) :
    completions U py client config settings reserve requestId freshId authorization body =
      completions U py client' config' settings reserve requestId freshId authorization body := by
  rw [completions, completions]
  simp only [routeCompletion_eq_of_sameView h]

def remoteConfig : RouterConfig where
  primary := ⟨str "primary", str "http://10.0.0.1:8100/v1/chat/completions", str "large", 1⟩
  secondary := ⟨str "secondary", str "http://10.0.0.2:8100/v1/chat/completions", str "small", 2⟩

/-- A provider that is unavailable locally and one that has failed elsewhere. -/
theorem sameView_down : SameView (answering (.dict [])) (fun _ _ _ => .httpError (str "ConnectError"))
    (fun _ _ _ => .response ⟨503, some (str "30"), Utf8.asciiBytes (str "db-7 is down")⟩) localConfig remoteConfig :=
  ⟨rfl, rfl, fun _ => rfl, fun _ => rfl⟩

theorem completions_eq_of_sameView_down :
    completions .ascii (answering (.dict [])) (fun _ _ _ => .httpError (str "ConnectError")) localConfig ⟨4, 16⟩
      (fun tenantKey n => .ok ⟨1, tenantKey, n⟩) ⟨str "a1", rfl⟩ ⟨str "b2", rfl⟩ none [] =
    completions .ascii (answering (.dict []))
      (fun _ _ _ => .response ⟨503, some (str "30"), Utf8.asciiBytes (str "db-7 is down")⟩) remoteConfig ⟨4, 16⟩
      (fun tenantKey n => .ok ⟨1, tenantKey, n⟩) ⟨str "a1", rfl⟩ ⟨str "b2", rfl⟩ none [] :=
  completions_eq_of_sameView sameView_down .ascii ⟨4, 16⟩ _ _ _ none []

end Interference

section Answers

variable {U : Unicode} {py : Builtins} {client : Client} {config : RouterConfig} {settings : EstimateConfig}
  {reserve : Text → Int → Except ReserveError Reservation} {requestId freshId : RequestId}
  {authorization : Option Text} {body : Bytes} {request : Members} {spec : ProviderSpec} {exc : Exn} {tenantKey : Text}
  {response : Response}

theorem resultOf_error {parsed : Json} (h : resultOf py spec parsed = .error exc) : Foreign exc := by
  have hforeign {exc : Exn} (h : Builtin exc) : Foreign exc := Or.inr h
  cases parsed with
  | dict payload =>
      simp only [resultOf] at h
      split at h
      · split at h
        · next hint =>
            cases h
            exact hforeign (toInt_raises hint)
        · split at h
          · next hint =>
              cases h
              exact hforeign (toInt_raises hint)
          · cases h
      · cases h
        exact hforeign ⟨_, rfl⟩
  | null | bool _ | int _ | float _ | str _ | list _ =>
      cases h
      exact hforeign ⟨_, rfl⟩

/-- The kind of error that an exception of an attempt is reported as. -/
def reported (exc : Exn) : ErrorType :=
  match exc with
  | .providerTimeout _ _ => .upstreamTimeout
  | .providerRateLimited _ _ | .providerUnavailable _ _ => .upstreamUnavailable
  | .gatewayError _ | .cancelled | .other _ => .internalError

theorem callProvider_error (h : callProvider py client spec request = .error exc) (requestId : Text) :
    boundaryError exc requestId = ⟨reported exc, requestId, none⟩ := by
  have hends := callProvider_ends py client spec request
  rw [h] at hends
  have hforeign (hexc : Foreign exc) : boundaryError exc requestId = ⟨reported exc, requestId, none⟩ := by
    rcases hexc with rfl | ⟨name, rfl⟩ <;> rfl
  cases hs : attempt py client spec request with
  | timedOut =>
      rw [hs] at hends
      cases hends
      rfl
  | busy =>
      rw [hs] at hends
      obtain ⟨d, hd⟩ := hends
      cases hd
      rfl
  | broken =>
      rw [hs] at hends
      obtain ⟨t, ht⟩ := hends
      cases ht
      rfl
  | crashed =>
      rw [hs] at hends
      obtain ⟨e, he, heq⟩ := hends
      cases heq
      exact hforeign he
  | answered parsed =>
      rw [hs] at hends
      exact hforeign (resultOf_error hends.symm)

theorem callWithFailover_error (h : (callWithFailover py client config request).2 = .error exc) (requestId : Text) :
    boundaryError exc requestId = ⟨reported exc, requestId, none⟩ := by
  cases hprimary : callProvider py client config.primary request with
  | ok result =>
      rw [callWithFailover_ok hprimary] at h
      cases h
  | error e =>
      cases hover : e.failsOver with
      | true =>
          rw [callWithFailover_failsOver hprimary hover] at h
          exact callProvider_error h requestId
      | false =>
          rw [callWithFailover_stops hprimary hover] at h
          cases h
          exact callProvider_error hprimary requestId

/-- What route_completion raises. -/
theorem routeCompletion_error (h : routeCompletion py client config settings reserve tenantKey request requestId.text =
      .error exc) :
    (∃ errorType retryAfter, exc = .gatewayError ⟨errorType, requestId.text, retryAfter⟩ ∧
      (retryAfter.isSome ↔ errorType = .rateLimited)) ∨ Builtin exc := by
  rw [routeCompletion] at h
  split at h
  · next hestimate =>
      cases h
      exact Or.inr (estimateTokens_raises hestimate)
  · split at h
    · cases h
      exact Or.inl ⟨_, _, rfl, by simp⟩
    · cases h
      exact Or.inr ⟨_, rfl⟩
    · split at h
      · next attempts e hcall =>
          cases h
          have herror := callWithFailover_error (congrArg Prod.snd hcall) requestId.text
          rw [boundaryError] at herror
          refine Or.inl ⟨_, _, congrArg Exn.gatewayError herror, ?_⟩
          cases e <;> simp [reported]
      · dsimp only at h
        split at h
        · cases h
        · cases h
          exact Or.inr ⟨_, rfl⟩

/-- An answer of a provider with the routing data added, or an envelope. -/
inductive Delivered (py : Builtins) (client : Client) (config : RouterConfig) (settings : EstimateConfig)
    (reserve : Text → Int → Except ReserveError Reservation) (requestId freshId : RequestId) (tenantKey : Text)
    (body : Bytes) (response : Response) : Prop
  | routed (request : Members) (routed : RoutedResponse) (hload : py.json.loadsBytes body = .ok (.dict request))
      (hroute : routeCompletion py client config settings reserve tenantKey request requestId.text = .ok routed)
      (hrender : Renderable (.dict (responseBody routed)))
      (hresponse : response = ⟨200, [], .json (.dict (responseBody routed))⟩)
  | refused (errorType : ErrorType) (id : RequestId) (retryAfter : Option ℚ) (hid : id = requestId ∨ id = freshId)
      (hretry : retryAfter.isSome ↔ errorType = .rateLimited) (hresponse : response = envelope errorType id retryAfter)

/-- No exception leaves the application: every request is answered, by a
provider's payload or by one of five envelopes, of which only the rate limit's
names a time to wait. -/
theorem completions_answers (U : Unicode) (py : Builtins) (client : Client) (config : RouterConfig)
    (settings : EstimateConfig) (reserve : Text → Int → Except ReserveError Reservation)
    (requestId freshId : RequestId) (authorization : Option Text) (body : Bytes) :
    ∃ response, completions U py client config settings reserve requestId freshId authorization body = .ok response ∧
      Delivered py client config settings reserve requestId freshId (tenantFrom U authorization) body response := by
  have hbad : ∃ response, gatewayErrorHandler ⟨.invalidRequest, freshId.text, none⟩ = .ok response ∧
      Delivered py client config settings reserve requestId freshId (tenantFrom U authorization) body response :=
    ⟨_, gatewayErrorHandler_eq .invalidRequest freshId none, .refused _ freshId none (Or.inr rfl) (by simp) rfl⟩
  have hcatch {exc : Exn} (hexc : ∀ e, exc ≠ .gatewayError e) : ∃ response, catchAll exc freshId = .ok response ∧
      Delivered py client config settings reserve requestId freshId (tenantFrom U authorization) body response :=
    ⟨_, catchAll_eq hexc freshId, .refused _ freshId none (Or.inr rfl) (by simp) rfl⟩
  rw [completions]
  cases hload : py.json.loadsBytes body with
  | error e =>
      dsimp only
      split
      · exact hbad
      · exact hcatch (fun e => by simp [recursionError])
  | ok value =>
      cases value with
      | dict request =>
          dsimp only
          cases hroute : routeCompletion py client config settings reserve (tenantFrom U authorization) request
            requestId.text with
          | error exc =>
              rcases routeCompletion_error hroute with ⟨errorType, retryAfter, rfl, hretry⟩ | ⟨name, rfl⟩
              · exact ⟨_, gatewayErrorHandler_eq errorType requestId retryAfter,
                  .refused _ requestId retryAfter (Or.inl rfl) hretry rfl⟩
              · exact hcatch (fun e => by simp)
          | ok routed =>
              dsimp only
              cases hjson : Response.ofJson (.dict (responseBody routed)) 200 [] with
              | error e => exact hcatch (fun e => by simp [valueError])
              | ok response =>
                  obtain ⟨hrender, hresponse⟩ := Response.ofJson_eq_ok.mp hjson
                  exact ⟨response, rfl, .routed request routed hload hroute hrender hresponse⟩
      | null | bool _ | int _ | float _ | str _ | list _ => exact hbad

end Answers

section Status

variable {U : Unicode} {py : Builtins} {client : Client} {config : RouterConfig} {settings : EstimateConfig}
  {reserve : Text → Int → Except ReserveError Reservation} {requestId freshId : RequestId}
  {authorization : Option Text} {body : Bytes} {request : Members} {spec : ProviderSpec} {exc : Exn} {response : Response}
  {result : ProviderResult} {routed : RoutedResponse}

/-- An exception of an attempt fails over when the provider was saturated. -/
theorem failsOver_iff (h : callProvider py client spec request = .error exc) :
    exc.failsOver = true ↔ Saturated (attempt py client spec request) := by
  have hends := callProvider_ends py client spec request
  rw [h] at hends
  have hforeign (hexc : Foreign exc) : exc.failsOver = false := (foreign_boundary hexc).1
  rw [Saturated]
  cases hs : attempt py client spec request with
  | timedOut =>
      rw [hs] at hends
      cases hends
      exact iff_of_true rfl (Or.inl rfl)
  | busy =>
      rw [hs] at hends
      obtain ⟨d, hd⟩ := hends
      cases hd
      exact iff_of_true rfl (Or.inr rfl)
  | broken =>
      rw [hs] at hends
      obtain ⟨t, ht⟩ := hends
      cases ht
      exact iff_of_false (fun hover => by cases hover) (by simp)
  | crashed =>
      rw [hs] at hends
      obtain ⟨e, he, heq⟩ := hends
      cases heq
      exact iff_of_false (by rw [hforeign he]; decide) (by simp)
  | answered parsed =>
      rw [hs] at hends
      exact iff_of_false (by rw [hforeign (resultOf_error hends.symm)]; decide) (by simp)

/-- The second provider is asked when the first is saturated, and only then. -/
theorem asks_second_iff : callWithFailover py client config request = ([config.primary.name, config.secondary.name], .ok result) ↔
    Saturated (attempt py client config.primary request) ∧ callProvider py client config.secondary request = .ok result := by
  cases hprimary : callProvider py client config.primary request with
  | ok first =>
      rw [callWithFailover_ok hprimary]
      refine iff_of_false (fun h => by cases h) fun ⟨hsaturated, _⟩ => ?_
      have hends := callProvider_ends py client config.primary request
      rw [hprimary] at hends
      rcases hsaturated with hs | hs
      · rw [hs] at hends
        cases hends
      · rw [hs] at hends
        obtain ⟨d, hd⟩ := hends
        cases hd
  | error exc =>
      rw [← failsOver_iff hprimary]
      cases hover : exc.failsOver with
      | false =>
          rw [callWithFailover_stops hprimary hover]
          exact iff_of_false (fun h => by cases h) (by simp)
      | true =>
          rw [callWithFailover_failsOver hprimary hover]
          exact ⟨fun h => ⟨rfl, (Prod.mk.inj h).2⟩, fun h => by rw [h.2]⟩

/-- The body is an object whose estimate the limiter has admitted. -/
structure Admitted (U : Unicode) (py : Builtins) (settings : EstimateConfig)
    (reserve : Text → Int → Except ReserveError Reservation) (authorization : Option Text) (body : Bytes)
    (request : Members) : Prop where
  object : py.json.loadsBytes body = .ok (.dict request)
  reserved : ∃ estimate reservation, estimateTokens py settings request = .ok estimate ∧
    reserve (tenantFrom U authorization) estimate = .ok reservation

theorem completions_of_error (h : Admitted U py settings reserve authorization body request)
    (hcall : (callWithFailover py client config request).2 = .error exc) :
    completions U py client config settings reserve requestId freshId authorization body =
      .ok (envelope (reported exc) requestId none) := by
  obtain ⟨estimate, reservation, hestimate, hreserve⟩ := h.reserved
  have herror := callWithFailover_error hcall requestId.text
  have hroute : routeCompletion py client config settings reserve (tenantFrom U authorization) request requestId.text =
      .error (.gatewayError ⟨reported exc, requestId.text, none⟩) := by
    rw [routeCompletion, hestimate]
    dsimp only
    rw [hreserve]
    dsimp only
    generalize callWithFailover py client config request = x at hcall
    obtain ⟨attempts, outcome⟩ := x
    obtain rfl : outcome = .error exc := hcall
    exact congrArg (fun e : GatewayError => Except.error (Exn.gatewayError e)) herror
  rw [completions, h.object]
  dsimp only
  rw [hroute]
  exact gatewayErrorHandler_eq _ requestId none

theorem completions_of_ok (h : Admitted U py settings reserve authorization body request)
    (hcall : (callWithFailover py client config request).2 = .ok result)
    (hresponse : completions U py client config settings reserve requestId freshId authorization body = .ok response) :
    response.status = 200 ∨ response.status = 500 := by
  obtain ⟨estimate, reservation, hestimate, hreserve⟩ := h.reserved
  have hcatch {exc : Exn} (hexc : ∀ e, exc ≠ .gatewayError e) (h : catchAll exc freshId = .ok response) :
      response.status = 500 := by
    rw [catchAll_eq hexc] at h
    cases h
    rfl
  rw [completions, h.object] at hresponse
  dsimp only at hresponse
  rw [routeCompletion, hestimate] at hresponse
  dsimp only at hresponse
  rw [hreserve] at hresponse
  dsimp only at hresponse
  generalize callWithFailover py client config request = x at hcall hresponse
  obtain ⟨attempts, outcome⟩ := x
  obtain rfl : outcome = .ok result := hcall
  dsimp only at hresponse
  by_cases hstorable : isStorable (chargedFor estimate result)
  · rw [if_pos hstorable] at hresponse
    dsimp only at hresponse
    split at hresponse
    · exact Or.inr (hcatch (fun e => by simp [valueError]) hresponse)
    · next hjson =>
        cases hresponse
        obtain ⟨-, rfl⟩ := Response.ofJson_eq_ok.mp hjson
        exact Or.inl rfl
  · rw [if_neg hstorable] at hresponse
    exact Or.inr (hcatch (fun e => by simp [overflowError]) hresponse)

/-- The status by the last attempt. -/
theorem status_of_ends {s : Seen} (h : Admitted U py settings reserve authorization body request)
    (hresponse : completions U py client config settings reserve requestId freshId authorization body = .ok response)
    (hends : Ends py spec s (callWithFailover py client config request).2) :
    (response.status = 504 ↔ s = .timedOut) ∧ (response.status = 502 ↔ s = .busy ∨ s = .broken) := by
  have herror {exc : Exn} (hcall : (callWithFailover py client config request).2 = .error exc) :
      response.status = (reported exc).status := by
    rw [completions_of_error h hcall] at hresponse
    cases hresponse
    rfl
  have hforeign {exc : Exn} (hexc : Foreign exc) : (reported exc).status = 500 := by
    rcases hexc with rfl | ⟨name, rfl⟩ <;> rfl
  cases s with
  | timedOut =>
      rw [herror hends]
      simp [reported, ErrorType.status]
  | busy =>
      obtain ⟨d, hd⟩ := hends
      rw [herror hd]
      simp [reported, ErrorType.status]
  | broken =>
      obtain ⟨t, ht⟩ := hends
      rw [herror ht]
      simp [reported, ErrorType.status]
  | crashed =>
      obtain ⟨e, he, heq⟩ := hends
      rw [herror heq, hforeign he]
      simp
  | answered parsed =>
      cases hx : (callWithFailover py client config request).2 with
      | error e =>
          rw [hx] at hends
          rw [herror hx, hforeign (resultOf_error hends.symm)]
          simp
      | ok result =>
          rcases completions_of_ok h hx hresponse with hstatus | hstatus <;> rw [hstatus] <;> simp

/-- An admitted request is answered with a gateway timeout exactly when the
other provider was asked and timed out, and with a bad gateway exactly when the
last provider that was asked is the one that is busy or broken. A timeout of the
first provider alone is never reported. -/
theorem status_iff (h : Admitted U py settings reserve authorization body request)
    (hresponse : completions U py client config settings reserve requestId freshId authorization body = .ok response) :
    (response.status = 504 ↔ Saturated (attempt py client config.primary request) ∧
      attempt py client config.secondary request = .timedOut) ∧
    (response.status = 502 ↔ attempt py client config.primary request = .broken ∨
      Saturated (attempt py client config.primary request) ∧
        (attempt py client config.secondary request = .busy ∨ attempt py client config.secondary request = .broken)) := by
  have hfirst := callProvider_ends py client config.primary request
  have hsecond := callProvider_ends py client config.secondary request
  -- the first provider's exception decides whether its attempt is the last one
  have hover {exc : Exn} (hcall : callProvider py client config.primary request = .error exc) (hexc : exc.failsOver = true) :
      (response.status = 504 ↔ attempt py client config.secondary request = .timedOut) ∧
        (response.status = 502 ↔ attempt py client config.secondary request = .busy ∨
          attempt py client config.secondary request = .broken) := by
    apply status_of_ends h hresponse
    rw [callWithFailover_failsOver hcall hexc]
    exact hsecond
  have hstops (hcall : (callWithFailover py client config request).2 = callProvider py client config.primary request) :
      (response.status = 504 ↔ attempt py client config.primary request = .timedOut) ∧
        (response.status = 502 ↔ attempt py client config.primary request = .busy ∨
          attempt py client config.primary request = .broken) := by
    apply status_of_ends h hresponse
    rw [hcall]
    exact hfirst
  cases hs : attempt py client config.primary request with
  | timedOut =>
      rw [hs] at hfirst
      simpa [Saturated] using hover hfirst rfl
  | busy =>
      rw [hs] at hfirst
      obtain ⟨d, hd⟩ := hfirst
      simpa [Saturated] using hover hd rfl
  | broken =>
      rw [hs] at hfirst
      obtain ⟨t, ht⟩ := hfirst
      rw [hs] at hstops
      simpa [Saturated] using hstops (by rw [callWithFailover_stops ht rfl, ht])
  | crashed =>
      rw [hs] at hfirst
      obtain ⟨e, he, heq⟩ := hfirst
      rw [hs] at hstops
      simpa [Saturated] using hstops (by rw [callWithFailover_stops heq (foreign_boundary he).1, heq])
  | answered parsed =>
      rw [hs] at hstops
      cases hcall : callProvider py client config.primary request with
      | ok result => simpa [Saturated] using hstops (by rw [callWithFailover_ok hcall, hcall])
      | error e =>
          rw [hs, hcall] at hfirst
          have hforeign := (foreign_boundary (resultOf_error hfirst.symm)).1
          simpa [Saturated] using hstops (by rw [callWithFailover_stops hcall hforeign, hcall])

theorem admitted_empty : Admitted .ascii (answering (.dict [])) ⟨4, 16⟩ (fun tenantKey n => .ok ⟨1, tenantKey, n⟩) none [] [] :=
  ⟨rfl, _, _, rfl, rfl⟩

/-- Both providers time out. -/
theorem status_iff_timeout : ∃ response, completions .ascii (answering (.dict [])) (fun _ _ _ => .timeoutError) localConfig ⟨4, 16⟩
      (fun tenantKey n => .ok ⟨1, tenantKey, n⟩) ⟨str "a1", rfl⟩ ⟨str "b2", rfl⟩ none [] = .ok response ∧ response.status = 504 := by
  have htimeout : completions .ascii (answering (.dict [])) (fun _ _ _ => .timeoutError) localConfig ⟨4, 16⟩
      (fun tenantKey n => .ok ⟨1, tenantKey, n⟩) ⟨str "a1", rfl⟩ ⟨str "b2", rfl⟩ none [] =
      .ok (envelope .upstreamTimeout ⟨str "a1", rfl⟩ none) := by
    have hcall : (callWithFailover (answering (.dict [])) (fun _ _ _ => .timeoutError) localConfig []).2 =
      .error (.providerTimeout (str "secondary") 6) := rfl
    exact completions_of_error admitted_empty hcall
  exact ⟨_, htimeout, (status_iff admitted_empty htimeout).1.mpr ⟨Or.inl rfl, rfl⟩⟩

end Status

section Delivery

variable {U : Unicode} {py : Builtins} {client : Client} {config : RouterConfig} {settings : EstimateConfig}
  {reserve : Text → Int → Except ReserveError Reservation} {tenantKey : Text} {requestId freshId : RequestId}
  {authorization : Option Text} {body : Bytes} {request : Members} {spec : ProviderSpec} {result : ProviderResult}
  {routed : RoutedResponse}

theorem renderable_str (t : Text) : Renderable (.str t) ↔ Utf8.scalar t := by simp [Renderable, Json.every]

/-- The routing data can be rendered when the names of the providers can. -/
theorem renderable_routingMembers (hid : routed.requestId = requestId.text) (hprovider : Utf8.scalar routed.provider)
    (hattempts : ∀ name ∈ routed.attempts, Utf8.scalar name) : Renderable (.dict (routingMembers routed)) := by
  rw [Gateway.renderable_dict]
  simp only [routingMembers, List.forall_mem_cons]
  refine ⟨⟨rfl, ?_⟩, ⟨rfl, ?_⟩, ⟨rfl, ?_⟩, ⟨rfl, rfl, rfl⟩, fun m hm => absurd hm List.not_mem_nil⟩
  · rw [renderable_str, hid]
    exact requestId.scalar
  · rwa [renderable_str]
  · rw [Gateway.renderable_list, List.forall_mem_map]
    exact fun name hname => (renderable_str name).mpr (hattempts name hname)

theorem renderable_responseBody (hnodup : routed.payload.keys.Nodup) (hrouting : Renderable (.dict (routingMembers routed))) :
    Renderable (.dict (responseBody routed)) ↔ Gateway.RenderableBut (str "_gateway") routed.payload := by
  by_cases hkey : str "_gateway" ∈ routed.payload.keys
  · have hmem {m : Text × Json} := Members.mem_set_iff (m := m) (.dict (routingMembers routed)) hnodup hkey
    rw [Gateway.renderable_dict, responseBody]
    simp only [hmem]
    constructor
    · exact fun h m hm hne => h m (Or.inl ⟨hm, hne⟩)
    · rintro h m (⟨hm, hne⟩ | rfl)
      · exact h m hm hne
      · exact ⟨rfl, hrouting⟩
  · rw [Gateway.renderable_dict, responseBody, Members.set_of_not_mem _ hkey]
    have hne (m : Text × Json) (hm : m ∈ routed.payload) : m.1 ≠ str "_gateway" := fun heq =>
      hkey (List.mem_map.mpr ⟨m, hm, heq⟩)
    constructor
    · exact fun h m hm _ => h m (List.mem_append_left _ hm)
    · intro h m hm
      rcases List.mem_append.mp hm with hm | hm
      · exact h m hm (hne m hm)
      · rw [List.mem_singleton.mp hm]
        exact ⟨rfl, hrouting⟩

theorem distinct_of_loadsBytes {parsed : Json} (h : py.json.loadsBytes body = .ok parsed) : Json.Distinct parsed := by
  rw [Json.Decoder.loadsBytes] at h
  cases hparse : py.json.parseBytes body with
  | error e =>
      rw [hparse] at h
      cases h
  | ok source =>
      rw [hparse] at h
      cases h
      exact Json.distinct_resolve .last source

theorem nodup_of_resultOf {parsed : Json} (hdistinct : Json.Distinct parsed) (h : resultOf py spec parsed = .ok result) :
    result.payload.keys.Nodup ∧ result.provider = spec.name := by
  cases parsed with
  | dict payload =>
      rw [Json.Distinct] at hdistinct
      simp only [resultOf] at h
      split at h
      · split at h
        · cases h
        · split at h
          · cases h
          · cases h
            exact ⟨hdistinct.1, rfl⟩
      · cases h
  | null | bool _ | int _ | float _ | str _ | list _ => cases h

/-- The keys of a payload are distinct, as those of every dict. -/
theorem nodup_of_callProvider (h : callProvider py client spec request = .ok result) :
    result.payload.keys.Nodup ∧ result.provider = spec.name := by
  have hends := callProvider_ends py client spec request
  rw [h, attempt] at hends
  cases houtcome : client spec.url (request.set (str "model") (.str spec.model)) spec.timeoutSeconds with
  | response response =>
      rw [houtcome, seen] at hends
      split at hends
      · obtain ⟨d, hd⟩ := hends
        cases hd
      split at hends
      · obtain ⟨t, ht⟩ := hends
        cases ht
      cases hload : py.json.loadsBytes response.content with
      | ok parsed =>
          rw [hload] at hends
          exact nodup_of_resultOf (distinct_of_loadsBytes hload) hends.symm
      | error e =>
          rw [hload] at hends
          dsimp only at hends
          split at hends
          · obtain ⟨t, ht⟩ := hends
            cases ht
          · obtain ⟨exc, -, hexc⟩ := hends
            cases hexc
  | timeoutError =>
      rw [houtcome] at hends
      cases hends
  | httpError _ =>
      rw [houtcome] at hends
      obtain ⟨t, ht⟩ := hends
      cases ht
  | cancelled | other _ =>
      rw [houtcome] at hends
      obtain ⟨exc, -, hexc⟩ := hends
      cases hexc

/-- What route_completion returns is the payload of one of its two providers. -/
theorem routeCompletion_ok (hroute : routeCompletion py client config settings reserve tenantKey request requestId.text = .ok routed) :
    routed.requestId = requestId.text ∧ routed.payload.keys.Nodup ∧
      ∀ name ∈ routed.provider :: routed.attempts, name = config.primary.name ∨ name = config.secondary.name := by
  rw [routeCompletion] at hroute
  split at hroute
  · cases hroute
  split at hroute
  · cases hroute
  · cases hroute
  cases hprimary : callProvider py client config.primary request with
  | ok result =>
      rw [callWithFailover_ok hprimary] at hroute
      dsimp only at hroute
      split at hroute
      · cases hroute
        obtain ⟨hnodup, hname⟩ := nodup_of_callProvider hprimary
        exact ⟨rfl, hnodup, by simp [hname]⟩
      · cases hroute
  | error exc =>
      cases hover : exc.failsOver with
      | false =>
          rw [callWithFailover_stops hprimary hover] at hroute
          cases hroute
      | true =>
          rw [callWithFailover_failsOver hprimary hover] at hroute
          cases hsecondary : callProvider py client config.secondary request with
          | error exc' =>
              rw [hsecondary] at hroute
              cases hroute
          | ok result =>
              rw [hsecondary] at hroute
              dsimp only at hroute
              split at hroute
              · cases hroute
                obtain ⟨hnodup, hname⟩ := nodup_of_callProvider hsecondary
                exact ⟨rfl, hnodup, by simp [hname]⟩
              · cases hroute

/-- A completion that has been charged is delivered exactly when all that the
provider has sent, but for a _gateway of its own, can be rendered. Otherwise its
tenant has paid for an internal error. -/
theorem charged_delivered_iff (hprimary : Utf8.scalar config.primary.name) (hsecondary : Utf8.scalar config.secondary.name)
    (hload : py.json.loadsBytes body = .ok (.dict request))
    (hroute : routeCompletion py client config settings reserve (tenantFrom U authorization) request requestId.text = .ok routed) :
    (Gateway.RenderableBut (str "_gateway") routed.payload →
      completions U py client config settings reserve requestId freshId authorization body =
        .ok ⟨200, [], .json (.dict (responseBody routed))⟩) ∧
    (¬ Gateway.RenderableBut (str "_gateway") routed.payload →
      completions U py client config settings reserve requestId freshId authorization body =
        .ok (envelope .internalError freshId none)) := by
  obtain ⟨hid, hnodup, hnames⟩ := routeCompletion_ok hroute
  have hscalar (name : Text) (hname : name ∈ routed.provider :: routed.attempts) : Utf8.scalar name := by
    rcases hnames name hname with rfl | rfl
    · exact hprimary
    · exact hsecondary
  have hrouting : Renderable (.dict (routingMembers routed)) :=
    renderable_routingMembers hid (hscalar _ List.mem_cons_self) fun name hname => hscalar name (List.mem_cons_of_mem _ hname)
  have hbody := renderable_responseBody hnodup hrouting
  rw [completions, hload]
  dsimp only
  rw [hroute]
  dsimp only
  constructor
  · intro hbut
    rw [Response.ofJson_eq_ok.mpr ⟨hbody.mpr hbut, rfl⟩]
  · intro hbut
    cases hjson : Response.ofJson (.dict (responseBody routed)) 200 [] with
    | ok response => exact absurd (hbody.mp (Response.ofJson_eq_ok.mp hjson).1) hbut
    | error e => exact catchAll_eq (fun e => by simp [valueError]) freshId

/-- An answer of which one number is NaN. -/
def nanAnswer : Members := [(str "score", .float ⟨str "NaN", rfl⟩), (str "usage", .dict [(str "prompt_tokens", .int 70)])]

/-- The 70 tokens of this answer are charged, and its tenant gets an error. -/
theorem charged_delivered_iff_nan :
    completions .ascii (answering (.dict nanAnswer)) (fun _ _ _ => .response ⟨200, none, []⟩) localConfig ⟨4, 16⟩
      (fun tenantKey n => .ok ⟨1, tenantKey, n⟩) ⟨str "a1", rfl⟩ ⟨str "b2", rfl⟩ none [] =
    .ok (envelope .internalError ⟨str "b2", rfl⟩ none) := by
  have hload : (answering (.dict nanAnswer)).json.loadsBytes [] = .ok (.dict nanAnswer) := by rfl
  have hroute : routeCompletion (answering (.dict nanAnswer)) (fun _ _ _ => .response ⟨200, none, []⟩) localConfig ⟨4, 16⟩
      (fun tenantKey n => .ok ⟨1, tenantKey, n⟩) (tenantFrom .ascii none) nanAnswer (str "a1") =
      .ok ⟨nanAnswer, str "primary", [str "primary"], 70, str "a1"⟩ := by rfl
  refine (@charged_delivered_iff _ _ _ _ _ _ ⟨str "a1", rfl⟩ _ none _ _ _ (by decide) (by decide) hload hroute).2 fun hbut => ?_
  have hnan := (hbut (str "score", .float ⟨str "NaN", rfl⟩) List.mem_cons_self (by decide)).2.1
  exact absurd hnan (by decide)

end Delivery

end LlmGateway.Router
