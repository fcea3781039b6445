import LlmGateway.RouterRequest

namespace LlmGateway.Router

open Limiter
open Json (Members)

section Provider

structure ProviderResponse where
  statusCode : Int
  retryAfter : Option Text
  content : Bytes

/-- How the await of client.post ends, an HTTPError with the name of its class. -/
inductive PostOutcome
  | response (r : ProviderResponse)
  | timeoutError
  | httpError (className : Text)
  | cancelled
  | other (name : Text)

/-- client.post(url, json=payload) within a number of seconds. -/
abbrev Client := Text → Members → ℚ → PostOutcome

variable (py : Builtins)

/-- The provider's usage, which need not be what it should. -/
def resultOf (spec : ProviderSpec) (parsed : Json) : Except Exn ProviderResult :=
  match parsed with
  | .dict payload =>
    let usage := (Members.get? payload (str "usage")).getD .null
    match if truthy py usage then usage else .dict [] with
    | .dict usage =>
      match toInt py ((Members.get? usage (str "prompt_tokens")).getD (.int 0)) with
      | .error e => .error e
      | .ok promptTokens =>
        match toInt py ((Members.get? usage (str "completion_tokens")).getD (.int 0)) with
        | .error e => .error e
        | .ok completionTokens => .ok ⟨spec.name, spec.model, payload, promptTokens, completionTokens⟩
    | _ => .error attributeError
  | _ => .error attributeError

def callProvider (client : Client) (spec : ProviderSpec) (body : Members) : Except Exn ProviderResult :=
  match client spec.url (body.set (str "model") (.str spec.model)) spec.timeoutSeconds with
  | .timeoutError => .error (.providerTimeout spec.name spec.timeoutSeconds)
  | .httpError className => .error (.providerUnavailable spec.name className)
  | .cancelled => .error .cancelled
  | .other name => .error (.other name)
  | .response response =>
    if response.statusCode = 429 then
      .error (.providerRateLimited spec.name (response.retryAfter.bind py.floatOfText))
    else if 400 ≤ response.statusCode then
      .error (.providerUnavailable spec.name (str "HTTP " ++ Json.integerText response.statusCode))
    else
      match py.json.loadsBytes response.content with
      | .error e =>
        .error (if e.isValueError then .providerUnavailable spec.name (str "response was not JSON") else recursionError)
      | .ok parsed => resultOf py spec parsed

/-- _call_with_failover, with the providers that it has tried. -/
def callWithFailover (client : Client) (config : RouterConfig) (request : Members) :
    List Text × Except Exn ProviderResult :=
  match callProvider py client config.primary request with
  | .ok result => ([config.primary.name], .ok result)
  | .error exc =>
    if exc.failsOver then
      ([config.primary.name, config.secondary.name], callProvider py client config.secondary request)
    else ([config.primary.name], .error exc)

variable {py} {client : Client} {config : RouterConfig} {request : Members} {exc : Exn}

theorem callWithFailover_ok {result : ProviderResult} (h : callProvider py client config.primary request = .ok result) :
    callWithFailover py client config request = ([config.primary.name], .ok result) := by
  rw [callWithFailover, h]

theorem callWithFailover_stops (h : callProvider py client config.primary request = .error exc)
    (hover : exc.failsOver = false) :
    callWithFailover py client config request = ([config.primary.name], .error exc) := by
  rw [callWithFailover, h]
  simp only [hover, Bool.false_eq_true, if_false]

theorem callWithFailover_failsOver (h : callProvider py client config.primary request = .error exc)
    (hover : exc.failsOver = true) :
    callWithFailover py client config request =
      ([config.primary.name, config.secondary.name], callProvider py client config.secondary request) := by
  rw [callWithFailover, h]
  simp only [hover, if_true]

end Provider

section Boundary

/-- result.total_tokens or estimate -/
def chargedFor (estimate : Int) (result : ProviderResult) : Int :=
  if result.totalTokens = 0 then estimate else result.totalTokens

variable (py : Builtins) (client : Client) (config : RouterConfig) (settings : EstimateConfig)
  (reserve : Text → Int → Except ReserveError Reservation)

/-- A call that no one cancels, with the answers of the limiter to its reserve.
A reconcile that fails raises OverflowError before it reaches the table. -/
def routeCompletion (tenantKey : Text) (request : Members) (requestId : Text) : Except Exn RoutedResponse :=
  match estimateTokens py settings request with
  | .error exc => .error exc
  | .ok estimate =>
    match reserve tenantKey estimate with
    | .error (.rateLimitExceeded exc) => .error (.gatewayError ⟨.rateLimited, requestId, some exc.retryAfter⟩)
    | .error (.database e) => .error (.ofDatabase e)
    | .ok _ =>
      match callWithFailover py client config request with
      | (_, .error exc) =>
        .error (.gatewayError (if exc.isProviderError then asGatewayError exc requestId else sanitize exc requestId))
      | (attempts, .ok result) =>
        let charged := chargedFor estimate result
        if isStorable charged then .ok ⟨result.payload, result.provider, attempts, charged, requestId⟩
        else .error overflowError

/-- What raises is a GatewayError. -/
def Contained (x : Except Exn RoutedResponse) : Prop := ∀ exc, x = .error exc → ∃ e, exc = .gatewayError e

/-- The limiter admits the call or raises RateLimitExceeded. -/
def LimiterAnswers (tenantKey : Text) (request : Members) : Prop :=
  ∀ estimate e, estimateTokens py settings request = .ok estimate → reserve tenantKey estimate ≠ .error (.database e)

/-- What an admitted call is charged in the end can be stored. -/
def ChargeStorable (tenantKey : Text) (request : Members) : Prop :=
  ∀ estimate reservation result, estimateTokens py settings request = .ok estimate →
    reserve tenantKey estimate = .ok reservation → (callWithFailover py client config request).2 = .ok result →
    isStorable (chargedFor estimate result)

variable {py client config settings reserve} {tenantKey requestId : Text} {request : Members}

theorem contained_ok (response : RoutedResponse) : Contained (.ok response) := by
  intro exc h
  cases h

theorem contained_gatewayError (e : GatewayError) : Contained (.error (.gatewayError e)) := by
  intro exc h
  cases h
  exact ⟨e, rfl⟩

theorem not_contained {exc : Exn} (h : Builtin exc) : ¬ Contained (.error exc) := by
  intro hc
  obtain ⟨e, he⟩ := hc exc rfl
  obtain ⟨name, rfl⟩ := h
  cases he

/-- Only GatewayErrors leave route_completion exactly when the request is one
that estimate_tokens can take, the limiter gives one of its two answers and the
final charge can be stored. -/
theorem contained_iff : Contained (routeCompletion py client config settings reserve tenantKey request requestId) ↔
    Estimable py settings request ∧ LimiterAnswers py settings reserve tenantKey request ∧
      ChargeStorable py client config settings reserve tenantKey request := by
  rw [← estimateTokens_returns_iff, routeCompletion, ChargeStorable, LimiterAnswers]
  cases hestimate : estimateTokens py settings request with
  | error exc =>
      apply iff_of_false (not_contained (estimateTokens_raises hestimate))
      rintro ⟨hreturns, -⟩
      exact not_returns_error exc hreturns
  | ok estimate =>
      dsimp only
      cases hreserve : reserve tenantKey estimate with
      | error exc =>
          cases exc with
          | rateLimitExceeded exc =>
              refine iff_of_true (contained_gatewayError _) ⟨returns_ok estimate, fun n e hn hr => ?_,
                fun n reservation result hn hr _ => ?_⟩ <;> cases hn <;> rw [hreserve] at hr <;> cases hr
          | database e =>
              apply iff_of_false (not_contained ⟨_, rfl⟩)
              rintro ⟨-, hanswers, -⟩
              exact hanswers estimate e rfl hreserve
      | ok reservation =>
          dsimp only
          have hanswers : ∀ n e, (Except.ok estimate : Except Exn Int) = .ok n → reserve tenantKey n ≠ .error (.database e) := by
            intro n e hn hr
            cases hn
            rw [hreserve] at hr
            cases hr
          obtain ⟨attempts, outcome⟩ := callWithFailover py client config request
          cases outcome with
          | error exc =>
              refine iff_of_true (contained_gatewayError _) ⟨returns_ok estimate, hanswers, fun n reservation result hn hr h => ?_⟩
              cases h
          | ok result =>
              dsimp only
              by_cases hcharged : isStorable (chargedFor estimate result)
              · rw [if_pos hcharged]
                refine iff_of_true (contained_ok _) ⟨returns_ok estimate, hanswers, fun n reservation' result' hn hr h => ?_⟩
                cases hn
                cases h
                exact hcharged
              · rw [if_neg hcharged]
                apply iff_of_false (not_contained ⟨_, rfl⟩)
                rintro ⟨-, -, hstorable⟩
                exact hcharged (hstorable estimate reservation result rfl hreserve rfl)

/-- A decoder that reads one answer whatever the bytes, and no numbers. -/
def answering (answer : Json) : Builtins where
  json := ⟨fun _ => .ok answer, fun _ => .ok answer, fun _ => none⟩
  floatValue _ := .nan
  intOfText _ := none
  floatOfText _ := none

def hugeUsage : Json := .dict [(str "usage", .dict [(str "prompt_tokens", .int 9223372036854775808)])]

def localConfig : RouterConfig where
  primary := ⟨str "primary", str "http://127.0.0.1:8100/v1/chat/completions", str "mock-primary", 3⟩
  secondary := ⟨str "secondary", str "http://127.0.0.1:8100/v1/chat/completions", str "mock-secondary", 6⟩

/-- "messages": null is a TypeError before anything is tried, and a usage of
2 ^ 63 tokens is an OverflowError after the provider has answered. -/
theorem messages_null_escapes :
    ¬ Contained (routeCompletion (answering hugeUsage) (fun _ _ _ => .timeoutError) localConfig ⟨4, 16⟩
        (fun tenantKey n => .ok ⟨1, tenantKey, n⟩) (str "acme") [(str "messages", .null)] (str "id")) ∧
      ¬ Contained (routeCompletion (answering hugeUsage) (fun _ _ _ => .response ⟨200, none, []⟩) localConfig ⟨4, 16⟩
        (fun tenantKey n => .ok ⟨1, tenantKey, n⟩) (str "acme") [] (str "id")) := by
  have hnull : routeCompletion (answering hugeUsage) (fun _ _ _ => .timeoutError) localConfig ⟨4, 16⟩
      (fun tenantKey n => .ok ⟨1, tenantKey, n⟩) (str "acme") [(str "messages", .null)] (str "id") =
      .error typeError := by rfl
  have hhuge : routeCompletion (answering hugeUsage) (fun _ _ _ => .response ⟨200, none, []⟩) localConfig ⟨4, 16⟩
      (fun tenantKey n => .ok ⟨1, tenantKey, n⟩) (str "acme") [] (str "id") = .error overflowError := by rfl
  rw [hnull, hhuge]
  exact ⟨not_contained ⟨_, rfl⟩, not_contained ⟨_, rfl⟩⟩

end Boundary

section Call

variable (py : Builtins) (client : Client) (config : RouterConfig) (request : Members)

/-- A suspended call after the await that it is suspended at. -/
def Call.awaited (c : Call) : Call :=
  match c.status with
  | .callingPrimary reservation => c.afterPrimary config reservation (callProvider py client config.primary request)
  | .callingSecondary reservation => c.afterSecondary reservation (callProvider py client config.secondary request)
  | .releasing _ exc => c.afterRelease exc
  | .reconciling _ result charged =>
    if isStorable charged then c.afterReconcile result charged else c.failReconcile .overflowError
  | .reserving | .returned _ | .raised _ => c

/-- How a call has ended. -/
def Status.result : Status → Option (Except Exn RoutedResponse)
  | .returned response => some (.ok response)
  | .raised exc => some (.error exc)
  | _ => none

variable {py client config request} {settings : EstimateConfig} {estimate : Int}
  {reserve : Text → Int → Except ReserveError Reservation} {tenantKey requestId : Text}

/-- A call with a provider's answer in hand, reconciled and awaited no more. -/
theorem result_reconciled {c : Call} {reservation : Reservation} {result : ProviderResult} {charged : Int}
    (h : c.status = .reconciling reservation result charged) :
    let settled := c.awaited py client config request
    settled.status.result = some (if isStorable charged then
        .ok ⟨result.payload, result.provider, c.attempts, charged, c.requestId⟩ else .error overflowError) ∧
      settled.awaited py client config request = settled := by
  simp only [Call.awaited, h]
  cases isStorable charged <;> exact ⟨rfl, rfl⟩

/-- A call that is stepped from await to await ends as route_completion does. -/
theorem call_result (hestimate : estimateTokens py settings request = .ok estimate) :
    let c := (Call.start tenantKey estimate requestId).afterReserve config (reserve tenantKey estimate)
    (((c.awaited py client config request).awaited py client config request).awaited py client config request).status.result =
      some (routeCompletion py client config settings reserve tenantKey request requestId) := by
  intro c
  rw [routeCompletion, hestimate]
  cases hreserve : reserve tenantKey estimate with
  | error exc =>
      cases exc with
      | rateLimitExceeded exc =>
          simp only [c, hreserve, Call.afterReserve, Call.awaited, Status.result]
          rfl
      | database e =>
          simp only [c, hreserve, Call.afterReserve, Call.awaited, Status.result]
  | ok reservation =>
      cases hprimary : callProvider py client config.primary request with
      | ok result =>
          have hfirst : (c.awaited py client config request).status =
              .reconciling reservation result (chargedFor estimate result) := by
            simp only [c, hreserve, hprimary, Call.afterReserve, Call.awaited, Call.afterPrimary, Call.succeed]
            rfl
          obtain ⟨hresult, hstays⟩ := @result_reconciled py client config request _ _ _ _ hfirst
          rw [hstays, hresult, callWithFailover_ok hprimary]
          simp only [c, hreserve, hprimary, Call.afterReserve, Call.awaited, Call.afterPrimary, Call.succeed]
          rfl
      | error exc =>
          cases hover : exc.failsOver with
          | false =>
              have hfailover := callWithFailover_stops hprimary hover
              simp only [c, hreserve, hfailover, hprimary, hover, Call.afterReserve, Call.awaited, Call.afterPrimary,
                Call.afterRelease, Status.result, Bool.false_eq_true, if_false]
              rfl
          | true =>
              have hfailover := callWithFailover_failsOver hprimary hover
              cases hsecondary : callProvider py client config.secondary request with
              | ok result =>
                  have hsecond : ((c.awaited py client config request).awaited py client config request).status =
                      .reconciling reservation result (chargedFor estimate result) := by
                    simp only [c, hreserve, hprimary, hsecondary, hover, Call.afterReserve, Call.awaited, Call.afterPrimary,
                      Call.afterSecondary, Call.succeed, if_true]
                    rfl
                  rw [(@result_reconciled py client config request _ _ _ _ hsecond).1, hfailover]
                  simp only [c, hreserve, hprimary, hsecondary, hover, Call.afterReserve, Call.awaited, Call.afterPrimary,
                    Call.afterSecondary, Call.succeed, if_true]
                  rfl
              | error exc' =>
                  simp only [c, hreserve, hfailover, hprimary, hsecondary, hover, Call.afterReserve, Call.awaited,
                    Call.afterPrimary, Call.afterSecondary, Call.afterRelease, Status.result, if_true]
                  rfl

end Call

end LlmGateway.Router
