import LlmGateway.MockProvider
import LlmGateway.RouterApp

namespace LlmGateway.MockProvider

open Router
open Json (Members)

section Providers

/-- Both providers of the router are this mock: a post reaches it with the
request that pydantic makes of the body. It is answered if neither the time of
the provider nor the client's own read timeout is over before, and the first of
the two ends it. Which of them it is at the same moment is left open. An event
stream is no JSON, and may be too slow. -/
structure Serves (py : Builtins) (validate : Members → Option CompletionRequest) (readTimeout : ℚ) (client : Client) : Prop where
  timely : ∀ {url payload seconds req delay response}, validate payload = some req → completions req = .json delay response →
    delay < seconds → delay < readTimeout → ∃ r, client url payload seconds = .response r ∧ r.statusCode = response.status ∧
      ∀ v, response.content = .json v → Response.Renderable v → py.json.loadsBytes r.content = .ok v
  late : ∀ {url payload seconds req delay response}, validate payload = some req → completions req = .json delay response →
    seconds < delay → seconds < readTimeout → client url payload seconds = .timeoutError
  idle : ∀ {url payload seconds req delay response}, validate payload = some req → completions req = .json delay response →
    readTimeout < delay → readTimeout < seconds → ∃ className, client url payload seconds = .httpError className
  streaming : ∀ {url payload seconds req delay pieces}, validate payload = some req → completions req = .streaming delay pieces →
    (∃ r, client url payload seconds = .response r ∧ r.statusCode = 200 ∧ ∀ v, py.json.loadsBytes r.content ≠ .ok v) ∨
      client url payload seconds = .timeoutError ∨ ∃ className, client url payload seconds = .httpError className

/-- The request of one provider: the router sends each its own model. -/
def CompletionRequest.to (req : CompletionRequest) (spec : ProviderSpec) : CompletionRequest := { req with model := spec.model }

/-- What pydantic reads in the body that a provider is sent. -/
def Scripts (validate : Members → Option CompletionRequest) (request : Members) (req : CompletionRequest) (spec : ProviderSpec) :
    Prop := validate (request.set (str "model") (.str spec.model)) = some (req.to spec)

/-- The script makes a provider busy or lets it outlast its time. -/
structure Fails (readTimeout : ℚ) (req : CompletionRequest) (spec : ProviderSpec) : Prop where
  aimed : req.failingModel = none ∨ req.failingModel = some spec.model
  saturating : req.mode = .rateLimited ∨
    req.mode = .hang ∧ spec.timeoutSeconds < req.hangSeconds ∧ spec.timeoutSeconds < readTimeout

/-- The script leaves a provider alone, or it hangs and still comes in time. -/
def Spares (readTimeout : ℚ) (req : CompletionRequest) (spec : ProviderSpec) : Prop :=
  (∃ failing, req.failingModel = some failing ∧ spec.model ≠ failing) ∨
    req.mode = .hang ∧ req.hangSeconds < spec.timeoutSeconds ∧ req.hangSeconds < readTimeout

/-- The modes that are answered with an event stream. -/
def Mode.streams : Mode → Bool
  | .stream | .splitPii => true
  | .rateLimited | .hang | .nonStream | .serverError => false

end Providers

section Attempts

variable {py : Builtins} {validate : Members → Option CompletionRequest} {readTimeout : ℚ} {client : Client} {request : Members}
  {req : CompletionRequest} {spec : ProviderSpec} {result : ProviderResult}

/-- A model that the script does not aim at streams as it would otherwise. -/
theorem streams_effective (req : CompletionRequest) : (effective req).streams = req.mode.streams := by
  rw [effective]
  split
  · rfl
  · split
    · rfl
    · cases req.mode <;> rfl

theorem effective_of_other {failing : Text} (h : req.failingModel = some failing) (hne : spec.model ≠ failing) :
    effective (req.to spec) ≠ .rateLimited ∧ effective (req.to spec) ≠ .hang ∧
      (req.mode = .rateLimited ∨ req.mode = .hang → effective (req.to spec) = .nonStream) := by
  have hfailing : (req.to spec).failingModel = req.failingModel := rfl
  have hmode : (req.to spec).mode = req.mode := rfl
  have hmodel : (req.to spec).model ≠ failing := hne
  rw [effective, hfailing, h, hmode]
  dsimp only
  rw [if_neg hmodel]
  cases req.mode <;> simp

theorem effective_of_aimed (h : req.failingModel = none ∨ req.failingModel = some spec.model) :
    effective (req.to spec) = req.mode := by
  have hfailing : (req.to spec).failingModel = req.failingModel := rfl
  rw [effective, hfailing]
  rcases h with h | h
  · rw [h]
    rfl
  · rw [h]
    exact if_pos rfl

theorem aimed_or_other (req : CompletionRequest) (spec : ProviderSpec) :
    (req.failingModel = none ∨ req.failingModel = some spec.model) ∨
      ∃ failing, req.failingModel = some failing ∧ spec.model ≠ failing := by
  cases h : req.failingModel with
  | none => exact Or.inl (Or.inl rfl)
  | some failing =>
      by_cases heq : spec.model = failing
      · exact Or.inl (Or.inr (by rw [heq]))
      · exact Or.inr ⟨failing, rfl, heq⟩

theorem renderable_note : Response.Renderable (.dict note) := ⟨rfl, rfl⟩

theorem renderable_message (h : Utf8.scalar req.model) : Response.Renderable (.dict (message req)) := by
  have hpii : Utf8.scalar piiText := Utf8.scalar_of_ascii (by decide)
  constructor
  · rfl
  · simp [message, usage, Json.every, Json.everyMember, Json.everyItem, h, hpii]
    decide

/-- What there is to see of an answer that is no stream. -/
theorem attempt_json (hserves : Serves py validate readTimeout client) (hscripts : Scripts validate request req spec) {delay : ℚ}
    {status : Int} {headers : List (Text × Text)} {v : Json}
    (h : completions (req.to spec) = .json delay ⟨status, headers, .json v⟩)
    (htie : delay ≠ spec.timeoutSeconds ∧ delay ≠ readTimeout ∧ spec.timeoutSeconds ≠ readTimeout)
    (hv : ¬ 400 ≤ status → Response.Renderable v) : attempt py client spec request =
      if spec.timeoutSeconds < delay ∧ spec.timeoutSeconds < readTimeout then .timedOut
      else if readTimeout < delay then .broken
      else if status = 429 then .busy else if 400 ≤ status then .broken else .answered v := by
  obtain ⟨htie₁, htie₂, htie₃⟩ := htie
  rw [attempt]
  by_cases hlate : spec.timeoutSeconds < delay ∧ spec.timeoutSeconds < readTimeout
  · rw [if_pos hlate, @Serves.late _ _ _ _ hserves spec.url _ _ _ _ _ hscripts h hlate.1 hlate.2]
    rfl
  rw [if_neg hlate]
  by_cases hidle : readTimeout < delay
  · have hfirst : readTimeout < spec.timeoutSeconds := by
      refine lt_of_le_of_ne (not_lt.mp fun hlt => hlate ⟨hlt.trans hidle, hlt⟩) htie₃.symm
    obtain ⟨className, hclient⟩ := @Serves.idle _ _ _ _ hserves spec.url _ _ _ _ _ hscripts h hidle hfirst
    rw [if_pos hidle, hclient]
    rfl
  · have hread : delay < readTimeout := lt_of_le_of_ne (not_lt.mp hidle) htie₂
    have hintime : delay < spec.timeoutSeconds :=
      lt_of_le_of_ne (not_lt.mp fun hlt => hlate ⟨hlt, hlt.trans hread⟩) htie₁
    obtain ⟨r, hr, hstatus, hload⟩ := @Serves.timely _ _ _ _ hserves spec.url _ _ _ _ _ hscripts h hintime hread
    rw [if_neg hidle, hr, seen, hstatus]
    dsimp only
    split
    · rfl
    · split
      · rfl
      · next hok => rw [hload v rfl (hv hok)]

/-- A stream is no answer to the router, fast or slow. -/
theorem attempt_streaming (hserves : Serves py validate readTimeout client) (hscripts : Scripts validate request req spec)
    (h : req.mode.streams = true) (v : Json) : attempt py client spec request ≠ .answered v := by
  have hanswer : ∃ pieces, completions (req.to spec) = .streaming req.chunkDelay pieces := by
    have hstreams : (effective (req.to spec)).streams = true := (streams_effective (req.to spec)).trans h
    rw [completions]
    cases hmode : effective (req.to spec) with
    | stream | splitPii => exact ⟨_, rfl⟩
    | rateLimited | hang | nonStream | serverError => rw [hmode] at hstreams; cases hstreams
  obtain ⟨pieces, hanswer⟩ := hanswer
  rw [attempt]
  rcases @Serves.streaming _ _ _ _ hserves spec.url _ spec.timeoutSeconds _ _ _ hscripts hanswer with
    ⟨r, hr, hstatus, hload⟩ | htimeout | ⟨className, hbroken⟩
  · rw [hr, seen, hstatus, if_neg (by decide), if_neg (by decide)]
    cases hr : py.json.loadsBytes r.content with
    | ok w => exact absurd hr (hload w)
    | error e => cases he : e.isValueError <;> simp [he]
  · rw [htimeout]
    exact fun h => by cases h
  · rw [hbroken]
    exact fun h => by cases h

theorem answered_of_ok (h : callProvider py client spec request = .ok result) : ∃ v, attempt py client spec request = .answered v := by
  have hends := callProvider_ends py client spec request
  rw [h] at hends
  cases hseen : attempt py client spec request with
  | timedOut =>
      rw [hseen] at hends
      cases hends
  | busy | broken =>
      rw [hseen] at hends
      obtain ⟨d, hd⟩ := hends
      cases hd
  | crashed =>
      rw [hseen] at hends
      obtain ⟨exc, -, hexc⟩ := hends
      cases hexc
  | answered v => exact ⟨v, rfl⟩

theorem fails_iff : Fails readTimeout req spec ↔ effective (req.to spec) = .rateLimited ∨
    effective (req.to spec) = .hang ∧ spec.timeoutSeconds < req.hangSeconds ∧ spec.timeoutSeconds < readTimeout := by
  rcases aimed_or_other req spec with haimed | ⟨failing, hfailing, hne⟩
  · rw [effective_of_aimed haimed]
    exact ⟨fun h => h.saturating, fun h => ⟨haimed, h⟩⟩
  · obtain ⟨hbusy, hhang, -⟩ := effective_of_other hfailing hne
    refine iff_of_false (fun h => ?_) (not_or.mpr ⟨hbusy, fun h => hhang h.1⟩)
    rcases h.aimed with hnone | hsome
    · rw [hfailing] at hnone
      cases hnone
    · rw [hfailing] at hsome
      exact hne (Option.some.inj hsome).symm

/-- The times of a provider and of the client that are no two of them equal, and
a model that can be sent. -/
structure Timed (readTimeout : ℚ) (req : CompletionRequest) (spec : ProviderSpec) : Prop where
  time_pos : 0 < spec.timeoutSeconds
  read_pos : 0 < readTimeout
  hang_time : req.hangSeconds ≠ spec.timeoutSeconds
  hang_read : req.hangSeconds ≠ readTimeout
  time_read : spec.timeoutSeconds ≠ readTimeout
  model : Utf8.scalar spec.model

theorem Timed.at_once (h : Timed readTimeout req spec) : (0 : ℚ) ≠ spec.timeoutSeconds ∧ (0 : ℚ) ≠ readTimeout ∧
    spec.timeoutSeconds ≠ readTimeout := ⟨h.time_pos.ne, h.read_pos.ne, h.time_read⟩

theorem Timed.hanging (h : Timed readTimeout req spec) : req.hangSeconds ≠ spec.timeoutSeconds ∧ req.hangSeconds ≠ readTimeout ∧
    spec.timeoutSeconds ≠ readTimeout := ⟨h.hang_time, h.hang_read, h.time_read⟩

theorem Timed.not_late (h : Timed readTimeout req spec) : ¬ (spec.timeoutSeconds < 0 ∧ spec.timeoutSeconds < readTimeout) :=
  fun hlate => absurd hlate.1 (not_lt.mpr h.time_pos.le)

theorem Timed.not_idle (h : Timed readTimeout req spec) : ¬ readTimeout < 0 := not_lt.mpr h.read_pos.le

/-- The script decides whether the other provider is asked. -/
theorem saturated_iff (hserves : Serves py validate readTimeout client) (hscripts : Scripts validate request req spec)
    (htimed : Timed readTimeout req spec) (hmode : req.mode.streams = false) :
    Saturated (attempt py client spec request) ↔ Fails readTimeout req spec := by
  have hjson {delay : ℚ} {status : Int} {headers : List (Text × Text)} {v : Json} :=
    @attempt_json py validate readTimeout client request req spec hserves hscripts delay status headers v
  have hstreams : (effective (req.to spec)).streams = false := (streams_effective (req.to spec)).trans hmode
  rw [fails_iff]
  cases heffective : effective (req.to spec) with
  | rateLimited =>
      have hanswer : completions (req.to spec) = .json 0 ⟨429, [(str "Retry-After", str "30")], .json rateLimited⟩ := by
        rw [completions, heffective]
      rw [hjson hanswer htimed.at_once (fun h => absurd (by decide) h), if_neg htimed.not_late, if_neg htimed.not_idle]
      simp [Saturated]
  | serverError =>
      have hanswer : completions (req.to spec) = .json 0 ⟨500, [], .json serverError⟩ := by rw [completions, heffective]
      rw [hjson hanswer htimed.at_once (fun h => absurd (by decide) h), if_neg htimed.not_late, if_neg htimed.not_idle]
      simp [Saturated]
  | hang =>
      have hanswer : completions (req.to spec) = .json req.hangSeconds ⟨200, [], .json (.dict note)⟩ := by
        rw [completions, heffective]
        rfl
      rw [hjson hanswer htimed.hanging fun _ => renderable_note]
      by_cases hlate : spec.timeoutSeconds < req.hangSeconds ∧ spec.timeoutSeconds < readTimeout
      · simp [Saturated, hlate]
      · by_cases hidle : readTimeout < req.hangSeconds <;> simp [Saturated, hlate, hidle]
  | nonStream =>
      have hanswer : completions (req.to spec) = .json 0 ⟨200, [], .json (.dict (message (req.to spec)))⟩ := by
        rw [completions, heffective]
      rw [hjson hanswer htimed.at_once fun _ => renderable_message htimed.model, if_neg htimed.not_late, if_neg htimed.not_idle]
      simp [Saturated]
  | stream | splitPii =>
      rw [heffective] at hstreams
      cases hstreams

/-- What a provider that is spared answers with. -/
def resultFor (req : CompletionRequest) (spec : ProviderSpec) : ProviderResult :=
  if effective (req.to spec) = .hang then ⟨spec.name, spec.model, note, 0, 0⟩
  else ⟨spec.name, spec.model, message (req.to spec), req.promptTokens, req.completionTokens⟩

theorem callProvider_spared (hserves : Serves py validate readTimeout client) (hscripts : Scripts validate request req spec)
    (htimed : Timed readTimeout req spec) (hmode : req.mode = .rateLimited ∨ req.mode = .hang) (h : Spares readTimeout req spec) :
    callProvider py client spec request = .ok (resultFor req spec) := by
  have hjson {delay : ℚ} {status : Int} {headers : List (Text × Text)} {v : Json} :=
    @attempt_json py validate readTimeout client request req spec hserves hscripts delay status headers v
  have hends := callProvider_ends py client spec request
  have hfine (heffective : effective (req.to spec) = .nonStream) : callProvider py client spec request = .ok (resultFor req spec) := by
    have hanswer : completions (req.to spec) = .json 0 ⟨200, [], .json (.dict (message (req.to spec)))⟩ := by
      rw [completions, heffective]
    rw [hjson hanswer htimed.at_once fun _ => renderable_message htimed.model, if_neg htimed.not_late, if_neg htimed.not_idle] at hends
    rw [resultFor, if_neg (by rw [heffective]; decide)]
    exact hends
  rcases aimed_or_other req spec with haimed | ⟨failing, hfailing, hne⟩
  · rcases h with ⟨failing, hfailing, hne⟩ | ⟨hhang, hintime, hread⟩
    · exact hfine ((effective_of_other hfailing hne).2.2 hmode)
    · have heffective : effective (req.to spec) = .hang := (effective_of_aimed haimed).trans hhang
      have hanswer : completions (req.to spec) = .json req.hangSeconds ⟨200, [], .json (.dict note)⟩ := by
        rw [completions, heffective]
        rfl
      rw [hjson hanswer htimed.hanging fun _ => renderable_note, if_neg fun hlate => absurd hlate.1 (not_lt.mpr hintime.le),
        if_neg (not_lt.mpr hread.le)] at hends
      rw [resultFor, if_pos heffective]
      exact hends
  · exact hfine ((effective_of_other hfailing hne).2.2 hmode)

/-- A provider that is busy or hangs too long has no answer. -/
theorem attempt_aimed (hserves : Serves py validate readTimeout client) (hscripts : Scripts validate request req spec)
    (htimed : Timed readTimeout req spec) (hmode : req.mode = .rateLimited ∨ req.mode = .hang) (h : ¬ Spares readTimeout req spec)
    (v : Json) : attempt py client spec request ≠ .answered v := by
  have hjson {delay : ℚ} {status : Int} {headers : List (Text × Text)} {v : Json} :=
    @attempt_json py validate readTimeout client request req spec hserves hscripts delay status headers v
  have haimed := (aimed_or_other req spec).resolve_right fun hother => h (Or.inl hother)
  have heffective : effective (req.to spec) = req.mode := effective_of_aimed haimed
  rcases hmode with hmode | hmode
  · have hanswer : completions (req.to spec) = .json 0 ⟨429, [(str "Retry-After", str "30")], .json rateLimited⟩ := by
      rw [completions, heffective, hmode]
    rw [hjson hanswer htimed.at_once (fun h => absurd (by decide) h), if_neg htimed.not_late, if_neg htimed.not_idle]
    simp
  · have hanswer : completions (req.to spec) = .json req.hangSeconds ⟨200, [], .json (.dict note)⟩ := by
      rw [completions, heffective, hmode]
      rfl
    rw [hjson hanswer htimed.hanging fun _ => renderable_note]
    by_cases hlate : spec.timeoutSeconds < req.hangSeconds ∧ spec.timeoutSeconds < readTimeout
    · simp [hlate]
    by_cases hidle : readTimeout < req.hangSeconds
    · simp [hlate, hidle]
    -- neither time is over before the answer
    have hread : req.hangSeconds < readTimeout := lt_of_le_of_ne (not_lt.mp hidle) htimed.hang_read
    have hintime : req.hangSeconds < spec.timeoutSeconds :=
      lt_of_le_of_ne (not_lt.mp fun hlt => hlate ⟨hlt, hlt.trans hread⟩) htimed.hang_time
    exact absurd (Or.inr ⟨hmode, hintime, hread⟩) h

end Attempts

section Failover

variable {py : Builtins} {validate : Members → Option CompletionRequest} {readTimeout : ℚ} {client : Client} {config : RouterConfig}
  {request : Members} {req : CompletionRequest} {result : ProviderResult}

/-- Where both providers are the mock, failing over succeeds exactly with a
script that makes the first one fail and spares the second. Without the name of
a failing model both fail alike, and only one that hangs can still be saved by
the longer time of the second. -/
theorem failover_iff (hserves : Serves py validate readTimeout client)
    (hspec : ∀ spec ∈ [config.primary, config.secondary], Scripts validate request req spec ∧ Timed readTimeout req spec) :
    callWithFailover py client config request = ([config.primary.name, config.secondary.name], .ok result) ↔
      Fails readTimeout req config.primary ∧ Spares readTimeout req config.secondary ∧ result = resultFor req config.secondary := by
  obtain ⟨hscripts₁, htimed₁⟩ := hspec config.primary (by simp)
  obtain ⟨hscripts₂, htimed₂⟩ := hspec config.secondary (by simp)
  rw [asks_second_iff]
  cases hstreams : req.mode.streams with
  | true =>
      refine iff_of_false (fun h => ?_) fun h => ?_
      · obtain ⟨v, hv⟩ := answered_of_ok h.2
        exact attempt_streaming hserves hscripts₂ hstreams v hv
      · rcases h.1.saturating with hmode | ⟨hmode, -⟩ <;> rw [hmode] at hstreams <;> cases hstreams
  | false =>
      rw [saturated_iff hserves hscripts₁ htimed₁ hstreams]
      refine and_congr_right fun hfails => ?_
      have hmode : req.mode = .rateLimited ∨ req.mode = .hang := hfails.saturating.imp_right And.left
      by_cases hspares : Spares readTimeout req config.secondary
      · rw [callProvider_spared hserves hscripts₂ htimed₂ hmode hspares]
        exact ⟨fun h => ⟨hspares, (Except.ok.inj h).symm⟩, fun h => by rw [h.2]⟩
      · refine iff_of_false (fun h => ?_) fun h => hspares h.1
        obtain ⟨v, hv⟩ := answered_of_ok h
        exact attempt_aimed hserves hscripts₂ htimed₂ hmode hspares v hv

/-- The first provider is rate limited, and the second is healthy. -/
def busyScript : CompletionRequest := ⟨str "mock-primary", .rateLimited, 10, 0, 100, 50, some (str "mock-primary")⟩

def sparedScript : CompletionRequest := busyScript.to localConfig.secondary

def validateBusy (payload : Members) : Option CompletionRequest :=
  match payload.get? (str "model") with
  | some (.str model) =>
    if model = str "mock-primary" then some busyScript else if model = str "mock-secondary" then some sparedScript else none
  | _ => none

/-- The empty content stands for the first answer. -/
def readBusy : Builtins where
  json := ⟨fun _ => .error .jsonDecodeError, fun x => .ok (if x = [] then rateLimited else .dict (message sparedScript)),
    fun _ => none⟩
  floatValue _ := .nan
  intOfText _ := none
  floatOfText _ := none

def busyClient : Client := fun _ payload seconds =>
  if seconds < 0 then .timeoutError
  else
    match validateBusy payload with
    | none => .httpError (str "ConnectError")
    | some req => .response (if req.model = str "mock-primary" then ⟨429, some (str "30"), []⟩ else ⟨200, none, Utf8.asciiBytes (str "ok")⟩)

theorem validateBusy_some {payload : Members} (h : validateBusy payload = some req) : req = busyScript ∨ req = sparedScript := by
  rw [validateBusy] at h
  split at h
  · split at h
    · exact Or.inl (Option.some.inj h).symm
    · split at h
      · exact Or.inr (Option.some.inj h).symm
      · cases h
  · cases h

theorem busyClient_serves : Serves readBusy validateBusy 5 busyClient := by
  have hbusy : completions busyScript = .json 0 ⟨429, [(str "Retry-After", str "30")], .json rateLimited⟩ := by rfl
  have hspared : completions sparedScript = .json 0 ⟨200, [], .json (.dict (message sparedScript))⟩ := by rfl
  constructor
  · intro url payload seconds req delay response hvalid hanswer htime _
    have hclient : ¬ seconds < 0 := by
      rcases validateBusy_some hvalid with rfl | rfl
      · rw [hbusy] at hanswer
        cases hanswer
        exact not_lt.mpr htime.le
      · rw [hspared] at hanswer
        cases hanswer
        exact not_lt.mpr htime.le
    rw [busyClient, if_neg hclient, hvalid]
    refine ⟨_, rfl, ?_⟩
    rcases validateBusy_some hvalid with rfl | rfl
    · rw [hbusy] at hanswer
      cases hanswer
      refine ⟨rfl, fun v hv _ => ?_⟩
      cases hv
      rfl
    · rw [hspared] at hanswer
      cases hanswer
      refine ⟨rfl, fun v hv _ => ?_⟩
      cases hv
      rfl
  · intro url payload seconds req delay response hvalid hanswer htime _
    rcases validateBusy_some hvalid with rfl | rfl
    · rw [hbusy] at hanswer
      cases hanswer
      exact if_pos htime
    · rw [hspared] at hanswer
      cases hanswer
      exact if_pos htime
  · intro url payload seconds req delay response hvalid hanswer hidle _
    rcases validateBusy_some hvalid with rfl | rfl
    · rw [hbusy] at hanswer
      cases hanswer
      exact absurd hidle (by decide +kernel)
    · rw [hspared] at hanswer
      cases hanswer
      exact absurd hidle (by decide +kernel)
  · intro url payload seconds req delay pieces hvalid hanswer
    rcases validateBusy_some hvalid with rfl | rfl
    · rw [hbusy] at hanswer
      cases hanswer
    · rw [hspared] at hanswer
      cases hanswer

theorem failover_iff_busy : callWithFailover readBusy busyClient localConfig [] =
    ([str "primary", str "secondary"], .ok ⟨str "secondary", str "mock-secondary", message sparedScript, 100, 50⟩) := by
  have hspec : ∀ spec ∈ [localConfig.primary, localConfig.secondary], Scripts validateBusy [] busyScript spec ∧
      Timed 5 busyScript spec := by
    intro spec hspec
    simp only [List.mem_cons, List.not_mem_nil, or_false] at hspec
    rcases hspec with rfl | rfl
    · exact ⟨rfl, by decide +kernel, by decide +kernel, by decide +kernel, by decide +kernel, by decide +kernel, by decide⟩
    · exact ⟨rfl, by decide +kernel, by decide +kernel, by decide +kernel, by decide +kernel, by decide +kernel, by decide⟩
  apply (failover_iff busyClient_serves hspec).mpr
  exact ⟨⟨Or.inr rfl, Or.inl rfl⟩, Or.inl ⟨_, rfl, by decide⟩, rfl⟩

end Failover

end LlmGateway.MockProvider
