import LlmGateway.GuardrailApp
import LlmGateway.MockFailover

namespace LlmGateway.MockProvider

open Guardrail Sse Redactor Utf8
open Json (Members Reader joined)
open Router (RequestId)

section Upstream

/-- json.loads takes bytes of printed lines for UTF-8. -/
def DecodesLines (reader : Reader) : Prop :=
  ∀ t : Text, (∀ c ∈ t, Json.printed c ∨ c = lf) → reader.decode (asciiBytes t) = .ok t

/-- The provider behind the guardrail is this mock: a body reaches it as the
request that pydantic makes of it, and is answered within the time of the
guardrail or not at all; of a slow stream there may be the status alone. Which
of the two it is at the last moment is left open. -/
structure Feeds (reader : Reader) (validate : Members → Option CompletionRequest) (timeout : ℚ) (provider : Provider) : Prop where
  scalar : ∀ {request req}, validate request = some req → Utf8.scalar req.model
  timely : ∀ {request req delay response v}, validate request = some req → completions req = .json delay response →
    response.content = .json v → delay < timeout →
    (∃ content, provider.post request = .ok (.response response.status content) ∧ reader.decoder.loadsBytes content = .ok v) ∧
    ∃ chunks, provider.stream request = .ok (.response response.status (chunks, none)) ∧ OneLine chunks.flatten ∧ WithinCap [] chunks
  late : ∀ {request req delay response}, validate request = some req → completions req = .json delay response →
    timeout < delay → provider.post request = .ok .failed ∧ provider.stream request = .ok .failed
  streaming : ∀ {request req delay pieces}, validate request = some req → completions req = .streaming delay pieces →
    delay < timeout → (∃ content, provider.post request = .ok (.response 200 content) ∧ wire pieces = some content) ∧
    ∃ chunks, provider.stream request = .ok (.response 200 (chunks, none)) ∧ wire pieces = some chunks.flatten ∧ WithinCap [] chunks
  slow : ∀ {request req delay pieces}, validate request = some req → completions req = .streaming delay pieces →
    timeout < delay → provider.post request = .ok .failed ∧
      (provider.stream request = .ok .failed ∨ provider.stream request = .ok (.response 200 ([], some .httpError)))

/-- What a client of the guardrail is to hear of a scripted request. -/
def audible (U : Unicode) (config : GuardrailConfig) (timeout : ℚ) (buffered : Bool) (req : CompletionRequest) : Heard :=
  match effective req with
  | .rateLimited | .serverError => .refused
  | .hang => if timeout < req.hangSeconds then .refused else if buffered then .nothing else .silence
  | .nonStream => if buffered then .message (redact U piiText) else .silence
  | .splitPii => streamed splitScript
  | .stream => streamed plainScript
where
  streamed (script : List Text) : Heard :=
    if timeout < req.chunkDelay then .refused
    else if buffered then .broken else .message ((newRedactor config).stream U script)

end Upstream

variable {U : Unicode} {reader : Reader} {config : GuardrailConfig} {requestId : RequestId} {provider : Provider}
  {validate : Members → Option CompletionRequest} {timeout : ℚ} {request : Members} {req : CompletionRequest}
  {script : List Text} {chunks : List Bytes} {content : Bytes} {t : Text}

section Mismatch

/-- No JSON value starts like a field of an event stream. -/
theorem parse_data (toFloat : Text → FloatRepr) (t : Text) : Json.parse toFloat (dataPrefix ++ t) = .error .jsonDecodeError := by
  have hconstant (u : Text) : Json.scanConstant toFloat (chr 'd' :: u) = none := by
    apply Json.scanConstant_eq_none
    rw [Json.keys_constants]
    intro k hk
    have hhead : k ≠ [] ∧ k.head? ≠ some (chr 'd') := by
      revert hk
      revert k
      decide
    exact Json.isPrefixOf_of_ne hhead.1 hhead.2
  have hnumber (u : Text) : Json.scanNumber toFloat (chr 'd' :: u) = none := by
    cases h : Json.scanInteger (chr 'd' :: u) with
    | none => rw [Json.scanNumber, h]
    | some r =>
        cases Json.numberStart_of_scanInteger h with
        | digit _ hd => cases hd
  have hscan (n : Nat) (u : Text) : Json.scanOnce toFloat (n + 1) (chr 'd' :: u) = none := by
    rw [Json.scanOnce, if_neg (by decide), if_neg (by decide), if_neg (by decide), hconstant, hnumber]
    rfl
  have hskip : Json.skip (dataPrefix ++ t) = chr 'd' :: (dataPrefix.tail ++ t) := rfl
  rw [Json.parse, hskip, hscan]

theorem stream_starts (req : CompletionRequest) (script : List Text) : ∃ u, (stream req script).flatten = dataPrefix ++ u := by
  cases script with
  | nil =>
      rw [stream, List.map_nil, List.nil_append, List.flatten_cons, sse, List.append_assoc, List.append_assoc]
      exact ⟨_, rfl⟩
  | cons piece script =>
      rw [stream, List.map_cons, List.cons_append, List.flatten_cons, sse, List.append_assoc, List.append_assoc]
      exact ⟨_, rfl⟩

/-- A client that asks for one answer and gets a stream. -/
theorem loadsBytes_stream (hdecodes : DecodesLines reader) (hbytes : wire (stream req script) = some content) :
    reader.decoder.loadsBytes content = .error .jsonDecodeError := by
  rw [wire_ascii fun t ht => ascii_stream ht, Option.some.injEq] at hbytes
  have hdecode : reader.decode content = .ok (stream req script).flatten := by
    rw [← hbytes]
    apply hdecodes
    intro c hc
    obtain ⟨t, ht, hc⟩ := List.mem_flatten.mp hc
    exact printed_stream ht c hc
  obtain ⟨u, hu⟩ := stream_starts req script
  have hparse : reader.decoder.parseBytes content = .error .jsonDecodeError := by
    rw [Reader.decoder]
    dsimp only
    rw [hdecode, hu]
    exact parse_data reader.toFloat u
  rw [Json.Decoder.loadsBytes, hparse]
  rfl

end Mismatch

section Cases

variable {body : Bytes} {delay : ℚ} {status : Int} {headers : List (Text × Text)} {v : Json} {o : Option Text}

/-- The mock answers with JSON. o is the message that the guardrail makes of it. -/
theorem heard_json (h : Feeds reader validate timeout provider) (hbody : reader.decoder.loadsBytes body = .ok (.dict request))
    (hreq : validate request = some req) (hanswer : completions req = .json delay ⟨status, headers, .json v⟩) (htie : delay ≠ timeout)
    (hv : status < 400 → ∃ payload, redactPayload U v = .ok payload ∧ Response.Renderable payload ∧ messageContent payload = o) :
    heard reader.decoder (Guardrail.completions U reader.decoder config requestId provider body) =
      if timeout < delay ∨ 400 ≤ status then .refused else if isBuffered request then .ofText o else .silence := by
  by_cases hlate : timeout < delay
  · obtain ⟨hpost, hstream⟩ := h.late hreq hanswer hlate
    rw [if_pos (Or.inl hlate)]
    cases hbuffered : isBuffered request with
    | true =>
        rw [completions_buffered hbody hbuffered hpost]
        exact heard_unavailable
    | false =>
        rw [completions_streaming hbody hbuffered hstream]
        exact heard_errorFrame rfl _
  obtain ⟨⟨content, hpost, hload⟩, chunks, hstream, hobject, hfit⟩ :=
    h.timely hreq hanswer rfl (lt_of_le_of_ne (not_lt.mp hlate) htie)
  by_cases hstatus : 400 ≤ status
  · rw [if_pos (Or.inr hstatus)]
    cases hbuffered : isBuffered request with
    | true =>
        rw [completions_buffered hbody hbuffered hpost, proxyBuffered, if_pos hstatus]
        exact heard_unavailable
    | false =>
        rw [completions_streaming hbody hbuffered hstream]
        exact heard_errorFrame (by rw [proxyStreaming, if_pos hstatus]) _
  · rw [if_neg (not_or.mpr ⟨hlate, hstatus⟩)]
    cases hbuffered : isBuffered request with
    | true =>
        obtain ⟨payload, hpayload, hrenderable, rfl⟩ := hv (not_le.mp hstatus)
        have hok : Response.ofJson payload 200 [] = .ok ⟨200, [], .json payload⟩ := Response.ofJson_eq_ok.mpr ⟨hrenderable, rfl⟩
        rw [completions_buffered hbody hbuffered hpost, proxyBuffered, if_neg hstatus, hload]
        dsimp only
        rw [hpayload]
        dsimp only
        rw [hok]
        rfl
    | false =>
        rw [completions_streaming hbody hbuffered hstream]
        exact heard_object hobject hfit (not_le.mp hstatus) _

/-- The mock streams. -/
theorem heard_pieces (hdecodes : DecodesLines reader) (h : Feeds reader validate timeout provider)
    (hbody : reader.decoder.loadsBytes body = .ok (.dict request)) (hreq : validate request = some req)
    (hanswer : completions req = .streaming delay (stream req script)) (htie : delay ≠ timeout)
    (hscript : ∀ piece ∈ script, Utf8.scalar piece) :
    heard reader.decoder (Guardrail.completions U reader.decoder config requestId provider body) =
      if timeout < delay then .refused
      else if isBuffered request then .broken else .message ((newRedactor config).stream U script) := by
  by_cases hslow : timeout < delay
  · obtain ⟨hpost, hstream⟩ := h.slow hreq hanswer hslow
    rw [if_pos hslow]
    cases hbuffered : isBuffered request with
    | true =>
        rw [completions_buffered hbody hbuffered hpost]
        exact heard_unavailable
    | false =>
        rcases hstream with hstream | hstream
        · rw [completions_streaming hbody hbuffered hstream]
          exact heard_errorFrame rfl _
        · rw [completions_streaming hbody hbuffered hstream]
          exact heard_errorFrame rfl _
  obtain ⟨⟨content, hpost, hcontent⟩, chunks, hstream, hbytes, hfit⟩ :=
    h.streaming hreq hanswer (lt_of_le_of_ne (not_lt.mp hslow) htie)
  rw [if_neg hslow]
  cases hbuffered : isBuffered request with
  | true =>
      rw [completions_buffered hbody hbuffered hpost, proxyBuffered, if_neg (by decide), loadsBytes_stream hdecodes hcontent]
      rfl
  | false =>
      obtain ⟨sent, x, outs, tail, hsent, hx, hevents, htexts, hscalar⟩ :=
        frames_heard U reader config requestId.text req hscript hbytes hfit
      have hmodel : Json.Plain (joined req.model) := Json.plain_joined req.model
      rw [completions_streaming hbody hbuffered hstream, hsent]
      simp only [heard, hx]
      have hfinal : valueText reader.decoder (Emission.payloadText (finalFrame req.reread)) = [] :=
        valueText_payloadText (readsBack_final hmodel)
      rw [hevents, heardEvents_done, List.flatMap_append, texts_read hscalar hmodel, List.flatMap_singleton, hfinal,
        List.append_nil, htexts]
      rfl

end Cases

section Audible

variable {body : Bytes}

theorem messageContent_message (req : CompletionRequest) : messageContent (.dict (message req)) = some piiText := rfl

theorem objectChoices_message (req : CompletionRequest) : ObjectChoices (message req) := by
  intro items h v hv
  have hc : (message req).get? (str "choices") = some (.list [.dict [(str "index", .int 0),
      (str "message", .dict [(str "role", .str (str "assistant")), (str "content", .str piiText)]),
      (str "finish_reason", .str (str "stop"))]]) := rfl
  rw [hc] at h
  cases h
  exact ⟨_, List.mem_singleton.mp hv⟩

/-- The guardrail in front of the mock: a client hears the scripted text,
redacted, exactly if it asks for the kind of answer that the script makes. -/
theorem heard_eq_audible (U : Unicode) (config : GuardrailConfig) (requestId : RequestId) (hdecodes : DecodesLines reader)
    (h : Feeds reader validate timeout provider) (hbody : reader.decoder.loadsBytes body = .ok (.dict request))
    (hreq : validate request = some req) (htime : 0 < timeout) (htie : req.hangSeconds ≠ timeout) (hslow : req.chunkDelay ≠ timeout) :
    heard reader.decoder (Guardrail.completions U reader.decoder config requestId provider body) =
      audible U config timeout (isBuffered request) req := by
  have hjson {delay : ℚ} {status : Int} {headers : List (Text × Text)} {v : Json} (o : Option Text) :=
    @heard_json U reader config requestId provider validate timeout request req body delay status headers v o h hbody hreq
  rw [audible]
  cases hmode : effective req with
  | rateLimited =>
      have hanswer : completions req = .json 0 ⟨429, [(str "Retry-After", str "30")], .json rateLimited⟩ := by rw [completions, hmode]
      rw [hjson none hanswer htime.ne fun hstatus => absurd hstatus (by decide), if_pos (Or.inr (by decide))]
  | serverError =>
      have hanswer : completions req = .json 0 ⟨500, [], .json serverError⟩ := by rw [completions, hmode]
      rw [hjson none hanswer htime.ne fun hstatus => absurd hstatus (by decide), if_pos (Or.inr (by decide))]
  | hang =>
      have hanswer : completions req = .json req.hangSeconds ⟨200, [], .json (.dict note)⟩ := by rw [completions, hmode]
      rw [hjson none hanswer htie fun _ => ⟨_, rfl, renderable_note, rfl⟩]
      by_cases hlate : timeout < req.hangSeconds
      · rw [if_pos (Or.inl hlate)]
        exact (if_pos hlate).symm
      · rw [if_neg (not_or.mpr ⟨hlate, by decide⟩)]
        dsimp only
        rw [if_neg hlate]
        rfl
  | nonStream =>
      have hanswer : completions req = .json 0 ⟨200, [], .json (.dict (message req))⟩ := by rw [completions, hmode]
      obtain ⟨payload, hpayload, hcontent, hrender⟩ := redactPayload_message (objectChoices_message req) (messageContent_message req)
      have hrenderable := hrender (renderable_message (h.scalar hreq))
      rw [hjson (some (redact U piiText)) hanswer htime.ne fun _ => ⟨payload, hpayload, hrenderable, hcontent⟩,
        if_neg (not_or.mpr ⟨not_lt.mpr htime.le, by decide⟩)]
      rfl
  | splitPii =>
      have hanswer : completions req = .streaming req.chunkDelay (stream req splitScript) := by rw [completions, hmode]
      exact heard_pieces hdecodes h hbody hreq hanswer hslow (by decide)
  | stream =>
      have hanswer : completions req = .streaming req.chunkDelay (stream req plainScript) := by rw [completions, hmode]
      exact heard_pieces hdecodes h hbody hreq hanswer hslow (by decide)

def splitRequest : CompletionRequest := ⟨str "mock-primary", .splitPii, 10, 0, 100, 50, none⟩

def splitBytes : Bytes := asciiBytes (stream splitRequest splitScript).flatten

def splitProvider : Provider := ⟨fun _ => .ok (.response 200 splitBytes), fun _ => .ok (.response 200 ([splitBytes], none))⟩

theorem integers_decodes : DecodesLines Reader.integers :=
  fun _ h => congrArg Except.ok (Json.map_asciiBytes (ascii_of_lines h))

theorem splitProvider_feeds : Feeds Reader.integers (fun _ => some splitRequest) 60 splitProvider := by
  have hanswer : completions splitRequest = .streaming 0 (stream splitRequest splitScript) := by rfl
  have hwire : wire (stream splitRequest splitScript) = some splitBytes := wire_ascii fun t ht => ascii_stream ht
  constructor
  · intro request req hreq
    cases hreq
    decide
  · intro request req delay response v hreq h
    cases hreq
    rw [hanswer] at h
    cases h
  · intro request req delay response hreq h
    cases hreq
    rw [hanswer] at h
    cases h
  · intro request req delay pieces hreq h _
    cases hreq
    rw [hanswer] at h
    cases h
    refine ⟨⟨splitBytes, rfl, hwire⟩, [splitBytes], rfl, by rw [hwire, List.flatten_singleton], ?_⟩
    intro pre chunk post hchunks
    cases pre with
    | nil =>
        obtain ⟨rfl, -⟩ := List.cons_eq_cons.mp hchunks
        decide +kernel
    | cons y pre => simp at hchunks
  · intro request req delay pieces hreq h hslow
    cases hreq
    rw [hanswer] at h
    cases h
    exact absurd hslow (by decide +kernel)

theorem heard_eq_audible_split : heard Reader.integers.decoder (Guardrail.completions .ascii Reader.integers.decoder luhnConfig
    ⟨str "a1", by decide⟩ splitProvider (asciiBytes (str "\x7b\x7d"))) =
    .message (str "Here are the details you asked for. " ++ str "Email: [REDACTED]. " ++ str "SSN: [REDACTED]. " ++
      str "Card: [REDACTED]. " ++ str "Let me know if you need anything else.") := by
  have hbody : Reader.integers.decoder.loadsBytes (asciiBytes (str "\x7b\x7d")) = .ok (.dict []) := by rfl
  rw [heard_eq_audible .ascii luhnConfig ⟨str "a1", by decide⟩ integers_decodes splitProvider_feeds hbody rfl (by decide +kernel)
    (by decide +kernel) (by decide +kernel)]
  exact congrArg Heard.message (by decide +kernel)

end Audible

end LlmGateway.MockProvider
