import LlmGateway.GuardrailBuffered
import LlmGateway.GuardrailEvents

namespace LlmGateway.Guardrail

open Sse Redactor Splitting Utf8
open Json (Members Decoder)
open Router (RequestId)

section Handler

/-- The provider behind the guardrail, asked with the body of a request. It
raises what is no httpx2.HTTPError. -/
structure Provider where
  post : Members → Except Unhandled (Reply Bytes)
  stream : Members → Except Raised (Reply (List Bytes × Option Raised))

/-- A response, or the stream that a client is sent and what breaks it. -/
inductive Served
  | response (result : Except Unhandled Response)
  | stream (headers : List (Text × Text)) (body : List Sent × Option Raised)

def streamHeaders : List (Text × Text) := [(str "cache-control", str "no-cache"), (str "x-guardrail", str "pii-redaction")]

def invalidRequest (requestId : RequestId) : Except Unhandled Response :=
  let error : GatewayError := ⟨.invalidRequest, requestId.text, none⟩
  Response.ofJson error.toResponse error.statusCode []

/-- body.get("stream") is False -/
def isBuffered (request : Members) : Bool :=
  match request.get? (str "stream") with
  | some (.bool false) => true
  | _ => false

variable (U : Unicode) (json : Decoder) (config : GuardrailConfig) (requestId : RequestId) (provider : Provider)

def completions (body : Bytes) : Served :=
  match json.loadsBytes body with
  | .error .jsonDecodeError => .response (invalidRequest requestId)
  | .error e => .response (.error (.load e))
  | .ok (.dict request) =>
    if isBuffered request then
      match provider.post request with
      | .error exc => .response (.error exc)
      | .ok reply => .response (proxyBuffered U json requestId.text reply)
    else
      match provider.stream request with
      | .error exc => .stream streamHeaders ([], some exc)
      | .ok reply => .stream streamHeaders (proxyStreaming U json config requestId.text reply)
  | .ok _ => .response (.error .attributeError)

end Handler

section Client

/-- What a client is left with: a whole message, an error in the words of the
guardrail, something that is neither, no event at all, or a request that an
exception has ended. -/
inductive Heard
  | message (text : Text)
  | refused
  | nothing
  | silence
  | broken

def Heard.ofText : Option Text → Heard
  | some text => .message text
  | none => .nothing

variable (json : Decoder)

/-- [DONE] makes a message of the texts before it. -/
def heardEvents (events : List Dispatched) : Heard :=
  if events.isEmpty then .silence
  else if events.any fun e => e.type = str "error" then .refused
  else if events.any fun e => e.data = done then .message (events.flatMap fun e => valueText json e.data)
  else .nothing

def heardResponse : Except Unhandled Response → Heard
  | .error _ => .broken
  | .ok response =>
    if 400 ≤ response.status then .refused
    else
      match response.content with
      | .json payload => .ofText (messageContent payload)
      | _ => .nothing

def heard : Served → Heard
  | .response result => heardResponse result
  | .stream _ (_, some _) => .broken
  | .stream _ (sent, none) =>
    match wire (sent.map Sent.text) with
    | none => .broken
    | some x => heardEvents json (clientEvents x)

/-- A stream of frames that [DONE] ends is a message. -/
theorem heardEvents_done (frames : List Members) :
    heardEvents json ((frames.map fun frame => ⟨defaultType, Emission.payloadText frame⟩) ++ [⟨defaultType, done⟩]) =
      .message (frames.flatMap fun frame => valueText json (Emission.payloadText frame)) := by
  have htype : defaultType ≠ str "error" := by decide
  have hdone : valueText json done = [] := if_pos rfl
  simp [heardEvents, htype, hdone, List.flatMap_map]

end Client

variable {U : Unicode} {json : Decoder} {config : GuardrailConfig} {requestId : RequestId} {provider : Provider}
  {request : Members} {body content : Bytes} {chunks : List Bytes} {t : Text} {status : Int} {payload : Json}

section Refusal

theorem heard_unavailable : heardResponse (unavailable requestId.text) = .refused := by
  rw [unavailable_eq]
  rfl

/-- A client of the stream hears what each piece says. -/
theorem heard_sent {sent : List Sent} (h : ∀ s ∈ sent, scalar s.text) (headers : List (Text × Text)) :
    heard json (.stream headers (sent, none)) = heardEvents json ((unmarked (sent.map Sent.text)).flatMap eventsOf) := by
  obtain ⟨x, hx, hevents⟩ := clientEvents_sent h
  rw [heard, hx]
  exact congrArg (heardEvents json) hevents

theorem heard_errorFrame {reply : Reply (List Bytes × Option Raised)}
    (h : proxyStreaming U json config requestId.text reply = ([errorFrame requestId.text .upstreamUnavailable], none))
    (headers : List (Text × Text)) :
    heard json (.stream headers (proxyStreaming U json config requestId.text reply)) = .refused := by
  have hscalar := @scalar_sent U json config requestId.text reply
  rw [h] at hscalar ⊢
  have hmark : unmarked ([errorFrame requestId.text .upstreamUnavailable].map Sent.text) =
      [(errorFrame requestId.text .upstreamUnavailable).text] := rfl
  rw [heard_sent (fun s hs => hscalar hs), hmark, List.flatMap_singleton, errorFrame, eventsOf_error]
  rfl

theorem completions_buffered (hbody : json.loadsBytes body = .ok (.dict request)) (hbuffered : isBuffered request = true)
    {reply : Reply Bytes} (hreply : provider.post request = .ok reply) :
    completions U json config requestId provider body = .response (proxyBuffered U json requestId.text reply) := by
  simp only [completions, hbody, hbuffered, if_true, hreply]

theorem completions_streaming (hbody : json.loadsBytes body = .ok (.dict request)) (hbuffered : isBuffered request = false)
    {reply : Reply (List Bytes × Option Raised)} (hreply : provider.stream request = .ok reply) :
    completions U json config requestId provider body =
      .stream streamHeaders (proxyStreaming U json config requestId.text reply) := by
  simp [completions, hbody, hbuffered, hreply]

end Refusal

section Answers

variable {line : Text} {ls : List Text} {r : StreamingRedactor} {ending : Option Raised}

theorem lineKind_ne_http (line : Text) : lineKind U json line ≠ .refused .httpError := by
  intro h
  rw [lineKind] at h
  simp only at h
  split at h
  · cases h
  split at h
  · cases h
  split at h
  · cases h
  split at h
  · next e he => cases e <;> cases h
  · split at h <;> cases h
  · cases h

theorem transformLine_ne_http (line : Text) (r : StreamingRedactor) : (transformLine U json line r).raised ≠ some .httpError := by
  intro h
  rw [transformLine] at h
  split at h
  · cases h
  · split at h <;> cases h
  · cases h
  · next exc hk =>
      cases h
      exact lineKind_ne_http line hk
  · split at h <;> cases h
  · dsimp only at h
    split at h
    · cases h
    · split at h
      · next e he =>
          cases h
          rcases withText_python he with h | h | h | h <;> cases h
      · cases h

theorem transformLines_ne_http (ls : List Text) (r : StreamingRedactor) : (transformLines U json ls r).raised ≠ some .httpError := by
  induction ls generalizing r with
  | nil =>
      intro h
      cases h
  | cons line ls ih =>
      rw [transformLines]
      split
      · next exc hraised =>
          intro h
          cases h
          exact transformLine_ne_http line r hraised
      · exact ih _

/-- What the loop over the chunks ends with, where the connection itself breaks with no other exception. -/
theorem iterLoop_ends (hending : ending = none ∨ ending = some .httpError) (pending : Text) (chunks : List Bytes) {exc : Raised}
    (h : (iterLoop ending pending chunks).2 = some exc) : (∃ reason, exc = .malformedStream reason) ∨ exc = .httpError := by
  induction chunks generalizing pending with
  | nil =>
      rcases hending with rfl | rfl
      · cases h
      · cases h
        exact Or.inr rfl
  | cons chunk chunks ih =>
      rw [iterLoop] at h
      dsimp only at h
      split at h
      · cases h
        exact Or.inl ⟨_, rfl⟩
      · exact ih _ h

variable (U json config) in
/-- A reply whose stream comes to its end. -/
def Streams (reply : Reply (List Bytes × Option Raised)) : Prop :=
  match reply with
  | .failed => True
  | .response status (chunks, ending) => 400 ≤ status ∨ HandledAll U json (newRedactor config) (iterLines ending chunks).1

theorem proxyStreaming_ends {reply : Reply (List Bytes × Option Raised)}
    (hending : ∀ status chunks ending, reply = .response status (chunks, ending) → ending = none ∨ ending = some .httpError) :
    (proxyStreaming U json config requestId.text reply).2 = none ↔ Streams U json config reply := by
  cases reply with
  | failed => exact iff_of_true rfl trivial
  | response status body =>
      obtain ⟨chunks, ending⟩ := body
      rw [Streams]
      by_cases hstatus : 400 ≤ status
      · exact iff_of_true (by rw [proxyStreaming, if_pos hstatus]) (Or.inl hstatus)
      rw [or_iff_right hstatus, proxyStreaming_ends_iff config requestId.text (not_le.mp hstatus), redactStream_raised,
        ← contained_lines_iff (iterLines_scalar ending chunks)]
      cases hraised : (transformLines U json (iterLines ending chunks).1 (newRedactor config)).raised with
      | none => exact iff_of_true (fun exc h => iterLoop_ends (hending _ _ _ rfl) [] chunks h) contained_none
      | some exc =>
          have hne : exc ≠ .httpError := by
            rintro rfl
            exact transformLines_ne_http _ _ hraised
          constructor
          · intro h exc' he
            cases he
            exact (h exc rfl).resolve_right hne
          · exact fun h exc' he => Or.inl (h exc' he)

/-- The request is answered to its end, and no exception leaves the handler. -/
def Served.Whole : Served → Prop
  | .response result => ∃ response, result = .ok response
  | .stream _ body => body.2 = none

variable (U json config provider) in
/-- A body that is no JSON is answered, and an object is if the provider's reply can be. -/
def Servable (body : Bytes) : Prop :=
  match json.loadsBytes body with
  | .error e => e = .jsonDecodeError
  | .ok (.dict request) =>
    if isBuffered request then ∃ reply, provider.post request = .ok reply ∧ Answerable json reply
    else ∃ reply, provider.stream request = .ok reply ∧ Streams U json config reply
  | .ok _ => False

/-- Where an exception leaves the handler, or breaks the stream. -/
theorem completions_whole_iff (U : Unicode) (json : Decoder) (config : GuardrailConfig) (requestId : RequestId) (provider : Provider)
    (hending : ∀ request status chunks ending, provider.stream request = .ok (.response status (chunks, ending)) →
      ending = none ∨ ending = some .httpError) (body : Bytes) :
    (completions U json config requestId provider body).Whole ↔ Servable U json config provider body := by
  rw [completions, Servable]
  cases hload : json.loadsBytes body with
  | error e =>
      cases e with
      | jsonDecodeError =>
          refine iff_of_true ⟨Router.envelope .invalidRequest requestId none, ?_⟩ rfl
          exact Response.ofJson_eq_ok.mpr ⟨Router.renderable_toResponse .invalidRequest requestId none, rfl⟩
      | unicodeDecodeError | valueError | recursionError => exact iff_of_false (fun ⟨_, h⟩ => by cases h) fun h => by cases h
  | ok v =>
      cases v with
      | dict request =>
          dsimp only
          cases hbuffered : isBuffered request with
          | true =>
              rw [if_pos rfl, if_pos rfl]
              cases hreply : provider.post request with
              | error exc => exact iff_of_false (fun ⟨_, h⟩ => by cases h) (fun ⟨_, h, _⟩ => by cases h)
              | ok reply =>
                  simp only [Except.ok.injEq, exists_eq_left']
                  exact proxyBuffered_ok_iff reply
          | false =>
              rw [if_neg Bool.false_ne_true, if_neg Bool.false_ne_true]
              cases hreply : provider.stream request with
              | error exc => exact iff_of_false (fun h => by cases h) (fun ⟨_, h, _⟩ => by cases h)
              | ok reply =>
                  simp only [Except.ok.injEq, exists_eq_left']
                  exact proxyStreaming_ends fun status chunks ending h => hending request status chunks ending (by rw [hreply, h])
      | null | bool _ | int _ | float _ | str _ | list _ => exact iff_of_false (fun ⟨_, h⟩ => by cases h) id

/-- A provider that answers with a list. -/
def listProvider : Provider := ⟨fun _ => .ok (.response 200 (written (.list []))), fun _ => .ok .failed⟩

theorem completions_whole_iff_list : ¬ (completions .ascii Json.Reader.integers.decoder luhnConfig ⟨str "a1", by decide⟩ listProvider
    (written (.dict [(str "stream", .bool false)]))).Whole := by
  have hload : Json.Reader.integers.decoder.loadsBytes (written (.dict [(str "stream", .bool false)])) =
      .ok (.dict [(str "stream", .bool false)]) := loadsBytes_written rfl rfl
  have hlist : Json.Reader.integers.decoder.loadsBytes (written (.list [])) = .ok (.list []) := loadsBytes_written rfl rfl
  rw [completions_whole_iff .ascii Json.Reader.integers.decoder luhnConfig ⟨str "a1", by decide⟩ listProvider
    (fun _ _ _ _ h => by cases h), Servable, hload]
  rintro ⟨reply, hreply, hanswerable⟩
  cases hreply
  rcases hanswerable with hstatus | ⟨payload, hpayload, -⟩
  · exact absurd hstatus (by decide)
  · rw [hlist] at hpayload
    cases hpayload

end Answers

section Object

/-- A JSON object as JSONResponse writes it: on one line. -/
def OneLine (content : Bytes) : Prop := ∃ t, decodeReplace content = chr '\x7b' :: t ∧ lf ∉ t ∧ cr ∉ t

/-- However it is cut, it is one line that is no data line. -/
theorem seen_object (h : OneLine chunks.flatten) : ∃ line : Line, seen chunks = line.text ∧ line.text.head? = some (chr '\x7b') := by
  obtain ⟨t, ht, hlf, hcr⟩ := h
  have hparts := garbled_parts chunks
  rw [ht] at hparts
  change Garbled _ (seen chunks) at hparts
  generalize seen chunks = u at hparts
  cases hparts with
  | kept c hrest =>
      have hnot {c : CodePoint} (hascii : isAscii c) (hne : c ≠ chr '\x7b') (hc : c ∉ t) : c ∉ chr '\x7b' :: _ :=
        fun hmem => (List.mem_cons.mp hmem).elim hne fun hmem => hc (hrest.mem_of_ascii hascii hmem)
      exact ⟨⟨_, false, hnot (by decide) (by decide) hlf, hnot (by decide) (by decide) hcr⟩, rfl, rfl⟩
  | lost c n hc hrest => cases hc

variable {line : Line}

theorem lineKind_object (hline : line.text.head? = some (chr '\x7b')) : lineKind U json line.text = .passed line.text := by
  have hstrip : rstripCr line.text = line.text := by
    have hread : (Line.mk line.text false line.whole).read = line.text := List.append_nil _
    have := Line.rstripCr_read (Line.mk line.text false line.whole)
    rwa [hread] at this
  cases htext : line.text with
  | nil =>
      rw [htext] at hline
      cases hline
  | cons c t =>
      rw [htext] at hstrip hline
      rw [lineKind, hstrip, if_neg (List.cons_ne_nil c t)]
      cases hline
      rfl

theorem eventsOf_object (hline : line.text.head? = some (chr '\x7b')) : eventsOf (Emission.passed line.text).text = [] := by
  have hlines : clientLines (Emission.passed line.text).text = [line.text, []] := pieces_blankLine line.whole.1 line.whole.2
  rw [eventsOf, hlines]
  cases htext : line.text with
  | nil => rfl
  | cons c t =>
      rw [htext] at hline
      cases hline
      rfl

/-- A provider that answers a stream's request in one JSON object is passed on
as it stands, and no redactor sees it. -/
theorem proxyStreaming_object (hobject : OneLine chunks.flatten) (hfit : WithinCap [] chunks) (hstatus : status < 400) :
    proxyStreaming U json config requestId.text (.response status (chunks, none)) = ([.emission (.passed (seen chunks))], none) := by
  obtain ⟨line, hseen, hline⟩ := seen_object hobject
  have hne : line.text ≠ [] := by
    intro h
    rw [h] at hline
    cases hline
  have hlines : linesOf (seen chunks) = [line.text] := by
    obtain ⟨hpieces, hrest⟩ := of_not_mem line.whole.1
    rw [hseen, linesOf, records, hpieces, hrest, if_neg hne, List.nil_append]
  have hscalar : scalar line.text := by
    rw [← hseen, seen, scalar, List.all_flatten, List.all_map]
    exact List.all_eq_true.mpr fun x _ => scalar_decodeReplace x
  have hstep (r : StreamingRedactor) : transformLine U json line.text r = ⟨[.passed line.text], r, none⟩ := by
    simp [transformLine, lineKind_object hline, hscalar]
  have hrun : redactStream U json none chunks (newRedactor config) =
      ⟨[.passed line.text] ++ released ((newRedactor config).flush U).1, ((newRedactor config).flush U).2, none⟩ := by
    simp [redactStream, iterLines_ended hfit, hlines, transformLines, hstep, Emission.isDone]
  have hflush : ((newRedactor config).flush U).1 = [] := by
    rfl
  rw [hflush] at hrun
  simp [proxyStreaming, not_le.mpr hstatus, hrun, released, hseen]

theorem heard_object (hobject : OneLine chunks.flatten) (hfit : WithinCap [] chunks) (hstatus : status < 400)
    (headers : List (Text × Text)) : heard json (.stream headers
      (proxyStreaming U json config requestId.text (.response status (chunks, none)))) = .silence := by
  have hscalar := @scalar_sent U json config requestId.text (.response status (chunks, none))
  obtain ⟨line, hseen, hline⟩ := seen_object hobject
  rw [proxyStreaming_object hobject hfit hstatus, hseen] at hscalar ⊢
  have hhead : (Emission.passed line.text).text.head? ≠ some byteOrderMark := by
    rw [Emission.text, List.head?_append, hline]
    decide
  have hmark : unmarked ([Sent.emission (.passed line.text)].map Sent.text) = [(Emission.passed line.text).text] :=
    unmarked_of_head fun t ht => List.mem_singleton.mp ht ▸ hhead
  rw [heard_sent (fun s hs => hscalar hs), hmark, List.flatMap_singleton, eventsOf_object hline]
  rfl

end Object

end LlmGateway.Guardrail
