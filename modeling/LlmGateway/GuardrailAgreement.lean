import LlmGateway.GuardrailStream
import LlmGateway.RedactorReference

namespace LlmGateway.Guardrail

open Sse Redactor Utf8
open Json (Members Decoder)

variable {U : Unicode} {json : Decoder} {line : Text} {r : StreamingRedactor}
variable {frame : Members} {text t : Text} {es : List Emission} {chunks : List Bytes}

section Client

variable (json)

/-- The text of a data value. -/
def valueText (v : Text) : Text :=
  if v = done then []
  else
    match json.loads v with
    | .ok (.dict frame) => (deltaText frame).getD []
    | _ => []

/-- The text that a client puts together from an event stream. -/
def clientText (x : Bytes) : Text := (clientValues x).flatMap (valueText json)

/-- json.loads reads what json.dumps has written. -/
def ReadsBack (frame : Members) : Prop := json.loads (Emission.payloadText frame) = .ok (.dict frame)

variable {json}

theorem payloadText_ne_done (payload : Members) : Emission.payloadText payload ≠ done := by
  intro h
  rw [Emission.payloadText, Json.dumps] at h
  exact absurd (List.cons_eq_cons.mp h).1 (by decide)

theorem valueText_payloadText (h : ReadsBack json frame) :
    valueText json (Emission.payloadText frame) = (deltaText frame).getD [] := by
  rw [valueText, if_neg (payloadText_ne_done frame), h]

/-- With or without the mark a client reads the text that was put in. -/
theorem valueText_emission {e : Emission}
    (hp : ∀ stripped, e = .passed stripped → dataValues (dropMark (Emission.passed stripped).text) = [])
    (hf : ∀ frame, e = .frame frame → ReadsBack json frame) :
    (dataValues e.text).flatMap (valueText json) = contentOf e ∧
      (dataValues (dropMark e.text)).flatMap (valueText json) = contentOf e := by
  cases e with
  | passed stripped =>
      have hmarked := hp stripped rfl
      have hplain : dataValues (Emission.passed stripped).text = [] :=
        List.eq_nil_iff_forall_not_mem.mpr fun v hv => by
          have hv' := mem_dataValues_dropMark hv
          rw [hmarked] at hv'
          exact absurd hv' List.not_mem_nil
      rw [hplain, hmarked]
      exact ⟨rfl, rfl⟩
  | done =>
      rw [dropMark_done, dataValues_done]
      exact ⟨rfl, rfl⟩
  | frame payload =>
      rw [dropMark_frame, dataValues_frame, List.flatMap_singleton, valueText_payloadText (hf payload rfl)]
      exact ⟨rfl, rfl⟩

theorem received_eq (hp : ∀ stripped, Emission.passed stripped ∈ es → dataValues (dropMark (Emission.passed stripped).text) = [])
    (hf : ∀ frame, Emission.frame frame ∈ es → ReadsBack json frame) :
    (dataValues (unmarked (es.map Emission.text)).flatten).flatMap (valueText json) = received es := by
  have hone (e : Emission) (he : e ∈ es) :=
    @valueText_emission json e (fun stripped h => hp stripped (h ▸ he)) fun frame h => hf frame (h ▸ he)
  rw [dataValues_flatten unmarked_whole, List.flatMap_assoc, received]
  cases es with
  | nil => rfl
  | cons e es =>
      rw [List.map_cons, unmarked, List.flatMap_cons, List.flatMap_cons, (hone e List.mem_cons_self).2, List.flatMap_map]
      exact congrArg _ (List.flatMap_congr fun e he => (hone e (List.mem_cons_of_mem _ he)).1)

theorem ordinary_or_done (s : DeltaStream U json) (h : line ∈ s.lines) :
    Ordinary U json line ∨ lineKind U json line = .done := by
  simp only [DeltaStream.lines, List.mem_append, List.mem_cons] at h
  rcases h with h | h | h | rfl | h
  · exact Or.inl (s.opening_framing line h).1
  · exact Or.inl (s.body_ordinary line h).1
  · exact Or.inl (s.closing_framing line h).1
  · exact Or.inr s.last_done
  · exact Or.inl (s.after_framing line h).1

/-- What the client puts together is what the redactor makes of the deltas. -/
theorem clientText_stream (s : DeltaStream U json) (hlines : iterLines none chunks = (s.lines, none)) (hb : r.buffer = [])
    (hread : ∀ frame, Emission.frame frame ∈ (redactStream U json none chunks r).emissions → ReadsBack json frame) :
    ∃ x, wire ((redactStream U json none chunks r).emissions.map Emission.text) = some x ∧
      clientText json x = r.stream U s.deltas := by
  obtain ⟨x, hx, hd⟩ := wire_emissions (redactStream U json none chunks r).emissions fun e he => scalar_emission he
  refine ⟨x, hx, ?_⟩
  rw [clientText, clientValues, hd, received_eq (fun stripped he => ?_) hread, (redactStream_stream s hlines hb).2]
  rcases redactStream_emissions he with ⟨line, hline, stripped', hk, -, heq⟩ | h | ⟨payload, h, -⟩
  · cases heq
    have hmem := mem_of_mem_handled hline
    rw [hlines] at hmem
    rcases ordinary_or_done s hmem with ho | hdone
    · rw [Ordinary, hk] at ho
      exact ho
    · rw [hk] at hdone
      cases hdone
  · cases h
  · cases h

end Client

section Message

/-- choice["message"]["content"] if it is a string. -/
def choiceContent (choice : Members) : Option Text :=
  match choice.get? (str "message") with
  | some (.dict message) =>
    match Members.get? message (str "content") with
    | some (.str content) => some content
    | _ => none
  | _ => none

/-- choices[0].message.content if it is a string. -/
def messageContent : Json → Option Text
  | .dict payload =>
    match Members.get? payload (str "choices") with
    | some (.list (.dict choice :: _)) => choiceContent choice
    | _ => none
  | _ => none

theorem choiceContent_eq_some {choice : Members} (h : choiceContent choice = some text) : ∃ message,
    choice.get? (str "message") = some (.dict message) ∧ Members.get? message (str "content") = some (.str text) := by
  rw [choiceContent] at h
  split at h
  · next message hm =>
      split at h
      · next content hc =>
          cases h
          exact ⟨message, hm, hc⟩
      · cases h
  · cases h

theorem redactChoice_dict (choice : Members) : ∃ choice', redactChoice U (.dict choice) = .ok (.dict choice') := by
  rw [redactChoice]
  split
  · split
    · exact ⟨_, rfl⟩
    · exact ⟨choice, rfl⟩
  · exact ⟨choice, rfl⟩

theorem redactChoice_content {choice : Members} {v : Json} (h : choiceContent choice = some text)
    (hr : redactChoice U (.dict choice) = .ok v) :
    ∃ choice', v = .dict choice' ∧ choiceContent choice' = some (redact U text) := by
  obtain ⟨message, hm, hc⟩ := choiceContent_eq_some h
  simp only [redactChoice, hm, hc, Except.ok.injEq] at hr
  exact ⟨_, hr.symm, by simp only [choiceContent, Members.get?_set_self]⟩

section Every

variable {okFloat : FloatRepr → Bool} {okText : Text → Bool}
variable (hT : ∀ s, okText s → okText (redact U s)) (hkeys : [str "choices", str "message", str "content"].all okText)
include hT hkeys

theorem every_redactChoice {v w : Json} (h : v.every okFloat okText) (hr : redactChoice U v = .ok w) :
    w.every okFloat okText := by
  simp only [List.all_cons, List.all_nil, Bool.and_true, Bool.and_eq_true] at hkeys
  obtain ⟨-, hmessage, hcontent⟩ := hkeys
  cases v with
  | dict choice =>
      rw [redactChoice] at hr
      rw [Json.every] at h
      split at hr
      · next message hm =>
          have hmem := Json.every_of_get? h hm
          rw [Json.every] at hmem
          split at hr
          · next content hc =>
              have htext := Json.every_of_get? hmem hc
              rw [Json.every] at htext
              cases hr
              have hstr : (Json.str (redact U content)).every okFloat okText := by
                rw [Json.every]
                exact hT content htext
              have hdict : (Json.dict (Members.set message (str "content") (.str (redact U content)))).every okFloat okText := by
                rw [Json.every]
                exact Json.everyMember_set hmem hcontent hstr
              rw [Json.every]
              exact Json.everyMember_set h hmessage hdict
          · cases hr
            rwa [Json.every]
      · cases hr
        rwa [Json.every]
  | null | bool _ | int _ | float _ | str _ | list _ => cases hr

theorem every_choices {vs ws : List Json} (h : List.Forall₂ (fun v w => redactChoice U v = .ok w) vs ws)
    (hvs : (Json.list vs).every okFloat okText) : (Json.list ws).every okFloat okText := by
  rw [Json.every, Json.everyItem_iff] at *
  induction h with
  | nil => exact hvs
  | cons hr _ ih =>
      obtain ⟨hv, hvs⟩ := List.forall_mem_cons.mp hvs
      exact List.forall_mem_cons.mpr ⟨every_redactChoice hT hkeys hv hr, ih hvs⟩

end Every

theorem messageContent_eq_some {outer : Members} (h : messageContent (.dict outer) = some text) : ∃ choice rest,
    outer.get? (str "choices") = some (.list (.dict choice :: rest)) ∧ choiceContent choice = some text := by
  rw [messageContent] at h
  split at h
  · next choice rest hc => exact ⟨choice, rest, hc, h⟩
  · cases h

theorem redactPayload_eq {outer : Members} {choices : List Json} (ho : ObjectChoices outer)
    (h : outer.get? (str "choices") = some (.list choices)) :
    ∃ ws, redactPayload U (.dict outer) = .ok (.dict (outer.set (str "choices") (.list ws))) ∧
      List.Forall₂ (fun v w => redactChoice U v = .ok w) choices ws := by
  obtain ⟨ws, hws, hall⟩ := mapM_ok (f := redactChoice U) fun v hv => by
    obtain ⟨choice, rfl⟩ := ho _ h v hv
    exact (redactChoice_dict choice).imp' _ fun _ => id
  exact ⟨ws, by simp only [redactPayload, h, hws], hall⟩

theorem scalar_redact (t : Text) : scalar (redact U t) = scalar t :=
  all_redact (fun d hd => by simp [not_isSurrogate_of_matchChar hd]) (by decide)

/-- The buffered path changes the content only, and renders what can be rendered. -/
theorem redactPayload_message {outer : Members} (ho : ObjectChoices outer) (h : messageContent (.dict outer) = some t) :
    ∃ payload, redactPayload U (.dict outer) = .ok payload ∧ messageContent payload = some (redact U t) ∧
      (Response.Renderable (.dict outer) → Response.Renderable payload) := by
  obtain ⟨choice, rest, hc, ht⟩ := messageContent_eq_some h
  obtain ⟨ws, hws, hall⟩ := redactPayload_eq (U := U) ho hc
  refine ⟨_, hws, ?_, ?_⟩
  · cases hall with
    | cons hr _ =>
        obtain ⟨choice', rfl, hcontent⟩ := redactChoice_content ht hr
        simp only [messageContent, Members.get?_set_self, hcontent]
  · have hset {okFloat : FloatRepr → Bool} {okText : Text → Bool} (hT : ∀ s, okText s → okText (redact U s))
        (hkeys : [str "choices", str "message", str "content"].all okText)
        (hv : (Json.dict outer).every okFloat okText) :
        (Json.dict (outer.set (str "choices") (.list ws))).every okFloat okText := by
      rw [Json.every] at *
      refine Json.everyMember_set hv ?_ (every_choices hT hkeys hall (Json.every_of_get? hv hc))
      simp only [List.all_cons, Bool.and_eq_true] at hkeys
      exact hkeys.1
    rintro ⟨hfloat, htext⟩
    exact ⟨hset (fun _ _ => rfl) rfl hfloat, hset (fun s hs => by rwa [scalar_redact]) (by decide) htext⟩

theorem scalar_of_renderable {v : Json} (h : Response.Renderable v) (ht : messageContent v = some text) : scalar text := by
  cases v with
  | dict outer =>
      obtain ⟨choice, rest, hc, hcontent⟩ := messageContent_eq_some ht
      obtain ⟨message, hm, hs⟩ := choiceContent_eq_some hcontent
      have h1 := h.2
      rw [Json.every] at h1
      have h2 := Json.every_of_get? h1 hc
      rw [Json.every, Json.everyItem_iff] at h2
      have h3 := h2 _ List.mem_cons_self
      rw [Json.every] at h3
      have h4 := Json.every_of_get? h3 hm
      rw [Json.every] at h4
      have h5 := Json.every_of_get? h4 hs
      rwa [Json.every] at h5
  | null | bool _ | int _ | float _ | str _ | list _ => cases ht

end Message

section Agreement

variable {config : GuardrailConfig} {requestId : Text}

/-- What the client puts together from the stream is the content of the
buffered response. -/
def Agree (U : Unicode) (json : Decoder) (config : GuardrailConfig) (requestId : Text)
    (stream : Reply (List Bytes × Option Raised)) (message : Reply Bytes) : Prop :=
  ∃ sent x response value, proxyStreaming U json config requestId stream = (sent, none) ∧
    wire (sent.map Sent.text) = some x ∧ proxyBuffered U json requestId message = .ok response ∧
    response.content = .json value ∧ messageContent value = some (clientText json x)

theorem stream_of_runs (hhold : (maxPatternLength : Int) ≤ config.holdCharacters) {deltas : List Text}
    (hruns : RunsBelow U deltas.flatten config.holdCharacters) :
    (newRedactor config).stream U deltas = (substitute U config.requireLuhn deltas.flatten).1 := by
  rw [newRedactor, (sound_of_keepsContext hhold fun k _ => Or.inl (tail_le_of_runsBelow hruns _)).stream_eq]
  rfl

theorem proxyStreaming_stream (config : GuardrailConfig) (requestId : Text) {status : Int} (s : DeltaStream U json) (hstatus : status < 400)
    (hlines : iterLines none chunks = (s.lines, none)) :
    proxyStreaming U json config requestId (.response status (chunks, none)) =
      ((redactStream U json none chunks (newRedactor config)).emissions.map .emission, none) := by
  have hraised := (redactStream_stream (r := newRedactor config) s hlines rfl).1
  simp only [proxyStreaming, if_neg (Int.not_le.mpr hstatus), hraised]

theorem proxyBuffered_payload (requestId : Text) {status : Int} {content : Bytes} {payload payload' : Json} (hstatus : status < 400)
    (hload : json.loadsBytes content = .ok payload) (hr : redactPayload U payload = .ok payload') :
    proxyBuffered U json requestId (.response status content) = Response.ofJson payload' 200 [] := by
  simp only [proxyBuffered, if_neg (Int.not_le.mpr hstatus), hload, hr]

/-- The two paths agree exactly on texts without surrogates of which the
configured redactor spares no match and which the default hold cuts with their
context. -/
theorem agree_iff (U : Unicode) (json : Decoder) (config : GuardrailConfig) (requestId : Text)
    {t : Text} {status status' : Int} {chunks : List Bytes} {content : Bytes} {outer : Members} (s : DeltaStream U json)
    (hhold : (maxPatternLength : Int) ≤ config.holdCharacters) (hruns : RunsBelow U t config.holdCharacters)
    (hstatus : status < 400) (hstatus' : status' < 400)
    (hlines : iterLines none chunks = (s.lines, none)) (hdeltas : s.deltas.flatten = t)
    (hload : json.loadsBytes content = .ok (.dict outer)) (hchoices : ObjectChoices outer)
    (hcontent : messageContent (.dict outer) = some t) (hrender : scalar t → Response.Renderable (.dict outer))
    (hread : scalar t → ∀ frame, Emission.frame frame ∈ (redactStream U json none chunks (newRedactor config)).emissions →
      ReadsBack json frame) :
    Agree U json config requestId (.response status (chunks, none)) (.response status' content) ↔
      scalar t ∧ (∀ m ∈ finditer U t, isReal U config.requireLuhn t m) ∧ KeepsContext U t defaultHold t.length := by
  subst hdeltas
  have hstream := stream_of_runs hhold hruns
  have hsent := proxyStreaming_stream config requestId s hstatus hlines
  obtain ⟨payload, hr, hmessage, hkeep⟩ := redactPayload_message (U := U) hchoices hcontent
  have hbuffered := proxyBuffered_payload requestId hstatus' hload hr
  have hclient (ht : scalar s.deltas.flatten) := clientText_stream s hlines (r := newRedactor config) rfl (hread ht)
  have htexts (es : List Emission) : (es.map Sent.emission).map Sent.text = es.map Emission.text := by
    rw [List.map_map]
    rfl
  rw [← redact_eq_substitute_iff]
  constructor
  · rintro ⟨sent, x, response, value, hsent', hwire, hresponse, hvalue, hagree⟩
    rw [hbuffered, Response.ofJson_eq_ok] at hresponse
    obtain ⟨hrenderable, rfl⟩ := hresponse
    cases hvalue
    have ht : scalar s.deltas.flatten := by
      rw [← scalar_redact (U := U)]
      exact scalar_of_renderable hrenderable hmessage
    obtain ⟨x', hx', hclient'⟩ := hclient ht
    rw [hsent] at hsent'
    cases hsent'
    rw [htexts, hx', Option.some.injEq] at hwire
    subst hwire
    rw [hmessage, hclient', hstream, Option.some.injEq] at hagree
    exact ⟨ht, hagree⟩
  · rintro ⟨ht, hredact⟩
    obtain ⟨x, hx, hclient'⟩ := hclient ht
    refine ⟨_, x, ⟨200, [], .json payload⟩, payload, hsent, by rw [htexts, hx], ?_, rfl, ?_⟩
    · rw [hbuffered]
      exact Response.ofJson_eq_ok.mpr ⟨hkeep (hrender ht), rfl⟩
    · rw [hmessage, hclient', hstream, hredact]

/-- A decoder that knows these frames. -/
def knowing (frames : List Members) : Decoder where
  parse t :=
    match frames.find? fun frame => Emission.payloadText frame = t with
    | some frame => .ok (.dict frame)
    | none => .error .jsonDecodeError
  parseBytes x :=
    match frames.find? fun frame => Emission.payloadText frame = decodeReplace x with
    | some frame => .ok (.dict frame)
    | none => .error .jsonDecodeError
  integral _ := none

def deltaFrame (text : Text) : Members :=
  [(str "choices", .list [.dict [(str "delta", .dict [(str "content", .str text)])]])]

def messageFrame (text : Text) : Members :=
  [(str "choices", .list [.dict [(str "message", .dict [(str "content", .str text)])]])]

def dataLine (v : Text) : Text := dataPrefix ++ v

/-- One chunk for each data value. -/
def chunksOf (vs : List Text) : List Bytes := vs.map fun v => asciiBytes (dataLine v ++ str "\n\n")

def bodyOf (frames : List Members) : List Text :=
  frames.flatMap fun frame => [dataLine (Emission.payloadText frame), []]

theorem objectChoices_deltaFrame (text : Text) : ObjectChoices (deltaFrame text) := by
  intro items h v hv
  have hc : (deltaFrame text).get? (str "choices") =
      some (.list [.dict [(str "delta", .dict [(str "content", .str text)])]]) := rfl
  rw [hc] at h
  cases h
  exact ⟨_, List.mem_singleton.mp hv⟩

theorem objectChoices_messageFrame (text : Text) : ObjectChoices (messageFrame text) := by
  intro items h v hv
  have hc : (messageFrame text).get? (str "choices") =
      some (.list [.dict [(str "message", .dict [(str "content", .str text)])]]) := rfl
  rw [hc] at h
  cases h
  exact ⟨_, List.mem_singleton.mp hv⟩

theorem ordinary_blank : Ordinary U json [] ∧ lineDelta U json [] = none ∧ ¬ Ends U json [] := by
  have hk : lineKind U json [] = .blank := rfl
  refine ⟨?_, ?_, fun ⟨frame, h, _⟩ => ?_⟩
  · rw [Ordinary, hk]
    trivial
  · rw [lineDelta, hk]
  · rw [hk] at h
    cases h

theorem ordinary_content (hk : lineKind U json line = .content frame text) (ho : ObjectChoices frame) :
    Ordinary U json line ∧ ¬ Ends U json line := by
  refine ⟨?_, fun ⟨frame', h, _⟩ => ?_⟩
  · rw [Ordinary, hk]
    exact ho
  · rw [hk] at h
    cases h

/-- A stream of delta frames that a blank line follows each. -/
def plainStream (texts : List Text) (h : ∀ text ∈ texts,
    lineKind U json (dataLine (Emission.payloadText (deltaFrame text))) = .content (deltaFrame text) text)
    (hdone : lineKind U json (dataLine done) = .done) : DeltaStream U json where
  opening := []
  body := bodyOf (texts.map deltaFrame)
  closing := []
  last := dataLine done
  after := [[]]
  opening_framing _ hl := absurd hl List.not_mem_nil
  body_ordinary line hl := by
    obtain ⟨frame, hframe, hl⟩ := List.mem_flatMap.mp hl
    obtain ⟨text, ht, rfl⟩ := List.mem_map.mp hframe
    rcases List.mem_cons.mp hl with rfl | hl
    · exact ordinary_content (h text ht) (objectChoices_deltaFrame text)
    · rw [List.mem_singleton.mp hl]
      exact ⟨ordinary_blank.1, ordinary_blank.2.2⟩
  closing_framing _ hl := absurd hl List.not_mem_nil
  last_done := hdone
  after_framing line hl := by
    rw [List.mem_singleton.mp hl]
    exact ⟨ordinary_blank.1, ordinary_blank.2.1⟩

theorem runsBelow_of_length {hold : Int} (h : (t.length : Int) < hold) : RunsBelow U t hold := by
  intro i n hrun
  by_contra hlt
  have := canContinueAMatch_lt (hrun (i + t.length) (by omega) (by omega))
  omega

def emailTexts : List Text := [str "hi jo@", str "ex.org"]

def emailDecoder : Decoder := knowing ((emailTexts ++ [str "hi "]).map deltaFrame ++
  [syntheticDelta redacted, messageFrame emailTexts.flatten])

def emailStream : DeltaStream .ascii emailDecoder :=
  plainStream emailTexts
    (List.forall_mem_cons.mpr ⟨rfl, List.forall_mem_cons.mpr ⟨rfl, fun _ h => absurd h List.not_mem_nil⟩⟩) rfl

/-- The Luhn gate is on. -/
def luhnConfig : GuardrailConfig := ⟨str "http://provider.test", 409, true, ⟨str "30.0", by decide⟩⟩

def wireOf (texts : List Text) : List Bytes :=
  chunksOf (texts.map (fun text => Emission.payloadText (deltaFrame text)) ++ [done])

set_option maxRecDepth 4000 in
theorem agree_email : Agree .ascii emailDecoder luhnConfig (str "id") (.response 200 (wireOf emailTexts, none))
    (.response 200 (asciiBytes (Emission.payloadText (messageFrame emailTexts.flatten)))) := by
  have hemissions : (redactStream .ascii emailDecoder none (wireOf emailTexts) (newRedactor luhnConfig)).emissions =
      [.frame (deltaFrame (str "hi ")), .frame (syntheticDelta redacted), .done] := by rfl
  refine (agree_iff .ascii emailDecoder luhnConfig (str "id") (t := emailTexts.flatten)
    emailStream (by decide) (runsBelow_of_length (by decide)) (by decide)
    (by decide) (by decide +kernel) (by decide +kernel) (by rfl) (objectChoices_messageFrame emailTexts.flatten) (by rfl)
    (fun _ => ⟨by decide +kernel, by decide +kernel⟩) (fun _ frame h => ?_)).mpr ⟨by decide, by decide +kernel, Or.inl (by decide +kernel)⟩
  rw [hemissions] at h
  simp only [List.mem_cons, Emission.frame.injEq, List.not_mem_nil, or_false] at h
  rcases h with rfl | rfl | h
  · rfl
  · rfl
  · cases h

/-- Sixteen digits that are no card number under the Luhn check. -/
def luhnText : Text := str "4111111111111112"

def luhnDecoder : Decoder := knowing [deltaFrame luhnText, syntheticDelta luhnText, messageFrame luhnText]

def luhnStream : DeltaStream .ascii luhnDecoder :=
  plainStream [luhnText] (List.forall_mem_cons.mpr ⟨rfl, fun _ h => absurd h List.not_mem_nil⟩) rfl

set_option maxRecDepth 4000 in
/-- The buffered path does not know the Luhn gate. -/
theorem not_agree_luhn : (maxPatternLength : Int) ≤ luhnConfig.holdCharacters ∧
    RunsBelow .ascii luhnText luhnConfig.holdCharacters ∧
    iterLines none (wireOf [luhnText]) = (luhnStream.lines, none) ∧ luhnStream.deltas.flatten = luhnText ∧
    messageContent (.dict (messageFrame luhnText)) = some luhnText ∧
    ¬ Agree .ascii luhnDecoder luhnConfig (str "id") (.response 200 (wireOf [luhnText], none))
      (.response 200 (asciiBytes (Emission.payloadText (messageFrame luhnText)))) := by
  refine ⟨by decide, runsBelow_of_length (by decide), by decide +kernel, by decide +kernel, by decide +kernel, ?_⟩
  rintro ⟨sent, x, response, value, hstream, hwire, hresponse, hvalue, hagree⟩
  have hsent : proxyStreaming .ascii luhnDecoder luhnConfig (str "id") (.response 200 (wireOf [luhnText], none)) =
      ([.emission (.frame (syntheticDelta luhnText)), .emission .done], none) := by rfl
  have hbytes : wire ([Sent.emission (.frame (syntheticDelta luhnText)), .emission .done].map Sent.text) =
      some (chunksOf [Emission.payloadText (syntheticDelta luhnText), done]).flatten := by decide +kernel
  have hbuffered : proxyBuffered .ascii luhnDecoder (str "id")
      (.response 200 (asciiBytes (Emission.payloadText (messageFrame luhnText)))) =
        .ok ⟨200, [], .json (.dict (messageFrame redacted))⟩ := by rfl
  have hclient : clientText luhnDecoder (chunksOf [Emission.payloadText (syntheticDelta luhnText), done]).flatten = luhnText := by
    decide +kernel
  rw [hsent] at hstream
  cases hstream
  rw [hbytes, Option.some.injEq] at hwire
  rw [hbuffered, Except.ok.injEq] at hresponse
  subst hwire hresponse
  cases hvalue
  rw [hclient] at hagree
  exact absurd hagree (by decide +kernel)

end Agreement

end LlmGateway.Guardrail
