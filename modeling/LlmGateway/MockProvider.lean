import LlmGateway.GuardrailAgreement
import LlmGateway.GuardrailEvents
import LlmGateway.JsonReread
import LlmGateway.RedactorDelivery

namespace LlmGateway.MockProvider

open Guardrail Sse Redactor Splitting Utf8
open Json (Members Decoder Reader reread joined Plain dumps defaultSeparators Printed Distinct)

section Provider

inductive Mode
  | stream
  | rateLimited
  | hang
  | splitPii
  | nonStream
  | serverError
  deriving DecidableEq

structure CompletionRequest where
  model : Text
  mode : Mode
  hangSeconds : ℚ
  chunkDelay : ℚ
  promptTokens : Int
  completionTokens : Int
  failingModel : Option Text

def plainScript : List Text :=
  [str "Sure. ", str "Your account ", str "is in good ", str "standing and ", str "no action is ", str "required."]

def piiText : Text :=
  str "Here are the details you asked for. " ++ str "Email: ada.lovelace@example.com. " ++ str "SSN: 123-45-6789. " ++
    str "Card: 4111-1111-1111-1111. " ++ str "Let me know if you need anything else."

def splitScript : List Text := [slice piiText 0 47, slice piiText 47 76, slice piiText 76 104, piiText.drop 104]

def sse (payload : Members) : Text := str "data: " ++ dumps defaultSeparators (.dict payload) ++ str "\n\n"

def deltaFrame (text model : Text) : Members :=
  [(str "id", .str (str "chatcmpl-mock")), (str "object", .str (str "chat.completion.chunk")), (str "model", .str model),
    (str "choices", .list [.dict [(str "index", .int 0), (str "delta", .dict [(str "content", .str text)]),
      (str "finish_reason", .null)]])]

def usage (req : CompletionRequest) : Json :=
  .dict [(str "prompt_tokens", .int req.promptTokens), (str "completion_tokens", .int req.completionTokens),
    (str "total_tokens", .int (req.promptTokens + req.completionTokens))]

def finalFrame (req : CompletionRequest) : Members :=
  [(str "id", .str (str "chatcmpl-mock")), (str "object", .str (str "chat.completion.chunk")), (str "model", .str req.model),
    (str "choices", .list [.dict [(str "index", .int 0), (str "delta", .dict []), (str "finish_reason", .str (str "stop"))]]),
    (str "usage", usage req)]

/-- The pieces that _stream yields. -/
def stream (req : CompletionRequest) (script : List Text) : List Text :=
  script.map (fun piece => sse (deltaFrame piece req.model)) ++ [sse (finalFrame req), str "data: [DONE]\n\n"]

def effective (req : CompletionRequest) : Mode :=
  match req.failingModel with
  | none => req.mode
  | some failing =>
    if req.model = failing then req.mode
    else
      match req.mode with
      | .rateLimited | .hang | .serverError | .nonStream => .nonStream
      | .stream | .splitPii => .stream

/-- What completions answers, and how many seconds a client waits for it, or for
the next piece of it. -/
inductive Answer
  | json (seconds : ℚ) (response : Response)
  | streaming (seconds : ℚ) (pieces : List Text)

def message (req : CompletionRequest) : Members :=
  [(str "id", .str (str "chatcmpl-mock")), (str "object", .str (str "chat.completion")), (str "model", .str req.model),
    (str "choices", .list [.dict [(str "index", .int 0),
      (str "message", .dict [(str "role", .str (str "assistant")), (str "content", .str piiText)]),
      (str "finish_reason", .str (str "stop"))]]),
    (str "usage", usage req)]

def note : Members := [(str "note", .str (str "you waited this out"))]

def rateLimited : Json :=
  .dict [(str "error", .dict [
    (str "message", .str (str "Rate limit reached for mock-primary on https://internal.mock/v1")), (str "type", .str (str "tokens"))])]

def serverError : Json :=
  .dict [(str "error", .dict [(str "message", .str (str "Traceback (most recent call last):\n  File \"/srv/provider/handler.py\", line 42, in serve\n    raise RuntimeError('shard mock-primary-7 offline')"))])]

def completions (req : CompletionRequest) : Answer :=
  match effective req with
  | .rateLimited => .json 0 ⟨429, [(str "Retry-After", str "30")], .json rateLimited⟩
  | .serverError => .json 0 ⟨500, [], .json serverError⟩
  | .hang => .json req.hangSeconds ⟨200, [], .json (.dict note)⟩
  | .nonStream => .json 0 ⟨200, [], .json (.dict (message req))⟩
  | .splitPii => .streaming req.chunkDelay (stream req splitScript)
  | .stream => .streaming req.chunkDelay (stream req plainScript)

end Provider

variable {U : Unicode} {reader : Reader} {req : CompletionRequest} {script : List Text} {chunks : List Bytes}
  {t v model : Text} {frame : Members} {r : StreamingRedactor} {ls : List Text}

section Wire

def packetOf (v : Text) (h : lf ∉ v ∧ cr ∉ v) : Packet := ⟨none, none, ⟨v, false, h⟩, false⟩

def framePacket (frame : Members) : Packet :=
  packetOf (dumps defaultSeparators (.dict frame)) (not_mem_of_printed (printed_envelope (.dict frame)))

def donePacket : Packet := packetOf done (by decide)

def frames (req : CompletionRequest) (script : List Text) : List Members :=
  script.map (fun piece => deltaFrame piece req.model) ++ [finalFrame req]

def packets (req : CompletionRequest) (script : List Text) : List Packet := (frames req script).map framePacket ++ [donePacket]

theorem ended_packetOf (v : Text) (h : lf ∉ v ∧ cr ∉ v) :
    (packetOf v h).lines.flatMap Line.ended = str "data: " ++ v ++ str "\n\n" := by
  have hlines : (packetOf v h).lines.flatMap Line.ended = (dataPrefix ++ v) ++ [lf] ++ ([lf] ++ []) := rfl
  rw [hlines, List.append_assoc _ [lf]]
  rfl

theorem flatten_stream (req : CompletionRequest) (script : List Text) : (stream req script).flatten = streamText (packets req script) := by
  have hframes (fs : List Members) : ((fs.map framePacket).flatMap Packet.lines).flatMap Line.ended = (fs.map sse).flatten := by
    rw [List.flatMap_assoc, List.flatMap_map, List.flatMap_def]
    congr 1
    exact List.map_congr_left fun frame _ => ended_packetOf _ _
  have hstream : stream req script = (frames req script).map sse ++ [str "data: [DONE]\n\n"] := by
    simp [stream, frames]
  rw [streamText, packets, List.flatMap_append, List.flatMap_append, hframes, hstream, List.flatten_append]
  congr 1

theorem printed_stream (ht : t ∈ stream req script) : ∀ c ∈ t, Json.printed c ∨ c = lf := by
  have hlines {u : Text} (h : u.all fun c => Json.printed c || c == lf) : ∀ c ∈ u, Json.printed c ∨ c = lf := fun c hc => by
    simpa using List.all_eq_true.mp h c hc
  have hsse (frame : Members) : ∀ c ∈ sse frame, Json.printed c ∨ c = lf := by
    intro c hc
    rw [sse, List.mem_append, List.mem_append] at hc
    rcases hc with (hc | hc) | hc
    · exact hlines (by decide) c hc
    · exact Or.inl (List.all_eq_true.mp (printed_envelope (.dict frame)) c hc)
    · exact hlines (by decide) c hc
  rw [stream, List.mem_append] at ht
  rcases ht with ht | ht
  · obtain ⟨piece, -, rfl⟩ := List.mem_map.mp ht
    exact hsse _
  · rcases List.mem_cons.mp ht with rfl | ht
    · exact hsse _
    · rw [List.mem_singleton.mp ht]
      exact hlines (by decide)

theorem ascii_of_lines (h : ∀ c ∈ t, Json.printed c ∨ c = lf) : t.all isAscii := by
  rw [List.all_eq_true]
  intro c hc
  rcases h c hc with hprinted | rfl
  · simp only [Json.printed, Bool.and_eq_true, decide_eq_true_eq, isAscii] at hprinted ⊢
    omega
  · decide

theorem ascii_stream (ht : t ∈ stream req script) : t.all isAscii := ascii_of_lines (printed_stream ht)

/-- However the bytes are cut, the same text is seen. -/
theorem seen_stream (hbytes : wire (stream req script) = some chunks.flatten) : seen chunks = streamText (packets req script) := by
  have hascii : (stream req script).flatten.all isAscii := by
    rw [List.all_eq_true]
    intro c hc
    obtain ⟨t, ht, hc⟩ := List.mem_flatten.mp hc
    exact List.all_eq_true.mp (ascii_stream ht) c hc
  have hscalar (t : Text) (ht : t ∈ stream req script) : scalar t := scalar_of_ascii (ascii_stream ht)
  obtain ⟨x, hx, hd⟩ := wire_of_scalar _ hscalar
  rw [hbytes, Option.some.injEq] at hx
  subst hx
  have hparts := garbled_parts chunks
  rw [hd] at hparts
  rw [seen, hparts.eq_of_ascii hascii, flatten_stream]

end Wire

section Reading

/-- What a reader makes of the model of a request. -/
def CompletionRequest.reread (req : CompletionRequest) : CompletionRequest := { req with model := joined req.model }

theorem reread_deltaFrame (text model : Text) :
    reread (.dict (deltaFrame text model)) = .dict (deltaFrame (joined text) (joined model)) := by
  have hdistinct : Distinct (.dict (deltaFrame (joined text) (joined model))) := by
    simp only [deltaFrame, Distinct, Json.DistinctMembers, Json.DistinctItems, and_true, Members.keys, List.map_cons, List.map_nil]
    decide
  refine Eq.trans ?_ (Json.resolve_of_distinct .last _ hdistinct)
  rfl

theorem reread_finalFrame (req : CompletionRequest) : reread (.dict (finalFrame req)) = .dict (finalFrame req.reread) := by
  have hdistinct : Distinct (.dict (finalFrame req.reread)) := by
    simp only [finalFrame, usage, Distinct, Json.DistinctMembers, Json.DistinctItems, and_true, Members.keys, List.map_cons, List.map_nil]
    decide
  refine Eq.trans ?_ (Json.resolve_of_distinct .last _ hdistinct)
  rfl

theorem knows_deltaFrame (text model : Text) : reader.Knows (.dict (deltaFrame text model)) := rfl

theorem knows_finalFrame (req : CompletionRequest) : reader.Knows (.dict (finalFrame req)) := rfl

theorem strip_between {c d : CodePoint} (hc : U.isspace c = false) (hd : U.isspace d = false) (t : Text) :
    U.strip (c :: t ++ [d]) = c :: t ++ [d] := by
  rw [Unicode.strip, List.cons_append, List.dropWhile_cons_of_neg (by simp [hc]), ← List.cons_append, List.reverse_append,
    List.reverse_singleton, List.singleton_append, List.dropWhile_cons_of_neg (by simp [hd]), ← List.singleton_append,
    List.reverse_append, List.reverse_reverse]
  rfl

theorem strip_frame (frame : Members) : U.strip (dumps defaultSeparators (.dict frame)) = dumps defaultSeparators (.dict frame) := by
  rw [dumps]
  exact strip_between (U.isspace_ascii _ rfl) (U.isspace_ascii _ rfl) _

theorem frame_ne_done (frame : Members) : dumps defaultSeparators (.dict frame) ≠ done := by
  intro h
  rw [dumps] at h
  exact absurd (List.cons_eq_cons.mp h).1 (by decide)

/-- The line of a frame as it is read. -/
def frameLine (frame : Members) : Text := dataPrefix ++ dumps defaultSeparators (.dict frame)

theorem lineKind_frame {frame' : Members} (hknows : reader.Knows (.dict frame)) (hread : reread (.dict frame) = .dict frame') :
    (deltaText frame' = none → lineKind U reader.decoder (frameLine frame) = .bare frame') ∧
      ∀ text, deltaText frame' = some text → lineKind U reader.decoder (frameLine frame) = .content frame' text := by
  have hline : frameLine frame = (framePacket frame).value.data.read := by
    rw [Line.read]
    exact (List.append_nil _).symm
  have hloads : reader.decoder.loads (dumps defaultSeparators (.dict frame)) = .ok (.dict frame') :=
    hread ▸ Reader.loads_dumps Json.spaced_default hknows
  have htext : (framePacket frame).value.text = dumps defaultSeparators (.dict frame) := rfl
  rw [hline, lineKind_data, htext, strip_frame, if_neg (frame_ne_done frame), hloads]
  constructor
  · intro hd
    simp only [hd]
  · intro text hd
    simp only [hd]

theorem lineKind_piece (piece model : Text) : lineKind U reader.decoder (frameLine (deltaFrame piece model)) =
    .content (deltaFrame (joined piece) (joined model)) (joined piece) :=
  (lineKind_frame (knows_deltaFrame piece model) (reread_deltaFrame piece model)).2 _ rfl

theorem lineKind_final (req : CompletionRequest) : lineKind U reader.decoder (frameLine (finalFrame req)) = .bare (finalFrame req.reread) :=
  (lineKind_frame (knows_finalFrame req) (reread_finalFrame req)).1 rfl

theorem lineKind_done (json : Decoder) : lineKind U json (dataPrefix ++ done) = .done := by
  have hstrip : U.strip done = done := strip_between (U.isspace_ascii _ rfl) (U.isspace_ascii _ rfl) (str "DONE")
  have hline : dataPrefix ++ done = donePacket.value.data.read := rfl
  have htext : donePacket.value.text = done := rfl
  rw [hline, lineKind_data, htext, hstrip, if_pos rfl]

/-- The lines of the stream. -/
def linesFor (req : CompletionRequest) (script : List Text) : List Text :=
  (script.flatMap fun piece => [frameLine (deltaFrame piece req.model), []]) ++
    [frameLine (finalFrame req), [], dataPrefix ++ done, []]

theorem readLines_packets (req : CompletionRequest) (script : List Text) : readLines (packets req script) = linesFor req script := by
  have hframe (frame : Members) : (framePacket frame).lines.map Line.read = [frameLine frame, []] := by
    have hread : (framePacket frame).lines.map Line.read = [frameLine frame ++ [], []] := rfl
    rw [hread, List.append_nil]
  have hframes (fs : List Members) : ((fs.map framePacket).flatMap Packet.lines).map Line.read =
      fs.flatMap fun frame => [frameLine frame, []] := by
    rw [List.map_flatMap, List.flatMap_map]
    exact List.flatMap_congr fun frame _ => hframe frame
  rw [readLines, packets, List.flatMap_append, List.map_append, hframes, frames, List.flatMap_append, List.flatMap_map,
    List.append_assoc]
  rfl

end Reading

section Run

theorem withText_piece (json : Decoder) (text model s : Text) : withText json (deltaFrame text model) s = .ok (deltaFrame s model) := rfl

/-- The texts of the frames that the pieces make a redactor emit. -/
theorem pieces_run (model : Text) (script : List Text) (r : StreamingRedactor) : ∃ outs : List Text,
    transformLines U reader.decoder (script.flatMap fun piece => [frameLine (deltaFrame piece model), []]) r =
      ⟨outs.map fun s => .frame (deltaFrame s (joined model)), (r.feedAll U (script.map joined)).2, none⟩ ∧
    outs.flatten = (r.feedAll U (script.map joined)).1 := by
  induction script generalizing r with
  | nil => exact ⟨[], rfl, rfl⟩
  | cons piece script ih =>
      obtain ⟨outs, hrun, houts⟩ := ih (r.feed U (joined piece)).2
      have hstep := @transformLine_content U reader.decoder _ r _ _ _ (lineKind_piece piece model)
        (withText_piece reader.decoder (joined piece) (joined model) (r.feed U (joined piece)).1)
      have hblank : transformLine U reader.decoder [] (r.feed U (joined piece)).2 = ⟨[], (r.feed U (joined piece)).2, none⟩ :=
        transformLine_blank rfl
      rw [List.flatMap_cons, List.cons_append, List.singleton_append, transformLines_cons (by rw [hstep]), hstep]
      dsimp only
      rw [transformLines_cons (by rw [hblank]), hblank]
      dsimp only
      rw [hrun]
      by_cases hempty : (r.feed U (joined piece)).1 = []
      · refine ⟨outs, by rw [if_pos hempty]; rfl, ?_⟩
        rw [houts, List.map_cons, StreamingRedactor.feedAll]
        dsimp only
        rw [hempty, List.nil_append]
      · refine ⟨(r.feed U (joined piece)).1 :: outs, by rw [if_neg hempty]; rfl, ?_⟩
        rw [List.flatten_cons, houts]
        rfl

/-- The frame of the text that is held back at the end. -/
def tailFrames (tail : Text) : List Members := if tail = [] then [] else [syntheticDelta tail]

theorem released_eq (tail : Text) : released tail = (tailFrames tail).map .frame := by
  rw [released, tailFrames]
  split <;> rfl

/-- The text comes first, then the frame that ends the message, then [DONE]. -/
theorem stream_run (req : CompletionRequest) (script : List Text) (r : StreamingRedactor) : ∃ outs : List Text,
    transformLines U reader.decoder (linesFor req script) r =
      ⟨((outs.map fun s => deltaFrame s (joined req.model)) ++ tailFrames ((r.feedAll U (script.map joined)).2.flush U).1 ++
          [finalFrame req.reread]).map .frame ++ [.done], ((r.feedAll U (script.map joined)).2.flush U).2, none⟩ ∧
    outs.flatten = (r.feedAll U (script.map joined)).1 := by
  obtain ⟨outs, hrun, houts⟩ := @pieces_run U reader req.model script r
  refine ⟨outs, ?_, houts⟩
  have hterminal : isTerminal (finalFrame req.reread) = true := rfl
  generalize (r.feedAll U (script.map joined)).2 = r' at hrun
  have hfinal := @transformLine_bare U reader.decoder _ r' _ (lineKind_final req)
  rw [if_pos hterminal] at hfinal
  have hblank (r'' : StreamingRedactor) : transformLine U reader.decoder [] r'' = ⟨[], r'', none⟩ := transformLine_blank rfl
  have hdone := @transformLine_done U reader.decoder _ (r'.flush U).2 (lineKind_done reader.decoder)
  rw [flush_flush] at hdone
  rw [linesFor, transformLines_append (by rw [hrun]), hrun]
  dsimp only
  rw [transformLines_cons (by rw [hfinal]), hfinal]
  dsimp only
  rw [transformLines_cons (by rw [hblank]), hblank]
  dsimp only
  rw [transformLines_cons (by rw [hdone]), hdone]
  dsimp only
  rw [transformLines_cons (by rw [hblank]), hblank, released_eq]
  simp [transformLines, released]

end Run

section Delivery

variable {config : GuardrailConfig} {ms : List Match}

theorem mem_replaced {c : CodePoint} {i n : Nat} (h : c ∈ replaced t ms i n) : c ∈ t ∨ c ∈ redacted := by
  have hslice {i j : Nat} (h : c ∈ slice t i j) : c ∈ t := List.mem_of_mem_take (List.mem_of_mem_drop h)
  induction ms generalizing i with
  | nil => exact Or.inl (hslice h)
  | cons m ms ih =>
      rw [replaced, List.mem_append, List.mem_append] at h
      rcases h with (h | h) | h
      · exact Or.inl (hslice h)
      · exact Or.inr h
      · exact ih h

/-- A redactor puts out no character of its own but for the mark. -/
theorem scalar_stream (hold : Option Int) (luhn : Bool) {pieces : List Text} (h : ∀ piece ∈ pieces, scalar piece) :
    scalar ((StreamingRedactor.init hold luhn).stream U pieces) := by
  obtain ⟨c, ns, hrun⟩ := (Delivered.init (U := U) hold luhn).feedAll pieces
  obtain ⟨ms, hlast⟩ := hrun.flush
  rw [List.nil_append, List.nil_append] at hlast
  have hout : (StreamingRedactor.init hold luhn).stream U pieces = replaced pieces.flatten ms 0 pieces.flatten.length := hlast.out_eq
  rw [hout, scalar, List.all_eq_true]
  intro c hc
  rcases mem_replaced hc with hc | hc
  · obtain ⟨piece, hpiece, hc⟩ := List.mem_flatten.mp hc
    exact List.all_eq_true.mp (h piece hpiece) c hc
  · exact List.all_eq_true.mp (by decide : scalar redacted) c hc

theorem readsBack_piece {text model : Text} (ht : Plain text) (hm : Plain model) : ReadsBack reader.decoder (deltaFrame text model) := by
  rw [ReadsBack, Emission.payloadText, Reader.loads_dumps Json.spaced_compact (knows_deltaFrame text model), reread_deltaFrame, ht, hm]

theorem readsBack_final (hm : Plain req.model) : ReadsBack reader.decoder (finalFrame req) := by
  rw [ReadsBack, Emission.payloadText, Reader.loads_dumps Json.spaced_compact (knows_finalFrame req), reread_finalFrame,
    CompletionRequest.reread, hm]

theorem readsBack_synthetic {text : Text} (ht : Plain text) : ReadsBack reader.decoder (syntheticDelta text) := by
  have hdistinct : Distinct (.dict (syntheticDelta (joined text))) := by
    simp only [syntheticDelta, Distinct, Json.DistinctMembers, Json.DistinctItems, and_true, Members.keys, List.map_cons, List.map_nil]
    decide
  have hread : reread (.dict (syntheticDelta text)) = .dict (syntheticDelta (joined text)) :=
    Eq.trans (by rfl) (Json.resolve_of_distinct .last _ hdistinct)
  have hknows : reader.Knows (.dict (syntheticDelta text)) := rfl
  rw [ReadsBack, Emission.payloadText, Reader.loads_dumps Json.spaced_compact hknows, hread, ht]

theorem heard_frames (frames : List Members) : (frames.map Emission.frame).flatMap heardOf =
    frames.map fun frame => ⟨defaultType, Emission.payloadText frame⟩ := by
  rw [List.flatMap_map]
  exact List.map_eq_flatMap.symm

/-- A client reads the texts of the frames as they were put in. -/
theorem texts_read {outs : List Text} {tail : Text} (h : scalar (outs.flatten ++ tail)) (hm : Plain model) :
    (((outs.map fun s => deltaFrame s model) ++ tailFrames tail).flatMap fun frame =>
      valueText reader.decoder (Emission.payloadText frame)) = outs.flatten ++ tail := by
  have hplain (s : Text) (hs : ∀ c ∈ s, c ∈ outs.flatten ++ tail) : Plain s := Json.plain_of_scalar (scalar_of_subset h hs)
  have hpiece (s : Text) (hs : s ∈ outs) : valueText reader.decoder (Emission.payloadText (deltaFrame s model)) = s :=
    valueText_payloadText (readsBack_piece (hplain s fun c hc => List.mem_append_left _ (List.mem_flatten.mpr ⟨s, hs, hc⟩)) hm)
  rw [List.flatMap_append, List.flatMap_map, List.flatMap_congr hpiece, List.flatMap_id']
  congr 1
  rw [tailFrames]
  split
  · next hempty => exact hempty.symm
  · rw [List.flatMap_singleton]
    exact valueText_payloadText (readsBack_synthetic (hplain tail fun c hc => List.mem_append_right _ hc))

theorem iterLines_stream (hbytes : wire (stream req script) = some chunks.flatten) (hfit : WithinCap [] chunks) :
    iterLines none chunks = (linesFor req script, none) := by
  have hread := iterLines_read (seen_stream hbytes) hfit
  rw [iterLines_ended hfit, readLines_packets] at hread
  rw [iterLines_ended hfit, ← hread]

/-- Frames and [DONE] are all that is heard. -/
theorem heard_stream {frames : List Members} {r' : StreamingRedactor}
    (hlines : iterLines none chunks = (ls, none))
    (hrun : transformLines U reader.decoder ls (newRedactor config) = ⟨frames.map .frame ++ [.done], r', none⟩) (requestId : Text) :
    ∃ sent x, proxyStreaming U reader.decoder config requestId (.response 200 (chunks, none)) = (sent, none) ∧
      wire (sent.map Sent.text) = some x ∧
      clientEvents x = (frames.map fun frame => ⟨defaultType, Emission.payloadText frame⟩) ++ [⟨defaultType, done⟩] := by
  have hstream : redactStream U reader.decoder none chunks (newRedactor config) = ⟨frames.map .frame ++ [.done], r', none⟩ := by
    rw [redactStream]
    simp [hlines, hrun, Emission.isDone]
  have hsilent (t : Text) (ht : Emission.passed t ∈ frames.map Emission.frame ++ [.done]) : Silent t := by simp at ht
  have hscalars (e : Emission) (he : e ∈ frames.map Emission.frame ++ [.done]) : scalar e.text := by
    have hmem : e ∈ (redactStream U reader.decoder none chunks (newRedactor config)).emissions := by rwa [hstream]
    exact scalar_emission hmem
  obtain ⟨x, hx, hevents⟩ := clientEvents_emissions hsilent hscalars
  refine ⟨(frames.map Emission.frame ++ [Emission.done]).map .emission, x, ?_, ?_, ?_⟩
  · simp [proxyStreaming, hstream]
  · rw [List.map_map]
    exact hx
  · rw [hevents, List.flatMap_append, heard_frames]
    rfl

/-- The frames that a client of the guardrail hears when a provider streams. -/
theorem frames_heard (U : Unicode) (reader : Reader) (config : GuardrailConfig) (requestId : Text) (req : CompletionRequest)
    (hscript : ∀ piece ∈ script, scalar piece) (hbytes : wire (stream req script) = some chunks.flatten) (hfit : WithinCap [] chunks) :
    ∃ (sent : List Sent) (x : Bytes) (outs : List Text) (tail : Text),
      proxyStreaming U reader.decoder config requestId (.response 200 (chunks, none)) = (sent, none) ∧
      wire (sent.map Sent.text) = some x ∧
      clientEvents x = (((outs.map fun s => deltaFrame s (joined req.model)) ++ tailFrames tail ++ [finalFrame req.reread]).map fun frame =>
        ⟨defaultType, Emission.payloadText frame⟩) ++ [⟨defaultType, done⟩] ∧
      outs.flatten ++ tail = (newRedactor config).stream U script ∧ scalar (outs.flatten ++ tail) := by
  have hplain : script.map joined = script := by
    rw [List.map_congr_left fun piece hpiece => Json.plain_of_scalar (hscript piece hpiece), List.map_id']
  obtain ⟨outs, hrun, houts⟩ := @stream_run U reader req script (newRedactor config)
  rw [hplain] at hrun houts
  have htexts : outs.flatten ++ (((newRedactor config).feedAll U script).2.flush U).1 = (newRedactor config).stream U script := by
    rw [houts]
    rfl
  obtain ⟨sent, x, hsent, hx, hevents⟩ := heard_stream (iterLines_stream hbytes hfit) hrun requestId
  exact ⟨sent, x, outs, _, hsent, hx, hevents, htexts, htexts ▸ scalar_stream _ _ hscript⟩

/-- An address in two pieces, in one chunk. -/
def mailRequest : CompletionRequest := ⟨str "mock-primary", .stream, 10, 0, 100, 50, none⟩

end Delivery

end LlmGateway.MockProvider
