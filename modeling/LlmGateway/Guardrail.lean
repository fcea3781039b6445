import LlmGateway.Errors
import LlmGateway.Http
import LlmGateway.SseClient

namespace LlmGateway.Guardrail

open Sse
open Json (Members Decoder dumps defaultSeparators)

structure GuardrailConfig where
  upstreamUrl : Text
  holdCharacters : Int
  requireLuhn : Bool
  requestTimeout : FloatRepr

/-- What a response answers with: its status, its body and how reading the body
ends. failed is an httpx2.HTTPError before there is a response. -/
inductive Reply (β : Type)
  | failed
  | response (status : Int) (body : β)

section Streaming

/-- A piece of the stream that goes to the client. -/
inductive Sent
  | emission (e : Emission)
  | error (envelope : Json)

def Sent.text : Sent → Text
  | emission e => e.text
  | error envelope => str "event: error\ndata: " ++ dumps defaultSeparators envelope ++ str "\n\n"

variable (U : Unicode) (json : Decoder) (config : GuardrailConfig) (requestId : Text)

def errorFrame (errorType : ErrorType) : Sent := .error (GatewayError.toResponse ⟨errorType, requestId, none⟩)

def newRedactor : Redactor.StreamingRedactor := .init (some config.holdCharacters) config.requireLuhn

/-- What the client is sent, and the exception that breaks the stream, if one
does. The body is the chunks and how the iteration over them ends. -/
def proxyStreaming (reply : Reply (List Bytes × Option Raised)) : List Sent × Option Raised :=
  match reply with
  | .failed => ([errorFrame requestId .upstreamUnavailable], none)
  | .response status (chunks, ending) =>
    if status ≥ 400 then ([errorFrame requestId .upstreamUnavailable], none)
    else
      let run := redactStream U json ending chunks (newRedactor config)
      let sent := run.emissions.map .emission
      match run.raised with
      | none => (sent, none)
      | some (.malformedStream _) | some .httpError =>
        (sent ++ [errorFrame requestId .upstreamUnavailable], none)
      | some exc => (sent, some exc)

end Streaming

section Buffered

variable (U : Unicode) (json : Decoder) (requestId : Text)

/-- The body of the loop over the choices. -/
def redactChoice : Json → Except Unhandled Json
  | .dict choice =>
    match Members.get? choice (str "message") with
    | some (.dict message) =>
      match Members.get? message (str "content") with
      | some (.str content) =>
        .ok (.dict (Members.set choice (str "message")
          (.dict (Members.set message (str "content") (.str (Redactor.redact U content))))))
      | _ => .ok (.dict choice)
    | _ => .ok (.dict choice)
  | _ => .error .attributeError

def redactPayload : Json → Except Unhandled Json
  | .dict payload =>
    match Members.get? payload (str "choices") with
    | none => .ok (.dict payload)
    | some (.list choices) =>
      match choices.mapM (redactChoice U) with
      | .error e => .error e
      | .ok choices => .ok (.dict (Members.set payload (str "choices") (.list choices)))
    | some choices =>
      match elements choices with
      | none => .error .typeError
      | some [] => .ok (.dict payload)
      | some _ => .error .attributeError
  | _ => .error .attributeError

def unavailable : Except Unhandled Response :=
  let error : GatewayError := ⟨.upstreamUnavailable, requestId, none⟩
  Response.ofJson error.toResponse error.statusCode []

def proxyBuffered (reply : Reply Bytes) : Except Unhandled Response :=
  match reply with
  | .failed => unavailable requestId
  | .response status content =>
    if status ≥ 400 then unavailable requestId
    else
      match json.loadsBytes content with
      | .error e => .error (.load e)
      | .ok payload =>
        match redactPayload U payload with
        | .error e => .error e
        | .ok payload => Response.ofJson payload 200 []

end Buffered

end LlmGateway.Guardrail
