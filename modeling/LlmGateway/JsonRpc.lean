import LlmGateway.Http

namespace LlmGateway

namespace JsonRpc

def parseError : Int := -32700

def invalidRequest : Int := -32600

def internalError : Int := -32603

def unauthorizedToolCall : Int := -32001

/-- error_response. validateId is what pydantic makes of a value for a field of
type str | int | float | None. -/
def errorResponse (validateId : Json → Option Json) (requestId : Json) (code : Int) (message : Text)
    (data : Option Json) : Except Unhandled Json :=
  match validateId requestId with
  | none => .error .validationError
  | some id =>
    .ok (.dict [(str "jsonrpc", .str (str "2.0")), (str "id", id),
      (str "error", .dict ([(str "code", .int code), (str "message", .str message)] ++
        data.toList.map fun d => (str "data", d)))])

/-- No id member at all; a null id is a request. -/
def isNotification (payload : Json.Members) : Bool := !payload.keys.contains (str "id")

end JsonRpc

end LlmGateway
