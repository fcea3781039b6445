import LlmGateway.GatewayForward
import LlmGateway.JsonReread

namespace LlmGateway.McpDownstream

open Gateway (Post TransportError Upstream)
open Json (Members Decoder)

def methodNotFound : Int := -32601

section Tools

/-- A tool with one parameter, a string that is required. -/
def describe (name description parameter : String) : Json :=
  .dict [(str "name", .str (str name)), (str "description", .str (str description)),
    (str "inputSchema", .dict [(str "type", .str (str "object")),
      (str "properties", .dict [(str parameter, .dict [(str "type", .str (str "string"))])]),
      (str "required", .list [.str (str parameter)])])]

def tools : List Json :=
  [describe "get_order_status" "Look up the status of an order." "order_id",
    describe "search_docs" "Search the knowledge base." "query",
    describe "admin_reset_key" "Rotate a tenant's API key. Destructive." "tenant",
    describe "admin_delete_tenant" "Permanently delete a tenant. Destructive." "tenant"]

end Tools

section CallLog

/-- A call as the spy saw it. -/
structure Entry where
  method : Json
  tool : Json
  authorization : Option Text

structure CallLog where
  count : Nat
  entries : List Entry

def CallLog.empty : CallLog := ⟨0, []⟩

def CallLog.record (log : CallLog) (entry : Entry) : CallLog := ⟨log.count + 1, log.entries ++ [entry]⟩

end CallLog

section Endpoint

/-- What the server uses of the libraries around it: the json module, pydantic's
check of a request id, str() of a value and the rendering of a response. -/
structure Runtime where
  json : Decoder
  validateId : Json → Option Json
  format : Json → Text
  render : Json → Bytes

variable (rt : Runtime)

def success (requestId result : Json) : Except Unhandled Response :=
  Response.ofJson (.dict [(str "jsonrpc", .str (str "2.0")), (str "id", requestId), (str "result", result)]) 200 []

def notFound (requestId method : Json) : Except Unhandled Response :=
  match JsonRpc.errorResponse rt.validateId requestId methodNotFound (str "Method not found: " ++ rt.format method) none with
  | .error e => .error e
  | .ok body => Response.ofJson body 200 []

/-- The match statement over the method. -/
def respond (requestId method tool arguments : Json) : Except Unhandled Response :=
  match method with
  | .str name =>
    if name = str "tools/list" then success requestId (.dict [(str "tools", .list tools)])
    else if name = str "tools/call" then
      success requestId (.dict
        [(str "content", .list [.dict [(str "type", .str (str "text")),
          (str "text", .str (str "downstream executed " ++ rt.format tool ++ str " with " ++ rt.format arguments))]]),
          (str "isError", .bool false)])
    else if name = str "initialize" then
      success requestId (.dict
        [(str "protocolVersion", .str (str "2025-06-18")), (str "capabilities", .dict [(str "tools", .dict [])]),
          (str "serverInfo", .dict [(str "name", .str (str "mock-downstream")), (str "version", .str (str "0.1.0"))])])
    else notFound rt requestId method
  | _ => notFound rt requestId method

/-- params.get(key), for params that are an object; false values count as the
empty object, which has no members either. -/
def paramOf (payload : Members) (key : Text) : Option Json :=
  match payload.get? (str "params") with
  | some (.dict params) => Members.get? params key
  | _ => none

def mcpEndpoint (log : CallLog) (authorization : Option Text) (body : Bytes) : Except Unhandled Response × CallLog :=
  match rt.json.loadsBytes body with
  | .error e => (.error (.load e), log)
  | .ok (.dict payload) =>
    let method := (Members.get? payload (str "method")).getD (.str [])
    let tool := (paramOf payload (str "name")).getD .null
    let log := log.record ⟨method, tool, authorization⟩
    if JsonRpc.isNotification payload then (.ok Response.noContent, log)
    else
      let requestId := (Members.get? payload (str "id")).getD .null
      (respond rt requestId method tool ((paramOf payload (str "arguments")).getD (.dict [])), log)
  | .ok _ => (.error .attributeError, log)

/-- What the other side of the connection gets; an exception that leaves the
endpoint becomes the server's own answer. -/
def reply (result : Except Unhandled Response) : Upstream :=
  match result with
  | .error _ => ⟨500, some (str "text/plain; charset=utf-8"), (Utf8.encode (str "Internal Server Error")).getD []⟩
  | .ok response =>
    match response.content with
    | .empty => ⟨response.status, none, []⟩
    | .raw content => ⟨response.status, none, content⟩
    | .json value => ⟨response.status, some (str "application/json"), rt.render value⟩

/-- A post of the gateway arrives. -/
def serve (log : CallLog) (post : Post) : Upstream × CallLog :=
  let (result, log) := mcpEndpoint rt log (post.headers.lookup (str "authorization")) post.content
  (reply rt result, log)

end Endpoint

end LlmGateway.McpDownstream
