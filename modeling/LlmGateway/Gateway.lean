import LlmGateway.JsonRpc
import Mathlib.Data.List.Infix

namespace LlmGateway.Gateway

open Json (Members Decoder dumps defaultSeparators)

def adminToolPrefix : Text := str "admin_"

def adminRole : Text := str "admin"

structure GatewayConfig where
  downstreamUrl : Text
  downstreamToken : Option Text
  tokens : List (Text × Text)
  filterToolList : Bool
  requestTimeout : FloatRepr

/-- What the gateway uses of the libraries around it: the character tables,
repr of a str, the json module and pydantic's check of a request id. -/
structure Runtime where
  unicode : Unicode
  repr : Text → Text
  json : Decoder
  validateId : Json → Option Json

section Auth

structure Principal where
  tokenId : Text
  role : Text
  deriving DecidableEq

def Principal.isAdmin (principal : Principal) : Bool := principal.role = adminRole

inductive AuthenticationError
  | missingHeader
  | unsupportedScheme (scheme : Text)
  | emptyToken
  | unrecognisedToken
  deriving DecidableEq

def AuthenticationError.text (repr : Text → Text) : AuthenticationError → Text
  | missingHeader => str "missing Authorization header"
  | unsupportedScheme scheme => str "unsupported authorization scheme " ++ repr scheme
  | emptyToken => str "empty bearer token"
  | unrecognisedToken => str "unrecognised bearer token"

variable (U : Unicode)

def parseBearer (header : Option Text) : Except AuthenticationError Text :=
  match header with
  | none | some [] => .error .missingHeader
  | some header =>
    let (scheme, credential) := partition header (chr ' ')
    if U.lower scheme ≠ str "bearer" then .error (.unsupportedScheme scheme)
    else
      let token := U.strip credential
      if token = [] then .error .emptyToken else .ok token

def authenticate (header : Option Text) (tokens : List (Text × Text)) : Except AuthenticationError Principal :=
  match parseBearer U header with
  | .error e => .error e
  | .ok token =>
    match tokens.lookup token with
    | none => .error .unrecognisedToken
    | some role => .ok ⟨token, role⟩

end Auth

section Policy

inductive Decision
  | allow
  | deny (code : Int) (message : Text) (data : Option Json)

def isAdminTool (name : Text) : Bool := adminToolPrefix.isPrefixOf name

def denied (data : Members) : Decision :=
  .deny JsonRpc.unauthorizedToolCall (str "Unauthorized Tool Call") (some (.dict data))

/-- Only tools/call is gated. A missing params or name is null here. -/
def decide (principal : Principal) (method : Text) (params : Json) : Decision :=
  if method ≠ str "tools/call" then .allow
  else
    match params with
    | .dict params =>
      match (Members.get? params (str "name")).getD .null with
      | .str [] =>
        denied [(str "reason", .str (str "tools/call params.name is missing or not a string"))]
      | .str name =>
        if isAdminTool name && !principal.isAdmin then
          denied [(str "tool", .str name), (str "required_role", .str adminRole),
            (str "role", .str principal.role),
            (str "reason", .str (str "tools prefixed 'admin_' require the admin role"))]
        else .allow
      | _ => denied [(str "reason", .str (str "tools/call params.name is missing or not a string"))]
    | _ => denied [(str "reason", .str (str "tools/call params must be an object naming a tool"))]

/-- A tool of a list that decide would refuse by its name. -/
def isHidden : Json → Bool
  | .dict tool =>
    match Members.get? tool (str "name") with
    | some (.str name) => isAdminTool name
    | _ => false
  | _ => false

def visibleTools (tools : List Json) (principal : Principal) : List Json :=
  if principal.isAdmin then tools else tools.filter fun tool => !isHidden tool

end Policy

section App

structure Post where
  url : Text
  content : Bytes
  headers : List (Text × Text)
  timeout : FloatRepr

/-- How client.post fails. -/
inductive TransportError
  | httpError
  | other

structure Upstream where
  statusCode : Int
  contentType : Option Text
  content : Bytes

structure Outcome where
  result : Except Unhandled Response
  posts : List Post

def answer (result : Except Unhandled Response) : Outcome := ⟨result, []⟩

def unauthenticated (reason : Text) : Except Unhandled Response :=
  Response.ofJson (.dict [(str "error", .str (str "unauthorized")), (str "reason", .str reason)]) 401
    [(str "WWW-Authenticate", str "Bearer realm=\"mcp-gateway\"")]

variable (rt : Runtime) (config : GatewayConfig) (downstream : Post → Except TransportError Upstream)

/-- A JSON-RPC error rides on HTTP 200. -/
def rpcError (requestId : Json) (code : Int) (message : Text) (data : Option Json) : Except Unhandled Response :=
  match JsonRpc.errorResponse rt.validateId requestId code message data with
  | .error e => .error e
  | .ok body => Response.ofJson body 200 []

/-- body.get("result", {}).get("tools") -/
def toolsOf (body : Json) : Except Unhandled Json :=
  match body with
  | .dict members =>
    match (Members.get? members (str "result")).getD (.dict []) with
    | .dict result => .ok ((Members.get? result (str "tools")).getD .null)
    | _ => .error .attributeError
  | _ => .ok .null

/-- body["result"]["tools"] = tools -/
def withTools (body : Json) (tools : List Json) : Json :=
  match body with
  | .dict members =>
    match Members.get? members (str "result") with
    | some (.dict result) =>
      .dict (Members.set members (str "result") (.dict (Members.set result (str "tools") (.list tools))))
    | _ => body
  | _ => body

def contentTypeHeader (contentType : Text) : List (Text × Text) := [(str "content-type", contentType)]

/-- The header for a media type: a text without a charset gets one. -/
def mediaTypeHeader (mediaType : Text) : List (Text × Text) :=
  let plain := (str "text/").isPrefixOf mediaType && !(str "charset=" <:+: rt.unicode.lower mediaType)
  contentTypeHeader (if plain then mediaType ++ str "; charset=utf-8" else mediaType)

def relay (upstream : Upstream) (principal : Principal) (method : Text) : Except Unhandled Response :=
  let unfiltered : Response := ⟨upstream.statusCode, [], .raw upstream.content⟩
  if !(config.filterToolList && method = str "tools/list") then
    .ok { unfiltered with
      headers := mediaTypeHeader rt (upstream.contentType.getD (str "application/json")) }
  else
    match rt.json.loadsBytes upstream.content with
    | .error e => if e.isValueError then .ok unfiltered else .error (.load e)
    | .ok body =>
      match toolsOf body with
      | .error e => .error e
      | .ok (.list tools) =>
        Response.ofJson (withTools body (visibleTools tools principal)) upstream.statusCode []
      | .ok _ => .ok unfiltered

def forwardHeaders : List (Text × Text) :=
  contentTypeHeader (str "application/json") ++
    match config.downstreamToken with
    | none | some [] => []
    | some token => [(str "authorization", str "Bearer " ++ token)]

/-- _forward and what follows it in proxy. -/
def forward (principal : Principal) (payload : Members) (method : Text) : Outcome :=
  match Utf8.encode (dumps defaultSeparators (.dict payload)) with
  | none => answer (.error .unicodeEncodeError)
  | some content =>
    let post : Post := ⟨config.downstreamUrl, content, forwardHeaders config, config.requestTimeout⟩
    let result :=
      match downstream post with
      | .error .other => .error .transport
      | .error .httpError =>
        if JsonRpc.isNotification payload then .ok Response.noContent
        else rpcError rt ((payload.get? (str "id")).getD .null) JsonRpc.internalError
          (str "Downstream MCP server is unreachable") none
      | .ok upstream =>
        if JsonRpc.isNotification payload then .ok Response.noContent
        else relay rt config upstream principal method
    ⟨result, [post]⟩

/-- The part of proxy that has an object and its method. -/
def classify (principal : Principal) (payload : Members) (method : Text) : Outcome :=
  match decide principal method ((payload.get? (str "params")).getD .null) with
  | .deny code message data =>
    if JsonRpc.isNotification payload then answer (.ok Response.noContent)
    else answer (rpcError rt ((payload.get? (str "id")).getD .null) code message data)
  | .allow => forward rt config downstream principal payload method

def proxy (header : Option Text) (body : Bytes) : Outcome :=
  match authenticate rt.unicode header config.tokens with
  | .error e => answer (unauthenticated (e.text rt.repr))
  | .ok principal =>
    match rt.json.loadsBytes body with
    | .error .jsonDecodeError => answer (rpcError rt .null JsonRpc.parseError (str "Parse error") none)
    | .error e => answer (.error (.load e))
    | .ok (.list _) =>
      answer (rpcError rt .null JsonRpc.invalidRequest
        (str "Batch requests are not supported by this gateway") none)
    | .ok (.dict payload) =>
      match Members.get? payload (str "method") with
      | some (.str method) => classify rt config downstream principal payload method
      | _ =>
        answer (rpcError rt ((Members.get? payload (str "id")).getD .null) JsonRpc.invalidRequest
          (str "Invalid Request") none)
    | .ok _ => answer (rpcError rt .null JsonRpc.invalidRequest (str "Invalid Request") none)

end App

end LlmGateway.Gateway
