import LlmGateway.Json
import Mathlib.Data.Rat.Init

namespace LlmGateway

inductive ErrorType
  | rateLimited | upstreamUnavailable | upstreamTimeout | invalidRequest | internalError
  deriving DecidableEq, Repr

namespace ErrorType

def value : ErrorType → Text
  | rateLimited => str "rate_limited"
  | upstreamUnavailable => str "upstream_unavailable"
  | upstreamTimeout => str "upstream_timeout"
  | invalidRequest => str "invalid_request"
  | internalError => str "internal_error"

def message : ErrorType → Text
  | rateLimited => str "Token rate limit exceeded for this API key. Retry after the window rolls over."
  | upstreamUnavailable => str "The model provider is unavailable. Please retry."
  | upstreamTimeout => str "The model provider did not respond in time. Please retry."
  | invalidRequest => str "The request was malformed."
  | internalError => str "An internal error occurred."

def status : ErrorType → Int
  | rateLimited => 429
  | upstreamUnavailable => 502
  | upstreamTimeout => 504
  | invalidRequest => 400
  | internalError => 500

end ErrorType

structure GatewayError where
  errorType : ErrorType
  requestId : Text
  retryAfter : Option ℚ
  deriving DecidableEq

namespace GatewayError

def statusCode (e : GatewayError) : Int := e.errorType.status

def toResponse (e : GatewayError) : Json :=
  .dict [(str "error", .dict [(str "type", .str e.errorType.value), (str "message", .str e.errorType.message),
    (str "request_id", .str e.requestId)])]

end GatewayError

end LlmGateway
