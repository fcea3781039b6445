import LlmGateway.Errors
import LlmGateway.Limiter

namespace LlmGateway.Router

open Limiter

structure ProviderSpec where
  name : Text
  url : Text
  model : Text
  timeoutSeconds : ℚ

structure ProviderResult where
  provider : Text
  model : Text
  payload : Json.Members
  promptTokens : Int
  completionTokens : Int

def ProviderResult.totalTokens (r : ProviderResult) : Int := r.promptTokens + r.completionTokens

/-- The exceptions that an await of route_completion can end with. -/
inductive Exn
  | providerRateLimited (provider : Text) (retryAfter : Option ℚ)
  | providerTimeout (provider : Text) (seconds : ℚ)
  | providerUnavailable (provider detail : Text)
  | gatewayError (e : GatewayError)
  | cancelled
  | other (name : Text)
  deriving DecidableEq

namespace Exn

/-- isinstance(exc, ProviderError) -/
def isProviderError : Exn → Bool
  | providerRateLimited _ _ | providerTimeout _ _ | providerUnavailable _ _ => true
  | gatewayError _ | cancelled | other _ => false

/-- The exceptions that _call_with_failover handles. -/
def failsOver : Exn → Bool
  | providerRateLimited _ _ | providerTimeout _ _ => true
  | providerUnavailable _ _ | gatewayError _ | cancelled | other _ => false

def ofDatabase (e : DatabaseError) : Exn := .other e.name

end Exn

def sanitize (exc : Exn) (requestId : Text) : GatewayError :=
  match exc with
  | .gatewayError e => e
  | _ => ⟨.internalError, requestId, none⟩

def asGatewayError (exc : Exn) (requestId : Text) : GatewayError :=
  match exc with
  | .providerTimeout _ _ => ⟨.upstreamTimeout, requestId, none⟩
  | _ => ⟨.upstreamUnavailable, requestId, none⟩

structure RouterConfig where
  primary : ProviderSpec
  secondary : ProviderSpec

structure RoutedResponse where
  payload : Json.Members
  provider : Text
  attempts : List Text
  tokensCharged : Int
  requestId : Text

/-- Where a call of route_completion is suspended, or how it has ended. -/
inductive Status
  | reserving
  | callingPrimary (reservation : Reservation)
  | callingSecondary (reservation : Reservation)
  | releasing (reservation : Reservation) (exc : Exn)
  | reconciling (reservation : Reservation) (result : ProviderResult) (charged : Int)
  | returned (response : RoutedResponse)
  | raised (exc : Exn)

/-- The reservation that a suspended call has in its hands. -/
def Status.holds : Status → Option Reservation
  | callingPrimary r | callingSecondary r | releasing r _ | reconciling r _ _ => some r
  | reserving | returned _ | raised _ => none

/-- A call of route_completion: its locals at an await point. -/
structure Call where
  tenantKey : Text
  estimate : Int
  requestId : Text
  attempts : List Text
  status : Status

namespace Call

/-- Up to the first await. -/
def start (tenantKey : Text) (estimate : Int) (requestId : Text) : Call :=
  ⟨tenantKey, estimate, requestId, [], .reserving⟩

variable (config : RouterConfig) (c : Call)

/-- The await of limiter.reserve ends. -/
def afterReserve : Except ReserveError Reservation → Call
  | .ok reservation =>
    { c with attempts := c.attempts ++ [config.primary.name], status := .callingPrimary reservation }
  | .error (.rateLimitExceeded exc) =>
    { c with status := .raised (.gatewayError ⟨.rateLimited, c.requestId, some exc.retryAfter⟩) }
  | .error (.database e) => { c with status := .raised (.ofDatabase e) }

/-- result.total_tokens or estimate -/
def charged (result : ProviderResult) : Int :=
  if result.totalTokens = 0 then c.estimate else result.totalTokens

def succeed (reservation : Reservation) (result : ProviderResult) : Call :=
  { c with status := .reconciling reservation result (c.charged result) }

def afterPrimary (reservation : Reservation) : Except Exn ProviderResult → Call
  | .ok result => c.succeed reservation result
  | .error exc =>
    if exc.failsOver then
      { c with attempts := c.attempts ++ [config.secondary.name], status := .callingSecondary reservation }
    else { c with status := .releasing reservation exc }

def afterSecondary (reservation : Reservation) : Except Exn ProviderResult → Call
  | .ok result => c.succeed reservation result
  | .error exc => { c with status := .releasing reservation exc }

def afterRelease (exc : Exn) : Call :=
  { c with status := .raised (.gatewayError
      (if exc.isProviderError then asGatewayError exc c.requestId else sanitize exc c.requestId)) }

def afterReconcile (result : ProviderResult) (charged : Int) : Call :=
  { c with status := .returned ⟨result.payload, result.provider, c.attempts, charged, c.requestId⟩ }

/-- The await of limiter.reconcile raises. -/
def failReconcile (e : DatabaseError) : Call := { c with status := .raised (.ofDatabase e) }

theorem afterReserve_error (e : ReserveError) : ∃ exc, c.afterReserve config (.error e) = { c with status := .raised exc } := by
  cases e <;> exact ⟨_, rfl⟩

theorem succeed_spec (reservation : Reservation) (result : ProviderResult) :
    (c.succeed reservation result).status.holds = some reservation ∧
      (c.succeed reservation result).tenantKey = c.tenantKey ∧
      (c.succeed reservation result).estimate = c.estimate := ⟨rfl, rfl, rfl⟩

/-- However the primary call ends the reservation stays in hand. -/
theorem afterPrimary_spec (reservation : Reservation) (outcome : Except Exn ProviderResult) :
    (c.afterPrimary config reservation outcome).status.holds = some reservation ∧
      (c.afterPrimary config reservation outcome).tenantKey = c.tenantKey ∧
      (c.afterPrimary config reservation outcome).estimate = c.estimate := by
  cases outcome with
  | ok result => exact c.succeed_spec reservation result
  | error exc =>
      rw [afterPrimary]
      split <;> exact ⟨rfl, rfl, rfl⟩

theorem afterSecondary_spec (reservation : Reservation) (outcome : Except Exn ProviderResult) :
    (c.afterSecondary reservation outcome).status.holds = some reservation ∧
      (c.afterSecondary reservation outcome).tenantKey = c.tenantKey ∧
      (c.afterSecondary reservation outcome).estimate = c.estimate := by
  cases outcome with
  | ok result => exact c.succeed_spec reservation result
  | error exc => exact ⟨rfl, rfl, rfl⟩

/-- CancelledError is raised at the await: only the awaits of the provider
calls stand inside the try block. -/
def cancel : Call :=
  match c.status with
  | .reserving | .releasing _ _ | .reconciling _ _ _ => { c with status := .raised .cancelled }
  | .callingPrimary reservation => c.afterPrimary config reservation (.error .cancelled)
  | .callingSecondary reservation => c.afterSecondary reservation (.error .cancelled)
  | .returned _ | .raised _ => c

end Call

end LlmGateway.Router
