import LlmGateway.LimiterWindow
import LlmGateway.LimiterRetry
import LlmGateway.RouterLedger
import LlmGateway.RouterSettlement
import LlmGateway.RouterBoundary
import LlmGateway.GuardrailAgreement
import LlmGateway.GatewayCorrelation
import LlmGateway.RedactorDelivery
import LlmGateway.GuardrailCut
import LlmGateway.Refunds
import LlmGateway.GatewayTools
import LlmGateway.RouterEstimate
import LlmGateway.GuardrailRewrite
import LlmGateway.RedactorLuhn
import LlmGateway.SsePackets
import LlmGateway.SseEvents
import LlmGateway.RedactorClean
import LlmGateway.GatewaySession
import LlmGateway.RouterApp
import LlmGateway.GuardrailEvents
import LlmGateway.MockProvider
import LlmGateway.RefundServer
import LlmGateway.RouterSession
import LlmGateway.MockFailover
import LlmGateway.MockGuardrail
