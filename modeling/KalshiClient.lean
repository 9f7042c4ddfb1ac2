import KalshiClient.Http.Attribution
import KalshiClient.Http.Reading
import KalshiClient.Http.Roundtrip
import KalshiClient.Json.Progress
import KalshiClient.Protocol.OrderBody
import KalshiClient.Protocol.Rearrange
import KalshiClient.Trading.Acceptance
import KalshiClient.Trading.Conversation
import KalshiClient.Trading.Exchange
import KalshiClient.Trading.FairValue
import KalshiClient.Trading.Mirror
import KalshiClient.Trading.Orders
import KalshiClient.Trading.PositionLimit
import KalshiClient.Trading.RateLimit
import KalshiClient.Trading.Refinement
import KalshiClient.Trading.Sequence
import KalshiClient.Trading.Truncation
import KalshiClient.WebSocket.Builder
import KalshiClient.WebSocket.Handshake
import KalshiClient.WebSocket.Receive
