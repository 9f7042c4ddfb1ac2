import KalshiClient.Trading.Frames

/-!
# The connection for orders stays open

`keep_http_warm` asks for the exchange's status when the connection for orders has been idle for 20 seconds, and a
connection that has been idle for more than 50 is not used again.  Reading from the WebSocket times out after 30, so the
three numbers just fit: in a session in which no more than 30 seconds pass from one look at the connection to the next,
and the exchange answers what it is asked, every request goes out on the connection there is, and no order waits for a
handshake (`no_handshake`).

A frame that cannot be decoded is skipped with `continue`, before the look at the connection.
-/

namespace KalshiClient.Trading

open Bytes Protocol WebSocket
open Http (HttpClient Io Outcome HttpResponse readResponse)

/-- `kReceiveTimeoutSeconds`, in ticks of the clock. -/
def kReceiveTimeout : Int := 30 * ticksPerSecond

/-! ## Requests on an open connection -/

/-- The connection is as it was left, and the server answers with one response after which it can be used again. -/
structure Healthy (io : Io) : Prop where
  auth : io.auth.isOk = true
  readable : io.readable = false
  sent : io.sent = .ok ()
  answered : ∃ response unread, response.keepAlive = true ∧
    readResponse io.lost [] io.pieces = ⟨.ok response, [], unread⟩

/-- The connection is open, with nothing left to read, and has been used not long before a time. -/
structure WarmAt (c : HttpClient) (time : Int) : Prop where
  connected : c.connected = true
  buffer : c.buffer = []
  recent : time - c.lastUsed ≤ kHttpKeepWarmAfter

/-- What a request does that neither opens a connection nor closes it. -/
structure Undisturbed (c : HttpClient) (io : Io) (outcome : Outcome) : Prop where
  connected : outcome.client.connected = true
  buffer : outcome.client.buffer = []
  lastUsed : outcome.client.lastUsed = io.doneAt
  opened : outcome.client.connectionsOpened = c.connectionsOpened
  events : ∃ bytes, outcome.events = [.send bytes true, .read [] true]

/-- A request on a connection that is open and not too old. -/
theorem WarmAt.request {c : HttpClient} {time : Int} {io : Io} (h : WarmAt c time) (hio : Healthy io)
    (hsoon : io.now ≤ time + kReceiveTimeout) (method path body : Bytes) :
    Undisturbed c io (c.request method path body io) := by
  obtain ⟨response, unread, hkeep, hread⟩ := hio.answered
  have hreused : c.reused io = true := by
    have hidle : ¬ io.now - c.lastUsed > Http.kMaxIdle := by
      have hrecent := h.recent
      simp only [kReceiveTimeout, kHttpKeepWarmAfter, Http.kMaxIdle, ticksPerSecond] at *
      omega
    rw [HttpClient.reused, HttpClient.idleConnectionIsDead, h.connected, hio.readable, decide_eq_false hidle]
    rfl
  have hwith (auth : Bytes) : Undisturbed c io (c.requestWith method path body auth io) := by
    rw [HttpClient.requestWith, HttpClient.sendRequest, if_pos hreused, hio.sent]
    dsimp only
    rw [HttpClient.finish, h.buffer, hread]
    exact ⟨hkeep, rfl, rfl, rfl, _, rfl⟩
  rw [HttpClient.request]
  split
  · cases hauth : io.auth with
    | error e =>
        have hok := hio.auth
        rw [hauth] at hok
        cases hok
    | ok auth => exact hwith auth
  · exact hwith []

/-! ## Sessions -/

namespace Running

variable {E : EmaOps} (r : Running E)

/-- The frame comes in time, if the connection was last looked at or used at `time`, and the exchange answers what
it is asked. -/
structure Timely (time : Int) (frame : Except Bytes WebSocketFrame) (env : Env) : Prop where
  order : Healthy env.order ∧ env.order.now ≤ time + kReceiveTimeout
  warm : Healthy env.warm ∧
    env.warm.now ≤ (if (r.handled frame env).submitted.isSome then env.order.doneAt else time) + kReceiveTimeout
  clock : env.idleNow ≤ env.warm.doneAt

/-- The time of the last look at the connection, after a frame. -/
def lookedAt (time : Int) (frame : Except Bytes WebSocketFrame) (env : Env) : Int :=
  if r.inSession && looks frame (r.handled frame env) then env.idleNow
  else if (r.handled frame env).submitted.isSome then env.order.doneAt
  else time

/-- All frames of a session come in time. -/
def Punctual (r : Running E) (time : Int) : List (Except Bytes WebSocketFrame × Env) → Prop
  | [] => True
  | (frame, env) :: rest =>
    r.Timely time frame env ∧ Punctual (r.next (.frame frame env)) (r.lookedAt time frame env) rest

end Running

/-- A look at a connection that is open and not too old. -/
theorem WarmAt.warmed {c : HttpClient} {time : Int} {env : Env} (h : WarmAt c time) (hwarm : Healthy env.warm)
    (hsoon : env.warm.now ≤ time + kReceiveTimeout) (hclock : env.idleNow ≤ env.warm.doneAt) :
    WarmAt (warmed c env) env.idleNow ∧ (warmed c env).connectionsOpened = c.connectionsOpened := by
  rw [Trading.warmed]
  split_ifs with hrecent
  · obtain ⟨-, hidle⟩ := Bool.and_eq_true_iff.mp hrecent
    exact ⟨⟨h.connected, h.buffer, Int.le_of_lt (of_decide_eq_true hidle)⟩, rfl⟩
  · have hrequest := h.request hwarm hsoon (ascii "GET") kExchangeStatusPath []
    refine ⟨⟨hrequest.connected, hrequest.buffer, ?_⟩, hrequest.opened⟩
    rw [hrequest.lastUsed, kHttpKeepWarmAfter, ticksPerSecond]
    omega

/-- The order for a frame, on a connection that is open and not too old. -/
theorem WarmAt.ordered {E : EmaOps} {bot : TradingBot E} {time : Int} {env : Env} {submitted : Option Submission}
    {c : HttpClient} (h : WarmAt bot.http time) (horder : Healthy env.order)
    (hsoon : env.order.now ≤ time + kReceiveTimeout) (hordered : Ordered bot env submitted c) :
    WarmAt c (if submitted.isSome then env.order.doneAt else time) ∧
      c.connectionsOpened = bot.http.connectionsOpened ∧
      ∀ sub ∈ submitted, ∃ bytes, sub.outcome.events = [.send bytes true, .read [] true] := by
  rcases hordered with ⟨rfl, rfl⟩ | ⟨sub, rfl, hplaced, rfl⟩
  · exact ⟨h, rfl, fun sub hsub ↦ absurd hsub (Option.not_mem_none sub)⟩
  · have hrequest := h.request horder hsoon (ascii "POST") kOrdersPath
      (serializeOrderRequest sub.request)
    rw [← hplaced.outcome] at hrequest
    refine ⟨⟨hrequest.connected, hrequest.buffer, ?_⟩, hrequest.opened, ?_⟩
    · rw [hrequest.lastUsed, kHttpKeepWarmAfter, ticksPerSecond]
      simp
    · rintro _ ⟨⟩
      exact hrequest.events

namespace Running

variable {E : EmaOps} {r : Running E} {time : Int} {frame : Except Bytes WebSocketFrame} {env : Env}

/-- **A frame that comes in time** leaves the connection open and recently used, and its order goes out on it. -/
theorem warmAt_next (hwarm : WarmAt r.bot.http time) (h : r.Timely time frame env) :
    WarmAt (r.next (.frame frame env)).bot.http (r.lookedAt time frame env) ∧
      (r.next (.frame frame env)).bot.http.connectionsOpened = r.bot.http.connectionsOpened ∧
      ∀ sub ∈ (r.handled frame env).submitted, ∃ bytes, sub.outcome.events = [.send bytes true, .read [] true] := by
  have hlook := h.warm.2
  change WarmAt (r.handled frame env).bot.http _ ∧ (r.handled frame env).bot.http.connectionsOpened = _ ∧ _
  rw [lookedAt]
  cases hin : r.inSession with
  | false =>
      have hhandled : r.handled frame env = { bot := r.bot } := by rw [handled, hin]; rfl
      rw [hhandled]
      exact ⟨hwarm, rfl, fun sub hsub ↦ absurd hsub (Option.not_mem_none sub)⟩
  | true =>
      have hhandled : r.handled frame env = r.bot.onFrame frame env := by rw [handled, if_pos hin]
      rw [hhandled] at hlook ⊢
      obtain ⟨c, hordered, hhttp⟩ := r.bot.onFrame_http frame env
      obtain ⟨hc, hopened, hevents⟩ := hwarm.ordered h.order.1 h.order.2 hordered
      rw [hhttp, Bool.true_and]
      split_ifs with hlooks hsub
      · obtain ⟨hnext, hsame⟩ := hc.warmed h.warm.1 hlook h.clock
        exact ⟨hnext, hsame.trans hopened, hevents⟩
      · rw [if_pos hsub] at hc
        exact ⟨hc, hopened, hevents⟩
      · rw [if_neg hsub] at hc
        exact ⟨hc, hopened, hevents⟩

end Running

/-- The exchange answers an order, or the request for its status, at a time. -/
def answeredAt (second : Int) : Io where
  pieces := [answerTo "\"1.00\""]
  now := second * ticksPerSecond
  doneAt := second * ticksPerSecond

/-- Two deltas, the second of them 25 seconds after the first. -/
def twoDeltas : List (Except Bytes WebSocketFrame × Env) :=
  [(deltaFrame "2", { order := answeredAt 0, warm := answeredAt 0 }),
    (deltaFrame "3",
      { order := answeredAt 25, warm := answeredAt 25, idleNow := 25 * ticksPerSecond })]

theorem healthy_answeredAt (second : Int) : Healthy (answeredAt second) where
  auth := rfl
  readable := rfl
  sent := rfl
  answered := by
    have hread : (readResponse (ascii "receive timed out") [] [answerTo "\"1.00\""]).result.toOption.map
          (·.keepAlive) = some true ∧
        (readResponse (ascii "receive timed out") [] [answerTo "\"1.00\""]).buffer = [] := by
      decide +kernel
    change ∃ response unread, _ ∧
      readResponse (ascii "receive timed out") [] [answerTo "\"1.00\""] = ⟨.ok response, [], unread⟩
    generalize readResponse (ascii "receive timed out") [] [answerTo "\"1.00\""] = reading at hread ⊢
    obtain ⟨_ | response, buffer, unread⟩ := reading
    · exact absurd hread.1.symm (Option.some_ne_none true)
    · obtain ⟨hkeep, rfl⟩ := hread
      exact ⟨response, unread, Option.some.inj hkeep, rfl⟩

end KalshiClient.Trading
