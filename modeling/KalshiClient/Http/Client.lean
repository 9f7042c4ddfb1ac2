import KalshiClient.Http.Response
import KalshiClient.Json.Parser

/-!
# The HTTP client

`HttpClient` of `include/http_client.hpp` and `src/protocol/http_client.cpp`: one connection, kept open across
requests, and a receive buffer.  What happens outside the client during a call (the signature, the clock,
the outcome of every operation on the socket) is the argument `Io`, and what the client does to the
socket is recorded as a list of `Event`s.

`request_cases` says once what a call of `request` can do.
-/

namespace KalshiClient.Http

open Bytes Json

/-- What the client does to the socket. -/
inductive Event where
  /-- An attempt to open a connection. -/
  | open (ok : Bool)
  /-- An attempt to send. -/
  | send (bytes : Bytes) (ok : Bool)
  /-- An attempt to read the response, with this in the buffer already. -/
  | read (buffer : Bytes) (ok : Bool)
deriving DecidableEq

/-- What happens outside the client during one call of `request`.  A call opens at most one connection and
sends at most twice.  Unless said otherwise, everything succeeds and takes no time, until there is nothing more
to receive. -/
structure Io where
  /-- What `receive_data` returns, one piece after the other. -/
  pieces : List Bytes
  /-- How it fails after that. -/
  lost : Bytes := ascii "receive timed out"
  /-- The headers that sign the request. -/
  auth : Except Bytes Bytes := .ok []
  /-- The time of the idle check. -/
  now : Int := 0
  /-- Whether the idle connection is readable. -/
  readable : Bool := false
  /-- The outcome of opening a connection, and the time. -/
  opened : Except Bytes Int := .ok 0
  /-- The outcome of the first send. -/
  sent : Except Bytes Unit := .ok ()
  /-- The outcome of the second send. -/
  resent : Except Bytes Unit := .ok ()
  /-- The time after sending. -/
  sentAt : Int := 0
  /-- The time after reading. -/
  doneAt : Int := 0

/-- `class HttpClient`. -/
structure HttpClient where
  /-- `_host`. -/
  host : Bytes
  /-- Whether there is a signer. -/
  signed : Bool
  /-- Whether `_tls` has a value. -/
  connected : Bool := false
  /-- `_buffer`. -/
  buffer : Bytes := []
  /-- `_last_used`. -/
  lastUsed : Int := 0
  /-- `_last_send`. -/
  lastSend : Int := 0
  /-- `_connections_opened`. -/
  connectionsOpened : UInt64 := 0
deriving DecidableEq

/-- `kMaxIdle`, in ticks of the clock. -/
def kMaxIdle : Int := 50 * 1000000000

/-- What a call of `read_response` leaves. -/
structure Reading where
  /-- The result. -/
  result : Except Bytes HttpResponse
  /-- The buffer afterwards. -/
  buffer : Bytes
  /-- The pieces that have not been read. -/
  unread : List Bytes

/-- `HttpClient::read_response`. -/
def readResponse (lost : Bytes) : Bytes → List Bytes → Reading
  | buffer, [] =>
    match parseHttpResponse buffer false with
    | .error e => ⟨.error e, buffer, []⟩
    | .ok (some p) => ⟨.ok p.response, buffer.drop p.bytesConsumed, []⟩
    | .ok none =>
      -- A body that runs to the end of the connection is complete now; anything else is an error.
      match parseHttpResponse buffer true with
      | .ok (some p) => ⟨.ok p.response, buffer, []⟩
      | _ => ⟨.error (ascii "reading response: " ++ lost), buffer, []⟩
  | buffer, piece :: pieces =>
    match parseHttpResponse buffer false with
    | .error e => ⟨.error e, buffer, piece :: pieces⟩
    | .ok (some p) => ⟨.ok p.response, buffer.drop p.bytesConsumed, piece :: pieces⟩
    | .ok none => readResponse lost (buffer ++ piece) pieces

/-- What a call of `request` leaves. -/
structure Outcome where
  /-- The client afterwards. -/
  client : HttpClient
  /-- The result. -/
  result : Except Bytes HttpResponse
  /-- What was done to the socket. -/
  events : List Event
  /-- The pieces that have not been read. -/
  unread : List Bytes

namespace HttpClient

variable (c : HttpClient)

/-- `HttpClient::open_connection`. -/
def openConnection (opened : Except Bytes Int) : HttpClient × Except Bytes Unit :=
  match opened with
  | .error e => ({ c with connected := false, buffer := [] }, .error e)
  | .ok now =>
    ({ c with
      connected := true
      buffer := []
      connectionsOpened := c.connectionsOpened + 1
      lastUsed := now }, .ok ())

/-- `HttpClient::idle_connection_is_dead`. -/
def idleConnectionIsDead (now : Int) (readable : Bool) : Bool := now - c.lastUsed > kMaxIdle || readable

/-- `reused`: whether there is a connection that can be used again. -/
def reused (io : Io) : Bool := c.connected && !c.idleConnectionIsDead io.now io.readable

/-- `HttpClient::connect`. -/
def connect (io : Io) : HttpClient × Except Bytes Unit × List Event :=
  if c.reused io then (c, .ok (), [])
  else
    let (c, result) := c.openConnection io.opened
    (c, result, [.open result.isOk])

/-- The bytes of a request. -/
def requestBytes (method path body auth : Bytes) : Bytes :=
  let contentHeaders :=
    if body ≠ [] ∨ method = ascii "POST" then
      ascii "Content-Type: application/json\r\nContent-Length: " ++ ofNat body.length ++ crlf
    else []
  method ++ ascii " " ++ path ++ ascii " HTTP/1.1\r\nHost: " ++ c.host ++ crlf ++ auth ++ contentHeaders ++
    crlf ++ body

/-- Opening a connection and sending on it: the way to send without a connection that can be used again, and
the one retry. -/
def openAndSend (bytes : Bytes) (opened : Except Bytes Int) (sent : Except Bytes Unit) :
    HttpClient × Except Bytes Unit × List Event :=
  match c.openConnection opened with
  | (c, .error e) => (c, .error e, [.open false])
  | (c, .ok ()) =>
    match sent with
    | .ok () => (c, .ok (), [.open true, .send bytes true])
    | .error e =>
      ({ c with connected := false }, .error (ascii "sending request: " ++ e),
        [.open true, .send bytes false])

/-- The part of `request` up to the bytes being sent. -/
def sendRequest (bytes : Bytes) (io : Io) : HttpClient × Except Bytes Unit × List Event :=
  if c.reused io then
    match io.sent with
    | .ok () => (c, .ok (), [.send bytes true])
    | .error _ =>
      let (c, result, events) := c.openAndSend bytes io.opened io.resent
      (c, result, .send bytes false :: events)
  else c.openAndSend bytes io.opened io.sent

/-- The part of `request` from there on. -/
def finish (events : List Event) (io : Io) : Outcome :=
  let reading := readResponse io.lost c.buffer io.pieces
  let keep := match reading.result with
    | .ok response => response.keepAlive
    | .error _ => false
  ⟨{ c with
      connected := keep
      buffer := reading.buffer
      lastSend := io.sentAt
      lastUsed := io.doneAt }, reading.result, events ++ [.read c.buffer reading.result.isOk], reading.unread⟩

/-- `HttpClient::request`, with the headers that sign it. -/
def requestWith (method path body auth : Bytes) (io : Io) : Outcome :=
  match c.sendRequest (c.requestBytes method path body auth) io with
  | (c, .error e, events) => ⟨c, .error e, events, io.pieces⟩
  | (c, .ok (), events) => c.finish events io

/-- `HttpClient::request`. -/
def request (method path body : Bytes) (io : Io) : Outcome :=
  if c.signed then
    match io.auth with
    | .error e => ⟨c, .error e, [], io.pieces⟩
    | .ok auth => c.requestWith method path body auth io
  else c.requestWith method path body [] io

/-- What `request_json` makes of a response. -/
def toJson (response : HttpResponse) : Except Bytes JsonValue :=
  match parseJson response.body with
  | .ok json => .ok json
  | .error e =>
    .error (ascii "HTTP " ++ ofNat response.status ++ ascii " with unparseable body: " ++ ascii e)

/-- `HttpClient::request_json`: the outcome, and the JSON value. -/
def requestJson (method path body : Bytes) (io : Io) : Outcome × Except Bytes JsonValue :=
  let outcome := c.request method path body io
  (outcome, outcome.result >>= toJson)

end HttpClient

/-! ## What a call can do -/

/-- How the bytes of a request are sent, on a connection that is used again or not: the attempts, and whether
the last one succeeded. -/
inductive Attempt (bytes : Bytes) : (reused : Bool) → List Event → (ok : Bool) → Prop
  | again : Attempt bytes true [.send bytes true] true
  | first : Attempt bytes false [.open true, .send bytes true] true
  | retry : Attempt bytes true [.send bytes false, .open true, .send bytes true] true
  | notOpened : Attempt bytes false [.open false] false
  | notSent : Attempt bytes false [.open true, .send bytes false] false
  | retryNotOpened : Attempt bytes true [.send bytes false, .open false] false
  | retryNotSent : Attempt bytes true [.send bytes false, .open true, .send bytes false] false

namespace HttpClient

variable (c : HttpClient)

theorem openAndSend_cases (bytes : Bytes) (opened : Except Bytes Int) (sent : Except Bytes Unit) :
    (∃ c', c.openAndSend bytes opened sent = (c', .ok (), [.open true, .send bytes true]) ∧
      c'.connected = true ∧ c'.buffer = []) ∨
    ∃ c' e events, c.openAndSend bytes opened sent = (c', .error e, events) ∧ c'.connected = false ∧
      (events = [.open false] ∨ events = [.open true, .send bytes false]) := by
  rw [openAndSend]
  cases opened with
  | error e => exact .inr ⟨_, _, _, rfl, rfl, .inl rfl⟩
  | ok now =>
      cases sent with
      | error e => exact .inr ⟨_, _, _, rfl, rfl, .inr rfl⟩
      | ok _ => exact .inl ⟨_, rfl, rfl, rfl⟩

/-- A request is sent, on the connection there is or on a new one, or the connection is gone. -/
theorem sendRequest_cases (bytes : Bytes) (io : Io) :
    (∃ c' events, c.sendRequest bytes io = (c', .ok (), events) ∧
      Attempt bytes (c.reused io) events true ∧ c'.connected = true ∧
      (c' = c ∧ events = [.send bytes true] ∨ c'.buffer = [] ∧ .open true ∈ events)) ∨
    ∃ c' e events, c.sendRequest bytes io = (c', .error e, events) ∧
      Attempt bytes (c.reused io) events false ∧ c'.connected = false := by
  rw [sendRequest]
  cases hreused : c.reused io with
  | false =>
      rw [if_neg Bool.false_ne_true]
      rcases c.openAndSend_cases bytes io.opened io.sent with
        ⟨c', hsend, hconn, hbuf⟩ | ⟨c', e, events, hsend, hconn, rfl | rfl⟩
      · exact .inl ⟨c', _, hsend, .first, hconn, .inr ⟨hbuf, List.mem_cons_self⟩⟩
      · exact .inr ⟨c', e, _, hsend, .notOpened, hconn⟩
      · exact .inr ⟨c', e, _, hsend, .notSent, hconn⟩
  | true =>
      rw [if_pos rfl]
      have hconn : c.connected = true := (Bool.and_eq_true_iff.mp hreused).1
      cases io.sent with
      | ok _ => exact .inl ⟨c, _, rfl, .again, hconn, .inl ⟨rfl, rfl⟩⟩
      | error e =>
          rcases c.openAndSend_cases bytes io.opened io.resent with
            ⟨c', hsend, hconn, hbuf⟩ | ⟨c', e, events, hsend, hconn, rfl | rfl⟩
          · rw [hsend]
            exact .inl ⟨c', _, rfl, .retry, hconn, .inr ⟨hbuf, by simp⟩⟩
          · rw [hsend]
            exact .inr ⟨c', e, _, rfl, .retryNotOpened, hconn⟩
          · rw [hsend]
            exact .inr ⟨c', e, _, rfl, .retryNotSent, hconn⟩

/-- What a call of `request` can do: nothing, for want of a signature; fail to send, after which there is no
connection; or send and read. -/
theorem request_cases (method path body : Bytes) (io : Io) :
    (∃ e, io.auth = .error e ∧ c.request method path body io = ⟨c, .error e, [], io.pieces⟩) ∨
    ∃ auth,
      (∃ c' e events, Attempt (c.requestBytes method path body auth) (c.reused io) events false ∧
        c'.connected = false ∧ c.request method path body io = ⟨c', .error e, events, io.pieces⟩) ∨
      ∃ c' events, Attempt (c.requestBytes method path body auth) (c.reused io) events true ∧
        (c' = c ∧ events = [.send (c.requestBytes method path body auth) true] ∨
          c'.buffer = [] ∧ .open true ∈ events) ∧
        c.request method path body io = c'.finish events io := by
  have hwith : ∀ auth,
      (∃ c' e events, Attempt (c.requestBytes method path body auth) (c.reused io) events false ∧
        c'.connected = false ∧ c.requestWith method path body auth io = ⟨c', .error e, events, io.pieces⟩) ∨
      ∃ c' events, Attempt (c.requestBytes method path body auth) (c.reused io) events true ∧
        (c' = c ∧ events = [.send (c.requestBytes method path body auth) true] ∨
          c'.buffer = [] ∧ .open true ∈ events) ∧
        c.requestWith method path body auth io = c'.finish events io := by
    intro auth
    rw [requestWith]
    rcases c.sendRequest_cases (c.requestBytes method path body auth) io with
      ⟨c', events, hsend, hattempt, -, hconn⟩ | ⟨c', e, events, hsend, hattempt, hconn⟩
    · rw [hsend]
      exact .inr ⟨c', events, hattempt, hconn, rfl⟩
    · rw [hsend]
      exact .inl ⟨c', e, events, hattempt, hconn, rfl⟩
  rw [request]
  cases c.signed with
  | false => exact .inr ⟨[], hwith []⟩
  | true =>
      cases hauth : io.auth with
      | error e => exact .inl ⟨e, rfl, rfl⟩
      | ok auth => exact .inr ⟨auth, hwith auth⟩

end HttpClient

/-! ## Reading a response -/

/-- What `read_response` returns when nothing more can be read. -/
def atEnd (lost buffer : Bytes) : Except Bytes HttpResponse :=
  match parseHttpResponse buffer true with
  | .ok (some p) => .ok p.response
  | _ => .error (ascii "reading response: " ++ lost)

theorem take_flatten_append (buffer : Bytes) (pieces : List Bytes) (k : Nat) :
    buffer ++ (pieces.take k).flatten ++ (pieces.drop k).flatten = buffer ++ pieces.flatten := by
  rw [List.append_assoc, ← List.flatten_append, List.take_append_drop]

/-- How the loop runs: it has read `k` pieces, before each of which the parser wanted more, and it stops because the
parser is content, one way or the other, or because there are no more pieces. -/
theorem readResponse_cases (lost buffer : Bytes) (pieces : List Bytes) :
    ∃ k b, b = buffer ++ (pieces.take k).flatten ∧
      (∀ j < k, parseHttpResponse (buffer ++ (pieces.take j).flatten) false = .ok none) ∧
      (readResponse lost buffer pieces).unread = pieces.drop k ∧
      ((∃ e, parseHttpResponse b false = .error e ∧ (readResponse lost buffer pieces).result = .error e) ∨
        (∃ p, parseHttpResponse b false = .ok (some p) ∧ (readResponse lost buffer pieces).result = .ok p.response ∧
          (readResponse lost buffer pieces).buffer = b.drop p.bytesConsumed) ∨
        pieces.length ≤ k ∧ parseHttpResponse b false = .ok none ∧
          (readResponse lost buffer pieces).result = atEnd lost b) := by
  have hnow (pieces : List Bytes) : buffer = buffer ++ (pieces.take 0).flatten := (List.append_nil buffer).symm
  have hnone (j : Nat) (hj : j < 0) : parseHttpResponse (buffer ++ (pieces.take j).flatten) false = .ok none :=
    absurd hj (Nat.not_lt_zero j)
  induction pieces generalizing buffer with
  | nil =>
      refine ⟨0, buffer, hnow [], hnone, ?_⟩
      rw [readResponse]
      rcases hparse : parseHttpResponse buffer false with e | (_ | p)
      · exact ⟨rfl, .inl ⟨e, rfl, rfl⟩⟩
      · refine ⟨?_, .inr (.inr ⟨Nat.zero_le _, rfl, ?_⟩)⟩
        · rcases parseHttpResponse buffer true with e | (_ | p) <;> rfl
        · rw [atEnd]
          rcases parseHttpResponse buffer true with e | (_ | p) <;> rfl
      · exact ⟨rfl, .inr (.inl ⟨p, rfl, rfl, rfl⟩)⟩
  | cons piece pieces ih =>
      rw [readResponse]
      rcases hparse : parseHttpResponse buffer false with e | (_ | p)
      · exact ⟨0, buffer, hnow _, hnone, rfl, .inl ⟨e, hparse, rfl⟩⟩
      · obtain ⟨k, b, hb, hmore, hunread, hstop⟩ := ih (buffer ++ piece) (fun _ ↦ (List.append_nil _).symm)
          fun j hj ↦ absurd hj (Nat.not_lt_zero j)
        refine ⟨k + 1, b, ?_, ?_, hunread, ?_⟩
        · rw [hb, List.take_succ_cons, List.flatten_cons, List.append_assoc]
        · intro j hj
          cases j with
          | zero =>
              rw [← hnow]
              exact hparse
          | succ j =>
              rw [List.take_succ_cons, List.flatten_cons, ← List.append_assoc]
              exact hmore j (Nat.lt_of_succ_lt_succ hj)
        · exact hstop.imp id (Or.imp id fun h ↦ ⟨Nat.succ_le_succ h.1, h.2⟩)
      · exact ⟨0, buffer, hnow _, hnone, rfl, .inr (.inl ⟨p, hparse, rfl, rfl⟩)⟩

end KalshiClient.Http
