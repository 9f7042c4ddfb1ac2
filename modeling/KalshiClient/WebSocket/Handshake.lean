import KalshiClient.Base.Split
import KalshiClient.WebSocket.Wire

/-!
# The upgrade handshake: `WebSocket::connect`

`connect` of `src/network/web_socket.cpp` sends the upgrade request and looks at what a single call of
`receive_data` returns.  It checks how the piece begins and drops it: nothing of it reaches `_buffer`, and nothing of
the response that comes later is taken out of the stream.  The stream is therefore handed over as it should be exactly
if the piece ends where the response head does (`handsOver_iff`).

The steps before that (the signature, the connection, the key, the send) and the socket are arguments.
-/

namespace KalshiClient.WebSocket

open Bytes Split Incremental

/-! ## The source -/

/-- `kWebSocketPath`. -/
def kWebSocketPath : Bytes := ascii "/trade-api/ws/v2"

/-- What happens outside the client while it connects. -/
structure Dial where
  /-- The headers that sign the request. -/
  auth : Except Bytes Bytes
  /-- The outcome of opening a TLS connection. -/
  opened : Except Bytes Unit
  /-- The WebSocket key, unless `RAND_bytes` fails. -/
  key : Option Bytes
  /-- The outcome of the send. -/
  sent : Except Bytes Unit
  /-- How `receive_data` fails when nothing more arrives. -/
  lost : Bytes

/-- What a call of `connect` leaves. -/
structure Dialled where
  /-- The result. -/
  result : Except Bytes Unit
  /-- What was handed to `send_data`. -/
  requests : List Bytes
  /-- `_buffer`. -/
  buffer : Bytes
  /-- The pieces that have not been read. -/
  pending : List Bytes

/-- The upgrade request. -/
def upgradeRequest (host websocketKey authHeaders : Bytes) : Bytes :=
  ascii "GET " ++ kWebSocketPath ++ ascii " HTTP/1.1\r\nHost: " ++ host ++
    ascii "\r\nUpgrade: websocket\r\nConnection: Upgrade\r\nSec-WebSocket-Key: " ++ websocketKey ++
    ascii "\r\nSec-WebSocket-Version: 13\r\n" ++ authHeaders ++ ascii "\r\n"

/-- What `connect` takes for an accepting response. -/
def switching : Bytes := ascii "HTTP/1.1 101"

/-- `response.substr(0, response.find("\r\n"))`. -/
def firstLine (response : Bytes) : Bytes := (breakOn (ascii "\r\n") response).elim response Prod.fst

/-- `WebSocket::connect`, when `receive_data` will return the pieces one by one. -/
def connect (host : Bytes) (io : Dial) (buffer : Bytes) (pieces : List Bytes) : Dialled :=
  match io.auth with
  | .error e => ⟨.error e, [], buffer, pieces⟩
  | .ok authHeaders =>
    match io.opened with
    | .error e => ⟨.error (ascii "TLS connection failed " ++ e), [], buffer, pieces⟩
    | .ok () =>
      match io.key with
      | none => ⟨.error (ascii "Failed to generate random bytes for WebSocket key"), [], buffer, pieces⟩
      | some websocketKey =>
        let request := upgradeRequest host websocketKey authHeaders
        match io.sent with
        | .error e => ⟨.error (ascii "Failed to send data " ++ e), [request], buffer, pieces⟩
        | .ok () =>
          match pieces with
          | [] => ⟨.error (ascii "Failed to receive data " ++ io.lost), [request], buffer, []⟩
          | response :: pending =>
            if switching <+: response then ⟨.ok (), [request], buffer, pending⟩
            else ⟨.error (ascii "Handshake rejected: " ++ firstLine response), [request], buffer, pending⟩

/-! ## The server -/

/-- What a server sends that accepts the upgrade, as it arrives. -/
structure Upgrade where
  /-- The response head, with its blank line. -/
  head : Bytes
  /-- The frames that follow. -/
  frames : List WireFrame
  /-- The pieces in which it all arrives. -/
  pieces : List Bytes
  status : switching <+: head
  blank : (breakOn (ascii "\r\n\r\n") head).map Prod.snd = some []
  cut : pieces.flatten = head ++ frames.flatMap WireFrame.encode
  nonempty : ∀ piece ∈ pieces, piece ≠ []

/-- Every step up to the response succeeds. -/
structure Dial.Ready (io : Dial) : Prop where
  auth : io.auth.isOk
  opened : io.opened = .ok ()
  key : io.key.isSome
  sent : io.sent = .ok ()

/-- The results of reading some frames and then the end of the connection. -/
def deliveries (lost : String) (ws : List WireFrame) : List (Except (Failure String String) WebSocketFrame) :=
  ws.map (fun w ↦ .ok w.frame) ++ [.error (.transport lost)]

/-- The frames after the head are handed over: `connect` succeeds on a new connection, what it leaves to be read is
the frames and nothing else, and reading gives the frames in order, until the transport fails. -/
structure HandsOver (host : Bytes) (io : Dial) (lost : String) (u : Upgrade) : Prop where
  connected : (connect host io [] u.pieces).result = .ok ()
  stream : (connect host io [] u.pieces).buffer ++ (connect host io [] u.pieces).pending.flatten =
    u.frames.flatMap WireFrame.encode
  frames : ∀ k, receiveFrames lost k (connect host io [] u.pieces).buffer (connect host io [] u.pieces).pending =
    (deliveries lost u.frames).take k

/-! ## What is handed over -/

theorem frameVerdict_encode (w : WireFrame) (t : Bytes) :
    frameVerdict (w.encode ++ t) = .done w.frame w.encode.length :=
  frameVerdict_eq_done.mpr (frameParser_encode w t)

/-- A stream of frames is parsed to the frames. -/
theorem parseFrames_encode (lost : String) (k : Nat) (ws : List WireFrame) :
    parseFrames lost k (ws.flatMap WireFrame.encode) = (deliveries lost ws).take k := by
  induction ws generalizing k with
  | nil =>
      cases k with
      | zero => rfl
      | succ k =>
          rw [deliveries, List.map_nil, List.nil_append, List.take_succ_cons, List.take_nil]
          rfl
  | cons w ws ih =>
      cases k with
      | zero => rfl
      | succ k =>
          rw [List.flatMap_cons, parseFrames, parseAll, frameVerdict_encode]
          dsimp only
          rw [List.drop_left]
          exact congrArg _ (ih k)

/-- What `connect` does with the first piece, once it gets that far. -/
theorem connect_cons {io : Dial} (h : io.Ready) (host buffer response : Bytes) (pending : List Bytes) :
    ((connect host io buffer (response :: pending)).result = .ok () ↔ switching <+: response) ∧
      (connect host io buffer (response :: pending)).buffer = buffer ∧
      (connect host io buffer (response :: pending)).pending = pending := by
  obtain ⟨auth, opened, key, sent, lost⟩ := io
  obtain ⟨hauth, rfl, hkey, rfl⟩ := h
  obtain ⟨auth, rfl⟩ : ∃ a, auth = .ok a := by
    cases auth with
    | error e => cases hauth
    | ok a => exact ⟨a, rfl⟩
  obtain ⟨key, rfl⟩ := Option.isSome_iff_exists.mp hkey
  rw [connect]
  dsimp only
  split_ifs with hstart
  · exact ⟨iff_of_true rfl hstart, rfl, rfl⟩
  · exact ⟨iff_of_false (fun h ↦ nomatch h) hstart, rfl, rfl⟩

theorem Upgrade.pieces_ne_nil (u : Upgrade) : u.pieces ≠ [] := by
  intro hnil
  have hcut := u.cut
  rw [hnil, List.flatten_nil] at hcut
  have hhead : u.head = [] := (List.append_eq_nil_iff.mp hcut.symm).1
  have hstatus := u.status
  rw [hhead] at hstatus
  exact absurd (List.prefix_nil.mp hstatus) (by decide)

/-- The stream is handed over exactly if the first read ends with the response head. -/
theorem handsOver_iff (host : Bytes) (io : Dial) (hready : io.Ready) (lost : String) (u : Upgrade) :
    HandsOver host io lost u ↔ u.pieces.head? = some u.head := by
  obtain ⟨response, pending, hpieces⟩ := List.exists_cons_of_ne_nil u.pieces_ne_nil
  obtain ⟨hresult, hbuffer, hpending⟩ := connect_cons hready host [] response pending
  have hcut : response ++ pending.flatten = u.head ++ u.frames.flatMap WireFrame.encode := by
    rw [← u.cut, hpieces, List.flatten_cons]
  rw [hpieces, List.head?_cons, Option.some_inj]
  constructor
  · intro h
    have hstream := h.stream
    rw [hpieces, hbuffer, hpending, List.nil_append] at hstream
    rw [hstream] at hcut
    exact List.append_cancel_right hcut
  · rintro rfl
    have hstream : pending.flatten = u.frames.flatMap WireFrame.encode := List.append_cancel_left hcut
    constructor
    · rw [hpieces]
      exact hresult.mpr u.status
    · rw [hpieces, hbuffer, hpending, List.nil_append, hstream]
    · intro k
      rw [hpieces, hbuffer, hpending, receiveFrames, receiveAll_eq_parseAll stable_frameVerdict, List.nil_append,
        hstream]
      exact parseFrames_encode lost k u.frames

/-! ## A head and a frame in one piece -/

/-- A connection on which everything succeeds. -/
def dialOk : Dial := ⟨.ok [], .ok (), some (ascii "dGhlIHNhbXBsZSBub25jZQ=="), .ok (), ascii "receive timed out"⟩

/-- An empty text frame. -/
def emptyText : WireFrame := ⟨true, .text, .short, none, [], Nat.zero_le _, by decide, by decide⟩

/-- The head of a response. -/
def switchingHead : Bytes := switching ++ ascii " Switching Protocols\r\n\r\n"

/-- A server that sends a frame with its response, in one piece. -/
def together : Upgrade where
  head := switchingHead
  frames := [emptyText]
  pieces := [switchingHead ++ emptyText.encode]
  status := List.prefix_append _ _
  blank := by decide +kernel
  cut := rfl
  nonempty := by decide +kernel

/-- The same server, when the frame arrives on its own. -/
def apart : Upgrade := { together with
  pieces := [switchingHead, emptyText.encode]
  cut := rfl
  nonempty := by decide +kernel }

theorem dialOk_ready : dialOk.Ready := ⟨rfl, rfl, rfl, rfl⟩

/-- The handshake succeeds, and the frame is lost: the first read waits for another. -/
theorem together_not_handsOver :
    (connect (ascii "host") dialOk [] together.pieces).result = .ok () ∧
      receiveFrames "receive timed out" 2 (connect (ascii "host") dialOk [] together.pieces).buffer
        (connect (ascii "host") dialOk [] together.pieces).pending = [.error (.transport "receive timed out")] ∧
      deliveries "receive timed out" together.frames =
        [.ok ⟨true, .text, none, []⟩, .error (.transport "receive timed out")] ∧
      ¬ HandsOver (ascii "host") dialOk "receive timed out" together := by
  obtain ⟨hresult, hbuffer, hpending⟩ :=
    connect_cons dialOk_ready (ascii "host") [] (switchingHead ++ emptyText.encode) []
  have hpieces : together.pieces = [switchingHead ++ emptyText.encode] := rfl
  rw [hpieces, hbuffer, hpending]
  refine ⟨hresult.mpr ?_, rfl, rfl, fun h ↦ ?_⟩
  · exact (List.prefix_append _ _).trans (List.prefix_append _ _)
  · have hstream := h.stream
    rw [hpieces, hbuffer, hpending] at hstream
    cases hstream

/-- When the pieces are cut after the head, the frame arrives. -/
theorem apart_handsOver : HandsOver (ascii "host") dialOk "receive timed out" apart :=
  (handsOver_iff _ _ dialOk_ready _ _).mpr rfl

end KalshiClient.WebSocket
