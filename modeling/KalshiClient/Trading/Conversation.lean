import KalshiClient.Json.Print
import KalshiClient.Json.Unicode
import KalshiClient.Trading.Process

/-!
# What goes over the WebSocket

The process reads frames off the WebSocket and writes a subscription and Pongs to it.  What it does depends on the bytes
that arrive in a session and not on how they are cut (`run_independent_of_cutting`), except for the piece that
`connect` takes for the response.  What it writes is, for a server that reads it with the same framing, the subscription
and then the Pongs for the Pings it has sent, and nothing else (`server_reads`).
-/

namespace KalshiClient.Trading

open Bytes Protocol Json WebSocket Incremental

/-! ## The cutting -/

/-- The same bytes arrive on two sockets. -/
structure Socket.SameStream (ws ws' : Socket) : Prop where
  bytes : ws'.buffer ++ ws'.pending.flatten = ws.buffer ++ ws.pending.flatten
  lost : ws'.lost = ws.lost

/-- The program is at the same place, in a session with the same bytes if it is in one. -/
inductive Pc.SameStream : Pc → Pc → Prop
  | outside {pc : Pc} (h : pc.inSession = false) : SameStream pc pc
  | checking {ws ws' : Socket} (h : ws.SameStream ws') (receivedData : Bool) :
      SameStream (.checking ws receivedData) (.checking ws' receivedData)
  | receiving {ws ws' : Socket} (h : ws.SameStream ws') (receivedData : Bool) :
      SameStream (.receiving ws receivedData) (.receiving ws' receivedData)
  | handling (frame : WebSocketFrame) {ws ws' : Socket} (h : ws.SameStream ws') (receivedData : Bool) :
      SameStream (.handling frame ws receivedData) (.handling frame ws' receivedData)

/-- The two processes differ in how what arrives is cut. -/
structure Process.SameStream {E : EmaOps} (p p' : Process E) : Prop where
  bot : p'.bot = p.bot
  backoff : p'.backoff = p.backoff
  pc : p.pc.SameStream p'.pc

/-- Two steps differ in how what arrives on a new connection is cut, after the first piece. -/
structure Turn.SameStream (t t' : Turn) : Prop where
  same : t' = { t with pieces := t'.pieces }
  first : t'.pieces.head? = t.pieces.head?
  rest : t'.pieces.tail.flatten = t.pieces.tail.flatten

/-- The two acts differ in how what arrives is cut. -/
inductive Act.SameStream : Act → Act → Prop
  | turn {t t' : Turn} (h : t.SameStream t') : SameStream (.turn t) (.turn t')
  | stop : SameStream .stop .stop

/-- `connect` looks at the first piece. -/
theorem connect_congr (host buffer : Bytes) (io : Dial) {pieces pieces' : List Bytes}
    (h : pieces'.head? = pieces.head?) :
    (connect host io buffer pieces').result = (connect host io buffer pieces).result ∧
      (connect host io buffer pieces').requests = (connect host io buffer pieces).requests := by
  obtain ⟨auth, opened, key, sent, lost⟩ := io
  cases auth with
  | error e => exact ⟨rfl, rfl⟩
  | ok auth =>
      cases opened with
      | error e => exact ⟨rfl, rfl⟩
      | ok u =>
          cases key with
          | none => exact ⟨rfl, rfl⟩
          | some key =>
              cases sent with
              | error e => exact ⟨rfl, rfl⟩
              | ok u =>
                  rcases pieces with _ | ⟨piece, pieces⟩ <;> rcases pieces' with _ | ⟨piece', pieces'⟩ <;> cases h
                  · exact ⟨rfl, rfl⟩
                  · rw [connect, connect]
                    dsimp only
                    split <;> exact ⟨rfl, rfl⟩

/-- Once it has succeeded, it has taken the first piece. -/
theorem connect_ok {host buffer : Bytes} {io : Dial} {pieces : List Bytes}
    (h : (connect host io buffer pieces).result = .ok ()) :
    (connect host io buffer pieces).buffer = buffer ∧ (connect host io buffer pieces).pending = pieces.tail := by
  obtain ⟨auth, opened, key, sent, lost⟩ := io
  cases auth with
  | error e => cases h
  | ok auth =>
      cases opened with
      | error e => cases h
      | ok u =>
          cases key with
          | none => cases h
          | some key =>
              cases sent with
              | error e => cases h
              | ok u =>
                  rcases pieces with _ | ⟨piece, pieces⟩
                  · cases h
                  · rw [connect]
                    dsimp only
                    split <;> exact ⟨rfl, rfl⟩

/-- The socket after a call of `receive_frame`. -/
def Socket.afterFrame (ws : Socket) : Socket :=
  { ws with
    buffer := (receiveFrame ws.lost ws.buffer ws.pending).buffer
    pending := (receiveFrame ws.lost ws.buffer ws.pending).pending }

/-- One call of `receive_frame` on two sockets with the same bytes. -/
theorem Socket.SameStream.receiveFrame {ws ws' : Socket} (h : ws.SameStream ws') :
    (receiveFrame ws'.lost ws'.buffer ws'.pending).result = (receiveFrame ws.lost ws.buffer ws.pending).result ∧
      ∀ frame, (receiveFrame ws.lost ws.buffer ws.pending).result = .ok frame →
        ws.afterFrame.SameStream ws'.afterFrame := by
  have hspec := receive_spec stable_frameVerdict ws.lost ws.buffer ws.pending
  have hspec' := receive_spec stable_frameVerdict ws'.lost ws'.buffer ws'.pending
  dsimp only at hspec hspec'
  rw [h.bytes] at hspec'
  rw [WebSocket.receiveFrame, WebSocket.receiveFrame]
  cases hverdict : frameVerdict (ws.buffer ++ ws.pending.flatten) with
  | more =>
      rw [hverdict] at hspec hspec'
      rw [hspec, hspec', h.lost]
      exact ⟨rfl, fun frame hframe ↦ absurd hframe Except.error_ne_ok⟩
  | fail e =>
      rw [hverdict] at hspec hspec'
      rw [hspec, hspec']
      exact ⟨rfl, fun frame hframe ↦ absurd hframe Except.error_ne_ok⟩
  | done frame n =>
      rw [hverdict] at hspec hspec'
      rw [hspec.1, hspec'.1]
      exact ⟨rfl, fun _ _ ↦ ⟨hspec'.2.trans hspec.2.symm, h.lost⟩⟩

namespace Process.SameStream

variable {E : EmaOps} {p p' : Process E} {t t' : Turn}

theorem dial (h : p.SameStream p') (ht : t.SameStream t') :
    (p'.dial t').2 = (p.dial t).2 ∧ (p.dial t).1.SameStream (p'.dial t').1 := by
  obtain ⟨hresult, hrequests⟩ := connect_congr kKalshiWsHost [] t.dial ht.first
  rw [ht.same, Process.dial, Process.dial]
  dsimp only
  rw [hresult, hrequests, h.bot]
  cases hok : (connect kKalshiWsHost t.dial [] t.pieces).result with
  | error e => exact ⟨rfl, rfl, h.backoff, .outside rfl⟩
  | ok u =>
      dsimp only
      cases (sendText t.maskKey t.answer (subscribeMessage p.bot.ticker)).2 with
      | error e => exact ⟨rfl, rfl, h.backoff, .outside rfl⟩
      | ok u =>
          obtain ⟨hbuffer, hpending⟩ := connect_ok hok
          obtain ⟨hbuffer', hpending'⟩ := connect_ok (hresult.trans hok)
          have hws : Socket.SameStream
              ⟨(connect kKalshiWsHost t.dial [] t.pieces).buffer, (connect kKalshiWsHost t.dial [] t.pieces).pending,
                t.lost⟩
              ⟨(connect kKalshiWsHost t.dial [] t'.pieces).buffer, (connect kKalshiWsHost t.dial [] t'.pieces).pending,
                t.lost⟩ := ⟨by rw [hbuffer, hbuffer', hpending, hpending', ht.rest], rfl⟩
          exact ⟨rfl, rfl, h.backoff, .checking hws false⟩

theorem receive (h : p.SameStream p') {ws ws' : Socket} (hws : ws.SameStream ws') (receivedData : Bool) :
    (p'.receive ws' receivedData).2 = (p.receive ws receivedData).2 ∧
      (p.receive ws receivedData).1.SameStream (p'.receive ws' receivedData).1 := by
  obtain ⟨hresult, hrest⟩ := hws.receiveFrame
  rw [Process.receive, Process.receive, hresult]
  cases hframe : (receiveFrame ws.lost ws.buffer ws.pending).result with
  | error e => exact ⟨rfl, h.bot, h.backoff, .outside rfl⟩
  | ok frame =>
      have hnext : Pc.SameStream (.handling frame ws.afterFrame receivedData)
          (.handling frame ws'.afterFrame receivedData) := .handling frame (hrest frame hframe) receivedData
      exact ⟨rfl, h.bot, h.backoff, hnext⟩

theorem handle (h : p.SameStream p') (ht : t.SameStream t') (frame : WebSocketFrame) {ws ws' : Socket}
    (hws : ws.SameStream ws') (receivedData : Bool) :
    (p'.handle frame ws' receivedData t').2 = (p.handle frame ws receivedData t).2 ∧
      (p.handle frame ws receivedData t).1.SameStream (p'.handle frame ws' receivedData t').1 := by
  rw [ht.same, Process.handle, Process.handle, h.bot]
  refine ⟨rfl, rfl, h.backoff, ?_⟩
  cases (p.bot.onFrame (.ok frame) t.env).ended with
  | true => exact .outside rfl
  | false => exact .checking hws _

/-- Steps that see the same bytes do the same. -/
theorem advance (h : p.SameStream p') (ht : t.SameStream t') :
    (p'.advance t').2 = (p.advance t).2 ∧ (p.advance t).1.SameStream (p'.advance t').1 := by
  obtain ⟨bot, backoff, pc⟩ := p
  obtain ⟨bot', backoff', pc'⟩ := p'
  have hsame := h
  obtain ⟨hbot, hbackoff, hpc⟩ := h
  dsimp only at hbot hbackoff hpc
  subst hbot hbackoff
  cases hpc with
  | checking hws receivedData =>
      rw [Process.advance, Process.advance]
      dsimp only
      cases bot'.running with
      | true => exact ⟨rfl, rfl, rfl, .receiving hws receivedData⟩
      | false => exact ⟨rfl, rfl, rfl, .outside rfl⟩
  | receiving hws receivedData => exact hsame.receive hws receivedData
  | handling frame hws receivedData => exact hsame.handle ht frame hws receivedData
  | outside hpc =>
      cases pc with
      | dialling => exact hsame.dial ht
      | checking ws got | receiving ws got | handling frame ws got => cases hpc
      | starting =>
          rw [ht.same]
          exact ⟨rfl, rfl, rfl, .outside rfl⟩
      | looping | returned got =>
          rw [Process.advance, Process.advance]
          dsimp only
          cases bot'.running <;> exact ⟨rfl, rfl, rfl, .outside rfl⟩
      | waiting waited =>
          rw [Process.advance, Process.advance]
          dsimp only
          split_ifs <;> exact ⟨rfl, rfl, rfl, .outside rfl⟩
      | finished => exact ⟨rfl, hsame⟩

theorem step (h : p.SameStream p') {a a' : Act} (ha : a.SameStream a') :
    (p'.step a').2 = (p.step a).2 ∧ (p.step a).1.SameStream (p'.step a').1 := by
  cases ha with
  | turn ht => exact h.advance ht
  | stop => exact ⟨rfl, by rw [Process.step, Process.requestStop, h.bot]; rfl, h.backoff, h.pc⟩

end Process.SameStream

/-- A run up to the first frame, with the given pieces arriving on the connection. -/
def dialledWith (pieces : List Bytes) : List Act :=
  [.turn {}, .turn {}, .turn { pieces := pieces }, .turn {}, .turn {}, .turn {}]

/-- A bot with nothing to do. -/
def idleBot : TradingBot exactOps where
  ticker := ascii "T"
  strategy.config := {}
  http := { host := [], signed := false }

/-- What has gone over the current connection. -/
structure Talk where
  /-- The bytes that have been sent in frames. -/
  written : Bytes := []
  /-- The payloads of the Pings received. -/
  pings : List Bytes := []

namespace Talk

/-- One more entry of the log. -/
def note (k : Talk) : Output → Talk
  | .dialled _ => {}
  | .wrote bytes true => { k with written := k.written ++ bytes }
  | .received frame => { k with pings := k.pings ++ if frame.opCode = .ping then [frame.payload] else [] }
  | _ => k

/-- What a log says about the current connection. -/
def ofLog (log : List Output) : Talk := log.foldl note {}

theorem ofLog_append (log out : List Output) : ofLog (log ++ out) = out.foldl note (ofLog log) := List.foldl_append

/-- What cannot be sent is not counted. -/
theorem foldl_note_unsent (k : Talk) {sending : List Bytes × Except String Unit} {e : String}
    (h : sending.2 = .error e) : (wrote sending).foldl note k = k := by
  obtain ⟨frames, sent⟩ := sending
  cases h
  rw [wrote]
  induction frames with
  | nil => rfl
  | cons bytes frames ih => exact ih

theorem foldl_note_ordered (k : Talk) (submitted : Option Submission) :
    (submitted.toList.map Output.ordered).foldl note k = k := by
  cases submitted <;> rfl

end Talk

/-- A frame can be built and sent. -/
def Act.CanSend : Act → Prop
  | .turn t => t.maskKey.isSome = true ∧ t.answer = .ok ()
  | .stop => True

/-- What a frame says: FIN, the opcode, whether it is masked, and the payload. -/
def said (frame : WebSocketFrame) : Bool × Opcode × Bool × Bytes :=
  (frame.finBit, frame.opCode, frame.maskKey.isSome, frame.payload)

/-- The frames of a client that has subscribed and answered some Pings. -/
def sayings (ticker : Bytes) (answered : List Bytes) : List (Bool × Opcode × Bool × Bytes) :=
  (true, .text, true, subscribeMessage ticker) :: answered.map fun payload ↦ (true, .pong, true, payload)

/-- The Ping that is being handled. -/
def Pc.unanswered : Pc → List Bytes
  | .handling frame _ _ => if frame.opCode = .ping then [frame.payload] else []
  | _ => []

/-- What has been written in a session is the subscription and Pongs: for the Pings received so far, or for some of
them if not everything can be sent. -/
structure Converses {E : EmaOps} (ticker : Bytes) (all : Prop) (p : Process E) (k : Talk) : Prop where
  ticker_eq : p.bot.ticker = ticker
  sendable : ∀ frame ws receivedData, p.pc = .handling frame ws receivedData → frame.Sendable
  written : p.pc.inSession = true → ∃ (ws : List WireFrame) (answered heard : List Bytes),
    k.written = ws.flatMap WireFrame.encode ∧ ws.map (fun w ↦ said w.frame) = sayings ticker answered ∧
      k.pings = heard ++ p.pc.unanswered ∧ answered.Sublist heard ∧ (all → answered = heard)

/-- What is sent is the frame, in its one encoding. -/
theorem sendFrame_ok {drawn : Option (Vector UInt8 4)} {answer : Except String Unit} {frame : WebSocketFrame}
    (hframe : frame.Sendable) (h : (sendFrame drawn answer frame).2 = .ok ()) :
    ∃ w : WireFrame, sendFrame drawn answer frame = ([w.encode], .ok ()) ∧
      said w.frame = (true, frame.opCode, true, frame.payload) := by
  cases drawn with
  | none => cases h
  | some key =>
      have hsend := hframe.sendFrame_eq key answer
      rw [hsend] at h
      refine ⟨hframe.wire key, ?_, ?_⟩
      · rw [hsend]
        exact congrArg _ h
      · rw [hframe.frame_wire key]
        rfl

/-- A frame that was received is within the limits. -/
theorem sendable_of_receiveFrame {ws : Socket} {frame : WebSocketFrame}
    (h : (receiveFrame ws.lost ws.buffer ws.pending).result = .ok frame) : frame.Sendable := by
  have hspec := receive_spec stable_frameVerdict ws.lost ws.buffer ws.pending
  rw [receiveFrame] at h
  cases hverdict : frameVerdict (ws.buffer ++ ws.pending.flatten) with
  | more | fail e =>
      simp only [hverdict] at hspec
      rw [hspec] at h
      cases h
  | done a n =>
      simp only [hverdict] at hspec
      rw [hspec.1] at h
      cases h
      exact sendable_of_frameParser (frameVerdict_eq_done.mp hverdict)

namespace Converses

variable {E : EmaOps} {ticker : Bytes} {all : Prop} {p : Process E} {k : Talk}

/-- Outside sessions only the ticker matters. -/
theorem of_outside (hticker : p.bot.ticker = ticker) (hpc : p.pc.inSession = false) : Converses ticker all p k := by
  refine ⟨hticker, fun frame ws receivedData h ↦ ?_, fun h ↦ ?_⟩
  · rw [h] at hpc
    cases hpc
  · rw [h] at hpc
    cases hpc

theorem dial (hlimit : (subscribeMessage ticker).length ≤ kMaxFramePayload) (hticker : p.bot.ticker = ticker)
    (t : Turn) : Converses ticker all (p.dial t).1 ((p.dial t).2.foldl Talk.note k) := by
  rcases p.dial_cases t with ⟨requests, sending, hdial⟩ | ⟨requests, ws, hsent, hdial⟩
  · rw [hdial]
    exact of_outside hticker rfl
  · have hdata : ¬ 0x8 ≤ Opcode.text.toByte := by decide
    have htext : (⟨true, .text, none, subscribeMessage ticker⟩ : WebSocketFrame).Sendable :=
      ⟨hlimit, fun hop ↦ absurd hop hdata⟩
    rw [hticker] at hsent hdial
    obtain ⟨w, hsend, hsaid⟩ := sendFrame_ok htext hsent
    have hwrote : wrote (sendText t.maskKey t.answer (subscribeMessage ticker)) = [.wrote w.encode true] := by
      rw [sendText, hsend]
      rfl
    rw [hdial, hwrote]
    refine ⟨hticker, fun frame ws receivedData h ↦ Pc.noConfusion h, fun _ ↦ ?_⟩
    exact ⟨[w], [], [], (List.append_nil _).symm, congrArg (fun x ↦ [x]) hsaid, rfl, List.Sublist.refl _, fun _ ↦ rfl⟩

/-- The answer to a frame, when all before it have had theirs. -/
theorem reply {frame : WebSocketFrame} (hframe : frame.Sendable) {t : Turn} (hall : all → Act.CanSend (.turn t))
    {ws : List WireFrame} {answered heard : List Bytes} (hwritten : k.written = ws.flatMap WireFrame.encode)
    (hsaid : ws.map (fun w ↦ said w.frame) = sayings ticker answered)
    (hpings : k.pings = heard ++ if frame.opCode = .ping then [frame.payload] else [])
    (hsub : answered.Sublist heard) (heq : all → answered = heard) :
    ∃ (ws : List WireFrame) (answered heard : List Bytes),
      ((Process.reply frame t).foldl Talk.note k).written = ws.flatMap WireFrame.encode ∧
      ws.map (fun w ↦ said w.frame) = sayings ticker answered ∧
      ((Process.reply frame t).foldl Talk.note k).pings = heard ∧ answered.Sublist heard ∧ (all → answered = heard) := by
  rw [Process.reply]
  cases hop : frame.opCode with
  | ping =>
      rw [if_pos hop] at hpings
      have hpong : (⟨true, .pong, none, frame.payload⟩ : WebSocketFrame).Sendable :=
        ⟨hframe.limit, fun _ ↦ hframe.control (hop ▸ by decide)⟩
      cases hsent : (sendPong t.maskKey t.answer frame).2 with
      | ok u =>
          obtain ⟨w, hsend, hsaid'⟩ := sendFrame_ok hpong hsent
          have hwrote : wrote (sendPong t.maskKey t.answer frame) = [.wrote w.encode true] := by
            rw [sendPong, hsend]
            rfl
          refine ⟨ws ++ [w], answered ++ [frame.payload], k.pings, ?_, ?_, ?_, ?_, fun h ↦ ?_⟩
          · dsimp only
            rw [hwrote, List.flatMap_append, ← hwritten, List.flatMap_singleton]
            rfl
          · rw [List.map_append, hsaid, sayings, sayings, List.map_append, List.map_singleton, hsaid']
            rfl
          · dsimp only
            rw [hwrote]
            rfl
          · rw [hpings]
            exact hsub.append (List.Sublist.refl _)
          · rw [hpings, heq h]
      | error e =>
          have hlost (h : all) : False := by
            obtain ⟨hkey, hanswer⟩ := hall h
            obtain ⟨key, hkey⟩ := Option.isSome_iff_exists.mp hkey
            rw [sendPong, hkey, hpong.sendFrame_eq key, hanswer] at hsent
            cases hsent
          dsimp only
          rw [Talk.foldl_note_unsent k hsent]
          refine ⟨ws, answered, k.pings, hwritten, hsaid, rfl, ?_, fun h ↦ (hlost h).elim⟩
          rw [hpings]
          exact hsub.trans (List.sublist_append_left _ _)
  | continuation | text | binary | close | pong =>
      refine ⟨ws, answered, heard, hwritten, hsaid, ?_, hsub, heq⟩
      rw [hop] at hpings
      exact hpings.trans (List.append_nil _)

/-- A step at which nothing is said or heard. -/
theorem stay (h : Converses ticker all p k) {backoff : Nat} {pc : Pc} (hpc : pc.inSession = p.pc.inSession)
    (hnone : pc.unanswered = p.pc.unanswered) (hhandling : ∀ frame ws receivedData, pc ≠ .handling frame ws receivedData) :
    Converses ticker all ⟨p.bot, backoff, pc⟩ k := by
  refine ⟨h.ticker_eq, fun frame ws receivedData heq ↦ absurd heq (hhandling _ _ _), fun hin ↦ ?_⟩
  obtain ⟨ws, answered, heard, hspoken⟩ := h.written (hpc ▸ hin)
  rw [← hnone] at hspoken
  exact ⟨ws, answered, heard, hspoken⟩

theorem receive {ws : Socket} {receivedData : Bool} (h : Converses ticker all p k)
    (hpc : p.pc = .receiving ws receivedData) :
    Converses ticker all (p.receive ws receivedData).1 ((p.receive ws receivedData).2.foldl Talk.note k) := by
  rw [Process.receive]
  cases hresult : (receiveFrame ws.lost ws.buffer ws.pending).result with
  | error e => exact of_outside h.ticker_eq rfl
  | ok frame =>
      obtain ⟨sent, answered, heard, hwritten, hsaid, hpings, hsub, heq⟩ := h.written (by rw [hpc]; rfl)
      refine ⟨h.ticker_eq, ?_, fun _ ↦ ⟨sent, answered, heard, hwritten, hsaid, ?_, hsub, heq⟩⟩
      · rintro _ _ _ ⟨⟩
        exact sendable_of_receiveFrame hresult
      · rw [hpc] at hpings
        have hbefore : k.pings = heard := hpings.trans (List.append_nil heard)
        rw [← hbefore]
        rfl

theorem handle {frame : WebSocketFrame} {ws : Socket} {receivedData : Bool} (h : Converses ticker all p k)
    (hpc : p.pc = .handling frame ws receivedData) {t : Turn} (hall : all → Act.CanSend (.turn t)) :
    Converses ticker all (p.handle frame ws receivedData t).1
      ((p.handle frame ws receivedData t).2.foldl Talk.note k) := by
  obtain ⟨sent, answered, heard, hwritten, hsaid, hpings, hsub, heq⟩ := h.written (by rw [hpc]; rfl)
  rw [hpc] at hpings
  obtain ⟨sent', answered', heard', hspoken, hsaid', hheard, hlast⟩ :=
    reply (h.sendable _ _ _ hpc) hall hwritten hsaid hpings hsub heq
  have hticker := (p.bot.onFrame_ticker (.ok frame) t.env).trans h.ticker_eq
  rw [Process.handle]
  dsimp only
  rw [List.foldl_append, Talk.foldl_note_ordered]
  cases (p.bot.onFrame (.ok frame) t.env).ended with
  | true => exact of_outside hticker rfl
  | false =>
      refine ⟨hticker, fun frame ws receivedData heq ↦ Pc.noConfusion heq, fun _ ↦ ?_⟩
      exact ⟨sent', answered', heard', hspoken, hsaid', hheard.trans (List.append_nil _).symm, hlast⟩

theorem step (hlimit : (subscribeMessage ticker).length ≤ kMaxFramePayload) (h : Converses ticker all p k) {a : Act}
    (hall : all → a.CanSend) : Converses ticker all (p.step a).1 ((p.step a).2.foldl Talk.note k) := by
  cases a with
  | stop => exact ⟨h.ticker_eq, h.sendable, h.written⟩
  | turn t =>
      obtain ⟨bot, backoff, pc⟩ := p
      rw [Process.step, Process.advance]
      cases pc with
      | starting =>
          dsimp only
          exact of_outside h.ticker_eq rfl
      | looping =>
          dsimp only
          cases bot.running <;> exact of_outside h.ticker_eq rfl
      | dialling => exact dial hlimit h.ticker_eq t
      | checking ws receivedData =>
          dsimp only
          cases bot.running with
          | true => exact h.stay rfl rfl fun _ _ _ ↦ Pc.noConfusion
          | false => exact of_outside h.ticker_eq rfl
      | receiving ws receivedData => exact h.receive rfl
      | handling frame ws receivedData => exact h.handle rfl hall
      | returned receivedData =>
          dsimp only
          cases bot.running <;> exact of_outside h.ticker_eq rfl
      | waiting waited =>
          dsimp only
          split_ifs <;> exact of_outside h.ticker_eq rfl
      | finished => exact h

end Converses

/-! ## The subscription -/

/-- What the subscription says. -/
def subscription (ticker : Bytes) : JsonValue :=
  .object [(ascii "cmd", .string (ascii "subscribe")), (ascii "id", .string (ascii "1")),
    (ascii "params", .object
      [(ascii "channels", .array [.string (ascii "orderbook_delta"), .string (ascii "fill")]),
        (ascii "market_ticker", .string ticker)])]

/-- The words of the subscription. -/
def subscribeWords : List String :=
  ["id", "cmd", "subscribe", "params", "channels", "orderbook_delta", "fill", "market_ticker"]

theorem all_isPlain_of_mem : ∀ s ∈ subscribeWords, (ascii s).all isPlain = true := by decide

/-- A word of the subscription, which is written as it is. -/
def plainWord (s : String) (h : s ∈ subscribeWords) : StrBody :=
  .ofPlain (ascii s) (List.all_eq_true.mp (all_isPlain_of_mem s h))

/-- The number one. -/
def numeralOne : Numeral where
  negative := false
  int := ['1'.toUInt8]
  frac := []
  exp := []
  isInt := .inr ⟨⟨List.cons_ne_nil _ _, fun c hc ↦ by rw [List.mem_singleton.mp hc]; rfl⟩, by decide⟩
  isFrac := .inl rfl
  isExp := .inl rfl

/-- The text of the subscription. -/
def subscribeText (ticker : StrBody) : Syn .value :=
  .object (.member .none (plainWord "id" (by decide)) .none .none (.number numeralOne) .none
    (.member .none (plainWord "cmd" (by decide)) .none .none (.string (plainWord "subscribe" (by decide))) .none
    (.lastMember .none (plainWord "params" (by decide)) .none .none
      (.object (.member .none (plainWord "channels" (by decide)) .none .none
        (.array (.element .none (.string (plainWord "orderbook_delta" (by decide))) .none
          (.lastElement .none (.string (plainWord "fill" (by decide))) .none))) .none
        (.lastMember .none (plainWord "market_ticker" (by decide)) .none .none (.string ticker) .none))) .none)))

theorem text_subscribeText (ticker : StrBody) : (subscribeText ticker).text = subscribeMessage ticker.text := by
  simp only [subscribeText, Syn.text, plainWord, StrBody.text_ofPlain, subscribeMessage, quoted, Ws.none]
  simp [List.append_assoc, ascii, numeralOne, Numeral.text]

theorem parseJson_subscribeMessage {ticker : Bytes} (h : ∀ c ∈ ticker, isPlain c = true) :
    parseJson (subscribeMessage ticker) = .ok (subscription ticker) := by
  have hparse := (parseJson_text .none (subscribeText (.ofPlain ticker h)) .none).1
  have htext : Ws.none.val ++ (subscribeText (.ofPlain ticker h)).text ++ Ws.none.val = subscribeMessage ticker := by
    rw [text_subscribeText, StrBody.text_ofPlain]
    exact List.append_nil _
  rw [htext] at hparse
  have hdenote : (subscribeText (.ofPlain ticker h)).denote = subscription ticker := by
    simp only [subscribeText, Syn.denote, plainWord, StrBody.unescape_ofPlain]
    rfl
  rw [hdenote] at hparse
  refine hparse ⟨?_, ?_⟩
  · simp only [subscribeText, Syn.paired, plainWord, StrBody.paired_ofPlain, Bool.and_true]
  · exact Nat.le_of_ble_eq_true rfl

/-- **What the server reads.**  Over every run, whatever has gone over earlier connections, what has been written in frames
on the connection of the session is read by a server, however it arrives, as masked frames with FIN set and nothing else:
the subscription to the ticker, and then Pongs with the payloads of the Pings that have been handled, in their order,
one for each if everything can be sent.  For a ticker that needs no escaping, the subscription is JSON for what it should
be. -/
theorem server_reads {E : EmaOps} (bot : TradingBot E)
    (hlimit : (subscribeMessage bot.ticker).length ≤ kMaxFramePayload) (acts : List Act)
    (hsession : (Process.runs { bot := bot } acts).1.pc.inSession = true) :
    (∃ (frames : List WebSocketFrame) (answered heard : List Bytes),
      (∀ cut, cut.flatten = (Talk.ofLog (Process.runs { bot := bot } acts).2).written → ∀ lost n,
        receiveFrames lost n [] cut = (frames.map Except.ok ++ [Except.error (Failure.transport lost)]).take n) ∧
      frames.map said = sayings bot.ticker answered ∧
      (Talk.ofLog (Process.runs { bot := bot } acts).2).pings =
        heard ++ (Process.runs { bot := bot } acts).1.pc.unanswered ∧
      answered.Sublist heard ∧ ((∀ a ∈ acts, a.CanSend) → answered = heard)) ∧
    ((∀ c ∈ bot.ticker, isPlain c = true) → parseJson (subscribeMessage bot.ticker) = .ok (subscription bot.ticker)) := by
  have hstart : Converses bot.ticker (∀ a ∈ acts, a.CanSend) { bot := bot } (Talk.ofLog []) := .of_outside rfl rfl
  have hrun := Mealy.run_invariant
    (I := fun p log ↦ Converses bot.ticker (∀ a ∈ acts, a.CanSend) p (Talk.ofLog log))
    (P := fun a ↦ (∀ a ∈ acts, a.CanSend) → a.CanSend)
    (fun p log a h ha ↦ Talk.ofLog_append log _ ▸ h.step hlimit ha) [] hstart acts fun a ha hall ↦ hall a ha
  obtain ⟨ws, answered, heard, hwritten, hsaid, hpings, hsub, heq⟩ := hrun.written hsession
  refine ⟨⟨ws.map WireFrame.frame, answered, heard, fun cut hcut lost n ↦ ?_, ?_, hpings, hsub, heq⟩,
    parseJson_subscribeMessage⟩
  · rw [receiveFrames, receiveAll_eq_parseAll stable_frameVerdict, List.nil_append, hcut]
    have hparse := parseFrames_encode lost n ws
    rw [← hwritten] at hparse
    rw [List.map_map]
    exact hparse
  · rw [List.map_map]
    exact hsaid

/-- A run with a Ping that is answered. -/
def pingRun : List Act := dialledWith [switchingHead, [0x89, 0x00]]

/-- The hypotheses of `server_reads` hold of a run with a Ping. -/
theorem server_reads_ping :
    (Process.runs { bot := idleBot } pingRun).1.pc.inSession = true ∧
      (∃ frames : List WebSocketFrame,
        (∀ cut, cut.flatten = (Talk.ofLog (Process.runs { bot := idleBot } pingRun).2).written → ∀ lost n,
          receiveFrames lost n [] cut = (frames.map Except.ok ++ [Except.error (Failure.transport lost)]).take n) ∧
        frames.map said = sayings (ascii "T") [[]]) ∧
      parseJson (subscribeMessage (ascii "T")) = .ok (subscription (ascii "T")) := by
  have hsession : (Process.runs { bot := idleBot } pingRun).1.pc.inSession = true := by decide +kernel
  have hpings : (Talk.ofLog (Process.runs { bot := idleBot } pingRun).2).pings = [[]] ∧
      (Process.runs { bot := idleBot } pingRun).1.pc.unanswered = [] := by decide +kernel
  obtain ⟨⟨frames, answered, heard, hread, hsaid, hheard, -, heq⟩, hjson⟩ :=
    server_reads idleBot (by decide +kernel) pingRun hsession
  have hall : ∀ a ∈ pingRun, a.CanSend := by
    simp only [pingRun, dialledWith, List.forall_mem_cons]
    exact ⟨⟨rfl, rfl⟩, ⟨rfl, rfl⟩, ⟨rfl, rfl⟩, ⟨rfl, rfl⟩, ⟨rfl, rfl⟩, ⟨rfl, rfl⟩, fun _ h ↦ absurd h List.not_mem_nil⟩
  rw [hpings.1, hpings.2, List.append_nil] at hheard
  rw [heq hall, ← hheard] at hsaid
  exact ⟨hsession, ⟨frames, hread, hsaid⟩, hjson (List.all_eq_true.mp rfl)⟩

end KalshiClient.Trading
