import KalshiClient.Trading.Frames
import KalshiClient.WebSocket.Builder
import KalshiClient.WebSocket.Handshake

/-!
# The process: `run`, `run_session` and the signal handler

`TradingBot::run` of `src/trading/trading_bot.cpp` as a machine: one session after the other, with a wait in between.
A signal handler clears `g_running` at any time, so there is a place of the program (`Pc`) before each point where
the flag is read, and a stop may come between any two steps.

Once told to stop it stops (`stop_obeyed`), and it waits longer and longer for the next session until one receives
data (`reconnect_backoff`).
-/

namespace KalshiClient.Trading

open Bytes Protocol WebSocket
open Http (Io)

/-! ## The source -/

/-- `kKalshiWsHost`. -/
def kKalshiWsHost : Bytes := ascii "external-api-ws.demo.kalshi.co"

/-- `kMaxReconnectBackoff`, in seconds. -/
def kMaxReconnectBackoff : Nat := 60

/-- `subscribe_msg`. -/
def subscribeMessage (ticker : Bytes) : Bytes :=
  ascii "\x7b\"id\":1,\"cmd\":\"subscribe\",\"params\":\x7b\"channels\":[\"orderbook_delta\",\"fill\"]," ++
    ascii "\"market_ticker\":\"" ++ ticker ++ ascii "\"\x7d\x7d"

/-- The WebSocket of a session, with what will arrive on it. -/
structure Socket where
  /-- `_buffer`. -/
  buffer : Bytes
  /-- What `receive_data` will return, one piece after the other. -/
  pending : List Bytes
  /-- How it fails after that. -/
  lost : String

/-- Where the program is. -/
inductive Pc where
  /-- `run`, at its beginning. -/
  | starting
  /-- `run`, at the head of its loop. -/
  | looping
  /-- `run_session`, at its beginning. -/
  | dialling
  /-- `run_session`, at the head of its loop. -/
  | checking (ws : Socket) (receivedData : Bool)
  /-- `run_session`, before `receive_frame`. -/
  | receiving (ws : Socket) (receivedData : Bool)
  /-- `run_session`, after it. -/
  | handling (frame : WebSocketFrame) (ws : Socket) (receivedData : Bool)
  /-- `run`, after `run_session`. -/
  | returned (receivedData : Bool)
  /-- `run`, at the head of the loop that waits. -/
  | waiting (waited : Nat)
  /-- `run` has returned. -/
  | finished

/-- Whether a session is on. -/
def Pc.inSession : Pc → Bool
  | .checking _ _ | .receiving _ _ | .handling _ _ _ => true
  | _ => false

/-- What happens outside the process during a step, whatever it is.  Unless said otherwise it takes no time, nothing is
received, and what is sent can be sent. -/
structure Turn where
  /-- What happens while the connection for orders is opened ahead of time. -/
  http : Io := { pieces := [] }
  /-- What happens while the WebSocket is connected. -/
  dial : Dial := ⟨.ok [], .ok (), some [], .ok (), ascii "receive timed out"⟩
  /-- What arrives on the new connection. -/
  pieces : List Bytes := []
  /-- How reading from it fails after that. -/
  lost : String := "receive timed out"
  /-- The masking key for a frame, unless `RAND_bytes` fails. -/
  maskKey : Option (Vector UInt8 4) := some #v[0, 0, 0, 0]
  /-- Whether the frame can be sent. -/
  answer : Except String Unit := .ok ()
  /-- What happens while a frame is handled. -/
  env : Env := {}

/-- What can be seen of a step. -/
inductive Output where
  /-- A connection for a session is asked for; what `connect` hands to `send_data`. -/
  | dialled (requests : List Bytes)
  /-- A frame is handed to `send_data`. -/
  | wrote (bytes : Bytes) (ok : Bool)
  /-- A frame is received. -/
  | received (frame : WebSocketFrame)
  /-- An order is submitted. -/
  | ordered (sub : Submission)
  /-- `run_session` returns. -/
  | ended (receivedData : Bool)
  /-- A second of waiting. -/
  | slept

/-- `run` on the way. -/
structure Process (E : EmaOps) where
  /-- The bot. -/
  bot : TradingBot E
  /-- `backoff`, in seconds. -/
  backoff : Nat := 1
  /-- Where the program is. -/
  pc : Pc := .starting

/-- A step of the program, or a call of `request_stop` from the signal handler. -/
inductive Act where
  | turn (t : Turn)
  | stop

/-- A frame handed to `send_data`, if it could be built. -/
def wrote (sending : List Bytes × Except String Unit) : List Output :=
  sending.1.map fun bytes ↦ .wrote bytes sending.2.isOk

namespace Process

variable {E : EmaOps} (p : Process E)

/-- `run_session` up to its loop. -/
def dial (t : Turn) : Process E × List Output :=
  let dialled := connect kKalshiWsHost t.dial [] t.pieces
  match dialled.result with
  | .error _ => ({ p with pc := .returned false }, [.dialled dialled.requests])
  | .ok () =>
    let sending := sendText t.maskKey t.answer (subscribeMessage p.bot.ticker)
    match sending.2 with
    | .error _ => ({ p with pc := .returned false }, .dialled dialled.requests :: wrote sending)
    | .ok () =>
      -- The book is rebuilt from the snapshot that follows the subscription.
      ({ p with
        bot := p.bot.beginSession
        pc := .checking ⟨dialled.buffer, dialled.pending, t.lost⟩ false },
        .dialled dialled.requests :: wrote sending)

/-- The call of `receive_frame`. -/
def receive (ws : Socket) (receivedData : Bool) : Process E × List Output :=
  let r := receiveFrame ws.lost ws.buffer ws.pending
  match r.result with
  | .error _ => ({ p with pc := .returned receivedData }, [])
  | .ok frame =>
    ({ p with pc := .handling frame { ws with buffer := r.buffer, pending := r.pending } receivedData },
      [.received frame])

/-- The answer to a frame on the WebSocket: a Ping is answered, whether or not the Pong can be sent. -/
def reply (frame : WebSocketFrame) (t : Turn) : List Output :=
  match frame.opCode with
  | .ping => wrote (sendPong t.maskKey t.answer frame)
  | _ => []

/-- The loop of `run_session` after `receive_frame`. -/
def handle (frame : WebSocketFrame) (ws : Socket) (receivedData : Bool) (t : Turn) : Process E × List Output :=
  let handled := p.bot.onFrame (.ok frame) t.env
  let receivedData := receivedData || handled.receivedData
  ({ p with
    bot := handled.bot
    pc := if handled.ended then .returned receivedData else .checking ws receivedData },
    reply frame t ++ handled.submitted.toList.map .ordered)

/-- A step of the program. -/
def advance (t : Turn) : Process E × List Output :=
  match p.pc with
  | .starting => ({ p with bot.http := (p.bot.http.connect t.http).1, pc := .looping }, [])
  | .looping => ({ p with pc := if p.bot.running then .dialling else .finished }, [])
  | .dialling => p.dial t
  | .checking ws receivedData =>
    ({ p with pc := if p.bot.running then .receiving ws receivedData else .returned receivedData }, [])
  | .receiving ws receivedData => p.receive ws receivedData
  | .handling frame ws receivedData => p.handle frame ws receivedData t
  | .returned receivedData =>
    ({ p with
      -- A session that has received data starts the waits afresh.
      backoff := if receivedData then 1 else p.backoff
      pc := if p.bot.running then .waiting 0 else .finished }, [.ended receivedData])
  | .waiting waited =>
    if waited < p.backoff && p.bot.running then ({ p with pc := .waiting (waited + 1) }, [.slept])
    else ({ p with backoff := min (p.backoff * 2) kMaxReconnectBackoff, pc := .looping }, [])
  | .finished => (p, [])

/-- `TradingBot::request_stop`. -/
def requestStop : Process E := { p with bot.running := false }

/-- A step of the program or of the signal handler. -/
def step (p : Process E) (a : Act) : Process E × List Output :=
  match a with
  | .turn t => p.advance t
  | .stop => (p.requestStop, [])

/-- A run of the process: the state it reaches, and what can be seen of it. -/
def runs (p : Process E) (acts : List Act) : Process E × List Output := Mealy.run step p acts

end Process

/-! ## Stopping -/

/-- Whether an act is a step of the program. -/
def Act.isTurn : Act → Bool
  | .turn _ => true
  | .stop => false

/-- Whether something new is begun: a session or an order. -/
def Output.isVenture : Output → Bool
  | .dialled _ | .ordered _ => true
  | _ => false

/-- Whether a second of waiting passes. -/
def Output.isSlept : Output → Bool
  | .slept => true
  | _ => false

namespace Pc

/-- The steps that are left once the flag is cleared. -/
def left : Pc → Nat
  | .starting => 2
  | .looping => 1
  | .dialling => 3
  | .checking _ _ => 2
  | .receiving _ _ => 4
  | .handling _ _ _ => 3
  | .returned _ => 1
  | .waiting _ => 2
  | .finished => 0

/-- What may still be begun once the flag is cleared. -/
def ventures : Pc → Nat
  | .dialling | .receiving _ _ | .handling _ _ _ => 1
  | _ => 0

theorem left_le (pc : Pc) : pc.left ≤ 4 := by
  cases pc <;> simp only [left] <;> omega

theorem ventures_le (pc : Pc) : pc.ventures ≤ 1 := by
  cases pc <;> simp only [ventures] <;> omega

theorem eq_finished_of_left {pc : Pc} (h : pc.left = 0) : pc = .finished := by
  cases pc <;> first | rfl | cases h

end Pc

theorem eq_wrote_of_mem {sending : List Bytes × Except String Unit} {o : Output} (h : o ∈ wrote sending) :
    ∃ bytes ok, o = .wrote bytes ok := by
  obtain ⟨bytes, -, rfl⟩ := List.mem_map.mp h
  exact ⟨bytes, _, rfl⟩

theorem eq_wrote_of_mem_reply {frame : WebSocketFrame} {t : Turn} {o : Output} (h : o ∈ Process.reply frame t) :
    ∃ bytes ok, o = .wrote bytes ok := by
  rw [Process.reply] at h
  cases hop : frame.opCode with
  | ping =>
      rw [hop] at h
      exact eq_wrote_of_mem h
  | continuation | text | binary | close | pong =>
      rw [hop] at h
      cases h

theorem countP_eq_zero_of_wrote {q : Output → Bool} (hq : ∀ bytes ok, q (.wrote bytes ok) = false) {out : List Output}
    (h : ∀ o ∈ out, ∃ bytes ok, o = .wrote bytes ok) : out.countP q = 0 := by
  rw [List.countP_eq_zero]
  intro o ho
  obtain ⟨bytes, ok, rfl⟩ := h o ho
  rw [hq]
  exact Bool.false_ne_true

namespace Process

variable {E : EmaOps} {p : Process E}

/-- A session is begun, or there is none. -/
theorem dial_cases (p : Process E) (t : Turn) :
    (∃ requests sending, p.dial t = ({ p with pc := .returned false }, .dialled requests :: wrote sending)) ∨
    ∃ requests ws, (sendText t.maskKey t.answer (subscribeMessage p.bot.ticker)).2 = .ok () ∧
      p.dial t = ({ p with bot := p.bot.beginSession, pc := .checking ws false },
        .dialled requests :: wrote (sendText t.maskKey t.answer (subscribeMessage p.bot.ticker))) := by
  rw [dial]
  dsimp only
  cases (connect kKalshiWsHost t.dial [] t.pieces).result with
  | error e => exact .inl ⟨_, ([], .ok ()), rfl⟩
  | ok u =>
      cases hsent : (sendText t.maskKey t.answer (subscribeMessage p.bot.ticker)).2 with
      | error e => exact .inl ⟨_, _, rfl⟩
      | ok u => exact .inr ⟨_, _, rfl, rfl⟩

/-- A frame is received, or the session is over. -/
theorem receive_cases (p : Process E) (ws : Socket) (receivedData : Bool) :
    p.receive ws receivedData = ({ p with pc := .returned receivedData }, []) ∨
    ∃ frame ws', p.receive ws receivedData = ({ p with pc := .handling frame ws' receivedData }, [.received frame]) := by
  rw [receive]
  cases (receiveFrame ws.lost ws.buffer ws.pending).result with
  | error e => exact .inl rfl
  | ok frame => exact .inr ⟨_, _, rfl⟩

/-- What a step can do once the flag is cleared: there is one step less left, and what is begun may be. -/
theorem advance_stopped (h : p.bot.running = false) (t : Turn) :
    (p.advance t).1.bot.running = false ∧ (p.advance t).1.pc.left ≤ p.pc.left - 1 ∧
      (p.advance t).2.countP Output.isVenture + (p.advance t).1.pc.ventures ≤ p.pc.ventures ∧
      (p.advance t).2.countP Output.isSlept = 0 := by
  obtain ⟨bot, backoff, pc⟩ := p
  dsimp only at h
  cases pc with
  | starting | finished => exact ⟨h, Nat.le_refl _, Nat.le_refl _, rfl⟩
  | looping | checking ws got | returned got =>
      simp only [advance, h]
      exact ⟨trivial, Nat.le_refl _, Nat.le_refl _, rfl⟩
  | waiting waited =>
      simp only [advance, h, Bool.and_false]
      exact ⟨h, Nat.le_refl _, Nat.le_refl _, rfl⟩
  | dialling =>
      have hwrote (sending : List Bytes × Except String Unit) : (wrote sending).countP Output.isVenture = 0 :=
        countP_eq_zero_of_wrote (fun _ _ ↦ rfl) fun _ ↦ eq_wrote_of_mem
      have hslept (sending : List Bytes × Except String Unit) : (wrote sending).countP Output.isSlept = 0 :=
        countP_eq_zero_of_wrote (fun _ _ ↦ rfl) fun _ ↦ eq_wrote_of_mem
      rw [advance]
      rcases dial_cases ⟨bot, backoff, .dialling⟩ t with ⟨requests, sending, hdial⟩ | ⟨requests, ws, -, hdial⟩
      · simp only [hdial, List.countP_cons, hwrote, hslept]
        exact ⟨h, by decide, Nat.le_refl _, rfl⟩
      · simp only [hdial, List.countP_cons, hwrote, hslept]
        exact ⟨h, Nat.le_refl 2, Nat.le_refl _, rfl⟩
  | receiving ws got =>
      rw [advance]
      rcases receive_cases ⟨bot, backoff, .receiving ws got⟩ ws got with hreceive | ⟨frame, ws', hreceive⟩
      · simp only [hreceive]
        exact ⟨h, Nat.le_of_ble_eq_true rfl, Nat.zero_le _, rfl⟩
      · simp only [hreceive]
        exact ⟨h, Nat.le_refl _, Nat.le_refl _, rfl⟩
  | handling frame ws got =>
      have hreply : (reply frame t).countP Output.isVenture = 0 :=
        countP_eq_zero_of_wrote (fun _ _ ↦ rfl) fun _ ↦ eq_wrote_of_mem_reply
      have hslept : (reply frame t).countP Output.isSlept = 0 :=
        countP_eq_zero_of_wrote (fun _ _ ↦ rfl) fun _ ↦ eq_wrote_of_mem_reply
      simp only [advance, handle, List.countP_append, hreply, hslept]
      refine ⟨bot.onFrame_running_of_stopped h frame t.env, ?_, ?_, ?_⟩
      · split
        · exact Nat.le_of_ble_eq_true rfl
        · exact Nat.le_refl _
      · have hordered : ((bot.onFrame (.ok frame) t.env).submitted.toList.map Output.ordered).countP
            Output.isVenture ≤ 1 := by
          cases (bot.onFrame (.ok frame) t.env).submitted with
          | none => exact Nat.zero_le _
          | some sub => exact Nat.le_refl _
        rw [Nat.zero_add]
        split <;> exact hordered
      · cases (bot.onFrame (.ok frame) t.env).submitted <;> rfl

theorem step_stopped (h : p.bot.running = false) (a : Act) :
    (p.step a).1.bot.running = false ∧ (p.step a).1.pc.left ≤ p.pc.left - (if a.isTurn then 1 else 0) ∧
      (p.step a).2.countP Output.isVenture + (p.step a).1.pc.ventures ≤ p.pc.ventures ∧
      (p.step a).2.countP Output.isSlept = 0 := by
  cases a with
  | turn t => exact advance_stopped h t
  | stop => exact ⟨rfl, Nat.le_refl _, Nat.le_of_eq (Nat.zero_add _), rfl⟩

end Process

/-- **A stop is obeyed.**  Whatever the process is doing when it is asked to stop, and whatever the network does from
then on, it is finished after four steps of its own; until then it begins one session or submits one order at
most, not both, and it does not wait. -/
theorem stop_obeyed {E : EmaOps} (p : Process E) (acts : List Act) :
    (4 ≤ acts.countP Act.isTurn → (p.runs (.stop :: acts)).1.pc = .finished) ∧
      (p.runs (.stop :: acts)).2.countP Output.isVenture ≤ 1 ∧
      (p.runs (.stop :: acts)).2.countP Output.isSlept = 0 := by
  have hstopped : p.requestStop.bot.running = false := rfl
  have hrank := Mealy.run_rank (P := fun p : Process E ↦ p.bot.running = false) (fun p ↦ p.pc.left) Act.isTurn
    (fun p a h ↦ ⟨(Process.step_stopped h a).1, (Process.step_stopped h a).2.1⟩) hstopped acts
  have hventures := Mealy.run_potential (P := fun p : Process E ↦ p.bot.running = false) (fun p ↦ p.pc.ventures) Output.isVenture
    (fun p a h ↦ ⟨(Process.step_stopped h a).1, (Process.step_stopped h a).2.2.1⟩) hstopped acts
  have hslept := Mealy.run_potential (P := fun p : Process E ↦ p.bot.running = false) (fun _ ↦ 0) Output.isSlept
    (fun p a h ↦ ⟨(Process.step_stopped h a).1, Nat.le_of_eq (Process.step_stopped h a).2.2.2⟩) hstopped acts
  have hleft := p.pc.left_le
  have hnew := p.pc.ventures_le
  refine ⟨fun hturns ↦ Pc.eq_finished_of_left ?_, ?_, ?_⟩
  · change (Mealy.run Process.step p.requestStop acts).1.pc.left = 0
    change _ ≤ p.pc.left - _ at hrank
    omega
  · change (Mealy.run Process.step p.requestStop acts).2.countP _ ≤ 1
    change _ ≤ p.pc.ventures at hventures
    omega
  · exact Nat.eq_zero_of_le_zero hslept

/-! ## Waiting -/

/-- What a log says about the sessions and the waits between them. -/
structure Diary where
  /-- What the sessions returned. -/
  results : List Bool := []
  /-- The seconds waited since the last one. -/
  slept : Nat := 0
  /-- The seconds waited before each session. -/
  waits : List Nat := []

namespace Diary

/-- One more entry. -/
def note (d : Diary) : Output → Diary
  | .dialled _ => { d with waits := d.waits ++ [d.slept] }
  | .ended receivedData => { d with results := d.results ++ [receivedData], slept := 0 }
  | .slept => { d with slept := d.slept + 1 }
  | _ => d

/-- The diary of a log. -/
def ofLog (log : List Output) : Diary := log.foldl note {}

theorem ofLog_append (log out : List Output) : ofLog (log ++ out) = out.foldl note (ofLog log) := List.foldl_append

theorem foldl_note_of_wrote (d : Diary) {out : List Output} (h : ∀ o ∈ out, ∃ bytes ok, o = .wrote bytes ok) :
    out.foldl note d = d := by
  induction out with
  | nil => rfl
  | cons o out ih =>
      obtain ⟨bytes, ok, rfl⟩ := h o List.mem_cons_self
      exact ih fun o ho ↦ h o (List.mem_cons_of_mem _ ho)

end Diary

/-- The seconds to wait after some sessions: twice as many for each session that has received nothing since the last
one that has, or since the first, up to the maximum. -/
def wait (results : List Bool) : Nat :=
  if results = [] then 0
  else
    let dry := (results.reverse.takeWhile (!·)).length
    min (2 ^ min dry (results.length - 1)) kMaxReconnectBackoff

/-- `backoff` when a session begins. -/
def backoffAfter (results : List Bool) : Nat := if results = [] then 1 else min (wait results * 2) kMaxReconnectBackoff

/-- The wait after one more session. -/
theorem wait_concat (results : List Bool) (receivedData : Bool) :
    wait (results ++ [receivedData]) = if receivedData then 1 else backoffAfter results := by
  rw [wait, if_neg (List.append_ne_nil_of_right_ne_nil _ (List.cons_ne_nil _ _)), List.reverse_append,
    List.length_append]
  cases receivedData with
  | true => rfl
  | false =>
      change min (2 ^ min ((results.reverse.takeWhile (!·)).length + 1) results.length) _ = backoffAfter results
      rw [backoffAfter, wait]
      split_ifs with hnil
      · rw [hnil]
        rfl
      · dsimp only
        obtain ⟨n, hn⟩ := Nat.exists_eq_succ_of_ne_zero (fun h ↦ hnil (List.length_eq_zero_iff.mp h))
        rw [hn, Nat.succ_eq_add_one, Nat.add_sub_cancel, Nat.add_min_add_right, Nat.pow_succ]
        omega

theorem inits_concat {α β : Type} (f : List α → β) (l : List α) (x : α) :
    (l ++ [x]).inits.map f = l.inits.map f ++ [f (l ++ [x])] := by
  rw [List.inits_append, List.map_append]
  rfl

namespace Process

variable {E : EmaOps} {p : Process E} {d : Diary}

/-- The waits have been as they should, and the next one is going to be. -/
def OnSchedule (p : Process E) (d : Diary) : Prop :=
  match p.pc with
  | .starting => p.backoff = 1 ∧ d = {}
  | .looping =>
    p.backoff = backoffAfter d.results ∧ d.waits ++ [wait d.results] = d.results.inits.map wait ∧
      (p.bot.running = true → d.slept = wait d.results)
  | .dialling =>
    p.backoff = backoffAfter d.results ∧ d.waits ++ [wait d.results] = d.results.inits.map wait ∧
      d.slept = wait d.results
  | .checking _ _ | .receiving _ _ | .handling _ _ _ | .returned _ =>
    p.backoff = backoffAfter d.results ∧ d.waits = d.results.inits.map wait
  | .waiting waited =>
    d.results ≠ [] ∧ p.backoff = wait d.results ∧ d.waits ++ [wait d.results] = d.results.inits.map wait ∧
      d.slept = waited ∧ waited ≤ p.backoff
  | .finished => d.waits ++ [wait d.results] = d.results.inits.map wait

/-- A step keeps to the schedule. -/
theorem OnSchedule.advance (h : p.OnSchedule d) (t : Turn) :
    (p.advance t).1.OnSchedule ((p.advance t).2.foldl Diary.note d) := by
  obtain ⟨bot, backoff, pc⟩ := p
  cases pc with
  | starting =>
      obtain ⟨rfl, rfl⟩ := h
      exact ⟨rfl, rfl, fun _ ↦ rfl⟩
  | looping =>
      obtain ⟨hbackoff, hwaits, hslept⟩ := h
      rw [Process.advance]
      cases hrunning : bot.running with
      | true => exact ⟨hbackoff, hwaits, hslept hrunning⟩
      | false => exact hwaits
  | dialling =>
      obtain ⟨hbackoff, hwaits, hslept⟩ := h
      have hdialled : d.waits ++ [d.slept] = d.results.inits.map wait := by rw [hslept, hwaits]
      rw [Process.advance]
      rcases dial_cases ⟨bot, backoff, .dialling⟩ t with ⟨requests, sending, hdial⟩ | ⟨requests, ws, -, hdial⟩
      all_goals
        simp only [hdial, List.foldl_cons]
        rw [Diary.foldl_note_of_wrote _ fun _ ↦ eq_wrote_of_mem]
        exact ⟨hbackoff, hdialled⟩
  | checking ws receivedData =>
      rw [Process.advance]
      cases bot.running <;> exact h
  | receiving ws receivedData =>
      rw [Process.advance]
      rcases receive_cases ⟨bot, backoff, .receiving ws receivedData⟩ ws receivedData with
        hreceive | ⟨frame, ws', hreceive⟩
      all_goals
        simp only [hreceive]
        exact h
  | handling frame ws receivedData =>
      have hout : (reply frame t ++ (bot.onFrame (.ok frame) t.env).submitted.toList.map Output.ordered).foldl
          Diary.note d = d := by
        rw [List.foldl_append, Diary.foldl_note_of_wrote _ fun _ ↦ eq_wrote_of_mem_reply]
        cases (bot.onFrame (.ok frame) t.env).submitted <;> rfl
      simp only [Process.advance, handle, hout]
      cases (bot.onFrame (.ok frame) t.env).ended <;> exact h
  | returned receivedData =>
      obtain ⟨hbackoff, hwaits⟩ := h
      have hnext : d.waits ++ [wait (d.results ++ [receivedData])] =
          (d.results ++ [receivedData]).inits.map wait := by
        rw [inits_concat, hwaits]
      have hwait : (if receivedData then 1 else backoff) = wait (d.results ++ [receivedData]) := by
        rw [wait_concat, ← hbackoff]
      rw [Process.advance]
      cases bot.running with
      | true =>
          exact ⟨List.append_ne_nil_of_right_ne_nil _ (List.cons_ne_nil _ _), hwait, hnext, rfl, Nat.zero_le _⟩
      | false => exact hnext
  | waiting waited =>
      obtain ⟨hne, hbackoff, hwaits, hslept, hle⟩ := h
      have hafter : min (backoff * 2) kMaxReconnectBackoff = backoffAfter d.results := by
        rw [backoffAfter, if_neg hne, ← hbackoff]
      rw [Process.advance]
      dsimp only
      split_ifs with hmore
      · obtain ⟨hlt, -⟩ := Bool.and_eq_true_iff.mp hmore
        exact ⟨hne, hbackoff, hwaits, congrArg Nat.succ hslept, of_decide_eq_true hlt⟩
      · refine ⟨hafter, hwaits, fun hrunning ↦ ?_⟩
        rw [hrunning, Bool.and_true, decide_eq_true_eq] at hmore
        exact hslept.trans ((Nat.le_antisymm hle (Nat.not_lt.mp hmore)).trans hbackoff)
  | finished => exact h

theorem OnSchedule.step (h : p.OnSchedule d) (a : Act) :
    (p.step a).1.OnSchedule ((p.step a).2.foldl Diary.note d) := by
  cases a with
  | turn t => exact h.advance t
  | stop =>
      obtain ⟨bot, backoff, pc⟩ := p
      cases pc with
      | looping => exact ⟨h.1, h.2.1, fun hrunning ↦ Bool.noConfusion hrunning⟩
      | starting | dialling | checking ws got | receiving ws got | handling frame ws got | returned got
        | waiting waited | finished => exact h

/-- Keeping to the schedule, the waits before the sessions are the ones their results call for. -/
theorem OnSchedule.waits_eq (h : p.OnSchedule d) : d.waits <+: d.results.inits.map wait := by
  obtain ⟨bot, backoff, pc⟩ := p
  cases pc with
  | starting =>
      obtain ⟨-, rfl⟩ := h
      exact List.nil_prefix
  | looping | dialling => exact ⟨_, h.2.1⟩
  | checking ws got | receiving ws got | handling frame ws got | returned got => exact h.2 ▸ List.prefix_refl _
  | waiting waited => exact ⟨_, h.2.2.1⟩
  | finished => exact ⟨_, h⟩

end Process

/-- **The waits between sessions.**  Over every run, whatever the sessions return and whenever the process is asked to
stop, the wait before each session is the one that the results of all sessions before it call for: one second after a
session that has received data or after the first one, and twice the last one otherwise, up to a minute. -/
theorem reconnect_backoff {E : EmaOps} (bot : TradingBot E) (acts : List Act) :
    (Diary.ofLog (Process.runs { bot := bot } acts).2).waits <+:
      (Diary.ofLog (Process.runs { bot := bot } acts).2).results.inits.map wait := by
  have hstart : Process.OnSchedule { bot := bot } (Diary.ofLog []) := ⟨rfl, rfl⟩
  have hrun := Mealy.run_invariant (I := fun p log ↦ Process.OnSchedule p (Diary.ofLog log)) (P := fun _ ↦ True)
    (fun p log a h _ ↦ Diary.ofLog_append log _ ▸ h.step a) [] hstart acts fun _ _ ↦ trivial
  exact hrun.waits_eq

end KalshiClient.Trading
