import KalshiClient.Base.Counters
import KalshiClient.Http.Client
import KalshiClient.Protocol.Decoder
import KalshiClient.Trading.Strategy
import KalshiClient.WebSocket.Frame

/-!
# The trading bot

`TradingBot` of `include/trading_bot.hpp` and `src/trading/trading_bot.cpp`, with the trackers of
`include/order_tracker.hpp` and `include/position_tracker.hpp`.  The bot is single-threaded: `run_session` takes one
frame after the other, and what one frame makes it do (`TradingBot.onFrame`) is finished before the next.  What
happens outside the bot meanwhile is the argument `Env`.

Left out are the log output and the latency statistics, which nothing reads.
-/

namespace KalshiClient.Trading

open Bytes Protocol Json WebSocket
open Http (HttpClient Io Outcome)

/-! ## Trackers -/

/-- `enum class OrderStatus`. -/
inductive OrderStatus where
  | pending | opened | filled | cancelled
deriving DecidableEq

/-- `struct Order`. -/
structure Order where
  /-- `order_id`. -/
  orderId : Bytes
  /-- `order_request`. -/
  orderRequest : OrderRequest
  /-- `order_status`. -/
  orderStatus : OrderStatus
  /-- `fill_count`. -/
  fillCount : Bytes
  /-- `remaining_count`. -/
  remainingCount : Bytes
deriving DecidableEq

/-- `class OrderTracker`. -/
abbrev OrderTracker := AList fun _ : Bytes ↦ Order

namespace OrderTracker

/-- `OrderTracker::add_order`: an order that is there already is kept. -/
def addOrder (orders : OrderTracker) (order : Order) : OrderTracker :=
  if order.orderId ∈ orders then orders else orders.insert order.orderId order

/-- `OrderTracker::update_status`. -/
def updateStatus (orders : OrderTracker) (id : Bytes) (status : OrderStatus) : OrderTracker :=
  match orders.lookup id with
  | some order => orders.insert id { order with orderStatus := status }
  | none => orders

end OrderTracker

/-! ## The bot -/

/-- `kOrdersPath`. -/
def kOrdersPath : Bytes := ascii "/trade-api/v2/portfolio/events/orders"

/-- `kExchangeStatusPath`. -/
def kExchangeStatusPath : Bytes := ascii "/trade-api/v2/exchange/status"

/-- `kHttpKeepWarmAfter`, in ticks of the clock. -/
def kHttpKeepWarmAfter : Int := 20 * ticksPerSecond

/-- `parse_contracts`. -/
def parseContracts (countFp : Bytes) : Option Quantity := parseFixed 0 countFp

/-- `is_book_message`. -/
def isBookMessage (m : Message) : Bool :=
  match m.msg with
  | .snapshot _ | .delta _ => true
  | _ => false

/-- Whether a message is a snapshot. -/
def isSnapshot (m : Message) : Bool :=
  match m.msg with
  | .snapshot _ => true
  | _ => false

/-- `class TradingBot`. -/
structure TradingBot (E : EmaOps) where
  /-- `_ticker`. -/
  ticker : Bytes
  /-- `_strategy`. -/
  strategy : MeanReversionStrategy E
  /-- `_http`. -/
  http : HttpClient
  /-- `_orders`. -/
  orders : OrderTracker := ∅
  /-- `_positions`. -/
  positions : Counters Bytes := ∅
  /-- `_unconfirmed_fills`: fills reported by the answer to an order but not yet by a fill message. -/
  unconfirmedFills : Counters Bytes := ∅
  /-- `_order_seq`. -/
  orderSeq : UInt64 := 0
  /-- `_book`. -/
  book : MarketState := {}
  /-- `_book_sid`. -/
  bookSid : Option UInt32 := none
  /-- `_book_seq`. -/
  bookSeq : UInt32 := 0
  /-- `g_running`. -/
  running : Bool := true

/-- What happens outside the bot while it handles one frame.  Unless said otherwise it takes no time, and nothing
is received for an answer. -/
structure Env where
  /-- The time the strategy is called at. -/
  now : Int := 0
  /-- `current_timestamp_ms`, when an order is submitted. -/
  timestamp : Int := 0
  /-- What happens during the request for the order. -/
  order : Io := { pieces := [] }
  /-- The time the idle connection is looked at. -/
  idleNow : Int := 0
  /-- What happens during the request that keeps the connection warm. -/
  warm : Io := { pieces := [] }

/-- A call of `submit`. -/
structure Submission where
  /-- The signal. -/
  signal : Signal
  /-- The order. -/
  request : OrderRequest
  /-- The request that was made for it. -/
  outcome : Outcome
  /-- The answer as JSON. -/
  answer : Except Bytes JsonValue

/-- What the bot learns from the answer to an order: the order and the contracts filled, if the answer has
arrived, is readable and reports whole contracts. -/
def readAnswer (answer : Except Bytes JsonValue) : Option (OrderResponse × Quantity) :=
  match answer >>= parseOrderResponse with
  | .error _ => none
  | .ok parsed => (parseContracts parsed.fillCount).map fun filled ↦ (parsed, filled)

/-- The signed quantity of an order's fills. -/
def signedOrder (side : OrderSide) (q : Int) : Int :=
  match side with
  | .bid => q
  | .ask => -q

/-- The signed quantity of a fill. -/
def signedFill (action : FillAction) (q : Int) : Int :=
  match action with
  | .buy => q
  | .sell => -q

namespace TradingBot

variable {E : EmaOps} (bot : TradingBot E)

/-- `TradingBot::exposure`. -/
def exposure : Quantity := bot.unconfirmedFills.fold (bot.positions.get bot.ticker)

/-- The identifier of the order with a given number. -/
def clientId (timestamp : Int) (seq : UInt64) : Bytes :=
  ascii "bot-" ++ ofInt timestamp ++ ascii "-" ++ ofNat seq.toNat

/-- The part of `submit` after the answer. -/
def account (signal : Signal) (request : OrderRequest) (answer : Except Bytes JsonValue) : TradingBot E :=
  match readAnswer answer with
  | none => bot
  | some (parsed, filled) =>
    { bot with
      orders := bot.orders.addOrder
        { orderId := parsed.orderId
          orderRequest := request
          -- What did not fill immediately is cancelled by the exchange.
          orderStatus := if filled > 0 then .filled else .cancelled
          fillCount := parsed.fillCount
          remainingCount := parsed.remainingCount }
      unconfirmedFills :=
        if filled > 0 then bot.unconfirmedFills.add parsed.orderId (signedOrder signal.side filled)
        else bot.unconfirmedFills }

/-- `TradingBot::submit`. -/
def submit (signal : Signal) (env : Env) : TradingBot E × Submission :=
  let seq := bot.orderSeq + 1
  let request := makeIocOrder bot.ticker signal (clientId env.timestamp seq)
  let (outcome, answer) :=
    bot.http.requestJson (ascii "POST") kOrdersPath (serializeOrderRequest request) env.order
  (account { bot with orderSeq := seq, http := outcome.client } signal request answer,
    ⟨signal, request, outcome, answer⟩)

/-- `TradingBot::on_fill`. -/
def onFill (fill : Fill) : TradingBot E :=
  match parseContracts fill.countFp with
  | none => bot
  | some qty =>
    let signedQty := signedFill fill.action qty
    { bot with
      orders := bot.orders.updateStatus fill.orderId .filled
      positions := bot.positions.add fill.marketTicker signedQty
      unconfirmedFills :=
        match bot.unconfirmedFills.lookup fill.orderId with
        | none => bot.unconfirmedFills
        | some before =>
          let after := I64.wrap (before - signedQty)
          if after = 0 || decide (before > 0) != decide (after > 0) then
            bot.unconfirmedFills.erase fill.orderId
          else bot.unconfirmedFills.insert fill.orderId after }

/-- `TradingBot::on_book_error`. -/
def onBookError (error : BookError) : TradingBot E :=
  match error.kind with
  | .outOfSync => bot
  | .malformed => { bot with running := false }

/-- The request `keep_http_warm` makes, unless the connection has been in use. -/
def warmRequest (env : Env) : Option Outcome :=
  if bot.http.connected && env.idleNow - bot.http.lastUsed < kHttpKeepWarmAfter then none
  else some (bot.http.request (ascii "GET") kExchangeStatusPath [] env.warm)

/-- `TradingBot::keep_http_warm`. -/
def keepHttpWarm (env : Env) : TradingBot E :=
  match bot.warmRequest env with
  | none => bot
  | some outcome => { bot with http := outcome.client }

/-! ## Sessions -/

/-- The beginning of a session, once it is subscribed. -/
def beginSession : TradingBot E := { bot with book := {}, bookSid := none }

/-- The check of the sequence number; nothing is returned if there is a gap. -/
def checkSequence (m : Message) : Option (TradingBot E) :=
  if isBookMessage m && m.seq ≠ 0 then
    if !isSnapshot m && (bot.bookSid ≠ some m.sid || m.seq ≠ bot.bookSeq + 1) then none
    else some { bot with bookSid := some m.sid, bookSeq := m.seq }
  else if bot.bookSid = some m.sid && m.seq ≠ 0 then
    -- Another channel that shares the numbering of the subscription.
    some { bot with bookSeq := m.seq }
  else some bot

/-- The bot after the payload of a message, and whether the book has changed. -/
def applyMessage (m : Message) : TradingBot E × Except BookError Bool :=
  match m.msg with
  | .snapshot snapshot =>
    let (book, result) := bot.book.applySnapshot snapshot
    ({ bot with book := book }, result.map fun _ ↦ true)
  | .delta delta =>
    let (book, result) := bot.book.applyDelta delta
    ({ bot with book := book }, result.map fun _ ↦ true)
  | .fill fill => (bot.onFill fill, .ok false)
  | .none => (bot, .ok false)

/-- The call of the strategy, and of `submit` if there is a signal. -/
def consult (env : Env) : TradingBot E × Option Submission :=
  let (strategy, signal) := bot.strategy.onBookUpdate bot.book bot.exposure env.now
  let bot := { bot with strategy := strategy }
  match signal with
  | none => (bot, none)
  | some signal =>
    let (bot, submission) := bot.submit signal env
    (bot, some submission)

end TradingBot

/-- What the handling of a frame leaves. -/
structure Handled (E : EmaOps) where
  /-- The bot afterwards. -/
  bot : TradingBot E
  /-- Whether `run_session` returns. -/
  ended : Bool := false
  /-- Whether `received_data` is set. -/
  receivedData : Bool := false
  /-- The book the strategy was called on. -/
  consulted : Option MarketState := none
  /-- The order that was submitted. -/
  submitted : Option Submission := none

namespace TradingBot

variable {E : EmaOps} (bot : TradingBot E)

/-- The part of the loop of `run_session` that handles a decoded message. -/
def onMessage (m : Message) (env : Env) : Handled E :=
  match bot.checkSequence m with
  | none => { bot := bot, ended := true }
  | some bot =>
    match bot.applyMessage m with
    | (bot, .error e) => { bot := bot.onBookError e, ended := true }
    | (bot, .ok false) => { bot := bot }
    | (bot, .ok true) =>
      let (bot', submission) := bot.consult env
      { bot := bot', receivedData := isSnapshot m, consulted := some bot.book, submitted := submission }

/-- One round of the loop of `run_session`, with what `receive_frame` returned. -/
def onFrame (frame : Except Bytes WebSocketFrame) (env : Env) : Handled E :=
  match frame with
  | .error _ => { bot := bot, ended := true }
  | .ok frame =>
    match frame.opCode with
    | .close => { bot := bot, ended := true }
    | .text =>
      match decodeKalshiMessage frame.payload with
      | .error _ => { bot := bot }
      | .ok m =>
        let handled := bot.onMessage m env
        if handled.ended then handled else { handled with bot := handled.bot.keepHttpWarm env }
    | _ => { bot := bot.keepHttpWarm env }

end TradingBot

/-! ## What a frame can do -/

/-- The message in a frame, if it is one the bot can decode. -/
def received (frame : Except Bytes WebSocketFrame) : Option Message :=
  match frame with
  | .error _ => none
  | .ok frame => if frame.opCode = .text then (decodeKalshiMessage frame.payload).toOption else none

/-- The two bots keep the same accounts, with the same settings. -/
structure SameAccounts {E : EmaOps} (bot bot' : TradingBot E) : Prop where
  ticker : bot'.ticker = bot.ticker
  positions : bot'.positions = bot.positions
  unconfirmedFills : bot'.unconfirmedFills = bot.unconfirmedFills
  config : bot'.strategy.config = bot.strategy.config

namespace SameAccounts

variable {E : EmaOps} {bot bot' bot'' : TradingBot E}

theorem refl (bot : TradingBot E) : SameAccounts bot bot := ⟨rfl, rfl, rfl, rfl⟩

theorem trans (h : SameAccounts bot bot') (h' : SameAccounts bot' bot'') : SameAccounts bot bot'' :=
  ⟨h'.ticker.trans h.ticker, h'.positions.trans h.positions, h'.unconfirmedFills.trans h.unconfirmedFills,
    h'.config.trans h.config⟩

theorem exposure_eq (h : SameAccounts bot bot') : bot'.exposure = bot.exposure := by
  rw [TradingBot.exposure, h.unconfirmedFills, h.positions, h.ticker, TradingBot.exposure]

theorem onFill (h : SameAccounts bot bot') (fill : Fill) : SameAccounts (bot.onFill fill) (bot'.onFill fill) := by
  rw [TradingBot.onFill, TradingBot.onFill]
  cases parseContracts fill.countFp with
  | none => exact h
  | some qty => exact ⟨h.ticker, by simp only [h.positions], by simp only [h.unconfirmedFills], h.config⟩

theorem account (h : SameAccounts bot bot') (signal : Signal) (request : OrderRequest)
    (answer : Except Bytes JsonValue) :
    SameAccounts (bot.account signal request answer) (bot'.account signal request answer) := by
  rw [TradingBot.account, TradingBot.account]
  cases readAnswer answer with
  | none => exact h
  | some read => exact ⟨h.ticker, h.positions, by simp only [h.unconfirmedFills], h.config⟩

end SameAccounts

namespace TradingBot

variable {E : EmaOps} (bot : TradingBot E)

theorem keepHttpWarm_eq (env : Env) : ∃ http, bot.keepHttpWarm env = { bot with http := http } := by
  rw [keepHttpWarm]
  split
  · exact ⟨bot.http, rfl⟩
  · exact ⟨_, rfl⟩

theorem sameAccounts_onBookError (e : BookError) : SameAccounts bot (bot.onBookError e) := by
  obtain ⟨kind, message⟩ := e
  cases kind <;> exact ⟨rfl, rfl, rfl, rfl⟩

/-- The check of the sequence number only moves the number. -/
theorem checkSequence_eq_some {bot' : TradingBot E} {m : Message} (h : bot.checkSequence m = some bot') :
    ∃ sid seq, bot' = { bot with bookSid := sid, bookSeq := seq } := by
  rw [checkSequence] at h
  split_ifs at h
  · cases h
    exact ⟨_, _, rfl⟩
  · cases h
    exact ⟨bot.bookSid, _, rfl⟩
  · cases h
    exact ⟨bot.bookSid, bot.bookSeq, rfl⟩

/-- Only book messages are checked. -/
theorem checkSequence_ne_none {m : Message} (h : isBookMessage m = false) : bot.checkSequence m ≠ none := by
  rw [checkSequence, h]
  simp only [Bool.false_and, Bool.false_eq_true, if_false]
  split <;> exact Option.some_ne_none _

/-- The strategy is called after a book message that could be applied. -/
theorem applyMessage_eq_ok {bot' : TradingBot E} {m : Message} (h : bot.applyMessage m = (bot', .ok true)) :
    isBookMessage m = true ∧ ∃ book, bot' = { bot with book := book } := by
  rw [applyMessage] at h
  cases hm : m.msg with
  | snapshot s =>
      simp only [hm, Prod.mk.injEq] at h
      exact ⟨by rw [isBookMessage, hm], _, h.1.symm⟩
  | delta d =>
      simp only [hm, Prod.mk.injEq] at h
      exact ⟨by rw [isBookMessage, hm], _, h.1.symm⟩
  | fill f =>
      rw [hm] at h
      cases h
  | none =>
      rw [hm] at h
      cases h

/-- A message that is not a fill leaves the accounts as they are. -/
theorem sameAccounts_applyMessage {m : Message} (h : ∀ fill, m.msg ≠ .fill fill) :
    SameAccounts bot (bot.applyMessage m).1 := by
  rw [applyMessage]
  cases hm : m.msg with
  | fill f => exact absurd hm (h f)
  | snapshot s | delta d | none => exact ⟨rfl, rfl, rfl, rfl⟩

/-- Submitting an order is counting its answer. -/
theorem sameAccounts_submit {bot' : TradingBot E} (h : SameAccounts bot bot') (signal : Signal) (env : Env) :
    SameAccounts (bot.account signal (bot'.submit signal env).2.request (bot'.submit signal env).2.answer)
      (bot'.submit signal env).1 := by
  have hsent : SameAccounts bot' { bot' with
      orderSeq := bot'.orderSeq + 1
      http := (bot'.submit signal env).2.outcome.client } := ⟨rfl, rfl, rfl, rfl⟩
  exact (h.trans hsent).account ..

/-- The strategy is called, and there is an order or not. -/
theorem consult_cases (env : Env) :
    ((bot.consult env).2 = none ∧ SameAccounts bot (bot.consult env).1) ∨
    ∃ sub, (bot.consult env).2 = some sub ∧
      (bot.strategy.onBookUpdate bot.book bot.exposure env.now).2 = some sub.signal ∧
      SameAccounts (bot.account sub.signal sub.request sub.answer) (bot.consult env).1 := by
  have hconfig := bot.strategy.onBookUpdate_config bot.book bot.exposure env.now
  rw [consult]
  generalize bot.strategy.onBookUpdate bot.book bot.exposure env.now = decision at hconfig
  obtain ⟨strategy, signal⟩ := decision
  cases signal with
  | none => exact .inl ⟨rfl, rfl, rfl, rfl, hconfig⟩
  | some signal =>
      have hsame : SameAccounts bot { bot with strategy := strategy } := ⟨rfl, rfl, rfl, hconfig⟩
      exact .inr ⟨_, rfl, rfl, bot.sameAccounts_submit hsame signal env⟩

/-- What a message can do to the accounts: a fill is counted, an order's answer is, or nothing is. -/
theorem onMessage_cases (m : Message) (env : Env) :
    (∃ fill, m.msg = .fill fill ∧ (bot.onMessage m env).submitted = none ∧
      SameAccounts (bot.onFill fill) (bot.onMessage m env).bot) ∨
    ((∀ fill, m.msg ≠ .fill fill) ∧ (bot.onMessage m env).submitted = none ∧
      SameAccounts bot (bot.onMessage m env).bot) ∨
    ∃ book sub, isBookMessage m = true ∧ (bot.onMessage m env).submitted = some sub ∧
      (bot.strategy.onBookUpdate book bot.exposure env.now).2 = some sub.signal ∧
      SameAccounts (bot.account sub.signal sub.request sub.answer) (bot.onMessage m env).bot := by
  rw [onMessage]
  cases hseq : bot.checkSequence m with
  | none =>
      refine .inr (.inl ⟨fun fill hm ↦ ?_, rfl, .refl bot⟩)
      exact bot.checkSequence_ne_none (by rw [isBookMessage, hm]) hseq
  | some bot₁ =>
      obtain ⟨sid, seq, rfl⟩ := bot.checkSequence_eq_some hseq
      have hsame : SameAccounts bot { bot with bookSid := sid, bookSeq := seq } := ⟨rfl, rfl, rfl, rfl⟩
      have hstrategy : ({ bot with bookSid := sid, bookSeq := seq } : TradingBot E).strategy = bot.strategy := rfl
      generalize ({ bot with bookSid := sid, bookSeq := seq } : TradingBot E) = bot₁ at hsame hstrategy
      dsimp only
      by_cases hfill : ∃ fill, m.msg = .fill fill
      · obtain ⟨fill, hm⟩ := hfill
        have happly : bot₁.applyMessage m = (bot₁.onFill fill, .ok false) := by rw [applyMessage, hm]
        rw [happly]
        exact .inl ⟨fill, hm, rfl, hsame.onFill fill⟩
      · have hnot : ∀ fill, m.msg ≠ .fill fill := fun fill hm ↦ hfill ⟨fill, hm⟩
        have hsame' := hsame.trans (bot₁.sameAccounts_applyMessage hnot)
        cases happly : bot₁.applyMessage m with
        | mk bot₂ result =>
            rw [happly] at hsame'
            match result, happly with
            | .error e, _ =>
                exact .inr (.inl ⟨hnot, rfl, hsame'.trans (bot₂.sameAccounts_onBookError e)⟩)
            | .ok false, _ => exact .inr (.inl ⟨hnot, rfl, hsame'⟩)
            | .ok true, happly =>
                obtain ⟨hbook, book, rfl⟩ := bot₁.applyMessage_eq_ok happly
                rcases consult_cases { bot₁ with book := book } env with
                  ⟨hnone, hconsult⟩ | ⟨sub, hsub, hsignal, hconsult⟩
                · exact .inr (.inl ⟨hnot, hnone, hsame'.trans hconsult⟩)
                · refine .inr (.inr ⟨book, sub, hbook, hsub, ?_, (hsame'.account _ _ _).trans hconsult⟩)
                  rw [← hsignal, hsame'.exposure_eq, hstrategy]

/-- A message is handled, and then the connection for orders is kept warm. -/
theorem onFrame_of_some {frame : Except Bytes WebSocketFrame} {m : Message} (h : received frame = some m)
    (env : Env) : ∃ http, bot.onFrame frame env =
      { bot.onMessage m env with bot := { (bot.onMessage m env).bot with http := http } } := by
  cases frame with
  | error e => cases h
  | ok frame =>
      rw [received] at h
      split_ifs at h with htext
      rw [onFrame]
      simp only [htext]
      cases hdecode : decodeKalshiMessage frame.payload with
      | error e =>
          rw [hdecode] at h
          cases h
      | ok m' =>
          rw [hdecode] at h
          cases h
          dsimp only
          split
          · exact ⟨(bot.onMessage m env).bot.http, rfl⟩
          · obtain ⟨http, hwarm⟩ := (bot.onMessage m env).bot.keepHttpWarm_eq env
            exact ⟨http, by rw [hwarm]⟩

/-- A frame without a message touches nothing else. -/
theorem onFrame_of_none {frame : Except Bytes WebSocketFrame} (h : received frame = none) (env : Env) :
    ∃ http ended, bot.onFrame frame env = { bot := { bot with http := http }, ended := ended } := by
  have hwarm : ∃ http ended, ({ bot := bot.keepHttpWarm env } : Handled E) =
      { bot := { bot with http := http }, ended := ended } := by
    obtain ⟨http, hwarm⟩ := bot.keepHttpWarm_eq env
    exact ⟨http, false, by rw [hwarm]⟩
  cases frame with
  | error e => exact ⟨bot.http, true, rfl⟩
  | ok frame =>
      rw [received] at h
      rw [onFrame]
      cases hop : frame.opCode with
      | text =>
          rw [if_pos hop] at h
          cases hdecode : decodeKalshiMessage frame.payload with
          | error e => exact ⟨bot.http, false, rfl⟩
          | ok m =>
              rw [hdecode] at h
              cases h
      | close => exact ⟨bot.http, true, rfl⟩
      | continuation | binary | ping | pong => exact hwarm

/-- What a frame can do to the accounts. -/
theorem onFrame_cases (frame : Except Bytes WebSocketFrame) (env : Env) :
    (∃ m fill, received frame = some m ∧ m.msg = .fill fill ∧ (bot.onFrame frame env).submitted = none ∧
      SameAccounts (bot.onFill fill) (bot.onFrame frame env).bot) ∨
    ((∀ m fill, received frame = some m → m.msg ≠ .fill fill) ∧ (bot.onFrame frame env).submitted = none ∧
      SameAccounts bot (bot.onFrame frame env).bot) ∨
    ∃ m book sub, received frame = some m ∧ isBookMessage m = true ∧
      (bot.onFrame frame env).submitted = some sub ∧
      (bot.strategy.onBookUpdate book bot.exposure env.now).2 = some sub.signal ∧
      SameAccounts (bot.account sub.signal sub.request sub.answer) (bot.onFrame frame env).bot := by
  cases hrec : received frame with
  | none =>
      obtain ⟨http, ended, hframe⟩ := bot.onFrame_of_none hrec env
      rw [hframe]
      exact .inr (.inl ⟨nofun, rfl, rfl, rfl, rfl, rfl⟩)
  | some m =>
      obtain ⟨http, hframe⟩ := bot.onFrame_of_some hrec env
      have hwarm : SameAccounts (bot.onMessage m env).bot (bot.onFrame frame env).bot := by
        rw [hframe]
        exact ⟨rfl, rfl, rfl, rfl⟩
      have hsub : (bot.onFrame frame env).submitted = (bot.onMessage m env).submitted := by rw [hframe]
      rw [hsub]
      rcases bot.onMessage_cases m env with
        ⟨fill, hm, hnone, hsame⟩ | ⟨hnot, hnone, hsame⟩ | ⟨book, sub, hbook, hsome, hsignal, hsame⟩
      · exact .inl ⟨m, fill, rfl, hm, hnone, hsame.trans hwarm⟩
      · refine .inr (.inl ⟨?_, hnone, hsame.trans hwarm⟩)
        rintro _ fill ⟨⟩
        exact hnot fill
      · exact .inr (.inr ⟨m, book, sub, rfl, hbook, hsome, hsignal, hsame.trans hwarm⟩)

end TradingBot

/-! ## Runs -/

/-- A bot in a session or between sessions. -/
structure Running (E : EmaOps) where
  /-- The bot. -/
  bot : TradingBot E
  /-- Whether it is in a session. -/
  inSession : Bool := false

/-- What can happen to a bot. -/
inductive Input where
  /-- A session is connected and subscribed. -/
  | session
  /-- `receive_frame` returns. -/
  | frame (frame : Except Bytes WebSocketFrame) (env : Env)

namespace Running

variable {E : EmaOps} (r : Running E)

/-- What the bot does with a frame. -/
def handled (frame : Except Bytes WebSocketFrame) (env : Env) : Handled E :=
  if r.inSession then r.bot.onFrame frame env else { bot := r.bot }

/-- `run` and `run_session`, one round of their loops at a time. -/
def next (i : Input) : Running E :=
  match i with
  | .session => if r.bot.running then ⟨r.bot.beginSession, true⟩ else r
  | .frame frame env =>
    let handled := r.handled frame env
    ⟨handled.bot, r.inSession && !handled.ended && handled.bot.running⟩

/-- The fill the bot takes from a frame. -/
def fillIn (frame : Except Bytes WebSocketFrame) : Option Fill :=
  if r.inSession then
    match received frame with
    | some ⟨_, _, _, .fill fill⟩ => some fill
    | _ => none
  else none

/-- What a frame can do to the accounts, in a session or between sessions. -/
theorem handled_cases (frame : Except Bytes WebSocketFrame) (env : Env) :
    (∃ fill, r.fillIn frame = some fill ∧ (r.handled frame env).submitted = none ∧
      SameAccounts (r.bot.onFill fill) (r.handled frame env).bot) ∨
    (r.fillIn frame = none ∧ (r.handled frame env).submitted = none ∧
      SameAccounts r.bot (r.handled frame env).bot) ∨
    ∃ m book sub, r.inSession = true ∧ received frame = some m ∧ isBookMessage m = true ∧
      r.fillIn frame = none ∧ (r.handled frame env).submitted = some sub ∧
      (r.bot.strategy.onBookUpdate book r.bot.exposure env.now).2 = some sub.signal ∧
      SameAccounts (r.bot.account sub.signal sub.request sub.answer) (r.handled frame env).bot := by
  rw [fillIn, handled]
  cases r.inSession with
  | false => exact .inr (.inl ⟨rfl, rfl, .refl r.bot⟩)
  | true =>
      rw [if_pos rfl, if_pos rfl]
      rcases r.bot.onFrame_cases frame env with
        ⟨⟨_, _, _, _⟩, fill, hrec, rfl, hnone, hsame⟩ | ⟨hnot, hnone, hsame⟩ |
        ⟨⟨_, _, _, msg⟩, book, sub, hrec, hbook, hsub, hsignal, hsame⟩
      · exact .inl ⟨fill, by rw [hrec], hnone, hsame⟩
      · refine .inr (.inl ⟨?_, hnone, hsame⟩)
        split
        · next fill hrec => exact absurd rfl (hnot _ fill hrec)
        · rfl
      · refine .inr (.inr ⟨_, book, sub, rfl, hrec, hbook, ?_, hsub, hsignal, hsame⟩)
        rw [hrec]
        cases msg with
        | fill f => cases hbook
        | snapshot s | delta d | none => rfl

variable {r} {frame : Except Bytes WebSocketFrame} {env : Env}

theorem sameAccounts_session (r : Running E) : SameAccounts r.bot (r.next .session).bot := by
  rw [next]
  split
  · exact ⟨rfl, rfl, rfl, rfl⟩
  · exact .refl r.bot

/-- A frame with neither a fill nor an order. -/
theorem handled_quiet (hfill : r.fillIn frame = none) (hsub : (r.handled frame env).submitted = none) :
    SameAccounts r.bot (r.handled frame env).bot := by
  rcases r.handled_cases frame env with ⟨f, hsome, -⟩ | ⟨-, -, hsame⟩ | ⟨m, book, sub, -, -, -, -, hsome, -⟩
  · rw [hfill] at hsome
    cases hsome
  · exact hsame
  · rw [hsub] at hsome
    cases hsome

/-- A frame with a fill. -/
theorem handled_fill {fill : Fill} (hfill : r.fillIn frame = some fill) :
    SameAccounts (r.bot.onFill fill) (r.handled frame env).bot := by
  rcases r.handled_cases frame env with ⟨f, hsome, -, hsame⟩ | ⟨hnone, -⟩ | ⟨m, book, sub, -, -, -, hnone, -⟩
  · rw [hfill] at hsome
    cases hsome
    exact hsame
  · rw [hfill] at hnone
    cases hnone
  · rw [hfill] at hnone
    cases hnone

/-- A frame that makes the bot place an order. -/
theorem handled_submitted {sub : Submission} (hsub : (r.handled frame env).submitted = some sub) :
    SameAccounts (r.bot.account sub.signal sub.request sub.answer) (r.handled frame env).bot ∧
      ∃ m book, received frame = some m ∧ isBookMessage m = true ∧
        (r.bot.strategy.onBookUpdate book r.bot.exposure env.now).2 = some sub.signal := by
  rcases r.handled_cases frame env with
    ⟨f, -, hnone, -⟩ | ⟨-, hnone, -⟩ | ⟨m, book, sub', -, hrec, hbook, -, hsome, hsignal, hsame⟩
  · rw [hsub] at hnone
    cases hnone
  · rw [hsub] at hnone
    cases hnone
  · rw [hsub] at hsome
    cases hsome
    exact ⟨hsame, m, book, hrec, hbook, hsignal⟩

end Running

end KalshiClient.Trading
