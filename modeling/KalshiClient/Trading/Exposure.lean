import KalshiClient.Trading.Ledger

/-!
# Exposure is conserved

In a run where the bot can read the answer to every order, its exposure is what the answers have reported, whatever
part of that fill messages have confirmed so far.
-/

namespace KalshiClient.Trading

open Bytes Protocol WebSocket

/-- The runs of a bot from a flat start, with the ledger they write, in which every answer is received and
reports whole contracts of an order with an identifier of its own, and every fill message is for whole
contracts of one of these orders that have been reported and not been confirmed before. -/
inductive Regular {E : EmaOps} : Running E → Ledger → Prop
  | start {bot : TradingBot E} (hpos : bot.positions = ∅) (hfills : bot.unconfirmedFills = ∅) :
      Regular ⟨bot, false⟩ []
  | session {r : Running E} {ledger : Ledger} (h : Regular r ledger) : Regular (r.next .session) ledger
  | quiet {r : Running E} {ledger : Ledger} (h : Regular r ledger) (frame : Except Bytes WebSocketFrame)
      (env : Env) (hfill : r.fillIn frame = none) (hsub : (r.handled frame env).submitted = none) :
      Regular (r.next (.frame frame env)) ledger
  | order {r : Running E} {ledger : Ledger} (h : Regular r ledger) (frame : Except Bytes WebSocketFrame)
      (env : Env) {sub : Submission} (hsub : (r.handled frame env).submitted = some sub)
      {parsed : OrderResponse} {filled : Int} (hread : readAnswer sub.answer = some (parsed, filled))
      (hnonneg : 0 ≤ filled) (hfresh : parsed.orderId ∉ ledger.map Entry.orderId) :
      Regular (r.next (.frame frame env)) (ledger ++ [⟨parsed.orderId, sub.signal.side, some filled, 0⟩])
  | fill {r : Running E} {pre post : Ledger} {e : Entry} (h : Regular r (pre ++ e :: post))
      (frame : Except Bytes WebSocketFrame) (env : Env) {fill : Fill} (hfill : r.fillIn frame = some fill)
      (hid : fill.orderId = e.orderId) (hticker : fill.marketTicker = r.bot.ticker)
      (haction : fill.action = fillAction e.side) {q : Int} (hq : parseContracts fill.countFp = some q)
      (hpos : 0 < q) (hle : ∀ filled ∈ e.reported, e.confirmed + q ≤ filled) :
      Regular (r.next (.frame frame env)) (pre ++ e.confirm q :: post)

namespace Regular

variable {E : EmaOps} {r : Running E} {ledger : Ledger}

/-- Every order has been reported. -/
theorem reported (h : Regular r ledger) : ∀ e ∈ ledger, ∃ filled, e.reported = some filled := by
  induction h with
  | start hpos hfills => exact nofun
  | session h ih => exact ih
  | quiet h frame env hfill hsub ih => exact ih
  | @order r ledger h frame env sub hsub parsed filled hread hnonneg hfresh ih =>
      intro e he
      rcases List.mem_append.mp he with he | he
      · exact ih e he
      · rw [List.mem_singleton.mp he]
        exact ⟨filled, rfl⟩
  | @fill r pre post e h frame env fill hfill hid hticker haction q hq hpos hle ih =>
      intro e' he'
      rcases List.mem_append.mp he' with he' | he'
      · exact ih e' (List.mem_append_left _ he')
      · rcases List.mem_cons.mp he' with rfl | he'
        · exact ih e List.mem_append_cons_self
        · exact ih e' (List.mem_append_right _ (List.mem_cons_of_mem _ he'))

/-- The bot keeps track of the ledger. -/
theorem tracks (h : Regular r ledger) : Tracks r.bot ledger := by
  induction h with
  | start hpos hfills => exact Tracks.init _ hpos hfills
  | session h ih => exact ih.congr (Running.sameAccounts_session _)
  | quiet h frame env hfill hsub ih => exact ih.congr (Running.handled_quiet hfill hsub)
  | @order r ledger h frame env sub hsub parsed filled hread hnonneg hfresh ih =>
      obtain ⟨hsame, -⟩ := Running.handled_submitted hsub
      exact (ih.account_some hfresh hnonneg sub.signal sub.request hread).congr hsame
  | @fill r pre post e h frame env fill hfill hid hticker haction q hq hpos hle ih =>
      exact (ih.onFill hid hticker haction hq hpos.le hle).congr (Running.handled_fill hfill)

end Regular

/-- A bot that does not wait before or between orders. -/
def eagerBot (maxPosition orderSize : Quantity) : TradingBot exactOps where
  ticker := ascii "T"
  strategy.config :=
    { warmup := 0, entryEdge := 0, maxSpread := 1000, maxPosition := maxPosition, orderSize := orderSize,
      cooldown := 0 }
  http := { host := [], signed := false }

/-- The text of an object with the given members. -/
def objectText (members : List (String × String)) : Bytes :=
  ascii "\x7b" ++ List.intercalate (ascii ",")
    (members.map fun m ↦ ascii "\"" ++ ascii m.1 ++ ascii "\":" ++ ascii m.2) ++ ascii "\x7d"

/-- A message of the first subscription. -/
def messageFrame (type seq : String) (members : List (String × String)) : Except Bytes WebSocketFrame :=
  .ok
    { finBit := true
      opCode := .text
      maskKey := none
      payload := ascii "\x7b\"type\":\"" ++ ascii type ++ ascii "\",\"sid\":1,\"seq\":" ++ ascii seq ++
        ascii ",\"msg\":" ++ objectText members ++ ascii "\x7d" }

/-- A snapshot with a YES bid at $0.10 and a NO bid at $0.59. -/
def snapshotFrame : Except Bytes WebSocketFrame :=
  messageFrame "orderbook_snapshot" "1" [("market_ticker", "\"T\""), ("market_id", "\"M\""),
    ("yes_dollars_fp", "[[\"0.1\",\"1\"]]"), ("no_dollars_fp", "[[\"0.59\",\"1\"]]")]

/-- A delta that adds a NO bid at $0.80, which offers YES below the fair value. -/
def deltaFrame (seq : String) : Except Bytes WebSocketFrame :=
  messageFrame "orderbook_delta" seq [("market_ticker", "\"T\""), ("market_id", "\"M\""),
    ("price_dollars", "\"0.8\""), ("delta_fp", "\"1\""), ("side", "\"no\""), ("ts", "\"0\""),
    ("ts_ms", "0")]

/-- A fill message for the order `A`. -/
def fillFrame (seq count : String) : Except Bytes WebSocketFrame :=
  messageFrame "fill" seq [("action", "\"buy\""), ("order_id", "\"A\""), ("market_ticker", "\"T\""),
    ("count_fp", count)]

/-- The answer to an order that becomes the order `A`. -/
def answerTo (fillCount : String) : Bytes :=
  let body := objectText [("order_id", "\"A\""), ("fill_count", fillCount), ("remaining_count", "\"0\""),
    ("ts_ms", "0")]
  ascii "HTTP/1.1 201 Created\r\n" ++ ascii "Content-Length: " ++ ofNat body.length ++ ascii "\r\n\r\n" ++ body

/-- A bot in a session with its first snapshot. -/
def withSnapshot (bot : TradingBot exactOps) : Running exactOps :=
  ((⟨bot, false⟩ : Running exactOps).next .session).next (.frame snapshotFrame {})

/-- The bot after an order for two contracts that is filled at once. -/
def afterOrder : Running exactOps :=
  (withSnapshot (eagerBot 5 2)).next (.frame (deltaFrame "2") { order := { pieces := [answerTo "\"2.00\""] } })

/-- The bot after a fill message for one of the two. -/
def afterFill : Running exactOps := afterOrder.next (.frame (fillFrame "3" "\"1.00\"") {})

/-- What the frames do: nothing is ordered on the snapshot, two contracts are on the delta, and the fill message is for
that order. -/
theorem handled_frames :
    (((⟨eagerBot 5 2, false⟩ : Running exactOps).next .session).fillIn snapshotFrame = none ∧
      (((⟨eagerBot 5 2, false⟩ : Running exactOps).next .session).handled snapshotFrame {}).submitted = none) ∧
    (((withSnapshot (eagerBot 5 2)).handled (deltaFrame "2")
      { order := { pieces := [answerTo "\"2.00\""] } }).submitted.map fun sub ↦
        (sub.signal.side, sub.signal.count, readAnswer sub.answer)) =
      some (.bid, 2, some (⟨ascii "A", ascii "2.00", ascii "0", 0, []⟩, 2)) ∧
    afterOrder.fillIn (fillFrame "3" "\"1.00\"") = some ⟨ascii "A", ascii "T", ascii "1.00", .buy⟩ ∧
      ascii "T" = afterOrder.bot.ticker := by
  decide +kernel

theorem parseContracts_one : parseContracts (ascii "1.00") = some (1 : Int) := by
  decide

end KalshiClient.Trading
