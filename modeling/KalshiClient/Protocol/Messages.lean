import KalshiClient.Json.Print

/-!
# Messages of the exchange

The types of `include/kalshi_messages.hpp` and the tree-based decoding of
`src/protocol/kalshi_messages.cpp`, which picks the fields of a message out of a parsed JSON value.
-/

namespace KalshiClient.Protocol

open Bytes Json

/-! ## Types -/

/-- `PriceLevel`: a price and a quantity, as text. -/
abbrev PriceLevel := Bytes × Bytes

/-- `struct OrderBookSnapshot`. -/
structure OrderBookSnapshot where
  /-- `market_ticker`. -/
  marketTicker : Bytes
  /-- `market_id`. -/
  marketId : Bytes
  /-- `yes_dollars_fp`. -/
  yesDollarsFp : List PriceLevel
  /-- `no_dollars_fp`. -/
  noDollarsFp : List PriceLevel
deriving DecidableEq

/-- `struct OrderBookDelta`. -/
structure OrderBookDelta where
  /-- `market_ticker`. -/
  marketTicker : Bytes
  /-- `market_id`. -/
  marketId : Bytes
  /-- `price_dollars`. -/
  priceDollars : Bytes
  /-- `delta_fp`. -/
  deltaFp : Bytes
  /-- `side`. -/
  side : Bytes
  /-- `ts`. -/
  ts : Bytes
  /-- `ts_ms`. -/
  tsMs : UInt64
deriving DecidableEq

/-- `enum class FillAction`. -/
inductive FillAction where
  | buy | sell
deriving DecidableEq

/-- `struct Fill`. -/
structure Fill where
  /-- `order_id`. -/
  orderId : Bytes
  /-- `market_ticker`. -/
  marketTicker : Bytes
  /-- `count_fp`. -/
  countFp : Bytes
  /-- `action`. -/
  action : FillAction
deriving DecidableEq

/-- The variant `Message::msg`; `none` is `std::monostate`. -/
inductive Payload where
  | none
  | snapshot (s : OrderBookSnapshot)
  | delta (d : OrderBookDelta)
  | fill (f : Fill)
deriving DecidableEq

/-- `struct Message`. -/
structure Message where
  /-- `type`. -/
  type : Bytes
  /-- `sid`, the subscription. -/
  sid : UInt32
  /-- `seq`, the number of the message within its subscription. -/
  seq : UInt32
  /-- `msg`. -/
  msg : Payload
deriving DecidableEq

/-- `enum class OrderSide`. -/
inductive OrderSide where
  | bid | ask
deriving DecidableEq

/-- `enum class TimeInForce`. -/
inductive TimeInForce where
  | fillOrKill | goodTillCanceled | immediateOrCancel
deriving DecidableEq

/-- `enum class SelfTradePrevention`. -/
inductive SelfTradePrevention where
  | takerAtCross | maker
deriving DecidableEq

/-- `struct OrderRequest`. -/
structure OrderRequest where
  /-- `ticker`. -/
  ticker : Bytes
  /-- `side`. -/
  side : OrderSide
  /-- `count`. -/
  count : Bytes
  /-- `price`. -/
  price : Bytes
  /-- `time_in_force`. -/
  timeInForce : TimeInForce
  /-- `self_trade_prevention`. -/
  selfTradePrevention : SelfTradePrevention
  /-- `client_order_id`. -/
  clientOrderId : Bytes
  /-- `post_only`. -/
  postOnly : Bool
deriving DecidableEq

/-- `struct OrderResponse`. -/
structure OrderResponse where
  /-- `order_id`. -/
  orderId : Bytes
  /-- `fill_count`. -/
  fillCount : Bytes
  /-- `remaining_count`. -/
  remainingCount : Bytes
  /-- `ts_ms`. -/
  tsMs : UInt64
  /-- `client_order_id`. -/
  clientOrderId : Bytes
deriving DecidableEq

/-! ## Looking up members -/

/-- The string in a value; a number is stored as its text. -/
def asString : JsonValue → Option Bytes
  | .string s => some s
  | _ => none

/-- The object in a value. -/
def asObject : JsonValue → Option JsonObject
  | .object o => some o
  | _ => none

/-- The array in a value. -/
def asArray : JsonValue → Option JsonArray
  | .array a => some a
  | _ => none

/-- `get_string`. -/
def getString (obj : JsonObject) (key : Bytes) : Option Bytes := (FlatMap.find key obj).bind asString

/-- `get_object`. -/
def getObject (obj : JsonObject) (key : Bytes) : Option JsonObject :=
  (FlatMap.find key obj).bind asObject

/-- `get_array`. -/
def getArray (obj : JsonObject) (key : Bytes) : Option JsonArray := (FlatMap.find key obj).bind asArray

/-- `get_uint64`. -/
def getUint64 (obj : JsonObject) (key : Bytes) : Option UInt64 := (getString obj key).bind parseU64

/-! ## Decoding a tree -/

/-- `parse_delta`. -/
def parseDelta (msg : JsonObject) : Except Bytes OrderBookDelta :=
  match getString msg (ascii "market_ticker"), getString msg (ascii "market_id"),
    getString msg (ascii "price_dollars"), getString msg (ascii "delta_fp"),
    getString msg (ascii "side"), getString msg (ascii "ts"), getUint64 msg (ascii "ts_ms") with
  | some ticker, some marketId, some priceDollars, some deltaFp, some side, some ts, some tsMs =>
    .ok ⟨ticker, marketId, priceDollars, deltaFp, side, ts, tsMs⟩
  | _, _, _, _, _, _, _ => .error (ascii "Invalid Key")

/-- One round of `parse_price_levels`. -/
def parsePriceLevel (item : JsonValue) : Except Bytes PriceLevel :=
  match asArray item with
  | some [val₁, val₂] =>
    match asString val₁, asString val₂ with
    | some str₁, some str₂ => .ok (str₁, str₂)
    | _, _ => .error (ascii "Price levels contain non-string data")
  | _ => .error (ascii "Price level is not a 2-element array")

/-- `parse_price_levels`. -/
def parsePriceLevels (array : JsonArray) : Except Bytes (List PriceLevel) :=
  array.mapM parsePriceLevel

/-- The levels of one side, empty if there is no array. -/
def parseSide (msg : JsonObject) (key : Bytes) : Except Bytes (List PriceLevel) :=
  match getArray msg key with
  | some array => parsePriceLevels array
  | none => .ok []

/-- `parse_snapshot`. -/
def parseSnapshot (msg : JsonObject) : Except Bytes OrderBookSnapshot :=
  match getString msg (ascii "market_ticker"), getString msg (ascii "market_id") with
  | some ticker, some marketId => do
    let yes ← parseSide msg (ascii "yes_dollars_fp")
    let no ← parseSide msg (ascii "no_dollars_fp")
    .ok ⟨ticker, marketId, yes, no⟩
  | _, _ => .error (ascii "Missing required fields in snapshot")

/-- The text of an action. -/
def parseAction (action : Bytes) : Except Bytes FillAction :=
  if action = ascii "buy" then .ok .buy
  else if action = ascii "sell" then .ok .sell
  else .error (ascii "Unknown action: " ++ action)

/-- `parse_fill`. -/
def parseFill (msg : JsonObject) : Except Bytes Fill :=
  match getString msg (ascii "action") with
  | none => .error (ascii "Missing action field")
  | some actionStr => do
    let action ← parseAction actionStr
    match getString msg (ascii "order_id"), getString msg (ascii "market_ticker"),
      getString msg (ascii "count_fp") with
    | some orderId, some ticker, some countFp => .ok ⟨orderId, ticker, countFp, action⟩
    | _, _, _ => .error (ascii "Missing fields in order response")

/-- `static_cast<uint32_t>(value.value_or(0))`. -/
def toU32 (value : Option UInt64) : UInt32 := (value.getD 0).toUInt32

/-- `parse_kalshi_message`. -/
def parseKalshiMessage (json : JsonValue) : Except Bytes Message :=
  match asObject json with
  | none => .error (ascii "Root JSON is not an object")
  | some root =>
    match getString root (ascii "type") with
    | none => .error (ascii "Missing or invalid 'type' field")
    | some type =>
      let make := Message.mk type (toU32 (getUint64 root (ascii "sid")))
        (toU32 (getUint64 root (ascii "seq")))
      if type = ascii "subscribed" then .ok (make .none)
      else
        match getObject root (ascii "msg") with
        | none => .error (ascii "Missing 'msg' object in '" ++ type ++ ascii "' message")
        | some msg =>
          if type = ascii "orderbook_delta" then do
            let delta ← parseDelta msg
            .ok (make (.delta delta))
          else if type = ascii "orderbook_snapshot" then do
            let snapshot ← parseSnapshot msg
            .ok (make (.snapshot snapshot))
          else if type = ascii "fill" then do
            let fill ← parseFill msg
            .ok (make (.fill fill))
          else .error (ascii "Unknown message type: " ++ type)

/-! ## Orders -/

/-- The beginning of a printed value that an error quotes. -/
def bodyExcerpt (json : JsonValue) : Bytes :=
  let body := toJsonString json
  if body.length > 1000 then body.take 1000 ++ ascii "..." else body

/-- `parse_order_response`. -/
def parseOrderResponse (json : JsonValue) : Except Bytes OrderResponse :=
  match asObject json with
  | none => .error (ascii "Root JSON is not an object")
  | some root =>
    match getString root (ascii "order_id"), getString root (ascii "fill_count"),
      getString root (ascii "remaining_count"), getUint64 root (ascii "ts_ms") with
    | some orderId, some fillCount, some remainingCount, some tsMs =>
      .ok ⟨orderId, fillCount, remainingCount, tsMs,
        (getString root (ascii "client_order_id")).getD []⟩
    | _, _, _, _ => .error (ascii "Unexpected order response: " ++ bodyExcerpt json)

/-- `to_string(OrderSide)`. -/
def OrderSide.toBytes : OrderSide → Bytes
  | .bid => ascii "bid"
  | .ask => ascii "ask"

/-- `to_string(TimeInForce)`. -/
def TimeInForce.toBytes : TimeInForce → Bytes
  | .fillOrKill => ascii "fill_or_kill"
  | .goodTillCanceled => ascii "good_till_canceled"
  | .immediateOrCancel => ascii "immediate_or_cancel"

/-- `to_string(SelfTradePrevention)`. -/
def SelfTradePrevention.toBytes : SelfTradePrevention → Bytes
  | .maker => ascii "maker"
  | .takerAtCross => ascii "taker_at_cross"

/-- `serialize_order_request`: the fields are put between quotes as they are. -/
def serializeOrderRequest (order : OrderRequest) : Bytes :=
  ascii "\x7b\"ticker\":\"" ++ order.ticker ++ ascii "\",\"side\":\"" ++ order.side.toBytes ++
    ascii "\",\"count\":\"" ++ order.count ++ ascii "\",\"price\":\"" ++ order.price ++
    ascii "\",\"time_in_force\":\"" ++ order.timeInForce.toBytes ++
    ascii "\",\"self_trade_prevention_type\":\"" ++ order.selfTradePrevention.toBytes ++
    ascii "\",\"post_only\":" ++ (if order.postOnly then ascii "true" else ascii "false") ++
    ascii ",\"client_order_id\":\"" ++ order.clientOrderId ++ ascii "\"\x7d"

end KalshiClient.Protocol
