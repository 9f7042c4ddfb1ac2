import KalshiClient.Protocol.Agreement

/-!
# What the exchange writes

A message of the exchange is a JSON text: an object with the type of the message, the number of its subscription, its
own number, and an object with what it tells.  The members may be written in any order, among any others.  The decoder
returns what was written (`decodeKalshiMessage_of_writes`).
-/

namespace KalshiClient.Protocol

open Bytes Json

/-- A string or a number, as text, under a key. -/
def HasText (o : JsonObject) (key : String) (s : Bytes) : Prop := FlatMap.find (ascii key) o = some (.string s)

/-- A price level in JSON. -/
def levelJson (l : PriceLevel) : JsonValue := .array [.string l.1, .string l.2]

/-- The levels of one side under a key, which may be left out if there are none. -/
def HasLevels (o : JsonObject) (key : String) (levels : List PriceLevel) : Prop :=
  FlatMap.find (ascii key) o = some (.array (levels.map levelJson)) ∨ FlatMap.find (ascii key) o = none ∧ levels = []

/-- The text of an action. -/
def FillAction.toBytes : FillAction → Bytes
  | .buy => ascii "buy"
  | .sell => ascii "sell"

/-- The object tells this. -/
inductive Tells (msg : JsonObject) : Payload → Prop
  | snapshot {s : OrderBookSnapshot} (ticker : HasText msg "market_ticker" s.marketTicker)
      (marketId : HasText msg "market_id" s.marketId) (yes : HasLevels msg "yes_dollars_fp" s.yesDollarsFp)
      (no : HasLevels msg "no_dollars_fp" s.noDollarsFp) : Tells msg (.snapshot s)
  | delta {d : OrderBookDelta} (ticker : HasText msg "market_ticker" d.marketTicker)
      (marketId : HasText msg "market_id" d.marketId) (price : HasText msg "price_dollars" d.priceDollars)
      (change : HasText msg "delta_fp" d.deltaFp) (side : HasText msg "side" d.side) (ts : HasText msg "ts" d.ts)
      (tsMs : HasText msg "ts_ms" (ofNat d.tsMs.toNat)) : Tells msg (.delta d)
  | fill {f : Fill} (orderId : HasText msg "order_id" f.orderId) (ticker : HasText msg "market_ticker" f.marketTicker)
      (count : HasText msg "count_fp" f.countFp) (action : HasText msg "action" f.action.toBytes) : Tells msg (.fill f)

/-- The type of a message that tells this. -/
def Payload.typeName : Payload → Bytes
  | .none => ascii "subscribed"
  | .snapshot _ => ascii "orderbook_snapshot"
  | .delta _ => ascii "orderbook_delta"
  | .fill _ => ascii "fill"

/-- The text is a message that tells this. -/
structure Writes (text : Bytes) (sid seq : UInt32) (payload : Payload) (root msg : JsonObject) : Prop where
  json : parseJson text = .ok (.object root)
  type : HasText root "type" payload.typeName
  sid : HasText root "sid" (ofNat sid.toNat)
  seq : HasText root "seq" (ofNat seq.toNat)
  inner : FlatMap.find (ascii "msg") root = some (.object msg)
  tells : Tells msg payload

/-! ## Reading it -/

theorem HasText.getString {o : JsonObject} {key : String} {s : Bytes} (h : HasText o key s) :
    getString o (ascii key) = some s := by
  rw [Protocol.getString, h]
  rfl

/-- A number is read back. -/
theorem HasText.getUint64 {o : JsonObject} {key : String} {n : Nat} (h : HasText o key (ofNat n)) (hn : n < 2 ^ 64) :
    getUint64 o (ascii key) = some (UInt64.ofNat n) := by
  rw [Protocol.getUint64, h.getString, Option.bind_some, parseU64, parseWhole_ofNat hn, Option.map_some]

/-- So is a number of 32 bits. -/
theorem HasText.toU32 {o : JsonObject} {key : String} {n : UInt32} (h : HasText o key (ofNat n.toNat)) :
    toU32 (Protocol.getUint64 o (ascii key)) = n := by
  have hlt : n.toNat < 2 ^ 32 := n.toNat_lt
  rw [h.getUint64 (Nat.lt_trans hlt (by decide)), Protocol.toU32, Option.getD_some, ← UInt32.toNat_inj,
    UInt64.toNat_toUInt32, UInt64.toNat_ofNat_of_lt' (Nat.lt_trans hlt (by decide)), Nat.mod_eq_of_lt hlt]

theorem parsePriceLevels_levelJson (levels : List PriceLevel) : parsePriceLevels (levels.map levelJson) = .ok levels := by
  induction levels with
  | nil => rfl
  | cons l levels ih =>
      rw [parsePriceLevels] at ih
      rw [parsePriceLevels, List.map_cons, List.mapM_cons, ih]
      rfl

theorem HasLevels.parseSide {o : JsonObject} {key : String} {levels : List PriceLevel} (h : HasLevels o key levels) :
    parseSide o (ascii key) = .ok levels := by
  rw [Protocol.parseSide, getArray]
  rcases h with h | ⟨h, rfl⟩
  · rw [h]
    exact parsePriceLevels_levelJson levels
  · rw [h]
    rfl

theorem parseAction_toBytes (action : FillAction) : parseAction action.toBytes = .ok action := by
  cases action <;> rfl

/-- **What is written is read**, however the text is laid out and whatever else is in it. -/
theorem decodeKalshiMessage_of_writes {text : Bytes} {sid seq : UInt32} {payload : Payload} {root msg : JsonObject}
    (h : Writes text sid seq payload root msg) :
    decodeKalshiMessage text = .ok ⟨payload.typeName, sid, seq, payload⟩ := by
  rw [decodeKalshiMessage_eq_ok_iff_parseTree, parseTree_eq_ok_iff]
  refine ⟨_, h.json, ?_⟩
  have hmsg : getObject root (ascii "msg") = some msg := by
    rw [getObject, h.inner]
    rfl
  simp only [parseKalshiMessage, asObject, h.type.getString, h.sid.toU32, h.seq.toU32, hmsg]
  obtain ⟨-, -, -, -, -, tells⟩ := h
  cases tells with
  | @snapshot s ticker marketId yes no =>
      have hparse : parseSnapshot msg = .ok s := by
        simp only [parseSnapshot, ticker.getString, marketId.getString, yes.parseSide, no.parseSide]
        rfl
      rw [hparse]
      rfl
  | @delta d ticker marketId price change side ts tsMs =>
      have hstamp : getUint64 msg (ascii "ts_ms") = some d.tsMs := by
        rw [tsMs.getUint64 d.tsMs.toNat_lt, UInt64.ofNat_toNat]
      have hparse : parseDelta msg = .ok d := by
        simp only [parseDelta, ticker.getString, marketId.getString, price.getString, change.getString, side.getString,
          ts.getString, hstamp]
      rw [hparse]
      rfl
  | @fill f orderId ticker count action =>
      have hparse : parseFill msg = .ok f := by
        simp only [parseFill, action.getString, orderId.getString, ticker.getString, count.getString]
        rw [parseAction_toBytes]
        rfl
      rw [hparse]
      rfl

end KalshiClient.Protocol
