import KalshiClient.Trading.MarketState

/-!
# The strategy

`MeanReversionStrategy` of `include/strategy.hpp` and `src/trading/strategy.cpp`.  The fair value is a
`double`; what the strategy does with it is four operations, collected in `EmaOps`, and nothing is assumed
about them.  Times are in the ticks of the clock, nanoseconds; the settings are in seconds.  Both are
`int64_t`, so that differences and conversions can overflow (`elapsed`, `ticks`).
-/

namespace KalshiClient.Trading

open Bytes Protocol

/-- `struct StrategyConfig`. -/
structure StrategyConfig where
  /-- `ema_time_constant`, in seconds. -/
  emaTimeConstant : Int := 60
  /-- `warmup`, in seconds. -/
  warmup : Int := 60
  /-- `entry_edge`. -/
  entryEdge : Price := 30
  /-- `max_spread`. -/
  maxSpread : Price := 40
  /-- `max_position`: the hard cap on the position, in contracts. -/
  maxPosition : Quantity := 5
  /-- `order_size`: contracts per order. -/
  orderSize : Quantity := 1
  /-- `cooldown`, in seconds. -/
  cooldown : Int := 5
deriving DecidableEq

/-- `struct Signal`. -/
structure Signal where
  /-- `side`. -/
  side : OrderSide
  /-- `price`. -/
  price : Price
  /-- `count`. -/
  count : Quantity
deriving DecidableEq

/-- The floating-point operations of the strategy. -/
structure EmaOps where
  /-- `double`. -/
  Real : Type
  /-- `static_cast<double>(bid + ask) / 2.0`. -/
  mid : Price → Price → Real
  /-- `ema + (1.0 - exp(-dt / tau)) * (mid - ema)`, for `dt` in ticks of the clock and `tau` in seconds. -/
  update : (dt tau : Int) → (mid ema : Real) → Real
  /-- `ask <= ema - edge`. -/
  isCheap : (ask : Price) → (ema : Real) → (edge : Price) → Bool
  /-- `bid >= ema + edge`. -/
  isDear : (bid : Price) → (ema : Real) → (edge : Price) → Bool

/-- The operations as they are while no time passes: the fair value stays what it was at first, `exp 0` being one.  It is
kept in halves of a price, where they are exact. -/
def exactOps : EmaOps where
  Real := Int
  mid bid ask := bid + ask
  update dt _ mid ema := if dt = 0 then ema else mid
  isCheap ask ema edge := decide (2 * ask ≤ ema - 2 * edge)
  isDear bid ema edge := decide (2 * bid ≥ ema + 2 * edge)

/-- `class MeanReversionStrategy`. -/
structure MeanReversionStrategy (E : EmaOps) where
  /-- `_config`. -/
  config : StrategyConfig
  /-- `_ema`. -/
  ema : Option E.Real := none
  /-- `_first_update`. -/
  firstUpdate : Int := 0
  /-- `_last_update`. -/
  lastUpdate : Int := 0
  /-- `_last_order`. -/
  lastOrder : Option Int := none

/-- Ticks of the clock in a second. -/
def ticksPerSecond : Int := 1000000000

/-- A number of seconds in ticks, as a comparison with a duration of the clock converts it. -/
def ticks (seconds : Int) : Int := I64.wrap (seconds * ticksPerSecond)

/-- The difference of two time points. -/
def elapsed (now t : Int) : Int := I64.wrap (now - t)

namespace MeanReversionStrategy

variable {E : EmaOps} (s : MeanReversionStrategy E)

/-- The update of the moving average. -/
def updateEma (bid ask : Price) (now : Int) : MeanReversionStrategy E :=
  let mid := E.mid bid ask
  match s.ema with
  | none => { s with ema := some mid, firstUpdate := now, lastUpdate := now }
  | some ema =>
    { s with
      ema := some (E.update (elapsed now s.lastUpdate) s.config.emaTimeConstant mid ema)
      lastUpdate := now }

/-- Whether trading is held back: warming up, spread too wide, or too soon after the last order. -/
def heldBack (bid ask : Price) (now : Int) : Bool :=
  elapsed now s.firstUpdate < ticks s.config.warmup ||
  ask - bid > s.config.maxSpread ||
  match s.lastOrder with
  | some last => elapsed now last < ticks s.config.cooldown
  | none => false

/-- The decision, at the fair value `ema`. -/
def decide (bid ask : Price) (ema : E.Real) (exposure : Quantity) : Option Signal :=
  if E.isCheap ask ema s.config.entryEdge ∧
      I64.wrap (exposure + s.config.orderSize) ≤ s.config.maxPosition then
    some ⟨.bid, ask, s.config.orderSize⟩
  else if E.isDear bid ema s.config.entryEdge ∧
      I64.wrap (exposure - s.config.orderSize) ≥ I64.wrap (-s.config.maxPosition) then
    some ⟨.ask, bid, s.config.orderSize⟩
  else none

/-- `MeanReversionStrategy::on_book_update`. -/
def onBookUpdate (book : MarketState) (exposure : Quantity) (now : Int) :
    MeanReversionStrategy E × Option Signal :=
  match book.bestYesBid, book.bestYesAsk with
  | some bid, some ask =>
    if ask ≤ bid then (s, none)
    else
      let s := s.updateEma bid ask now
      if s.heldBack bid ask now then (s, none)
      else
        match s.ema with
        | none => (s, none)
        | some ema =>
          match s.decide bid ask ema exposure with
          | some signal => ({ s with lastOrder := some now }, some signal)
          | none => (s, none)
  | _, _ => (s, none)

/-! ## What the strategy can do -/

theorem updateEma_config (bid ask : Price) (now : Int) : (s.updateEma bid ask now).config = s.config := by
  rw [updateEma]
  cases s.ema <;> rfl

theorem updateEma_lastOrder (bid ask : Price) (now : Int) : (s.updateEma bid ask now).lastOrder = s.lastOrder := by
  rw [updateEma]
  cases s.ema <;> rfl

/-- The first time the moving average is set, this is remembered. -/
theorem updateEma_firstUpdate (bid ask : Price) (now : Int) :
    (s.updateEma bid ask now).ema.isSome = true ∧
      (s.updateEma bid ask now).firstUpdate = if s.ema.isSome then s.firstUpdate else now := by
  rw [updateEma]
  cases s.ema <;> exact ⟨rfl, rfl⟩

/-- What holds once trading is not held back. -/
theorem heldBack_eq_false_iff {bid ask : Price} {now : Int} :
    s.heldBack bid ask now = false ↔
      ticks s.config.warmup ≤ elapsed now s.firstUpdate ∧ ask - bid ≤ s.config.maxSpread ∧
        ∀ last, s.lastOrder = some last → ticks s.config.cooldown ≤ elapsed now last := by
  rw [heldBack, Bool.or_eq_false_iff, Bool.or_eq_false_iff, decide_eq_false_iff_not, decide_eq_false_iff_not, not_lt,
    not_lt, and_assoc]
  obtain hlast | ⟨last, hlast⟩ := Option.eq_none_or_eq_some s.lastOrder
  · rw [hlast]
    exact and_congr_right' (and_congr_right' (iff_of_true rfl fun _ h ↦ absurd h (Option.some_ne_none _).symm))
  · rw [hlast]
    dsimp only
    rw [decide_eq_false_iff_not, not_lt]
    exact and_congr_right' (and_congr_right' ⟨fun h _ heq ↦ Option.some.inj heq ▸ h, fun h ↦ h last rfl⟩)

/-- What `on_book_update` can do: nothing, if the book has no bid below an ask; otherwise bring the moving average up to
date and, unless it is held back, decide for an order. -/
theorem onBookUpdate_cases (book : MarketState) (exposure : Quantity) (now : Int) :
    (s.onBookUpdate book exposure now = (s, none) ∧
      ∀ bid ask, book.bestYesBid = some bid → book.bestYesAsk = some ask → ask ≤ bid) ∨
    ∃ bid ask, book.bestYesBid = some bid ∧ book.bestYesAsk = some ask ∧ bid < ask ∧
      (s.onBookUpdate book exposure now = (s.updateEma bid ask now, none) ∨
        ∃ ema signal, (s.updateEma bid ask now).heldBack bid ask now = false ∧
          (s.updateEma bid ask now).decide bid ask ema exposure = some signal ∧
          s.onBookUpdate book exposure now = ({ s.updateEma bid ask now with lastOrder := some now }, some signal)) := by
  rw [onBookUpdate]
  obtain hbid | ⟨bid, hbid⟩ := Option.eq_none_or_eq_some book.bestYesBid
  · rw [hbid]
    exact .inl ⟨rfl, fun _ _ h _ ↦ absurd h (Option.some_ne_none _).symm⟩
  obtain hask | ⟨ask, hask⟩ := Option.eq_none_or_eq_some book.bestYesAsk
  · rw [hbid, hask]
    exact .inl ⟨rfl, fun _ _ _ h ↦ absurd h (Option.some_ne_none _).symm⟩
  rw [hbid, hask]
  dsimp only
  by_cases hcrossed : ask ≤ bid
  · rw [if_pos hcrossed]
    refine .inl ⟨rfl, fun _ _ hbid hask ↦ ?_⟩
    rw [← Option.some.inj hbid, ← Option.some.inj hask]
    exact hcrossed
  refine .inr ⟨bid, ask, rfl, rfl, not_le.mp hcrossed, ?_⟩
  rw [if_neg hcrossed]
  cases hheld : (s.updateEma bid ask now).heldBack bid ask now with
  | true => exact .inl rfl
  | false =>
      obtain hema | ⟨ema, hema⟩ := Option.eq_none_or_eq_some (s.updateEma bid ask now).ema
      · rw [hema]
        exact .inl rfl
      obtain hnone | ⟨signal, hsignal⟩ :=
        Option.eq_none_or_eq_some ((s.updateEma bid ask now).decide bid ask ema exposure)
      · rw [hema]
        dsimp only
        rw [hnone]
        exact .inl rfl
      · rw [hema]
        dsimp only
        rw [hsignal]
        exact .inr ⟨ema, signal, rfl, hsignal, rfl⟩

/-- The settings never change. -/
theorem onBookUpdate_config (book : MarketState) (exposure : Quantity) (now : Int) :
    (s.onBookUpdate book exposure now).1.config = s.config := by
  obtain ⟨h, -⟩ | ⟨bid, ask, -, -, -, h | ⟨ema, signal, -, -, h⟩⟩ := s.onBookUpdate_cases book exposure now
  · rw [h]
  · rw [h, updateEma_config]
  · rw [h]
    exact s.updateEma_config bid ask now

/-- An order is for `order_size` contracts at the price it is compared with, and stays within `max_position` of the
exposure. -/
theorem decide_eq_some {bid ask : Price} {ema : E.Real} {exposure : Quantity} {signal : Signal}
    (h : s.decide bid ask ema exposure = some signal) :
    signal.count = s.config.orderSize ∧
      (signal.side = .bid ∧ signal.price = ask ∧ I64.wrap (exposure + s.config.orderSize) ≤ s.config.maxPosition ∨
        signal.side = .ask ∧ signal.price = bid ∧
          I64.wrap (exposure - s.config.orderSize) ≥ I64.wrap (-s.config.maxPosition)) := by
  rw [MeanReversionStrategy.decide] at h
  split_ifs at h with hbuy hsell
  · cases h
    exact ⟨rfl, .inl ⟨rfl, rfl, hbuy.2⟩⟩
  · cases h
    exact ⟨rfl, .inr ⟨rfl, rfl, hsell.2⟩⟩

/-- What an order comes from: a book with a bid below an ask, by no more than `max_spread`, and a decision. -/
theorem onBookUpdate_signal {book : MarketState} {exposure : Quantity} {now : Int} {signal : Signal}
    (h : (s.onBookUpdate book exposure now).2 = some signal) :
    ∃ bid ask, book.bestYesBid = some bid ∧ book.bestYesAsk = some ask ∧ bid < ask ∧
      (s.updateEma bid ask now).heldBack bid ask now = false ∧
      (∃ ema, (s.updateEma bid ask now).decide bid ask ema exposure = some signal) ∧
      (s.onBookUpdate book exposure now).1 = { s.updateEma bid ask now with lastOrder := some now } := by
  obtain ⟨hcall, -⟩ | ⟨bid, ask, hbid, hask, hlt, hcall | ⟨ema, signal', hheld, hdecide, hcall⟩⟩ :=
    s.onBookUpdate_cases book exposure now
  · rw [hcall] at h
    cases h
  · rw [hcall] at h
    cases h
  · rw [hcall] at h
    cases h
    exact ⟨bid, ask, hbid, hask, hlt, hheld, ⟨ema, hdecide⟩, by rw [hcall]⟩

end MeanReversionStrategy

/-- `price_to_dollars`. -/
def priceToDollars (p : Price) : Bytes :=
  let frac := ofInt (p.tmod kMaxPrice)
  ofInt (p.tdiv kMaxPrice) ++ ascii "." ++
    List.replicate (3 - frac.length) '0'.toUInt8 ++ frac ++ ascii "0"

/-- `make_ioc_order`. -/
def makeIocOrder (ticker : Bytes) (signal : Signal) (clientOrderId : Bytes) : OrderRequest where
  ticker := ticker
  side := signal.side
  count := ofInt signal.count ++ ascii ".00"
  price := priceToDollars signal.price
  timeInForce := .immediateOrCancel
  selfTradePrevention := .takerAtCross
  clientOrderId := clientOrderId
  postOnly := false

end KalshiClient.Trading
