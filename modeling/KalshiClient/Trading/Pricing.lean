import KalshiClient.Trading.FixedPointExact
import KalshiClient.Trading.Strategy

/-!
# Orders at the touch

A signal is priced at the other side's best price, and `make_ioc_order` writes that price and the size of the order in
decimal.  Both texts denote what they were written for: the price because it lies strictly between `$0` and `$1`, the
range in which `price_to_dollars` is right, and the size because it is positive.
-/

namespace KalshiClient.Trading

open Bytes Protocol

/-! ## Numbers as orders write them -/

/-- Leading zeros do not count. -/
theorem ofDigits_zeros_append (base : Nat) {zs : Bytes} (hzs : ∀ c ∈ zs, c = '0'.toUInt8) (ds : Bytes) :
    ofDigits base (zs ++ ds) = ofDigits base ds := by
  have hzero : ofDigits base zs = 0 := by
    have h := digitsFrom_zeros base 0 hzs
    rwa [Nat.zero_mul] at h
  rw [ofDigits_append, hzero]
  rfl

/-- The size of an order, as it is written. -/
def countDecimal (n : Nat) : Decimal where
  negative := false
  whole := ofNat n
  point := some (ascii "00")
  whole_digits := fun _ ↦ isDigit_of_mem_ofNat
  point_digits := forall_mem_of_all (by decide)
  ne := List.append_ne_nil_of_left_ne_nil (ofNat_ne_nil n) _

theorem parseFixed_count {n : Nat} (h : n ≤ I64.max) : parseFixed 0 (ofNat n ++ ascii ".00") = some (n : Int) := by
  have htext : (countDecimal n).text = ofNat n ++ ascii ".00" := rfl
  have hexact : (countDecimal n).Exact 0 := by
    have hzeros : ∀ c ∈ ascii "00", c = '0'.toUInt8 := forall_mem_of_all (by decide)
    exact hzeros
  have hscaled : (countDecimal n).scaled 0 = n := by
    have hwhole : (countDecimal n).scaled 0 = ofDigits 10 (ofNat n ++ []) * 1 := rfl
    rw [hwhole, List.append_nil, Nat.mul_one, ofDigits_ofNat]
  rw [← htext, parseFixed_text, hscaled, if_pos ⟨hexact, h⟩]
  rfl

/-- Zeros up to the third digit, as the format `{:03}` puts them. -/
def padding (p : Nat) : Bytes := List.replicate (3 - (ofNat p).length) '0'.toUInt8

theorem eq_zero_of_mem_padding {p : Nat} {c : UInt8} (h : c ∈ padding p) : c = '0'.toUInt8 := List.eq_of_mem_replicate h

/-- A price below `$1`, as it is written. -/
def priceDecimal (p : Nat) : Decimal where
  negative := false
  whole := ascii "0"
  point := some (padding p ++ ofNat p ++ ascii "0")
  whole_digits := forall_mem_of_all (by decide)
  point_digits := by
    rw [Option.getD_some, List.forall_mem_append, List.forall_mem_append]
    refine ⟨⟨fun c hc ↦ ?_, fun c ↦ isDigit_of_mem_ofNat⟩, forall_mem_of_all (by decide)⟩
    rw [eq_zero_of_mem_padding hc]
    rfl
  ne := List.cons_ne_nil _ _

/-- The format is right below `$1` only: there the dollars are zero and the rest has at most three digits. -/
theorem text_priceDecimal {p : Nat} (h : p < kMaxPrice) : (priceDecimal p).text = priceToDollars p := by
  have hdollars : (p : Int).tdiv kMaxPrice = 0 := by
    rw [Int.tdiv_eq_zero_of_lt (Int.natCast_nonneg p)]
    exact Int.ofNat_lt.mpr h
  have hrest : (p : Int).tmod kMaxPrice = p := Int.tmod_eq_of_lt (Int.natCast_nonneg p) (Int.ofNat_lt.mpr h)
  rw [priceToDollars, hdollars, hrest]
  simp only [Decimal.text, Decimal.unsigned, priceDecimal, padding, Option.elim_some, if_neg Bool.false_ne_true,
    List.append_assoc]
  rfl

/-- A price below `$1`. -/
theorem parseFixed_priceToDollars {p : Nat} (h : p < kMaxPrice) :
    parseFixed kPriceDecimals (priceToDollars p) = some (p : Int) := by
  have hlength : (padding p ++ ofNat p).length = kPriceDecimals := by
    have hle : (Nat.toDigits 10 p).length ≤ 3 := Nat.toDigits_length 10 p 3 (by decide) h
    rw [List.length_append, padding, List.length_replicate, ofNat, List.length_map]
    exact Nat.sub_add_cancel hle
  have hfrac : (priceDecimal p).frac = (padding p ++ ofNat p) ++ ascii "0" := rfl
  have hexact : (priceDecimal p).Exact kPriceDecimals := by
    rw [Decimal.Exact, hfrac, List.drop_left' hlength]
    exact forall_mem_of_all (by decide)
  have hscaled : (priceDecimal p).scaled kPriceDecimals = p := by
    have hzero : ∀ c ∈ ascii "0" ++ padding p, c = '0'.toUInt8 := by
      rw [List.forall_mem_append]
      exact ⟨forall_mem_of_all (by decide), fun _ ↦ eq_zero_of_mem_padding⟩
    have hwhole : (priceDecimal p).whole = ascii "0" := rfl
    have hpow : kPriceDecimals - (kPriceDecimals + (ascii "0").length) = 0 := by decide
    rw [Decimal.scaled, hfrac, hwhole, List.take_left' hlength, List.length_append, hlength, hpow, Nat.pow_zero,
      Nat.mul_one, ← List.append_assoc, ofDigits_zeros_append 10 hzero, ofDigits_ofNat]
  have hle : p ≤ I64.max := Nat.le_trans (Nat.le_of_lt h) (by decide)
  rw [← text_priceDecimal h, parseFixed_text, hscaled, if_pos ⟨hexact, hle⟩]
  rfl

/-- What is written in an order for a signal is the price and the size of the signal, in the range of both. -/
theorem parseFixed_makeIocOrder {signal : Signal} (hprice : 1 ≤ signal.price ∧ signal.price ≤ 999)
    (hcount : 0 < signal.count ∧ signal.count ≤ I64.max) (ticker clientOrderId : Bytes) :
    parseFixed 3 (makeIocOrder ticker signal clientOrderId).price = some signal.price ∧
      parseFixed 0 (makeIocOrder ticker signal clientOrderId).count = some signal.count := by
  obtain ⟨side, price, count⟩ := signal
  obtain ⟨p, rfl⟩ := Int.eq_ofNat_of_zero_le (Int.le_trans (Int.zero_le_ofNat 1) hprice.1)
  obtain ⟨n, rfl⟩ := Int.eq_ofNat_of_zero_le (Int.le_of_lt hcount.1)
  exact ⟨parseFixed_priceToDollars (Nat.lt_succ_of_le (Int.ofNat_le.mp hprice.2)),
    parseFixed_count (Int.ofNat_le.mp hcount.2)⟩

/-! ## Signals -/

namespace MarketState

variable {m : MarketState} (h : m.Wf)
include h

/-- The best YES bid is a price between `$0` and `$1`. -/
theorem Wf.bestYesBid_range {bid : Price} (hbid : m.bestYesBid = some bid) : 1 ≤ bid ∧ bid ≤ 999 := by
  obtain ⟨p, rfl, hp⟩ := (h.bestYesBid_eq_some_iff bid).mp hbid
  obtain ⟨hpos, hlt⟩ := h.yes.range_of_mem_bids hp.1
  exact ⟨Int.ofNat_le.mpr hpos, Int.ofNat_le.mpr (Nat.le_of_lt_succ hlt)⟩

/-- So is the best YES ask. -/
theorem Wf.bestYesAsk_range {ask : Price} (hask : m.bestYesAsk = some ask) : 1 ≤ ask ∧ ask ≤ 999 := by
  obtain ⟨p, rfl, hp⟩ := (h.bestYesAsk_eq_some_iff ask).mp hask
  obtain ⟨hpos, hlt⟩ := h.no.range_of_mem_bids hp.1
  have hlo : 1 ≤ kMaxPrice - p := Nat.le_sub_of_add_le' hlt
  have hhi : kMaxPrice - p ≤ 999 := Nat.sub_le_sub_left hpos kMaxPrice
  rw [← Int.ofNat_sub (Nat.le_of_lt hlt)]
  exact ⟨Int.ofNat_le.mpr hlo, Int.ofNat_le.mpr hhi⟩

end MarketState

section

variable {E : EmaOps} (s : MeanReversionStrategy E)

/-- **Orders are priced at the touch**: whatever book has been reached, a signal buys at `$1` minus the greatest NO price
with a bid, or sells at the greatest YES price with a bid; the price is strictly between `$0` and `$1` and on the other
side of the spread, by at most `max_spread`; and the order made for it has this price and `order_size` as its size.
(`order_size` is an `int64_t`.) -/
theorem signal_at_touch (calls : List BookCall) (exposure : Quantity) (now : Int) (hsize : 0 < s.config.orderSize)
    (hmax : s.config.orderSize ≤ I64.max) {signal : Signal}
    (h : (s.onBookUpdate (.run calls) exposure now).2 = some signal) (ticker clientOrderId : Bytes) :
    let m := MarketState.run calls
    let order := makeIocOrder ticker signal clientOrderId
    (1 ≤ signal.price ∧ signal.price ≤ 999) ∧
    (signal.side = .bid →
      (∃ p : Nat, IsGreatest m.no.levels.bids p ∧ signal.price = 1000 - p) ∧
      ∃ bid, m.bestYesBid = some bid ∧ bid < signal.price ∧ signal.price - bid ≤ s.config.maxSpread) ∧
    (signal.side = .ask →
      (∃ p : Nat, IsGreatest m.yes.levels.bids p ∧ signal.price = p) ∧
      ∃ ask, m.bestYesAsk = some ask ∧ signal.price < ask ∧ ask - signal.price ≤ s.config.maxSpread) ∧
    parseFixed 3 order.price = some signal.price ∧ parseFixed 0 order.count = some s.config.orderSize := by
  intro m order
  have hwf : m.Wf := MarketState.wf_run calls
  obtain ⟨bid, ask, hbid, hask, hlt, hheld, ⟨ema, hdecide⟩, -⟩ := s.onBookUpdate_signal h
  obtain ⟨hcount, htrade⟩ := MeanReversionStrategy.decide_eq_some _ hdecide
  obtain ⟨-, hspread, -⟩ := (MeanReversionStrategy.heldBack_eq_false_iff _).mp hheld
  rw [MeanReversionStrategy.updateEma_config] at hcount hspread
  have hrange : 1 ≤ signal.price ∧ signal.price ≤ 999 := by
    obtain ⟨-, hprice, -⟩ | ⟨-, hprice, -⟩ := htrade
    · rw [hprice]
      exact hwf.bestYesAsk_range hask
    · rw [hprice]
      exact hwf.bestYesBid_range hbid
  obtain ⟨hprice, hsize'⟩ := parseFixed_makeIocOrder hrange (hcount.symm ▸ ⟨hsize, hmax⟩) ticker clientOrderId
  rw [hcount] at hsize'
  refine ⟨hrange, fun hside ↦ ?_, fun hside ↦ ?_, hprice, hsize'⟩
  · obtain ⟨-, hprice, -⟩ | ⟨hother, -, -⟩ := htrade
    · obtain ⟨p, hp, hbest⟩ := (hwf.bestYesAsk_eq_some_iff ask).mp hask
      rw [hprice]
      exact ⟨⟨p, hbest, hp⟩, bid, hbid, hlt, hspread⟩
    · cases hside.symm.trans hother
  · obtain ⟨hother, -, -⟩ | ⟨-, hprice, -⟩ := htrade
    · cases hside.symm.trans hother
    · obtain ⟨p, hp, hbest⟩ := (hwf.bestYesBid_eq_some_iff bid).mp hbid
      rw [hprice]
      exact ⟨⟨p, hbest, hp⟩, ask, hask, hlt, hspread⟩

end

/-- A YES bid at $0.40 and a NO bid at $0.59. -/
def quotedCalls : List BookCall :=
  [.delta ⟨[], [], ascii "0.4", ascii "1", ascii "yes", [], 0⟩,
    .delta ⟨[], [], ascii "0.59", ascii "1", ascii "no", [], 0⟩]

/-- A strategy that has been warming up for a minute, with a fair value of $0.50. -/
def warmStrategy : MeanReversionStrategy exactOps where
  config := {}
  ema := some (1000 : Int)
  lastUpdate := 60 * ticksPerSecond

theorem signal_at_touch_buy :
    (warmStrategy.onBookUpdate (.run quotedCalls) 0 (60 * ticksPerSecond)).2 = some ⟨.bid, 410, 1⟩ ∧
      (∃ p : Nat, IsGreatest (MarketState.run quotedCalls).no.levels.bids p ∧ (410 : Price) = 1000 - p) ∧
      parseFixed 3 (makeIocOrder [] ⟨.bid, 410, 1⟩ []).price = some 410 := by
  have h : (warmStrategy.onBookUpdate (.run quotedCalls) 0 (60 * ticksPerSecond)).2 = some ⟨.bid, 410, 1⟩ := by
    decide +kernel
  obtain ⟨-, hbuy, -, hprice, -⟩ := signal_at_touch warmStrategy quotedCalls 0 (60 * ticksPerSecond) (by decide)
    (by decide) h [] []
  exact ⟨h, (hbuy rfl).1, hprice⟩

end KalshiClient.Trading
