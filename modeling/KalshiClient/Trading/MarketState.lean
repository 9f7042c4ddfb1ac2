import KalshiClient.Base.Top
import KalshiClient.Protocol.Messages
import KalshiClient.Trading.FixedPoint

/-!
# The order book

`MarketState` of `include/market_state.hpp` and `src/trading/market_state.cpp`: for each side an array of
quantities indexed by price, and the best price, which is brought up to date by every operation instead
of being searched for.  The main result is that it is always the best price (`BookSide.Wf`), after any
sequence of snapshots and deltas, those that return an error included.

An array is a function on prices; the addition of a delta to a level is `int64_t` arithmetic.
-/

namespace KalshiClient.Trading

open Bytes Protocol

/-- `Price`, in tenths of a cent. -/
abbrev Price := Int

/-- `Quantity`: hundredths of a contract in the book, whole contracts in the position. -/
abbrev Quantity := Int

/-- `kPriceDecimals`. -/
def kPriceDecimals : Nat := 3

/-- `kTicksPerCent`. -/
def kTicksPerCent : Nat := 10

/-- `kMaxPrice`. -/
def kMaxPrice : Nat := 1000

/-- `format_price`, of a price in the book. -/
def formatPrice (p : Nat) : Bytes :=
  if p % kTicksPerCent = 0 then ofNat (p / kTicksPerCent) ++ ascii "c"
  else ofNat (p / kTicksPerCent) ++ ascii "." ++ ofNat (p % kTicksPerCent) ++ ascii "c"

/-- `BookError::Kind`. -/
inductive BookErrorKind where
  /-- Data the book cannot represent. -/
  | malformed
  /-- A level went negative. -/
  | outOfSync
deriving DecidableEq

/-- `struct BookError`. -/
structure BookError where
  /-- `kind`. -/
  kind : BookErrorKind
  /-- `message`. -/
  message : Bytes
deriving DecidableEq

/-- `malformed`. -/
def malformed {α : Type} (message : Bytes) : Except BookError α := .error ⟨.malformed, message⟩

/-- A price a level can have: strictly between $0 and $1. -/
abbrev BookPrice := {p : Nat // 1 ≤ p ∧ p < kMaxPrice}

/-- `parse_price`. -/
def parsePrice (s : Bytes) : Except BookError BookPrice :=
  match parseFixed kPriceDecimals s with
  | some price =>
    if h : 1 ≤ price ∧ price < kMaxPrice then .ok ⟨price.toNat, by omega⟩
    else malformed (ascii "unsupported price '" ++ s ++ ascii "' (book resolution is $0.001)")
  | none => malformed (ascii "unsupported price '" ++ s ++ ascii "' (book resolution is $0.001)")

/-- `parse_quantity`. -/
def parseQuantity (s : Bytes) : Except BookError Quantity :=
  match parseFixed 2 s with
  | some qty => .ok qty
  | none => malformed (ascii "invalid quantity '" ++ s ++ ascii "'")

/-- `MarketState::Levels`. -/
abbrev Levels := Nat → Quantity

/-- Whether there is a bid at a price. -/
def Levels.bid (levels : Levels) (p : Nat) : Bool := 0 < levels p

/-- `scan_best`. -/
def scanBest (levels : Levels) (start : Nat) : Nat := Top.scan levels.bid start

/-- One side of the book: `_yes` and `_best_yes`, or `_no` and `_best_no`. -/
structure BookSide where
  /-- The quantities. -/
  levels : Levels := fun _ ↦ 0
  /-- The best price, `0` if the side is empty. -/
  best : Nat := 0

/-- `class MarketState`. -/
structure MarketState where
  /-- `_market_ticker`. -/
  marketTicker : Bytes := []
  /-- The YES bids. -/
  yes : BookSide := {}
  /-- The NO bids. -/
  no : BookSide := {}

/-- The inner loop of `apply_snapshot`, over the listed levels of one side. -/
def parseLevels : List PriceLevel → Levels → Except BookError Levels
  | [], levels => .ok levels
  | (priceStr, qtyStr) :: rest, levels => do
    let price ← parsePrice priceStr
    let qty ← parseQuantity qtyStr
    parseLevels rest (Function.update levels price.val qty)

/-- A side holding the given levels. -/
def BookSide.ofLevels (levels : Levels) : BookSide := ⟨levels, scanBest levels (kMaxPrice - 1)⟩

/-- The part of `apply_delta` on the addressed side: the side afterwards, and whether the level went
negative. -/
def BookSide.add (side : BookSide) (price : Nat) (qty : Quantity) : BookSide × Bool :=
  let sum := I64.wrap (side.levels price + qty)
  let level := if sum < 0 then 0 else sum
  let levels := Function.update side.levels price level
  let best :=
    if 0 < level ∧ side.best < price then price
    else if level = 0 ∧ price = side.best then scanBest levels (price - 1)
    else side.best
  (⟨levels, best⟩, sum < 0)

namespace MarketState

/-- `MarketState::apply_snapshot`: the book afterwards and the result. -/
def applySnapshot (m : MarketState) (snapshot : OrderBookSnapshot) :
    MarketState × Except BookError Unit :=
  let parsed := do
    let yes ← parseLevels snapshot.yesDollarsFp fun _ ↦ 0
    let no ← parseLevels snapshot.noDollarsFp fun _ ↦ 0
    .ok (yes, no)
  match parsed with
  | .error e => (m, .error e)
  | .ok (yes, no) => (⟨snapshot.marketTicker, .ofLevels yes, .ofLevels no⟩, .ok ())

/-- The arguments of `apply_delta`, checked in the order of the source: whether the side is YES, the
price and the quantity. -/
def parseDeltaArgs (delta : OrderBookDelta) : Except BookError (Bool × BookPrice × Quantity) :=
  let isYes := decide (delta.side = ascii "yes")
  if !isYes && delta.side ≠ ascii "no" then
    malformed (ascii "invalid side '" ++ delta.side ++ ascii "'")
  else do
    let price ← parsePrice delta.priceDollars
    let qty ← parseQuantity delta.deltaFp
    .ok (isYes, price, qty)

/-- The result of `apply_delta` once the level has been written. -/
def deltaResult (delta : OrderBookDelta) (price : Nat) (negative : Bool) : Except BookError Unit :=
  if negative then
    .error ⟨.outOfSync, ascii "book out of sync: " ++ delta.side ++ ascii " level " ++
      formatPrice price ++ ascii " went negative"⟩
  else .ok ()

/-- `MarketState::apply_delta`: the book afterwards and the result. -/
def applyDelta (m : MarketState) (delta : OrderBookDelta) : MarketState × Except BookError Unit :=
  match parseDeltaArgs delta with
  | .error e => (m, .error e)
  | .ok (isYes, price, qty) =>
    if isYes then
      let (side, negative) := m.yes.add price.val qty
      ({ m with yes := side }, deltaResult delta price.val negative)
    else
      let (side, negative) := m.no.add price.val qty
      ({ m with no := side }, deltaResult delta price.val negative)

/-- `best_yes_bid`. -/
def bestYesBid (m : MarketState) : Option Price :=
  if m.yes.best ≠ 0 then some m.yes.best else none

/-- `best_yes_ask`: a NO bid at `p` is a YES ask at `$1 - p`. -/
def bestYesAsk (m : MarketState) : Option Price :=
  if m.no.best ≠ 0 then some (kMaxPrice - m.no.best) else none

end MarketState

/-! ## The invariant of a side -/

/-- The best price is the greatest with a bid, and nothing is stored outside `1 .. kMaxPrice - 1`. -/
structure BookSide.Wf (side : BookSide) : Prop where
  top : Top.IsTop side.levels.bid side.best
  support : ∀ p, ¬ (1 ≤ p ∧ p < kMaxPrice) → side.levels p = 0

namespace BookSide

theorem bid_eq_false {levels : Levels} {p : Nat} (h : levels p ≤ 0) : levels.bid p = false :=
  decide_eq_false (not_lt.mpr h)

theorem wf_empty : (({} : BookSide)).Wf :=
  ⟨⟨nofun, nofun⟩, fun _ _ ↦ rfl⟩

/-- Writing a level at a price of the book keeps everything else empty. -/
theorem support_update {levels : Levels} (price : BookPrice) (qty : Quantity)
    (h : ∀ p, ¬ (1 ≤ p ∧ p < kMaxPrice) → levels p = 0) :
    ∀ p, ¬ (1 ≤ p ∧ p < kMaxPrice) → Function.update levels price.val qty p = 0 := by
  intro p hp
  have hne : p ≠ price.val := fun e ↦ hp (e ▸ price.property)
  rw [Function.update_of_ne hne]
  exact h p hp

theorem parseLevels_support {listed : List PriceLevel} {levels levels' : Levels}
    (h : parseLevels listed levels = .ok levels')
    (hs : ∀ p, ¬ (1 ≤ p ∧ p < kMaxPrice) → levels p = 0) :
    ∀ p, ¬ (1 ≤ p ∧ p < kMaxPrice) → levels' p = 0 := by
  induction listed generalizing levels with
  | nil =>
      cases h
      exact hs
  | cons entry listed ih =>
      obtain ⟨price, -, h⟩ := Except.bind_eq_ok_iff.mp h
      obtain ⟨qty, -, h⟩ := Except.bind_eq_ok_iff.mp h
      exact ih h (support_update price qty hs)

/-- A snapshot scans for the best price. -/
theorem wf_ofLevels {levels : Levels} (h : ∀ p, ¬ (1 ≤ p ∧ p < kMaxPrice) → levels p = 0) :
    (ofLevels levels).Wf := by
  refine ⟨Top.isTop_scan fun p hp ↦ bid_eq_false ?_, h⟩
  exact (h p (by omega)).le

/-- A delta adjusts the best price, by one of three cases. -/
theorem Wf.add {side : BookSide} (h : side.Wf) (price : BookPrice) (qty : Quantity) :
    (side.add price.val qty).1.Wf := by
  obtain ⟨price, hprice⟩ := price
  refine ⟨?_, support_update ⟨price, hprice⟩ _ h.support⟩
  have hothers : ∀ (level : Quantity) (p : Nat), p ≠ price →
      Levels.bid (Function.update side.levels price level) p = side.levels.bid p := by
    intro level p hp
    rw [Levels.bid, Function.update_of_ne hp, Levels.bid]
  have hself : ∀ level : Quantity,
      Levels.bid (Function.update side.levels price level) price = decide (0 < level) := by
    intro level
    rw [Levels.bid, Function.update_self]
  simp only [BookSide.add]
  generalize hlevel : (if I64.wrap (side.levels price + qty) < 0 then (0 : Int)
    else I64.wrap (side.levels price + qty)) = level
  have hnonneg : 0 ≤ level := by
    rw [← hlevel]
    split
    · exact le_rfl
    · next h => exact not_lt.mp h
  split
  · next hraise => exact h.top.raise (hothers level) hraise.2 (by rw [hself, decide_eq_true hraise.1])
  · next hraise =>
      split
      · next hempty =>
          exact h.top.rescan (hothers level) hempty.2 (by rw [hself, hempty.1]; rfl)
      · next hempty =>
          rcases hnonneg.eq_or_lt with hzero | hpos
          · have hne : price ≠ side.best := fun e ↦ hempty ⟨hzero.symm, e⟩
            exact h.top.keep_of_false (hothers level) hne (by rw [hself, ← hzero]; rfl)
          · have hle : price ≤ side.best := not_lt.mp fun hlt ↦ hraise ⟨hpos, hlt⟩
            refine h.top.keep (hothers level) hle fun hb _ ↦ ?_
            rw [← hb, hself, decide_eq_true hpos]

theorem Wf.best_lt {side : BookSide} (h : side.Wf) : side.best < kMaxPrice := by
  by_contra hle
  have hbest : side.levels.bid side.best = true := h.top.mem (by
    have : 0 < kMaxPrice := by decide
    omega)
  have hzero := h.support side.best fun hrange ↦ hle hrange.2
  rw [bid_eq_false hzero.le] at hbest
  cases hbest

/-- The best price agrees with a scan of the whole side. -/
theorem Wf.best_eq_scan {side : BookSide} (h : side.Wf) :
    side.best = scanBest side.levels (kMaxPrice - 1) :=
  h.top.unique (wf_ofLevels h.support).top

end BookSide

/-! ## Runs -/

/-- A call of one of the two operations. -/
inductive BookCall where
  | snapshot (s : OrderBookSnapshot)
  | delta (d : OrderBookDelta)

namespace MarketState

/-- The book after a call, whatever it returns. -/
def call (m : MarketState) : BookCall → MarketState
  | .snapshot s => (m.applySnapshot s).1
  | .delta d => (m.applyDelta d).1

/-- The book after a sequence of calls on the empty book. -/
def run (calls : List BookCall) : MarketState := calls.foldl call {}

/-- Both sides satisfy the invariant. -/
structure Wf (m : MarketState) : Prop where
  yes : m.yes.Wf
  no : m.no.Wf

/-- What `apply_snapshot` can do: leave the book as it was with an error, or replace it. -/
theorem applySnapshot_cases (m : MarketState) (snapshot : OrderBookSnapshot) :
    (∃ e, m.applySnapshot snapshot = (m, .error e)) ∨
    ∃ yes no, parseLevels snapshot.yesDollarsFp (fun _ ↦ 0) = .ok yes ∧
      parseLevels snapshot.noDollarsFp (fun _ ↦ 0) = .ok no ∧
      m.applySnapshot snapshot =
        (⟨snapshot.marketTicker, .ofLevels yes, .ofLevels no⟩, .ok ()) := by
  rw [applySnapshot]
  cases hyes : parseLevels snapshot.yesDollarsFp fun _ ↦ 0 with
  | error e => exact .inl ⟨e, rfl⟩
  | ok yes =>
      cases hno : parseLevels snapshot.noDollarsFp fun _ ↦ 0 with
      | error e => exact .inl ⟨e, rfl⟩
      | ok no => exact .inr ⟨yes, no, rfl, rfl, rfl⟩

/-- A snapshot replaces the book, whatever it was. -/
theorem applySnapshot_eq {m : MarketState} {snapshot : OrderBookSnapshot}
    (h : (m.applySnapshot snapshot).2 = .ok ()) (m' : MarketState) :
    (m.applySnapshot snapshot).1 = (m'.applySnapshot snapshot).1 := by
  rcases m.applySnapshot_cases snapshot with ⟨e, hcall⟩ | ⟨yes, no, hyes, hno, hcall⟩
  · rw [hcall] at h
    cases h
  · rw [hcall, applySnapshot, hyes, hno]
    rfl

/-- What `apply_delta` can do: leave the book as it was with an error, or add to one level of a side. -/
theorem applyDelta_cases (m : MarketState) (delta : OrderBookDelta) :
    (∃ e, parseDeltaArgs delta = .error e ∧ m.applyDelta delta = (m, .error e)) ∨
    (∃ price qty, parseDeltaArgs delta = .ok (true, price, qty) ∧
      m.applyDelta delta = ({ m with yes := (m.yes.add price.val qty).1 },
        deltaResult delta price.val (m.yes.add price.val qty).2)) ∨
    ∃ price qty, parseDeltaArgs delta = .ok (false, price, qty) ∧
      m.applyDelta delta = ({ m with no := (m.no.add price.val qty).1 },
        deltaResult delta price.val (m.no.add price.val qty).2) := by
  rw [applyDelta]
  cases parseDeltaArgs delta with
  | error e => exact .inl ⟨e, rfl, rfl⟩
  | ok args =>
      obtain ⟨isYes, price, qty⟩ := args
      cases isYes with
      | true => exact .inr (.inl ⟨price, qty, rfl, rfl⟩)
      | false => exact .inr (.inr ⟨price, qty, rfl, rfl⟩)

theorem Wf.call {m : MarketState} (h : m.Wf) (c : BookCall) : (m.call c).Wf := by
  cases c with
  | snapshot s =>
      rw [MarketState.call]
      rcases m.applySnapshot_cases s with ⟨e, hcall⟩ | ⟨yes, no, hyes, hno, hcall⟩
      · rw [hcall]
        exact h
      · rw [hcall]
        exact ⟨BookSide.wf_ofLevels (BookSide.parseLevels_support hyes fun _ _ ↦ rfl),
          BookSide.wf_ofLevels (BookSide.parseLevels_support hno fun _ _ ↦ rfl)⟩
  | delta d =>
      rw [MarketState.call]
      rcases m.applyDelta_cases d with
        ⟨e, -, hcall⟩ | ⟨price, qty, -, hcall⟩ | ⟨price, qty, -, hcall⟩
      · rw [hcall]
        exact h
      · rw [hcall]
        exact ⟨h.yes.add price qty, h.no⟩
      · rw [hcall]
        exact ⟨h.yes, h.no.add price qty⟩

theorem Wf.foldl_call {m : MarketState} (h : m.Wf) (calls : List BookCall) :
    (calls.foldl MarketState.call m).Wf := by
  induction calls generalizing m with
  | nil => exact h
  | cons c calls ih => exact ih (h.call c)

/-- Every reachable book satisfies the invariant. -/
theorem wf_run (calls : List BookCall) : (run calls).Wf :=
  Wf.foldl_call ⟨BookSide.wf_empty, BookSide.wf_empty⟩ calls

end MarketState

/-! ## Top of book -/

/-- The prices with a bid. -/
def Levels.bids (levels : Levels) : Set Nat := {p | p ≤ kMaxPrice ∧ 0 < levels p}

namespace BookSide

variable {side : BookSide} (h : side.Wf)
include h

theorem Wf.isGreatest_best (hbest : side.best ≠ 0) : IsGreatest side.levels.bids side.best := by
  refine ⟨⟨h.best_lt.le, of_decide_eq_true (h.top.mem (Nat.pos_of_ne_zero hbest))⟩, ?_⟩
  rintro p ⟨-, hp⟩
  rcases Nat.eq_zero_or_pos p with rfl | hpos
  · exact Nat.zero_le _
  · exact h.top.le p hpos (decide_eq_true hp)

/-- There are bids strictly between `$0` and `$1` only. -/
theorem Wf.range_of_mem_bids {p : Nat} (hp : p ∈ side.levels.bids) : 1 ≤ p ∧ p < kMaxPrice := by
  by_contra hout
  have hpos := hp.2
  rw [h.support p hout] at hpos
  exact lt_irrefl 0 hpos

theorem Wf.bids_eq_empty (hbest : side.best = 0) : side.levels.bids = ∅ := by
  ext p
  refine ⟨fun hp ↦ ?_, False.elim⟩
  have hrange := h.range_of_mem_bids hp
  have hle := h.top.le p hrange.1 (decide_eq_true hp.2)
  rw [hbest] at hle
  exact absurd hrange.1 (not_le.mpr (Nat.lt_succ_of_le hle))

/-- The best price is there, and is the greatest, exactly when there is a bid. -/
theorem Wf.isGreatest_iff {p : Nat} :
    IsGreatest side.levels.bids p ↔ side.best ≠ 0 ∧ p = side.best := by
  constructor
  · intro hp
    have hbest : side.best ≠ 0 := by
      intro hzero
      have hmem := hp.1
      rw [h.bids_eq_empty hzero] at hmem
      exact hmem
    exact ⟨hbest, hp.unique (h.isGreatest_best hbest)⟩
  · rintro ⟨hbest, rfl⟩
    exact h.isGreatest_best hbest

theorem Wf.bids_eq_empty_iff : side.levels.bids = ∅ ↔ side.best = 0 := by
  refine ⟨fun hempty ↦ ?_, h.bids_eq_empty⟩
  by_contra hbest
  have hmem := (h.isGreatest_best hbest).1
  rw [hempty] at hmem
  exact hmem

/-- What is read off the best price, as `price` of it, is read off the greatest price with a bid. -/
theorem Wf.ite_best_eq_some_iff (price : Nat → Price) (x : Price) :
    (if side.best ≠ 0 then some (price side.best) else none) = some x ↔
      ∃ p : Nat, x = price p ∧ IsGreatest side.levels.bids p := by
  simp only [h.isGreatest_iff]
  constructor
  · intro hx
    split_ifs at hx with hbest
    cases hx
    exact ⟨_, rfl, hbest, rfl⟩
  · rintro ⟨p, rfl, hbest, rfl⟩
    exact if_pos hbest

theorem Wf.ite_best_eq_none_iff (price : Nat → Price) :
    (if side.best ≠ 0 then some (price side.best) else none) = none ↔ side.levels.bids = ∅ := by
  rw [h.bids_eq_empty_iff]
  split_ifs with hbest
  · exact iff_of_false id hbest
  · exact iff_of_true rfl (not_not.mp hbest)

end BookSide

namespace MarketState

variable {m : MarketState} (h : m.Wf)
include h

theorem Wf.bestYesBid_eq_some_iff (b : Price) :
    m.bestYesBid = some b ↔ ∃ p : Nat, b = p ∧ IsGreatest m.yes.levels.bids p :=
  h.yes.ite_best_eq_some_iff (fun p ↦ p) b

theorem Wf.bestYesAsk_eq_some_iff (a : Price) :
    m.bestYesAsk = some a ↔ ∃ p : Nat, a = kMaxPrice - p ∧ IsGreatest m.no.levels.bids p :=
  h.no.ite_best_eq_some_iff (fun p ↦ kMaxPrice - p) a

end MarketState

/-- **Top of book is always right**: after any sequence of snapshots and deltas on the empty book,
whatever they return, the best YES bid is the greatest price with a YES bid and there is none exactly
when there is no YES bid; the best YES ask is `$1` minus the greatest price with a NO bid, likewise; the
best prices agree with a full rescan; and nothing is stored at the indices `0` and `kMaxPrice`. -/
theorem topOfBook_run (calls : List BookCall) :
    let m := MarketState.run calls
    (∀ b : Price, m.bestYesBid = some b ↔ ∃ p : Nat, b = p ∧ IsGreatest m.yes.levels.bids p) ∧
    (m.bestYesBid = none ↔ m.yes.levels.bids = ∅) ∧
    (∀ a : Price, m.bestYesAsk = some a ↔
      ∃ p : Nat, a = kMaxPrice - p ∧ IsGreatest m.no.levels.bids p) ∧
    (m.bestYesAsk = none ↔ m.no.levels.bids = ∅) ∧
    (m.yes.best = scanBest m.yes.levels (kMaxPrice - 1) ∧
      m.no.best = scanBest m.no.levels (kMaxPrice - 1)) ∧
    (m.yes.levels 0 = 0 ∧ m.yes.levels kMaxPrice = 0 ∧ m.no.levels 0 = 0 ∧
      m.no.levels kMaxPrice = 0) := by
  intro m
  have hwf : m.Wf := MarketState.wf_run calls
  refine ⟨hwf.bestYesBid_eq_some_iff, hwf.yes.ite_best_eq_none_iff fun p ↦ p, hwf.bestYesAsk_eq_some_iff,
    hwf.no.ite_best_eq_none_iff fun p ↦ kMaxPrice - p, ⟨hwf.yes.best_eq_scan, hwf.no.best_eq_scan⟩, ?_⟩
  exact ⟨hwf.yes.support 0 (by decide), hwf.yes.support kMaxPrice (by decide),
    hwf.no.support 0 (by decide), hwf.no.support kMaxPrice (by decide)⟩

end KalshiClient.Trading
