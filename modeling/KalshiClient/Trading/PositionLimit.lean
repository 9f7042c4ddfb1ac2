import KalshiClient.Trading.Exposure

/-!
# The position limit

The bot and the exchange together.  The exchange executes any part of an order, in hundredths of a contract; the
answer to the order may get lost or be unreadable, and the fill messages arrive at any later time.  The strategy
compares the limit with what the bot knows, so the limit holds as long as the bot knows everything that has been
executed when it trades (`position_within_limit`).  It does not know about an order whose answer got lost until the
fill message arrives, and may exceed the limit meanwhile (`position_exceeds_limit`).
-/

namespace KalshiClient.Trading

open Bytes Protocol WebSocket

/-- An order at the exchange, with what the bot has seen of it. -/
structure Execution extends Entry where
  /-- What was executed, in hundredths of a contract. -/
  amount : Nat
  /-- What the fill messages processed so far report of it, in hundredths of a contract. -/
  delivered : Nat := 0

/-- The execution after a fill message for `a` hundredths, which the bot reads as `q` contracts. -/
def Execution.fill (x : Execution) (a : Nat) (q : Int) : Execution :=
  { toEntry := x.toEntry.confirm q, amount := x.amount, delivered := x.delivered + a }

/-- The orders at the exchange. -/
abbrev Executions := List Execution

namespace Executions

/-- The position at the exchange, in hundredths of a contract. -/
def position (xs : Executions) : Int := (xs.map fun x ↦ signedOrder x.side x.amount).sum

/-- What the bot has seen. -/
def ledger (xs : Executions) : Ledger := xs.map Execution.toEntry

/-- The bot knows of everything that has been executed: it could read the answer to the order, or it has counted fill
messages for all of it. -/
def Accounted (xs : Executions) : Prop :=
  ∀ x ∈ xs, x.reported.isSome = true ∨ (x.amount : Int) = 100 * x.confirmed

end Executions

/-- A condition on a frame, in the state it arrives in. -/
abbrev FrameCondition (E : EmaOps) :=
  Running E → Executions → Except Bytes WebSocketFrame → Env → Prop

/-- The runs of a bot, with the executions at the exchange, in which all frames meet a condition.  The exchange is
honest: it executes no more than was ordered, an answer that arrives and a fill message report what was executed,
and no execution is reported twice by fill messages. -/
inductive Traded {E : EmaOps} (C : FrameCondition E) (start : TradingBot E) : Running E → Executions → Prop
  | start : Traded C start ⟨start, false⟩ []
  | session {r : Running E} {xs : Executions} (h : Traded C start r xs) :
      Traded C start (r.next .session) xs
  | quiet {r : Running E} {xs : Executions} (h : Traded C start r xs) (frame : Except Bytes WebSocketFrame)
      (env : Env) (hframe : C r xs frame env) (hfill : r.fillIn frame = none)
      (hsub : (r.handled frame env).submitted = none) : Traded C start (r.next (.frame frame env)) xs
  | order {r : Running E} {xs : Executions} (h : Traded C start r xs) (frame : Except Bytes WebSocketFrame)
      (env : Env) (hframe : C r xs frame env) {sub : Submission}
      (hsub : (r.handled frame env).submitted = some sub) {orderId : Bytes} {amount : Nat}
      (hfresh : orderId ∉ xs.ledger.map Entry.orderId) (hamount : (amount : Int) ≤ 100 * sub.signal.count)
      (hanswer : ∀ (parsed : OrderResponse) (filled : Int), readAnswer sub.answer = some (parsed, filled) →
        parsed.orderId = orderId ∧ (amount : Int) = 100 * filled) :
      Traded C start (r.next (.frame frame env))
        (xs ++ [⟨⟨orderId, sub.signal.side, (readAnswer sub.answer).map Prod.snd, 0⟩, amount, 0⟩])
  | fill {r : Running E} {pre post : Executions} {x : Execution} (h : Traded C start r (pre ++ x :: post))
      (frame : Except Bytes WebSocketFrame) (env : Env) (hframe : C r (pre ++ x :: post) frame env)
      {fill : Fill} (hfill : r.fillIn frame = some fill) (hid : fill.orderId = x.orderId)
      (hticker : fill.marketTicker = r.bot.ticker) (haction : fill.action = fillAction x.side) {a : Nat}
      (hle : x.delivered + a ≤ x.amount)
      (hcount : ∀ q : Int, parseContracts fill.countFp = some q → (a : Int) = 100 * q) :
      Traded C start (r.next (.frame frame env))
        (pre ++ x.fill a ((parseContracts fill.countFp).getD 0) :: post)

/-- The strategy still waits after its last order. -/
def CoolingDown {E : EmaOps} (s : MeanReversionStrategy E) (now : Int) : Prop :=
  ∃ last, s.lastOrder = some last ∧ elapsed now last < ticks s.config.cooldown

/-- When a book message arrives, the bot knows of everything that has been executed, or it still waits after its last
order. -/
def InformedFrame {E : EmaOps} : FrameCondition E := fun r xs frame env ↦
  ∀ m, received frame = some m → isBookMessage m = true →
    xs.Accounted ∨ CoolingDown r.bot.strategy env.now

/-- What the bot has seen of an order is true. -/
structure Execution.Wf (x : Execution) : Prop where
  confirmed_le : 100 * x.confirmed ≤ x.delivered
  delivered_le : x.delivered ≤ x.amount
  reported_eq : ∀ filled ∈ x.reported, (x.amount : Int) = 100 * filled

/-- The accounts of the bot and of the exchange, along a run. -/
structure Consistent {E : EmaOps} (start : TradingBot E) (r : Running E) (xs : Executions) : Prop where
  tracks : Tracks r.bot xs.ledger
  config : r.bot.strategy.config = start.strategy.config
  wf : ∀ x ∈ xs, x.Wf

/-! ## Consistency -/

namespace Execution.Wf

variable {x : Execution}

/-- A fill message reports no more than is left. -/
theorem confirmed_add_le (h : x.Wf) {a : Nat} {q : Int} (hle : x.delivered + a ≤ x.amount)
    (hq : (a : Int) = 100 * q) : ∀ filled ∈ x.reported, x.confirmed + q ≤ filled := by
  intro filled hfilled
  have h₁ := h.confirmed_le
  have h₂ := h.reported_eq filled hfilled
  omega

theorem fill (h : x.Wf) {a : Nat} {q : Int} (hle : x.delivered + a ≤ x.amount) (hq : 100 * q ≤ a) :
    (x.fill a q).Wf where
  confirmed_le := by
    have h₁ := h.confirmed_le
    change 100 * (x.confirmed + q) ≤ ((x.delivered + a : Nat) : Int)
    omega
  delivered_le := hle
  reported_eq := h.reported_eq

/-- If the bot knows of all of it, it knows how much it is. -/
theorem amount_eq (h : x.Wf) (haccounted : x.reported.isSome = true ∨ (x.amount : Int) = 100 * x.confirmed) :
    (x.amount : Int) = 100 * x.known := by
  rw [Entry.known]
  cases hr : x.reported with
  | some filled => exact h.reported_eq filled hr
  | none =>
      rw [hr] at haccounted
      exact haccounted.resolve_left Bool.false_ne_true

end Execution.Wf

namespace Consistent

variable {E : EmaOps} {start : TradingBot E} {r r' : Running E} {xs : Executions}

theorem congr (h : Consistent start r xs) (hsame : SameAccounts r.bot r'.bot) : Consistent start r' xs where
  tracks := h.tracks.congr hsame
  config := hsame.config.trans h.config
  wf := h.wf

/-- An order and its answer. -/
theorem order (h : Consistent start r xs) {sub : Submission} {orderId : Bytes} {amount : Nat}
    (hfresh : orderId ∉ xs.ledger.map Entry.orderId)
    (hanswer : ∀ (parsed : OrderResponse) (filled : Int), readAnswer sub.answer = some (parsed, filled) →
      parsed.orderId = orderId ∧ (amount : Int) = 100 * filled)
    (hsame : SameAccounts (r.bot.account sub.signal sub.request sub.answer) r'.bot) :
    Consistent start r'
      (xs ++ [⟨⟨orderId, sub.signal.side, (readAnswer sub.answer).map Prod.snd, 0⟩, amount, 0⟩]) where
  tracks := by
    have hledger := h.tracks.account hfresh sub.signal sub.request (fun parsed filled hread ↦ by
      obtain ⟨hid, hfilled⟩ := hanswer parsed filled hread
      exact ⟨hid, by omega⟩)
    rw [Executions.ledger, List.map_append]
    exact hledger.congr hsame
  config := by
    rw [hsame.config, TradingBot.account]
    cases readAnswer sub.answer <;> exact h.config
  wf x hx := by
    rcases List.mem_append.mp hx with hx | hx
    · exact h.wf x hx
    · rw [List.mem_singleton.mp hx]
      refine ⟨le_rfl, Nat.zero_le _, fun filled hfilled ↦ ?_⟩
      obtain ⟨⟨parsed, filled⟩, hread, rfl⟩ := Option.map_eq_some_iff.mp hfilled
      exact (hanswer parsed filled hread).2

/-- A fill message. -/
theorem fill {pre post : Executions} {x : Execution} (h : Consistent start r (pre ++ x :: post)) {fill : Fill}
    (hid : fill.orderId = x.orderId) (hticker : fill.marketTicker = r.bot.ticker)
    (haction : fill.action = fillAction x.side) {a : Nat} (hle : x.delivered + a ≤ x.amount)
    (hcount : ∀ q : Int, parseContracts fill.countFp = some q → (a : Int) = 100 * q)
    (hsame : SameAccounts (r.bot.onFill fill) r'.bot) :
    Consistent start r' (pre ++ x.fill a ((parseContracts fill.countFp).getD 0) :: post) := by
  have hx : x ∈ pre ++ x :: post := List.mem_append_cons_self
  have hledger (y : Execution) :
      Executions.ledger (pre ++ y :: post) = Executions.ledger pre ++ y.toEntry :: Executions.ledger post := by
    rw [Executions.ledger, List.map_append, List.map_cons]
    rfl
  have htracks := h.tracks
  rw [hledger] at htracks
  have hconfig : (r.bot.onFill fill).strategy.config = r.bot.strategy.config := by
    rw [TradingBot.onFill]
    cases parseContracts fill.countFp <;> rfl
  refine ⟨?_, hsame.config.trans (hconfig.trans h.config), ?_⟩
  · rw [hledger]
    refine Tracks.congr ?_ hsame
    cases hq : parseContracts fill.countFp with
    | none =>
        have hzero : x.toEntry.confirm 0 = x.toEntry := by rw [Entry.confirm, Int.add_zero]
        rw [TradingBot.onFill, hq]
        change Tracks r.bot (Executions.ledger pre ++ x.toEntry.confirm 0 :: Executions.ledger post)
        rw [hzero]
        exact htracks
    | some q =>
        have ha := hcount q hq
        change Tracks _ (Executions.ledger pre ++ x.toEntry.confirm q :: Executions.ledger post)
        exact htracks.onFill hid hticker haction hq (by omega) ((h.wf x hx).confirmed_add_le hle ha)
  · intro y hy
    rw [List.mem_append, List.mem_cons] at hy
    rcases hy with hy | rfl | hy
    · exact h.wf y (List.mem_append_left _ hy)
    · refine (h.wf x hx).fill hle ?_
      cases hq : parseContracts fill.countFp with
      | none => exact Int.natCast_nonneg a
      | some q => exact (hcount q hq).ge
    · exact h.wf y (List.mem_append_right _ (List.mem_cons_of_mem _ hy))

end Consistent

/-- Along every run, the accounts are consistent. -/
theorem Traded.consistent {E : EmaOps} {C : FrameCondition E} {start : TradingBot E} {r : Running E}
    {xs : Executions} (h : Traded C start r xs) (hpos : start.positions = ∅)
    (hfills : start.unconfirmedFills = ∅) : Consistent start r xs := by
  induction h with
  | start => exact ⟨.init start hpos hfills, rfl, nofun⟩
  | session h ih => exact ih.congr (Running.sameAccounts_session _)
  | quiet h frame env hframe hfill hsub ih => exact ih.congr (Running.handled_quiet hfill hsub)
  | @order r xs h frame env hframe sub hsub orderId amount hfresh hamount hanswer ih =>
      obtain ⟨hsame, -⟩ := Running.handled_submitted hsub
      exact ih.order hfresh hanswer hsame
  | @fill r pre post x h frame env hframe fill hfill hid hticker haction a hle hcount ih =>
      exact ih.fill hid hticker haction hle hcount (Running.handled_fill hfill)

/-! ## The limit -/

namespace MeanReversionStrategy

variable {E : EmaOps} {s : MeanReversionStrategy E}

/-- A strategy that still waits does not trade. -/
theorem onBookUpdate_of_coolingDown {now : Int} (h : CoolingDown s now) (book : MarketState)
    (exposure : Quantity) : (s.onBookUpdate book exposure now).2 = none := by
  obtain ⟨last, hlast, hcool⟩ := h
  obtain ⟨hcall, -⟩ | ⟨bid, ask, -, -, -, hcall | ⟨ema, signal, hheld, -, -⟩⟩ := s.onBookUpdate_cases book exposure now
  · rw [hcall]
  · rw [hcall]
  · simp only [heldBack, updateEma_lastOrder, hlast, updateEma_config, hcool, decide_true, Bool.or_true,
      Bool.true_eq_false] at hheld

end MeanReversionStrategy

namespace Executions

theorem position_append (xs ys : Executions) : (xs ++ ys).position = xs.position + ys.position := by
  rw [position, List.map_append, List.sum_append]
  rfl

/-- A bot that knows of all executions knows the position. -/
theorem Accounted.position_eq {xs : Executions} (h : xs.Accounted) (hwf : ∀ x ∈ xs, x.Wf) :
    xs.position = 100 * xs.ledger.sum Entry.known := by
  induction xs with
  | nil => rfl
  | cons x xs ih =>
      have hx := (hwf x List.mem_cons_self).amount_eq (h x List.mem_cons_self)
      have hxs := ih (fun y hy ↦ h y (List.mem_cons_of_mem _ hy)) fun y hy ↦ hwf y (List.mem_cons_of_mem _ hy)
      have hcons : position (x :: xs) = signedOrder x.side x.amount + position xs := List.sum_cons
      have hledger : ledger (x :: xs) = x.toEntry :: ledger xs := rfl
      rw [hcons, hledger, Ledger.sum_cons, hxs, hx]
      cases x.side with
      | bid =>
          simp only [signedOrder]
          omega
      | ask =>
          simp only [signedOrder]
          omega

end Executions

/-- The position is within a limit, in contracts. -/
def Executions.Within (xs : Executions) (limit : Int) : Prop :=
  -(100 * limit) ≤ xs.position ∧ xs.position ≤ 100 * limit

/-- An order of an informed bot keeps the position within the limit, whatever part of it is executed. -/
theorem Consistent.within_order {E : EmaOps} {start : TradingBot E} {r : Running E} {xs : Executions}
    (h : Consistent start r xs) (haccounted : xs.Accounted) {limit size : Int}
    (hlimit : start.strategy.config.maxPosition = limit) (hsize : start.strategy.config.orderSize = size)
    (hmax : limit + size ≤ I64.max) (hwithin : xs.Within limit) {book : MarketState} {now : Int}
    {signal : Signal} (hsignal : (r.bot.strategy.onBookUpdate book r.bot.exposure now).2 = some signal)
    {entry : Entry} (hside : entry.side = signal.side) {amount : Nat}
    (hamount : (amount : Int) ≤ 100 * signal.count) : Executions.Within (xs ++ [⟨entry, amount, 0⟩]) limit := by
  obtain ⟨bid, ask, -, -, -, -, ⟨ema, hdecide⟩, -⟩ := MeanReversionStrategy.onBookUpdate_signal _ hsignal
  obtain ⟨hcount, htrade⟩ := MeanReversionStrategy.decide_eq_some _ hdecide
  have hmax' : (I64.max : Int) = 2 ^ 63 - 1 := rfl
  have hknown := haccounted.position_eq h.wf
  have hexposure := h.tracks.exposure_eq
  rw [MeanReversionStrategy.updateEma_config, h.config, hsize] at hcount htrade
  rw [hlimit] at htrade
  rw [hcount] at hamount
  obtain ⟨hlo, hhi⟩ := hwithin
  have hnew : Executions.position (xs ++ [⟨entry, amount, 0⟩]) =
      xs.position + signedOrder signal.side amount := by
    rw [Executions.position_append, ← hside]
    exact congrArg _ (Int.add_zero _)
  generalize xs.ledger.sum Entry.known = known at hknown hexposure
  -- The exposure the strategy compares with the limit is what the bot knows.
  rw [I64.wrap_eq_self ⟨by omega, by omega⟩] at hexposure
  rw [hexposure] at htrade
  rw [Executions.Within, hnew]
  rcases htrade with ⟨hbuy, -, hle⟩ | ⟨hsell, -, hge⟩
  · rw [I64.wrap_eq_self ⟨by omega, by omega⟩] at hle
    rw [hbuy]
    simp only [signedOrder]
    omega
  · rw [I64.wrap_eq_self ⟨by omega, by omega⟩, I64.wrap_eq_self ⟨by omega, by omega⟩] at hge
    rw [hsell]
    simp only [signedOrder]
    omega

/-- **The position stays within the limit** in every run in which, when a book message arrives, the bot knows of
everything that has been executed or still waits after its last order. -/
theorem position_within_limit {E : EmaOps} (start : TradingBot E) (hpos : start.positions = ∅)
    (hfills : start.unconfirmedFills = ∅) (hmax : 0 ≤ start.strategy.config.maxPosition)
    (hsize : start.strategy.config.maxPosition + start.strategy.config.orderSize ≤ I64.max)
    {r : Running E} {xs : Executions} (h : Traded InformedFrame start r xs) :
    xs.Within start.strategy.config.maxPosition := by
  induction h with
  | start =>
      have hzero : (0 : Int) ≤ 100 * start.strategy.config.maxPosition := Int.mul_nonneg (by decide) hmax
      exact ⟨Int.neg_nonpos_of_nonneg hzero, hzero⟩
  | session h ih => exact ih
  | quiet h frame env hframe hfill hsub ih => exact ih
  | @order r xs h frame env hframe sub hsub orderId amount hfresh hamount hanswer ih =>
      obtain ⟨-, m, book, hrec, hbook, hsignal⟩ := Running.handled_submitted hsub
      rcases hframe m hrec hbook with haccounted | hcool
      · exact (h.consistent hpos hfills).within_order haccounted rfl rfl hsize ih hsignal rfl hamount
      · rw [MeanReversionStrategy.onBookUpdate_of_coolingDown hcool] at hsignal
        cases hsignal
  | @fill r pre post x h frame env hframe fill hfill hid hticker haction a hle hcount ih =>
      rw [Executions.Within, Executions.position, List.map_append, List.map_cons] at ih ⊢
      exact ih

/-! ## Two orders in a row -/

/-- An order of which the bot cannot read the answer. -/
theorem Traded.unanswered {C : FrameCondition exactOps} {start : TradingBot exactOps} {r : Running exactOps}
    {xs : Executions} (h : Traded C start r xs) (frame : Except Bytes WebSocketFrame) (env : Env)
    (side : OrderSide) (count : Int) (orderId : Bytes) (amount : Nat) (hframe : C r xs frame env)
    (hsub : ((r.handled frame env).submitted.map fun sub ↦
      (sub.signal.side, sub.signal.count, readAnswer sub.answer)) = some (side, count, none))
    (hfresh : orderId ∉ xs.ledger.map Entry.orderId) (hamount : (amount : Int) ≤ 100 * count) :
    Traded C start (r.next (.frame frame env)) (xs ++ [⟨⟨orderId, side, none, 0⟩, amount, 0⟩]) := by
  obtain ⟨sub, hsome, hsub⟩ := Option.map_eq_some_iff.mp hsub
  simp only [Prod.mk.injEq] at hsub
  obtain ⟨rfl, rfl, hnone⟩ := hsub
  have horder := h.order frame env hframe hsome hfresh hamount (by rw [hnone]; exact nofun)
  rwa [hnone] at horder

/-- The hypotheses of `position_within_limit` hold of a run in which the first order is reported and confirmed in part,
and the answer to the second gets lost. -/
theorem position_within_limit_second : ∃ r xs,
    Traded InformedFrame (eagerBot 5 2) r xs ∧ xs.position = 400 ∧
      xs.Within (eagerBot 5 2).strategy.config.maxPosition := by
  obtain ⟨⟨hnofill, hquiet⟩, hordered, hfill, hticker⟩ := handled_frames
  have hstart : Traded InformedFrame (eagerBot 5 2) (withSnapshot (eagerBot 5 2)) [] :=
    (Traded.session .start).quiet snapshotFrame {} (fun _ _ _ ↦ .inl nofun) hnofill hquiet
  obtain ⟨sub, hsome, hsub⟩ := Option.map_eq_some_iff.mp hordered
  simp only [Prod.mk.injEq] at hsub
  obtain ⟨hside, hcount, hread⟩ := hsub
  have hfirst : Traded InformedFrame (eagerBot 5 2) afterOrder
      ([] ++ ⟨⟨ascii "A", .bid, some 2, 0⟩, 200, 0⟩ :: []) := by
    have horder : Traded InformedFrame (eagerBot 5 2) afterOrder
        ([] ++ [⟨⟨ascii "A", sub.signal.side, (readAnswer sub.answer).map Prod.snd, 0⟩, 200, 0⟩]) := by
      refine hstart.order _ _ (fun _ _ _ ↦ .inl nofun) hsome nofun (by rw [hcount]; decide) ?_
      intro parsed filled h
      rw [hread] at h
      cases h
      exact ⟨rfl, by decide⟩
    rwa [hside, hread] at horder
  have hinformed (r : Running exactOps) (frame : Except Bytes WebSocketFrame) (x : Execution)
      (hx : x.reported = some 2) : InformedFrame r [x] frame {} := by
    refine fun _ _ _ ↦ .inl fun y hy ↦ .inl ?_
    rw [List.mem_singleton.mp hy, hx]
    rfl
  have hpart : Traded InformedFrame (eagerBot 5 2) afterFill [⟨⟨ascii "A", .bid, some 2, 1⟩, 200, 100⟩] := by
    have hpart := hfirst.fill (fillFrame "3" "\"1.00\"") {} (hinformed _ _ _ rfl) hfill rfl hticker rfl
      (by decide : 0 + 100 ≤ 200) (fun q h ↦ by
        rw [parseContracts_one] at h
        cases h
        rfl)
    rwa [parseContracts_one] at hpart
  have hsecond := hpart.unanswered (deltaFrame "4") {} .bid 2 (ascii "B") 200 (hinformed _ _ _ rfl)
    (by decide +kernel) (by decide +kernel) (by decide)
  exact ⟨_, _, hsecond, rfl, position_within_limit (eagerBot 5 2) rfl rfl (by decide) (by decide) hsecond⟩

/-- The bot after an order whose answer got lost. -/
def afterLostAnswer : Running exactOps := (withSnapshot (eagerBot 1 1)).next (.frame (deltaFrame "2") {})

/-- **The limit can be exceeded**: the answer to the first order gets lost, the fill message is delayed, and the bot
sends a second order meanwhile.  Both are executed, and the position is two contracts where one is the limit. -/
theorem position_exceeds_limit : ∃ r xs,
    Traded (fun _ _ _ _ ↦ True) (eagerBot 1 1) r xs ∧ 0 < (eagerBot 1 1).strategy.config.orderSize ∧
      0 ≤ (eagerBot 1 1).strategy.config.maxPosition ∧ (eagerBot 1 1).positions = ∅ ∧
      (eagerBot 1 1).unconfirmedFills = ∅ ∧ xs.position = 200 ∧
      ¬ xs.Within (eagerBot 1 1).strategy.config.maxPosition := by
  have hstart : Traded (fun _ _ _ _ ↦ True) (eagerBot 1 1) (withSnapshot (eagerBot 1 1)) [] :=
    (Traded.session .start).quiet snapshotFrame {} trivial (by decide +kernel) (by decide +kernel)
  have hfirst : Traded (fun _ _ _ _ ↦ True) (eagerBot 1 1) afterLostAnswer
      [⟨⟨ascii "A", .bid, none, 0⟩, 100, 0⟩] :=
    hstart.unanswered (deltaFrame "2") {} .bid 1 (ascii "A") 100 trivial (by decide +kernel) nofun (by decide)
  have hsecond := hfirst.unanswered (deltaFrame "3") {} .bid 1 (ascii "B") 100 trivial (by decide +kernel)
    (by decide +kernel) (by decide)
  exact ⟨_, _, hsecond, by decide, by decide, rfl, rfl, rfl, fun h ↦ absurd h.2 (by decide)⟩

end KalshiClient.Trading
