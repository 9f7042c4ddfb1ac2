import KalshiClient.Base.Spacing
import KalshiClient.Trading.Pricing

/-!
# How often the strategy trades

Over whole runs of `on_book_update`: the orders are at least `cooldown` apart, none comes before the strategy has warmed
up, and each stays within `max_position` of the exposure it was decided on.  The first two rest on what the strategy
remembers: the time of its last order is a lower bound for the next, and the time of the first book with a bid below an
ask never changes once it is set.

The strategy computes in `int64_t` without checks, so all this is subject to `NoOverflow`.
-/

namespace KalshiClient.Trading

open Bytes Protocol

/-- There is a bid below an ask. -/
def MarketState.isQuoted (m : MarketState) : Bool :=
  m.bestYesBid.any fun bid ↦ m.bestYesAsk.any fun ask ↦ bid < ask

theorem MarketState.isQuoted_iff {m : MarketState} :
    m.isQuoted = true ↔ ∃ bid ask, m.bestYesBid = some bid ∧ m.bestYesAsk = some ask ∧ bid < ask := by
  simp only [isQuoted, Option.any_eq_true, decide_eq_true_eq]
  constructor
  · rintro ⟨bid, hbid, ask, hask, hlt⟩
    exact ⟨bid, ask, hbid, hask, hlt⟩
  · rintro ⟨bid, ask, hbid, hask, hlt⟩
    exact ⟨bid, hbid, ask, hask, hlt⟩

/-- A call of `on_book_update`. -/
structure BookUpdate where
  /-- `book`. -/
  book : MarketState
  /-- `exposure`. -/
  exposure : Quantity
  /-- `now`. -/
  now : Int

namespace MeanReversionStrategy

variable {E : EmaOps}

/-- The strategy after a call. -/
def next (s : MeanReversionStrategy E) (u : BookUpdate) : MeanReversionStrategy E :=
  (s.onBookUpdate u.book u.exposure u.now).1

/-- The signal a call returns. -/
def signal (s : MeanReversionStrategy E) (u : BookUpdate) : Option Signal :=
  (s.onBookUpdate u.book u.exposure u.now).2

/-- The signals of a run, each with the call that returned it. -/
def emitted (s : MeanReversionStrategy E) : List BookUpdate → List (BookUpdate × Signal)
  | [] => []
  | u :: us => (s.signal u).toList.map (Prod.mk u) ++ (s.next u).emitted us

/-! ## Runs -/

theorem mem_emitted_cons {s : MeanReversionStrategy E} {u : BookUpdate} {us : List BookUpdate}
    {e : BookUpdate × Signal} :
    e ∈ s.emitted (u :: us) ↔ e.1 = u ∧ s.signal u = some e.2 ∨ e ∈ (s.next u).emitted us := by
  rw [emitted, List.mem_append, List.mem_map]
  refine or_congr ⟨?_, ?_⟩ Iff.rfl
  · rintro ⟨signal, hsignal, rfl⟩
    exact ⟨rfl, Option.mem_toList.mp hsignal⟩
  · rintro ⟨rfl, hsignal⟩
    exact ⟨e.2, Option.mem_toList.mpr hsignal, rfl⟩

/-- The rule for runs: what each call preserves, and what it implies of the signal it returns. -/
theorem forall_emitted {P : MeanReversionStrategy E → Prop} {Q : BookUpdate × Signal → Prop} {us : List BookUpdate}
    (hnext : ∀ s u, u ∈ us → P s → P (s.next u))
    (hsignal : ∀ s u signal, u ∈ us → P s → s.signal u = some signal → Q (u, signal))
    {s : MeanReversionStrategy E} (hs : P s) : ∀ e ∈ s.emitted us, Q e := by
  induction us generalizing s with
  | nil => exact List.forall_mem_nil _
  | cons u us ih =>
      intro e he
      obtain ⟨heq, he⟩ | he := mem_emitted_cons.mp he
      · have hq := hsignal s u e.2 List.mem_cons_self hs he
        rwa [← heq] at hq
      · exact ih (fun s v hv ↦ hnext s v (List.mem_cons_of_mem u hv))
          (fun s v signal hv ↦ hsignal s v signal (List.mem_cons_of_mem u hv)) (hnext s u List.mem_cons_self hs) e he

/-! ## Steps -/

section

variable {s : MeanReversionStrategy E} {u : BookUpdate}

theorem next_config : (s.next u).config = s.config := s.onBookUpdate_config u.book u.exposure u.now

/-- The time of the last order changes with an order only. -/
theorem next_lastOrder : (s.next u).lastOrder = s.lastOrder ∨ ∃ signal, s.signal u = some signal := by
  obtain ⟨hcall, -⟩ | ⟨bid, ask, -, -, -, hcall | ⟨ema, signal, -, -, hcall⟩⟩ :=
    s.onBookUpdate_cases u.book u.exposure u.now
  · rw [next, hcall]
    exact .inl rfl
  · rw [next, hcall]
    exact .inl (s.updateEma_lastOrder bid ask u.now)
  · rw [MeanReversionStrategy.signal, hcall]
    exact .inr ⟨signal, rfl⟩

/-- A book that is one-sided or crossed is ignored, and any other sets the moving average. -/
theorem next_firstUpdate :
    u.book.isQuoted = false ∧ s.next u = s ∧ s.signal u = none ∨
    u.book.isQuoted = true ∧ (s.next u).ema.isSome = true ∧
      (s.next u).firstUpdate = if s.ema.isSome then s.firstUpdate else u.now := by
  obtain ⟨hcall, hcrossed⟩ | ⟨bid, ask, hbid, hask, hlt, hcall⟩ := s.onBookUpdate_cases u.book u.exposure u.now
  · refine .inl ⟨?_, by rw [next, hcall], by rw [MeanReversionStrategy.signal, hcall]⟩
    rw [← Bool.not_eq_true, MarketState.isQuoted_iff]
    rintro ⟨bid, ask, hbid, hask, hlt⟩
    exact absurd hlt (not_lt.mpr (hcrossed bid ask hbid hask))
  · refine .inr ⟨MarketState.isQuoted_iff.mpr ⟨bid, ask, hbid, hask, hlt⟩, ?_⟩
    have hfirst := s.updateEma_firstUpdate bid ask u.now
    obtain hcall | ⟨ema, signal, -, -, hcall⟩ := hcall
    · rw [next, hcall]
      exact hfirst
    · rw [next, hcall]
      exact hfirst

variable {signal : Signal} (h : s.signal u = some signal)
include h

theorem next_lastOrder_of_signal : (s.next u).lastOrder = some u.now := by
  obtain ⟨bid, ask, -, -, -, -, -, hnext⟩ := s.onBookUpdate_signal h
  rw [next, hnext]

theorem cooldown_le {last : Int} (hlast : s.lastOrder = some last) :
    ticks s.config.cooldown ≤ elapsed u.now last := by
  obtain ⟨bid, ask, -, -, -, hheld, -, -⟩ := s.onBookUpdate_signal h
  obtain ⟨-, -, hcool⟩ := (heldBack_eq_false_iff _).mp hheld
  rw [updateEma_config, updateEma_lastOrder] at hcool
  exact hcool last hlast

theorem warmup_le : ticks s.config.warmup ≤ elapsed u.now (if s.ema.isSome then s.firstUpdate else u.now) := by
  obtain ⟨bid, ask, -, -, -, hheld, -, -⟩ := s.onBookUpdate_signal h
  obtain ⟨hwarm, -, -⟩ := (heldBack_eq_false_iff _).mp hheld
  rwa [updateEma_config, (s.updateEma_firstUpdate bid ask u.now).2] at hwarm

end

end MeanReversionStrategy

/-! ## The limits -/

/-- Nothing the strategy computes in a run leaves the range of `int64_t`. -/
structure NoOverflow (config : StrategyConfig) (us : List BookUpdate) : Prop where
  warmup : I64.InRange (config.warmup * ticksPerSecond)
  cooldown : I64.InRange (config.cooldown * ticksPerSecond)
  limit : I64.InRange (-config.maxPosition)
  times : ∀ u ∈ us, ∀ v ∈ us, I64.InRange (u.now - v.now)
  buy : ∀ u ∈ us, I64.InRange (u.exposure + config.orderSize)
  sell : ∀ u ∈ us, I64.InRange (u.exposure - config.orderSize)

/-- The order stays within the limit. -/
def WithinLimit (config : StrategyConfig) (e : BookUpdate × Signal) : Prop :=
  match e.2.side with
  | .bid => e.1.exposure + config.orderSize ≤ config.maxPosition
  | .ask => e.1.exposure - config.orderSize ≥ -config.maxPosition

/-- The last order came with a call of the run, and not before `first`. -/
structure OrderedSince {E : EmaOps} (config : StrategyConfig) (us : List BookUpdate) (first : BookUpdate)
    (s : MeanReversionStrategy E) : Prop where
  config_eq : s.config = config
  last : ∃ v ∈ us, s.lastOrder = some v.now ∧ first.now ≤ v.now

/-- The moving average was first set with a call of the run, `first`. -/
structure StartedAt {E : EmaOps} (config : StrategyConfig) (first : BookUpdate) (s : MeanReversionStrategy E) : Prop where
  config_eq : s.config = config
  started : s.ema.isSome = true
  first_eq : s.firstUpdate = first.now

section

variable {E : EmaOps} {config : StrategyConfig} {us : List BookUpdate} (h : NoOverflow config us)
  {s : MeanReversionStrategy E} {u first : BookUpdate} {signal : Signal}

theorem StartedAt.next (hs : StartedAt config first s) : StartedAt config first (s.next u) := by
  obtain ⟨-, hsame, -⟩ | ⟨-, hsome, hfirst⟩ := MeanReversionStrategy.next_firstUpdate (s := s) (u := u)
  · rw [hsame]
    exact hs
  · rw [hs.started, if_pos rfl, hs.first_eq] at hfirst
    exact ⟨MeanReversionStrategy.next_config.trans hs.config_eq, hsome, hfirst⟩

include h

theorem NoOverflow.elapsed_eq {v : BookUpdate} (hu : u ∈ us) (hv : v ∈ us) : elapsed u.now v.now = u.now - v.now :=
  I64.wrap_eq_self (h.times u hu v hv)

theorem StartedAt.le_of_signal (hs : StartedAt config first s) (hfirst : first ∈ us) (hu : u ∈ us)
    (hsignal : s.signal u = some signal) : first.now + config.warmup * ticksPerSecond ≤ u.now := by
  have hwarm := MeanReversionStrategy.warmup_le hsignal
  rw [hs.started, if_pos rfl, hs.first_eq, hs.config_eq, ticks, I64.wrap_eq_self h.warmup,
    h.elapsed_eq hu hfirst] at hwarm
  omega

/-- The next order waits. -/
theorem OrderedSince.le_of_signal (hs : OrderedSince config us first s) (hu : u ∈ us) (hsignal : s.signal u = some signal) :
    first.now + config.cooldown * ticksPerSecond ≤ u.now := by
  obtain ⟨v, hv, hlast, hle⟩ := hs.last
  have hcool := MeanReversionStrategy.cooldown_le hsignal hlast
  rw [hs.config_eq, ticks, I64.wrap_eq_self h.cooldown, h.elapsed_eq hu hv] at hcool
  omega

theorem OrderedSince.next (hcooldown : 0 < config.cooldown) (hs : OrderedSince config us first s) (hu : u ∈ us) :
    OrderedSince config us first (s.next u) := by
  refine ⟨MeanReversionStrategy.next_config.trans hs.config_eq, ?_⟩
  obtain hsame | ⟨signal, hsignal⟩ := MeanReversionStrategy.next_lastOrder (s := s) (u := u)
  · rw [hsame]
    exact hs.last
  · refine ⟨u, hu, MeanReversionStrategy.next_lastOrder_of_signal hsignal, ?_⟩
    have hle := hs.le_of_signal h hu hsignal
    have hpos : 0 < config.cooldown * ticksPerSecond := Int.mul_pos hcooldown (by decide)
    omega

/-- Orders are a cooldown apart. -/
theorem NoOverflow.spaced_emitted (hcooldown : 0 < config.cooldown) {us' : List BookUpdate} (hsub : us' ⊆ us)
    (hconfig : s.config = config) :
    Spaced (config.cooldown * ticksPerSecond) ((s.emitted us').map fun e ↦ e.1.now) := by
  induction us' generalizing s with
  | nil => exact List.Pairwise.nil
  | cons u us' ih =>
      have hu : u ∈ us := hsub List.mem_cons_self
      have hsub' : us' ⊆ us := fun v hv ↦ hsub (List.mem_cons_of_mem u hv)
      have hrest := ih hsub' (s := s.next u) (MeanReversionStrategy.next_config.trans hconfig)
      obtain hnone | ⟨signal, hsignal⟩ := Option.eq_none_or_eq_some (s.signal u)
      · rw [MeanReversionStrategy.emitted, hnone]
        exact hrest
      · rw [MeanReversionStrategy.emitted, hsignal]
        refine List.pairwise_cons.mpr ⟨?_, hrest⟩
        rw [List.forall_mem_map]
        have hlast := MeanReversionStrategy.next_lastOrder_of_signal hsignal
        exact MeanReversionStrategy.forall_emitted (fun s v hv hs ↦ OrderedSince.next h hcooldown hs (hsub' hv))
          (fun s v _ hv hs hv' ↦ OrderedSince.le_of_signal h hs (hsub' hv) hv')
          ⟨MeanReversionStrategy.next_config.trans hconfig, u, hu, hlast, le_refl u.now⟩

/-- No order comes before the strategy has warmed up. -/
theorem NoOverflow.warm_emitted {us' : List BookUpdate} (hsub : us' ⊆ us) (hconfig : s.config = config)
    (hstart : s.ema = none) :
    ∀ e ∈ s.emitted us', ∃ first, us'.find? (fun u ↦ u.book.isQuoted) = some first ∧
      first.now + config.warmup * ticksPerSecond ≤ e.1.now := by
  induction us' with
  | nil => exact List.forall_mem_nil _
  | cons u us' ih =>
      have hu : u ∈ us := hsub List.mem_cons_self
      have hsub' : us' ⊆ us := fun v hv ↦ hsub (List.mem_cons_of_mem u hv)
      intro e he
      rw [MeanReversionStrategy.mem_emitted_cons] at he
      obtain ⟨hquoted, hsame, hnone⟩ | ⟨hquoted, hsome, hfirst⟩ :=
        MeanReversionStrategy.next_firstUpdate (s := s) (u := u)
      · rw [List.find?_cons_of_neg (Bool.not_eq_true _ ▸ hquoted)]
        rw [hsame, hnone] at he
        obtain ⟨-, ⟨⟩⟩ | he := he
        exact ih hsub' e he
      · refine ⟨u, List.find?_cons_of_pos hquoted, ?_⟩
        rw [hstart] at hfirst
        obtain ⟨heq, hsignal⟩ | he := he
        · have hwarm := MeanReversionStrategy.warmup_le hsignal
          rw [hstart, hconfig, ticks, I64.wrap_eq_self h.warmup, Option.isSome_none, if_neg Bool.false_ne_true,
            h.elapsed_eq hu hu] at hwarm
          rw [heq]
          omega
        · exact MeanReversionStrategy.forall_emitted
            (Q := fun e ↦ u.now + config.warmup * ticksPerSecond ≤ e.1.now) (fun s v _ hs ↦ StartedAt.next hs)
            (fun s v _ hv hs hsignal ↦ StartedAt.le_of_signal h hs hu (hsub' hv) hsignal)
            ⟨MeanReversionStrategy.next_config.trans hconfig, hsome, hfirst⟩ e he

theorem NoOverflow.withinLimit_of_signal (hconfig : s.config = config) (hu : u ∈ us)
    (hsignal : s.signal u = some signal) : WithinLimit config (u, signal) := by
  obtain ⟨bid, ask, -, -, -, -, ⟨ema, hdecide⟩, -⟩ := s.onBookUpdate_signal hsignal
  obtain ⟨-, htrade⟩ := MeanReversionStrategy.decide_eq_some _ hdecide
  rw [MeanReversionStrategy.updateEma_config, hconfig, I64.wrap_eq_self (h.buy u hu), I64.wrap_eq_self (h.sell u hu),
    I64.wrap_eq_self h.limit] at htrade
  rw [WithinLimit]
  obtain ⟨hside, -, hle⟩ | ⟨hside, -, hge⟩ := htrade
  · rw [hside]
    exact hle
  · rw [hside]
    exact hge

end

/-- **The rate of orders is limited**: in every run without overflow, from a strategy that has just been set up, at most
one order more than the cooldown fits into an interval comes in that interval; none comes before the strategy has warmed
up, counted from the first book with a bid below an ask; and each stays within `max_position` of the exposure it was
decided on. -/
theorem orders_limited {E : EmaOps} (config : StrategyConfig) (hcooldown : 0 < config.cooldown)
    (us : List BookUpdate) (h : NoOverflow config us) :
    let orders := MeanReversionStrategy.emitted ({ config := config } : MeanReversionStrategy E) us
    (∀ t span : Int, 0 ≤ span →
      ((orders.filter fun e ↦ t ≤ e.1.now ∧ e.1.now ≤ t + span).length : Int) ≤
        span / (config.cooldown * ticksPerSecond) + 1) ∧
    (∀ e ∈ orders, ∃ first, us.find? (fun u ↦ u.book.isQuoted) = some first ∧
      first.now + config.warmup * ticksPerSecond ≤ e.1.now) ∧
    ∀ e ∈ orders, WithinLimit config e := by
  intro orders
  refine ⟨fun t span hspan ↦ ?_, h.warm_emitted (List.Subset.refl us) rfl rfl, ?_⟩
  · have hspaced : Spaced (config.cooldown * ticksPerSecond) (orders.map fun e ↦ e.1.now) :=
      h.spaced_emitted hcooldown (List.Subset.refl us) rfl
    have hwithin : Spaced (config.cooldown * ticksPerSecond)
        ((orders.filter fun e ↦ t ≤ e.1.now ∧ e.1.now ≤ t + span).map fun e ↦ e.1.now) :=
      List.pairwise_map.mpr ((List.pairwise_map.mp hspaced).filter _)
    have hmem : ∀ a ∈ (orders.filter fun e ↦ t ≤ e.1.now ∧ e.1.now ≤ t + span).map (fun e ↦ e.1.now),
        t ≤ a ∧ a ≤ t + span := by
      rw [List.forall_mem_map]
      exact fun e he ↦ of_decide_eq_true (List.mem_filter.mp he).2
    have hcount := hwithin.length_le (Int.mul_pos hcooldown (by decide)) (by omega) hmem
    rwa [List.length_map, add_sub_cancel_left] at hcount
  · exact MeanReversionStrategy.forall_emitted (fun s u _ hs ↦ MeanReversionStrategy.next_config.trans hs)
      (fun s u _ hu hs hsignal ↦ h.withinLimit_of_signal hs hu hsignal) rfl

/-- A YES bid at $0.19 and a NO bid at $0.80. -/
def cheapCalls : List BookCall :=
  [.delta ⟨[], [], ascii "0.19", ascii "1", ascii "yes", [], 0⟩,
    .delta ⟨[], [], ascii "0.8", ascii "1", ascii "no", [], 0⟩]

/-- A fair value of $0.405, and then an offer at $0.20. -/
def cheapUpdates (exposure : Quantity) : List BookUpdate :=
  [⟨.run quotedCalls, 0, 0⟩, ⟨.run cheapCalls, exposure, 0⟩]

/-- A strategy that need not warm up. -/
def hastyConfig : StrategyConfig := { warmup := 0 }

theorem orders_limited_cheap :
    (MeanReversionStrategy.emitted ({ config := hastyConfig } : MeanReversionStrategy exactOps) (cheapUpdates 4)).length
        = 1 ∧
      ∀ e ∈ MeanReversionStrategy.emitted ({ config := hastyConfig } : MeanReversionStrategy exactOps) (cheapUpdates 4),
        WithinLimit hastyConfig e := by
  have h : NoOverflow hastyConfig (cheapUpdates 4) := by
    constructor <;> decide +kernel
  exact ⟨by decide +kernel, (orders_limited hastyConfig (by decide) (cheapUpdates 4) h).2.2⟩

/-- With an exposure of `INT64_MAX` the check of the limit overflows, and the strategy buys one more. -/
theorem order_beyond_limit :
    0 < hastyConfig.cooldown ∧
      ∃ e ∈ MeanReversionStrategy.emitted ({ config := hastyConfig } : MeanReversionStrategy exactOps)
          (cheapUpdates (2 ^ 63 - 1)),
        e.1.exposure = 2 ^ 63 - 1 ∧ e.2 = ⟨.bid, 200, 1⟩ ∧ ¬ WithinLimit hastyConfig e := by
  have hmap : ((MeanReversionStrategy.emitted ({ config := hastyConfig } : MeanReversionStrategy exactOps)
      (cheapUpdates (2 ^ 63 - 1))).map fun e ↦ (e.1.exposure, e.2)) = [(2 ^ 63 - 1, ⟨.bid, 200, 1⟩)] := by
    decide +kernel
  obtain ⟨e, he, heq⟩ := List.mem_map.mp (hmap ▸ List.mem_singleton_self _)
  obtain ⟨hexposure, hsignal⟩ := Prod.mk.inj heq
  refine ⟨by decide, e, he, hexposure, hsignal, ?_⟩
  rw [WithinLimit, hsignal, hexposure]
  decide

end KalshiClient.Trading
