import KalshiClient.Base.Rounding
import KalshiClient.Trading.RateLimit

/-!
# The fair value in floating point

The moving average as `double` computes it.  Every operation rounds, so the average of two numbers need not lie between
them; here it does, because the prices are half-integers and adding the rounded difference of two such numbers is exact
(`Rounding.add_sub`).  So the fair value never leaves the range of the mid prices that were quoted, and what the strategy
trades on is really there: it buys only what is offered at least `entry_edge` below a mid price quoted before, and sells
only what is bid for at least `entry_edge` above one (`orders_revert`).

Of `std::exp` nothing is assumed but its range.
-/

namespace KalshiClient.Trading

open Bytes Protocol

/-! ## The arithmetic -/

/-- Floating-point arithmetic with an exponential function.  Exponents are not bounded: nothing the strategy computes comes
near the numbers where `double` overflows or loses bits. -/
structure Arithmetic where
  /-- `double` has 53 bits. -/
  rnd : Rounding 53
  /-- `std::exp`. -/
  exp : ℝ → ℝ
  /-- Whether the compiler makes one operation of a product and a sum. -/
  fused : Bool
  exp_range : ∀ x ≤ 0, 0 ≤ exp x ∧ exp x ≤ 1

namespace Arithmetic

variable (A : Arithmetic)

/-- `1.0 - std::exp(-dt / tau)`, where `dt` is converted from nanoseconds and `tau` from seconds. -/
noncomputable def alpha (dt tau : Int) : ℝ :=
  A.rnd (1 - A.exp (A.rnd (-A.rnd (A.rnd dt / 1000000000) / A.rnd tau)))

/-- `alpha * (mid - ema)`. -/
noncomputable def step (alpha mid ema : ℝ) : ℝ :=
  if A.fused then alpha * A.rnd (mid - ema) else A.rnd (alpha * A.rnd (mid - ema))

/-- The operations of the strategy. -/
noncomputable def ops : EmaOps where
  Real := ℝ
  mid bid ask := A.rnd (A.rnd (bid + ask : Int) / (2 : Int))
  update dt tau mid ema := A.rnd (ema + A.step (A.alpha dt tau) mid ema)
  isCheap ask ema edge := decide (A.rnd ask ≤ A.rnd (ema - A.rnd edge))
  isDear bid ema edge := decide (A.rnd bid ≥ A.rnd (ema + A.rnd edge))

/-- A number that is used as `double` without rounding. -/
theorem rnd_intCast {k : Int} (h : |k| < 2 ^ 53) : A.rnd k = k := A.rnd.eq_self (.intCast h)

/-- The weight of the new price is between zero and one. -/
theorem alpha_range {dt tau : Int} (hdt : 0 ≤ dt) (htau : 0 < tau) : 0 ≤ A.alpha dt tau ∧ A.alpha dt tau ≤ 1 := by
  have hone : IsFloat 53 (1 : ℝ) := by exact_mod_cast IsFloat.intCast (p := 53) (k := 1) (by norm_num)
  have hzero := IsFloat.zero 53
  have hseconds : 0 ≤ A.rnd (A.rnd dt / 1000000000) := by
    have hticks : 0 ≤ A.rnd dt := A.rnd.le_of_le hzero (by exact_mod_cast hdt)
    exact A.rnd.le_of_le hzero (by positivity)
  have hconstant : 0 < A.rnd tau := one_pos.trans_le (A.rnd.le_of_le hone (by exact_mod_cast htau))
  have hexponent : A.rnd (-A.rnd (A.rnd dt / 1000000000) / A.rnd tau) ≤ 0 :=
    A.rnd.ge_of_ge hzero (div_nonpos_of_nonpos_of_nonneg (neg_nonpos.mpr hseconds) hconstant.le)
  obtain ⟨hlow, hhigh⟩ := A.exp_range _ hexponent
  exact ⟨A.rnd.le_of_le hzero (by linarith), A.rnd.ge_of_ge hone (by linarith)⟩

/-- The step is in the direction of the new price. -/
theorem step_range {alpha : ℝ} (hlow : 0 ≤ alpha) (hhigh : alpha ≤ 1) (mid ema : ℝ) :
    (ema ≤ mid → 0 ≤ A.step alpha mid ema ∧ A.step alpha mid ema ≤ A.rnd (mid - ema)) ∧
      (mid ≤ ema → A.rnd (mid - ema) ≤ A.step alpha mid ema ∧ A.step alpha mid ema ≤ 0) := by
  have hzero := IsFloat.zero 53
  have hfloat := A.rnd.isFloat (mid - ema)
  rw [step]
  constructor
  · intro hle
    have hup : 0 ≤ A.rnd (mid - ema) := A.rnd.le_of_le hzero (by linarith)
    have hnonneg : 0 ≤ alpha * A.rnd (mid - ema) := mul_nonneg hlow hup
    have hle' : alpha * A.rnd (mid - ema) ≤ A.rnd (mid - ema) := mul_le_of_le_one_left hup hhigh
    split
    · exact ⟨hnonneg, hle'⟩
    · exact ⟨A.rnd.le_of_le hzero hnonneg, A.rnd.ge_of_ge hfloat hle'⟩
  · intro hle
    have hdown : A.rnd (mid - ema) ≤ 0 := A.rnd.ge_of_ge hzero (by linarith)
    have hnonpos : alpha * A.rnd (mid - ema) ≤ 0 := mul_nonpos_of_nonneg_of_nonpos hlow hdown
    have hge : A.rnd (mid - ema) ≤ alpha * A.rnd (mid - ema) := by nlinarith
    split
    · exact ⟨hge, hnonpos⟩
    · exact ⟨A.rnd.le_of_le hfloat hge, A.rnd.ge_of_ge hzero hnonpos⟩

end Arithmetic

/-! ## The range of the fair value -/

/-- A bid below an ask, as a book quotes them. -/
structure Quote where
  /-- The best YES bid. -/
  bid : Int
  /-- The best YES ask. -/
  ask : Int
  pos : 1 ≤ bid
  lt : bid < ask
  le : ask ≤ 999

namespace Quote

variable (q : Quote)

/-- The mid price. -/
noncomputable def mid : ℝ := (q.bid + q.ask : Int) / (2 : Int)

theorem mid_eq : q.mid = (q.bid + q.ask : Int) / 2 := by rw [mid, Int.cast_ofNat]

theorem sum_range : 0 < q.bid + q.ask ∧ q.bid + q.ask < 1998 := by
  have hpos := q.pos
  have hlt := q.lt
  have hle := q.le
  constructor <;> omega

theorem mid_range : 0 ≤ q.mid ∧ q.mid ≤ 999 := by
  obtain ⟨hpos, hlt⟩ := q.sum_range
  have hpos' : (0 : ℝ) < (q.bid + q.ask : Int) := by exact_mod_cast hpos
  have hlt' : ((q.bid + q.ask : Int) : ℝ) < 1998 := by exact_mod_cast hlt
  rw [mid_eq]
  constructor <;> linarith

theorem isFloat_mid : IsFloat 53 q.mid := by
  obtain ⟨hpos, hlt⟩ := q.sum_range
  rw [mid_eq]
  refine .half ?_
  rw [abs_of_pos hpos]
  exact hlt.trans (by norm_num)

/-- The mid price is computed exactly. -/
theorem ops_mid (A : Arithmetic) : A.ops.mid q.bid q.ask = q.mid := by
  obtain ⟨hpos, hlt⟩ := q.sum_range
  have hexact : A.rnd (q.bid + q.ask : Int) = (q.bid + q.ask : Int) := by
    refine A.rnd_intCast ?_
    rw [abs_of_pos hpos]
    exact hlt.trans (by norm_num)
  change A.rnd (A.rnd (q.bid + q.ask : Int) / (2 : Int)) = q.mid
  rw [hexact]
  exact A.rnd.eq_self q.isFloat_mid

/-- And so is its distance from a price. -/
theorem rnd_mid_add (A : Arithmetic) {k : Int} (hk : |k| < 1000) : A.rnd (q.mid + k) = q.mid + k := by
  obtain ⟨hpos, hlt⟩ := q.sum_range
  obtain ⟨hlow, hhigh⟩ := abs_lt.mp hk
  have hhalf : q.mid + k = ((q.bid + q.ask + 2 * k : Int) : ℝ) / 2 := by
    rw [mid_eq]
    push_cast
    ring
  have hbound : |q.bid + q.ask + 2 * k| < 2 ^ 53 := by
    rw [abs_lt]
    constructor <;> omega
  rw [hhalf]
  exact A.rnd.eq_self (.half hbound)

theorem rnd_bid (A : Arithmetic) : A.rnd q.bid = q.bid := by
  have hpos := q.pos
  have hlt := q.lt
  have hle := q.le
  exact A.rnd_intCast (abs_lt.mpr (by constructor <;> omega))

theorem rnd_ask (A : Arithmetic) : A.rnd q.ask = q.ask := by
  have hpos := q.pos
  have hlt := q.lt
  have hle := q.le
  exact A.rnd_intCast (abs_lt.mpr (by constructor <;> omega))

end Quote

/-- The fair value is between the mid prices of two of the quotes. -/
structure Between (quotes : Set Quote) (ema : ℝ) : Prop where
  isFloat : IsFloat 53 ema
  low : ∃ q ∈ quotes, q.mid ≤ ema
  high : ∃ q ∈ quotes, ema ≤ q.mid

namespace Between

variable {quotes : Set Quote} {ema : ℝ}

theorem mono {quotes' : Set Quote} (h : Between quotes ema) (hsub : quotes ⊆ quotes') : Between quotes' ema := by
  obtain ⟨q, hq, hlow⟩ := h.low
  obtain ⟨q', hq', hhigh⟩ := h.high
  exact ⟨h.isFloat, ⟨q, hsub hq, hlow⟩, q', hsub hq', hhigh⟩

theorem range (h : Between quotes ema) : 0 ≤ ema ∧ ema ≤ 999 := by
  obtain ⟨q, -, hlow⟩ := h.low
  obtain ⟨q', -, hhigh⟩ := h.high
  exact ⟨q.mid_range.1.trans hlow, hhigh.trans q'.mid_range.2⟩

theorem mid {q : Quote} (hq : q ∈ quotes) : Between quotes q.mid := ⟨q.isFloat_mid, ⟨q, hq, le_rfl⟩, q, hq, le_rfl⟩

/-- **The fair value stays in range.**  The update goes from the fair value towards the mid price and not beyond it,
in spite of the rounding. -/
theorem update (h : Between quotes ema) (A : Arithmetic) {dt tau : Int} (hdt : 0 ≤ dt) (htau : 0 < tau) {q : Quote}
    (hq : q ∈ quotes) : Between quotes (A.ops.update dt tau q.mid ema) := by
  obtain ⟨hnonneg, hle⟩ := h.range
  obtain ⟨hlow, hhigh⟩ := A.alpha_range hdt htau
  obtain ⟨hup, hdown⟩ := A.step_range hlow hhigh q.mid ema
  have hreach : A.rnd (ema + A.rnd (q.mid - ema)) = q.mid := by
    obtain ⟨hpos, hlt⟩ := q.sum_range
    rw [q.mid_eq]
    exact A.rnd.add_sub (by norm_num) h.isFloat hnonneg (hle.trans (by norm_num)) hpos (hlt.trans (by norm_num))
  change Between quotes (A.rnd (ema + A.step (A.alpha dt tau) q.mid ema))
  rcases le_total ema q.mid with hle' | hge
  · obtain ⟨hstep, hstep'⟩ := hup hle'
    obtain ⟨q', hq', hq''⟩ := h.low
    refine ⟨A.rnd.isFloat _, ⟨q', hq', hq''.trans ?_⟩, q, hq, ?_⟩
    · exact A.rnd.le_of_le h.isFloat (by linarith)
    · exact (A.rnd.mono (by linarith)).trans hreach.le
  · obtain ⟨hstep, hstep'⟩ := hdown hge
    obtain ⟨q', hq', hq''⟩ := h.high
    refine ⟨A.rnd.isFloat _, ⟨q, hq, ?_⟩, q', hq', le_trans ?_ hq''⟩
    · exact hreach.ge.trans (A.rnd.mono (by linarith))
    · exact A.rnd.ge_of_ge h.isFloat (by linarith)

end Between

/-! ## Runs -/

/-- The quotes of the books of a run. -/
def quotesIn (us : List BookUpdate) : Set Quote :=
  {q | ∃ u ∈ us, u.book.bestYesBid = some q.bid ∧ u.book.bestYesAsk = some q.ask}

theorem quotesIn_append_left (us vs : List BookUpdate) : quotesIn us ⊆ quotesIn (us ++ vs) := by
  rintro q ⟨u, hu, hquote⟩
  exact ⟨u, List.mem_append_left vs hu, hquote⟩

/-- A book in order quotes between one tick and one below the dollar. -/
theorem exists_quote {m : MarketState} (hwf : m.Wf) {bid ask : Price} (hbid : m.bestYesBid = some bid)
    (hask : m.bestYesAsk = some ask) (hlt : bid < ask) : ∃ q : Quote, q.bid = bid ∧ q.ask = ask :=
  ⟨⟨bid, ask, (hwf.bestYesBid_range hbid).1, hlt, (hwf.bestYesAsk_range hask).2⟩, rfl, rfl⟩

/-- Calls in the order of time, with books in order. -/
structure Calls (us : List BookUpdate) : Prop where
  wf : ∀ u ∈ us, u.book.Wf
  sorted : us.Pairwise fun u v ↦ u.now ≤ v.now
  times : ∀ u ∈ us, ∀ v ∈ us, I64.InRange (u.now - v.now)

theorem Calls.left {us vs : List BookUpdate} (h : Calls (us ++ vs)) : Calls us where
  wf u hu := h.wf u (List.mem_append_left vs hu)
  sorted := (List.pairwise_append.mp h.sorted).1
  times u hu v hv := h.times u (List.mem_append_left vs hu) v (List.mem_append_left vs hv)

/-- Time does not run backwards. -/
theorem Calls.elapsed_nonneg {us : List BookUpdate} {u v : BookUpdate} (h : Calls (us ++ [u])) (hv : v ∈ us) :
    0 ≤ elapsed u.now v.now := by
  have hu : u ∈ us ++ [u] := List.mem_append_right us (List.mem_singleton_self u)
  have hle : v.now ≤ u.now := (List.pairwise_append.mp h.sorted).2.2 v hv u (List.mem_singleton_self u)
  rw [elapsed, I64.wrap_eq_self (h.times u hu v (List.mem_append_left [u] hv))]
  exact Int.sub_nonneg_of_le hle

namespace MeanReversionStrategy

variable {A : Arithmetic} {s : MeanReversionStrategy A.ops} {us : List BookUpdate} {u : BookUpdate}

/-- What the strategy knows after the calls `us`. -/
structure Tracks (us : List BookUpdate) (s : MeanReversionStrategy A.ops) : Prop where
  fair : ∀ ema, s.ema = some ema → Between (quotesIn us) ema
  last : s.ema.isSome = true → ∃ v ∈ us, s.lastUpdate = v.now

theorem Tracks.updateEma (h : s.Tracks us) (hcalls : Calls (us ++ [u])) (htau : 0 < s.config.emaTimeConstant)
    {q : Quote} (hbid : u.book.bestYesBid = some q.bid) (hask : u.book.bestYesAsk = some q.ask) :
    (s.updateEma q.bid q.ask u.now).Tracks (us ++ [u]) := by
  have hu : u ∈ us ++ [u] := List.mem_append_right us (List.mem_singleton_self u)
  have hq : q ∈ quotesIn (us ++ [u]) := ⟨u, hu, hbid, hask⟩
  rw [MeanReversionStrategy.updateEma]
  cases hema : s.ema with
  | none =>
      refine ⟨fun ema heq ↦ ?_, fun _ ↦ ⟨u, hu, rfl⟩⟩
      obtain rfl : A.ops.mid q.bid q.ask = ema := Option.some.inj heq
      rw [q.ops_mid A]
      exact .mid hq
  | some ema =>
      refine ⟨fun ema' heq ↦ ?_, fun _ ↦ ⟨u, hu, rfl⟩⟩
      obtain ⟨v, hv, hlast⟩ := h.last (by rw [hema]; rfl)
      have hdt : 0 ≤ elapsed u.now s.lastUpdate := by
        rw [hlast]
        exact hcalls.elapsed_nonneg hv
      obtain rfl := Option.some.inj heq
      rw [q.ops_mid A]
      exact ((h.fair ema hema).mono (quotesIn_append_left us [u])).update A hdt htau hq

/-- The strategy knows as much after one more call. -/
theorem Tracks.next (h : s.Tracks us) (hcalls : Calls (us ++ [u])) (htau : 0 < s.config.emaTimeConstant) :
    (s.next u).Tracks (us ++ [u]) := by
  obtain ⟨hcall, -⟩ | ⟨bid, ask, hbid, hask, hlt, hcall⟩ := s.onBookUpdate_cases u.book u.exposure u.now
  · rw [MeanReversionStrategy.next, hcall]
    refine ⟨fun ema hema ↦ (h.fair ema hema).mono (quotesIn_append_left us [u]), fun hsome ↦ ?_⟩
    obtain ⟨v, hv, hlast⟩ := h.last hsome
    exact ⟨v, List.mem_append_left [u] hv, hlast⟩
  · have hwf : u.book.Wf := hcalls.wf u (List.mem_append_right us (List.mem_singleton_self u))
    obtain ⟨q, rfl, rfl⟩ := exists_quote hwf hbid hask hlt
    have htracks := h.updateEma hcalls htau hbid hask
    obtain hcall | ⟨ema, signal, -, -, hcall⟩ := hcall
    · rw [MeanReversionStrategy.next, hcall]
      exact htracks
    · rw [MeanReversionStrategy.next, hcall]
      exact ⟨htracks.fair, htracks.last⟩

theorem foldl_next_config (s : MeanReversionStrategy A.ops) (us : List BookUpdate) :
    (us.foldl MeanReversionStrategy.next s).config = s.config := by
  induction us generalizing s with
  | nil => rfl
  | cons u us ih => exact (ih (s.next u)).trans next_config

/-- **The fair value is fair.**  After any calls it lies between two of the mid prices quoted in them. -/
theorem tracks_run (A : Arithmetic) {config : StrategyConfig} (htau : 0 < config.emaTimeConstant) {us : List BookUpdate}
    (hcalls : Calls us) :
    (us.foldl MeanReversionStrategy.next ({ config } : MeanReversionStrategy A.ops)).Tracks us := by
  induction us using List.reverseRecOn with
  | nil => exact ⟨fun ema hema ↦ absurd hema (Option.some_ne_none ema).symm, fun hsome ↦ absurd hsome Bool.false_ne_true⟩
  | append_singleton us u ih =>
      rw [List.foldl_append, List.foldl_cons, List.foldl_nil]
      refine (ih hcalls.left).next hcalls ?_
      rw [foldl_next_config]
      exact htau

/-! ## Decisions -/

/-- A decision is made at the fair value just updated. -/
theorem signal_fair {E : EmaOps} {s : MeanReversionStrategy E} {signal : Signal} (h : s.signal u = some signal) :
    ∃ bid ask ema, u.book.bestYesBid = some bid ∧ u.book.bestYesAsk = some ask ∧ bid < ask ∧
      (s.updateEma bid ask u.now).ema = some ema ∧
      (s.updateEma bid ask u.now).decide bid ask ema u.exposure = some signal := by
  obtain ⟨bid, ask, hbid, hask, hlt, hheld, -⟩ := s.onBookUpdate_signal h
  rw [MeanReversionStrategy.signal, onBookUpdate, hbid, hask] at h
  dsimp only at h
  rw [if_neg (not_le.mpr hlt), if_neg (Bool.not_eq_true _ ▸ hheld)] at h
  obtain hema | ⟨ema, hema⟩ := Option.eq_none_or_eq_some (s.updateEma bid ask u.now).ema
  · rw [hema] at h
    cases h
  · refine ⟨bid, ask, ema, hbid, hask, hlt, hema, ?_⟩
    rw [hema] at h
    dsimp only at h
    cases hdecide : (s.updateEma bid ask u.now).decide bid ask ema u.exposure with
    | none =>
        rw [hdecide] at h
        cases h
    | some signal' =>
        rw [hdecide] at h
        exact h

/-- The strategy buys what is cheap and sells what is dear. -/
theorem decide_side {E : EmaOps} {s : MeanReversionStrategy E} {bid ask : Price} {ema : E.Real} {exposure : Quantity}
    {signal : Signal} (h : s.decide bid ask ema exposure = some signal) :
    signal.side = .bid ∧ signal.price = ask ∧ E.isCheap ask ema s.config.entryEdge = true ∨
      signal.side = .ask ∧ signal.price = bid ∧ E.isDear bid ema s.config.entryEdge = true := by
  rw [MeanReversionStrategy.decide] at h
  split_ifs at h with hbuy hsell
  · cases h
    exact .inl ⟨rfl, rfl, hbuy.1⟩
  · cases h
    exact .inr ⟨rfl, rfl, hsell.1⟩

end MeanReversionStrategy

namespace Between

variable {quotes : Set Quote} {ema : ℝ} (h : Between quotes ema) (A : Arithmetic) {q : Quote} {edge : Int}
  (hedge : 0 ≤ edge)
include h hedge

/-- What is cheap is below a quote by the edge. -/
theorem exists_of_isCheap (hcheap : A.ops.isCheap q.ask ema edge = true) :
    ∃ q' ∈ quotes, 2 * (q.ask + edge) ≤ q'.bid + q'.ask := by
  have hle : (q.ask : ℝ) ≤ A.rnd (ema - A.rnd edge) := by
    rw [← q.rnd_ask A]
    exact of_decide_eq_true hcheap
  -- An edge of a dollar leaves no room for an order, and any smaller one is exact.
  have hlt : edge < 1000 := by
    by_contra! hge
    have hedge' : (1000 : ℝ) ≤ A.rnd edge := by
      have hfloat : IsFloat 53 (1000 : ℝ) := by exact_mod_cast IsFloat.intCast (p := 53) (k := 1000) (by norm_num)
      exact A.rnd.le_of_le hfloat (by exact_mod_cast hge)
    have hnonpos : A.rnd (ema - A.rnd edge) ≤ 0 := A.rnd.ge_of_ge (.zero 53) (by linarith [h.range.2])
    have hpos : (1 : ℝ) < q.ask := by exact_mod_cast q.pos.trans_lt q.lt
    linarith
  obtain ⟨q', hq', hhigh⟩ := h.high
  refine ⟨q', hq', ?_⟩
  have hbelow : (q.ask : ℝ) ≤ q'.mid + (-edge : Int) := by
    rw [← q'.rnd_mid_add A (by rw [abs_neg, abs_of_nonneg hedge]; exact hlt)]
    refine hle.trans (A.rnd.mono ?_)
    rw [A.rnd_intCast (by rw [abs_of_nonneg hedge]; exact hlt.trans (by norm_num))]
    push_cast
    linarith
  rw [Quote.mid_eq] at hbelow
  have hsum : (2 * (q.ask + edge) : ℝ) ≤ q'.bid + q'.ask := by
    push_cast at hbelow
    linarith
  exact_mod_cast hsum

/-- What is dear is above a quote by the edge. -/
theorem exists_of_isDear (hdear : A.ops.isDear q.bid ema edge = true) :
    ∃ q' ∈ quotes, q'.bid + q'.ask ≤ 2 * (q.bid - edge) := by
  have hle : A.rnd (ema + A.rnd edge) ≤ q.bid := by
    rw [← q.rnd_bid A]
    exact of_decide_eq_true hdear
  have hlt : edge < 1000 := by
    by_contra! hge
    have hfloat : IsFloat 53 (1000 : ℝ) := by exact_mod_cast IsFloat.intCast (p := 53) (k := 1000) (by norm_num)
    have hedge' : (1000 : ℝ) ≤ A.rnd edge := A.rnd.le_of_le hfloat (by exact_mod_cast hge)
    have hlarge : 1000 ≤ A.rnd (ema + A.rnd edge) := A.rnd.le_of_le hfloat (by linarith [h.range.1])
    have hsmall : (q.bid : ℝ) < 999 := by exact_mod_cast q.lt.trans_le q.le
    linarith
  obtain ⟨q', hq', hlow⟩ := h.low
  refine ⟨q', hq', ?_⟩
  have habove : q'.mid + edge ≤ q.bid := by
    rw [← q'.rnd_mid_add A (by rw [abs_of_nonneg hedge]; exact hlt)]
    refine (A.rnd.mono ?_).trans hle
    rw [A.rnd_intCast (by rw [abs_of_nonneg hedge]; exact hlt.trans (by norm_num))]
    linarith
  rw [Quote.mid_eq] at habove
  have hsum : (q'.bid + q'.ask : ℝ) ≤ 2 * (q.bid - edge) := by
    push_cast at habove
    linarith
  exact_mod_cast hsum

end Between

/-- An order is on the right side of a quote made before it. -/
def Reverts (config : StrategyConfig) (us : List BookUpdate) (signal : Signal) : Prop :=
  ∃ q ∈ quotesIn us,
    match signal.side with
    | .bid => 2 * (signal.price + config.entryEdge) ≤ q.bid + q.ask
    | .ask => q.bid + q.ask ≤ 2 * (signal.price - config.entryEdge)

/-- **Every order is a bet on a return to a price that was quoted.**  Whatever `std::exp` returns and whether or not the
compiler fuses operations, a buy is at least `entry_edge` below the mid price of a book seen before, and a sale at least
`entry_edge` above one. -/
theorem orders_revert (A : Arithmetic) {config : StrategyConfig} (htau : 0 < config.emaTimeConstant)
    (hedge : 0 ≤ config.entryEdge) {us : List BookUpdate} {u : BookUpdate} (hcalls : Calls (us ++ [u])) {signal : Signal}
    (h : (us.foldl MeanReversionStrategy.next ({ config } : MeanReversionStrategy A.ops)).signal u = some signal) :
    Reverts config us signal := by
  have htracks := MeanReversionStrategy.tracks_run A htau hcalls.left
  have hconfig := MeanReversionStrategy.foldl_next_config ({ config } : MeanReversionStrategy A.ops) us
  generalize us.foldl MeanReversionStrategy.next ({ config } : MeanReversionStrategy A.ops) = s at h htracks hconfig
  obtain ⟨bid, ask, ema, hbid, hask, hlt, hema, hdecide⟩ := MeanReversionStrategy.signal_fair h
  have hu : u ∈ us ++ [u] := List.mem_append_right us (List.mem_singleton_self u)
  obtain ⟨q, rfl, rfl⟩ := exists_quote (hcalls.wf u hu) hbid hask hlt
  have hbetween : Between (quotesIn (us ++ [u])) ema :=
    (htracks.updateEma hcalls (hconfig ▸ htau) hbid hask).fair ema hema
  -- The quote is not the present one, on which the edge would be on the wrong side.
  have hbefore {q' : Quote} (hq' : q' ∈ quotesIn (us ++ [u])) (hne : q'.bid + q'.ask ≠ q.bid + q.ask) :
      q' ∈ quotesIn us := by
    obtain ⟨v, hv, hvbid, hvask⟩ := hq'
    obtain hv | hv := List.mem_append.mp hv
    · exact ⟨v, hv, hvbid, hvask⟩
    · obtain rfl := List.mem_singleton.mp hv
      have hsame : q.bid = q'.bid := Option.some.inj (hbid.symm.trans hvbid)
      have hsame' : q.ask = q'.ask := Option.some.inj (hask.symm.trans hvask)
      exact absurd (by rw [hsame, hsame']) hne
  have hlt' := q.lt
  have hedge' : (0 : Int) ≤ config.entryEdge := hedge
  obtain ⟨hside, hprice, hcheap⟩ | ⟨hside, hprice, hdear⟩ := MeanReversionStrategy.decide_side hdecide
  · rw [s.updateEma_config, hconfig] at hcheap
    obtain ⟨q', hq', hle⟩ := hbetween.exists_of_isCheap A hedge hcheap
    refine ⟨q', hbefore hq' (by omega), ?_⟩
    rw [hside, hprice]
    exact hle
  · rw [s.updateEma_config, hconfig] at hdear
    obtain ⟨q', hq', hle⟩ := hbetween.exists_of_isDear A hedge hdear
    refine ⟨q', hbefore hq' (by omega), ?_⟩
    rw [hside, hprice]
    exact hle

/-! ## An order -/

theorem two_le_bits : 2 ≤ 53 := by norm_num

theorem exp_range_of_nonpos (x : ℝ) (hx : x ≤ 0) : 0 ≤ Real.exp x ∧ Real.exp x ≤ 1 :=
  ⟨Real.exp_nonneg x, Real.exp_le_one_iff.mpr hx⟩

/-- Rounding to nearest, ties to even, with an exact exponential function. -/
noncomputable def nearestArithmetic : Arithmetic where
  rnd := .nearestEven 53 two_le_bits
  exp := Real.exp
  fused := false
  exp_range := exp_range_of_nonpos

/-- A quote at $0.405. -/
def quotedUpdate : BookUpdate := ⟨.run quotedCalls, 0, 0⟩

/-- An offer at $0.20, a minute later. -/
def cheapUpdate : BookUpdate := ⟨.run cheapCalls, 0, 60 * ticksPerSecond⟩

theorem rnd_ofNat (A : Arithmetic) (k : Nat) [k.AtLeastTwo] (h : k < 2 ^ 53) : A.rnd (OfNat.ofNat k) = OfNat.ofNat k := by
  have hk := A.rnd_intCast (k := (k : Int)) (by rw [Nat.abs_cast]; exact_mod_cast h)
  exact_mod_cast hk

/-- After a minute the old fair value still has a quarter of the weight. -/
theorem alpha_minute : nearestArithmetic.alpha (60 * ticksPerSecond) 60 ≤ 3 / 4 := by
  have hone : nearestArithmetic.rnd (-1) = -1 := by
    have h := nearestArithmetic.rnd_intCast (k := -1) (by norm_num)
    exact_mod_cast h
  have hquarter : (1 / 4 : ℝ) ≤ Real.exp (-1) := by
    have hhalf : (1 / 2 : ℝ) ≤ Real.exp (-1 / 2) := (by norm_num : (1 / 2 : ℝ) = -1 / 2 + 1).trans_le (Real.add_one_le_exp _)
    calc (1 / 4 : ℝ) = 1 / 2 * (1 / 2) := by norm_num
      _ ≤ Real.exp (-1 / 2) * Real.exp (-1 / 2) := mul_self_le_mul_self (by norm_num) hhalf
      _ = Real.exp (-1) := by rw [← Real.exp_add]; norm_num
  have hfloat : IsFloat 53 (3 / 4 : ℝ) := ⟨3, -2, by norm_num, by norm_num⟩
  rw [Arithmetic.alpha, ticksPerSecond]
  push_cast
  norm_num only
  rw [rnd_ofNat _ 60000000000 (by norm_num), rnd_ofNat _ 60 (by norm_num)]
  norm_num only
  rw [rnd_ofNat _ 60 (by norm_num)]
  norm_num only
  rw [hone]
  refine nearestArithmetic.rnd.ge_of_ge hfloat ?_
  change 1 - Real.exp (-1) ≤ 3 / 4
  linarith

/-- So it is still above $0.23 when the price has halved. -/
theorem isCheap_minute :
    nearestArithmetic.ops.isCheap 200 (nearestArithmetic.ops.update (60 * ticksPerSecond) 60
      (nearestArithmetic.ops.mid 190 200) (nearestArithmetic.ops.mid 400 410)) 30 = true := by
  have hnew : nearestArithmetic.ops.mid 190 200 = (195 : ℝ) := by
    refine (Quote.ops_mid ⟨190, 200, by decide, by decide, by decide⟩ nearestArithmetic).trans ?_
    change ((190 + 200 : Int) : ℝ) / (2 : Int) = 195
    norm_num
  have hold : nearestArithmetic.ops.mid 400 410 = (405 : ℝ) := by
    refine (Quote.ops_mid ⟨400, 410, by decide, by decide, by decide⟩ nearestArithmetic).trans ?_
    change ((400 + 410 : Int) : ℝ) / (2 : Int) = 405
    norm_num
  have hdown : nearestArithmetic.rnd (195 - 405) = -210 := by
    have h := nearestArithmetic.rnd_intCast (k := -210) (by norm_num)
    norm_num
    exact_mod_cast h
  have hstep : (-315 / 2 : ℝ) ≤ nearestArithmetic.step (nearestArithmetic.alpha (60 * ticksPerSecond) 60) 195 405 := by
    have hfloat : IsFloat 53 (-315 / 2 : ℝ) := ⟨-315, -1, by norm_num, by norm_num⟩
    refine nearestArithmetic.rnd.le_of_le hfloat ?_
    rw [hdown]
    linarith [alpha_minute]
  have hema : (495 / 2 : ℝ) ≤
      nearestArithmetic.rnd (405 + nearestArithmetic.step (nearestArithmetic.alpha (60 * ticksPerSecond) 60) 195 405) := by
    have hfloat : IsFloat 53 (495 / 2 : ℝ) := ⟨495, -1, by norm_num, by norm_num⟩
    exact nearestArithmetic.rnd.le_of_le hfloat (by linarith)
  rw [hnew, hold]
  refine decide_eq_true (nearestArithmetic.rnd.mono (le_sub_iff_add_le.mpr (le_trans ?_ hema)))
  rw [nearestArithmetic.rnd_intCast (by norm_num)]
  norm_num

/-- The strategy after the quote. -/
noncomputable def quotedStrategy : MeanReversionStrategy nearestArithmetic.ops where
  config := {}
  ema := some (nearestArithmetic.ops.mid 400 410)

theorem quotedStrategy_signal : quotedStrategy.signal cheapUpdate = some ⟨.bid, 200, 1⟩ := by
  have hbid : cheapUpdate.book.bestYesBid = some 190 := by decide +kernel
  have hask : cheapUpdate.book.bestYesAsk = some 200 := by decide +kernel
  have hema : (quotedStrategy.updateEma 190 200 cheapUpdate.now).ema =
      some (nearestArithmetic.ops.update (60 * ticksPerSecond) 60 (nearestArithmetic.ops.mid 190 200)
        (nearestArithmetic.ops.mid 400 410)) := rfl
  have hheld : (quotedStrategy.updateEma 190 200 cheapUpdate.now).heldBack 190 200 cheapUpdate.now = false := rfl
  rw [MeanReversionStrategy.signal, MeanReversionStrategy.onBookUpdate, hbid, hask]
  dsimp only
  rw [if_neg (by decide), hheld, if_neg Bool.false_ne_true, hema]
  dsimp only
  rw [MeanReversionStrategy.decide, if_pos ⟨isCheap_minute, by decide⟩]
  rfl

theorem orders_revert_buy :
    ([quotedUpdate].foldl MeanReversionStrategy.next ({ config := {} } : MeanReversionStrategy nearestArithmetic.ops)).signal
        cheapUpdate = some ⟨.bid, 200, 1⟩ ∧
      Reverts {} [quotedUpdate] ⟨.bid, 200, 1⟩ := by
  have hnext : [quotedUpdate].foldl MeanReversionStrategy.next
      ({ config := {} } : MeanReversionStrategy nearestArithmetic.ops) = quotedStrategy := by
    have hbid : quotedUpdate.book.bestYesBid = some 400 := by decide +kernel
    have hask : quotedUpdate.book.bestYesAsk = some 410 := by decide +kernel
    rw [List.foldl_cons, List.foldl_nil, MeanReversionStrategy.next, MeanReversionStrategy.onBookUpdate, hbid, hask]
    rfl
  have hsignal : ([quotedUpdate].foldl MeanReversionStrategy.next
      ({ config := {} } : MeanReversionStrategy nearestArithmetic.ops)).signal cheapUpdate = some ⟨.bid, 200, 1⟩ := by
    rw [hnext]
    exact quotedStrategy_signal
  have hcalls : Calls ([quotedUpdate] ++ [cheapUpdate]) := by
    refine ⟨List.forall_mem_cons.mpr ⟨MarketState.wf_run quotedCalls, ?_⟩, by decide, by decide⟩
    exact List.forall_mem_singleton.mpr (MarketState.wf_run cheapCalls)
  exact ⟨hsignal, orders_revert nearestArithmetic (by decide) (by decide) hcalls hsignal⟩

end KalshiClient.Trading
