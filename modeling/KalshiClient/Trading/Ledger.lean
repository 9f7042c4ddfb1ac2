import KalshiClient.Trading.TradingBot

/-!
# The bot's accounts

The bot counts what it has traded in two places: a fill message moves a position, and the answer to an order is
counted as unconfirmed until its fill messages arrive.  A `Ledger` is the history behind these counts, one
entry for each order with what its answer reported and what its fill messages have confirmed, and `Tracks` says that
the bot's maps are what the ledger says they should be.  Answers and fill messages keep the two in step
(`Tracks.account`, `Tracks.onFill`), in whatever order they arrive.
-/

namespace KalshiClient.Trading

open Bytes Protocol Json

/-- An order as the bot has seen it, in contracts. -/
structure Entry where
  /-- The identifier the exchange gave it. -/
  orderId : Bytes
  /-- The side. -/
  side : OrderSide
  /-- What the answer reported as filled, if the bot could read it. -/
  reported : Option Int
  /-- What fill messages have confirmed. -/
  confirmed : Int := 0
deriving DecidableEq

namespace Entry

variable (e : Entry)

/-- What has been reported but not confirmed. -/
def rest : Int :=
  match e.reported with
  | some filled => filled - e.confirmed
  | none => 0

/-- What the bot knows to be filled. -/
def known : Int := e.reported.getD e.confirmed

/-- The bot's entry for the order in `_unconfirmed_fills`. -/
def unconfirmed : Option Int := if e.rest = 0 then none else some (signedOrder e.side e.rest)

/-- Confirmations do not exceed what was reported. -/
structure Wf : Prop where
  confirmed_nonneg : 0 ≤ e.confirmed
  confirmed_le : ∀ filled ∈ e.reported, e.confirmed ≤ filled
  reported_le : ∀ filled ∈ e.reported, filled ≤ I64.max

/-- The entry after a fill message for `q` contracts. -/
def confirm (q : Int) : Entry := { e with confirmed := e.confirmed + q }

theorem known_eq : e.known = e.confirmed + e.rest := by
  rw [known, rest]
  cases e.reported with
  | none => exact (Int.add_zero _).symm
  | some filled =>
      rw [Option.getD_some]
      dsimp only
      omega

variable {e}

theorem Wf.rest_range (h : e.Wf) : 0 ≤ e.rest ∧ e.rest ≤ I64.max := by
  rw [rest]
  cases hr : e.reported with
  | none => exact ⟨le_rfl, Int.natCast_nonneg _⟩
  | some filled =>
      have h₁ := h.confirmed_nonneg
      have h₂ := h.confirmed_le filled hr
      have h₃ := h.reported_le filled hr
      dsimp only
      omega

theorem rest_confirm {q : Int} (h : e.rest ≠ 0) : (e.confirm q).rest = e.rest - q := by
  rw [rest] at h ⊢
  rw [rest, confirm]
  cases hr : e.reported with
  | none =>
      rw [hr] at h
      exact absurd rfl h
  | some filled =>
      dsimp only
      omega

theorem Wf.rest_eq_zero {q : Int} (h : (e.confirm q).Wf) (hq : 0 ≤ q) (hrest : e.rest = 0) :
    (e.confirm q).rest = 0 := by
  have hrange := h.rest_range.1
  rw [rest] at hrest
  rw [rest, confirm] at hrange ⊢
  cases hr : e.reported with
  | none => rfl
  | some filled =>
      rw [hr] at hrest hrange
      dsimp only at hrest hrange ⊢
      omega

end Entry

/-- One entry for each order. -/
abbrev Ledger := List Entry

namespace Ledger

/-- The signed sum of a quantity over the orders. -/
def sum (ledger : Ledger) (q : Entry → Int) : Int :=
  (ledger.map fun e ↦ signedOrder e.side (q e)).sum

variable {ledger pre post : Ledger} {e : Entry} {q : Entry → Int}

@[simp] theorem sum_nil : Ledger.sum [] q = 0 := rfl

@[simp] theorem sum_append : Ledger.sum (pre ++ post) q = pre.sum q + post.sum q := by
  rw [Ledger.sum, List.map_append, List.sum_append]
  rfl

@[simp] theorem sum_cons : Ledger.sum (e :: ledger) q = signedOrder e.side (q e) + ledger.sum q := by
  rw [Ledger.sum, List.map_cons, List.sum_cons]
  rfl

theorem signed_add (side : OrderSide) (x y : Int) :
    signedOrder side (x + y) = signedOrder side x + signedOrder side y := by
  cases side with
  | bid => rfl
  | ask => exact Int.neg_add

theorem sum_known (ledger : Ledger) :
    ledger.sum Entry.known = ledger.sum Entry.confirmed + ledger.sum Entry.rest := by
  induction ledger with
  | nil => rfl
  | cons e ledger ih =>
      rw [sum_cons, sum_cons, sum_cons, ih, e.known_eq, signed_add]
      omega

end Ledger

theorem signedOrder_sub (side : OrderSide) (x y : Int) :
    signedOrder side (x - y) = signedOrder side x - signedOrder side y := by
  cases side with
  | bid => rfl
  | ask =>
      simp only [signedOrder]
      omega

theorem signedOrder_zero (side : OrderSide) : signedOrder side 0 = 0 := by
  cases side <;> rfl

theorem signedOrder_eq_zero_iff {side : OrderSide} {x : Int} : signedOrder side x = 0 ↔ x = 0 := by
  cases side with
  | bid => rfl
  | ask => exact Int.neg_eq_zero

/-- The sign of a quantity is that of its side. -/
theorem signedOrder_pos_iff {side : OrderSide} {x y : Int} (hx : 0 < x) (hy : 0 < y) :
    0 < signedOrder side x ↔ 0 < signedOrder side y := by
  cases side with
  | bid => exact iff_of_true hx hy
  | ask =>
      simp only [signedOrder]
      omega

theorem inRange_signedOrder {side : OrderSide} {x : Int} (hnonneg : 0 ≤ x) (hmax : x ≤ I64.max) :
    I64.InRange (signedOrder side x) := by
  have hmax' : (I64.max : Int) = 2 ^ 63 - 1 := rfl
  cases side with
  | bid =>
      simp only [signedOrder, I64.InRange]
      omega
  | ask =>
      simp only [signedOrder, I64.InRange]
      omega

/-- The bot's maps are what the ledger says. -/
structure Tracks {E : EmaOps} (bot : TradingBot E) (ledger : Ledger) : Prop where
  ids : (ledger.map Entry.orderId).Nodup
  wf : ∀ e ∈ ledger, e.Wf
  position : bot.positions.get bot.ticker = I64.wrap (ledger.sum Entry.confirmed)
  entry : ∀ e ∈ ledger, bot.unconfirmedFills.lookup e.orderId = e.unconfirmed
  others : ∀ id ∉ ledger.map Entry.orderId, bot.unconfirmedFills.lookup id = none
  total : bot.unconfirmedFills.total = ledger.sum Entry.rest

namespace Tracks

variable {E : EmaOps} {bot bot' : TradingBot E} {ledger : Ledger}

theorem init (bot : TradingBot E) (hpos : bot.positions = ∅) (hfills : bot.unconfirmedFills = ∅) :
    Tracks bot [] where
  ids := List.nodup_nil
  wf := nofun
  position := by rw [hpos]; rfl
  entry := nofun
  others _ _ := by rw [hfills]; rfl
  total := by rw [hfills]; rfl

/-- Only the maps matter. -/
theorem congr (h : Tracks bot ledger) (hsame : SameAccounts bot bot') : Tracks bot' ledger where
  ids := h.ids
  wf := h.wf
  position := by rw [hsame.positions, hsame.ticker]; exact h.position
  entry := by rw [hsame.unconfirmedFills]; exact h.entry
  others := by rw [hsame.unconfirmedFills]; exact h.others
  total := by rw [hsame.unconfirmedFills]; exact h.total

/-- The exposure is what the bot knows to be filled. -/
theorem exposure_eq (h : Tracks bot ledger) : bot.exposure = I64.wrap (ledger.sum Entry.known) := by
  rw [TradingBot.exposure, h.position, Counters.fold_eq_wrap _ (I64.inRange_wrap _), I64.wrap_wrap_add, h.total,
    Ledger.sum_known]

/-- A new order. -/
theorem append (h : Tracks bot ledger) {e : Entry} (hfresh : e.orderId ∉ ledger.map Entry.orderId)
    (hwf : e.Wf) (hconfirmed : e.confirmed = 0) (hticker : bot'.ticker = bot.ticker)
    (hpos : bot'.positions = bot.positions)
    (hentry : bot'.unconfirmedFills.lookup e.orderId = e.unconfirmed)
    (hothers : ∀ id ≠ e.orderId, bot'.unconfirmedFills.lookup id = bot.unconfirmedFills.lookup id)
    (htotal : bot'.unconfirmedFills.total = bot.unconfirmedFills.total + signedOrder e.side e.rest) :
    Tracks bot' (ledger ++ [e]) where
  ids := by
    rw [List.map_append, List.nodup_append]
    refine ⟨h.ids, List.nodup_singleton _, ?_⟩
    rintro id hid _ hmem rfl
    rw [List.map_singleton, List.mem_singleton] at hmem
    exact hfresh (hmem ▸ hid)
  wf e' he' := by
    rcases List.mem_append.mp he' with he' | he'
    · exact h.wf e' he'
    · rw [List.mem_singleton.mp he']
      exact hwf
  position := by
    rw [hpos, hticker, h.position, Ledger.sum_append, Ledger.sum_cons, hconfirmed, signedOrder_zero,
      Ledger.sum_nil, Int.add_zero, Int.add_zero]
  entry e' he' := by
    rcases List.mem_append.mp he' with he' | he'
    · have hne : e'.orderId ≠ e.orderId := fun heq ↦ hfresh (heq ▸ List.mem_map_of_mem he')
      rw [hothers _ hne, h.entry e' he']
    · rw [List.mem_singleton.mp he', hentry]
  others id hid := by
    rw [List.map_append, List.mem_append, not_or] at hid
    rw [hothers id fun heq ↦ hid.2 (heq ▸ List.mem_cons_self), h.others id hid.1]
  total := by
    rw [htotal, h.total, Ledger.sum_append, Ledger.sum_cons, Ledger.sum_nil, Int.add_zero]

/-- A change to one order. -/
theorem replace {pre post : Ledger} {e e' : Entry} (h : Tracks bot (pre ++ e :: post))
    (hid : e'.orderId = e.orderId) (hside : e'.side = e.side) (hwf : e'.Wf)
    (hticker : bot'.ticker = bot.ticker)
    (hpos : bot'.positions.get bot.ticker =
      I64.wrap (bot.positions.get bot.ticker + signedOrder e.side (e'.confirmed - e.confirmed)))
    (hentry : bot'.unconfirmedFills.lookup e.orderId = e'.unconfirmed)
    (hothers : ∀ id ≠ e.orderId, bot'.unconfirmedFills.lookup id = bot.unconfirmedFills.lookup id)
    (htotal : bot'.unconfirmedFills.total =
      bot.unconfirmedFills.total + signedOrder e.side (e'.rest - e.rest)) :
    Tracks bot' (pre ++ e' :: post) := by
  have hids : (pre ++ e' :: post).map Entry.orderId = (pre ++ e :: post).map Entry.orderId := by
    rw [List.map_append, List.map_cons, hid, List.map_append, List.map_cons]
  have hsum (q : Entry → Int) : Ledger.sum (pre ++ e' :: post) q =
      Ledger.sum (pre ++ e :: post) q + signedOrder e.side (q e' - q e) := by
    simp only [Ledger.sum_append, Ledger.sum_cons, hside, signedOrder_sub]
    omega
  -- The other orders have other identifiers.
  have hne : ∀ e'' ∈ pre ++ post, e''.orderId ≠ e.orderId := by
    intro e'' hmem heq
    have hnodup := h.ids
    rw [List.map_append, List.map_cons, List.nodup_middle, List.nodup_cons, ← List.map_append] at hnodup
    exact hnodup.1 (heq ▸ List.mem_map_of_mem hmem)
  have hmem {e'' : Entry} (he'' : e'' ∈ pre ++ e' :: post) : e'' = e' ∨ e'' ∈ pre ++ post := by
    rw [List.mem_append, List.mem_cons] at he''
    rw [List.mem_append]
    tauto
  have hmem' {e'' : Entry} (he'' : e'' ∈ pre ++ post) : e'' ∈ pre ++ e :: post := by
    rw [List.mem_append] at he''
    rw [List.mem_append, List.mem_cons]
    tauto
  constructor
  · rw [hids]
    exact h.ids
  · intro e'' he''
    rcases hmem he'' with rfl | he''
    · exact hwf
    · exact h.wf e'' (hmem' he'')
  · rw [hticker, hpos, h.position, I64.wrap_wrap_add, hsum]
  · intro e'' he''
    rcases hmem he'' with rfl | he''
    · rw [hid, hentry]
    · rw [hothers _ (hne e'' he''), h.entry e'' (hmem' he'')]
  · intro id hnot
    rw [hids] at hnot
    rw [hothers id fun heq ↦ hnot (heq ▸ List.mem_map_of_mem (List.mem_append_cons_self)), h.others id hnot]
  · rw [htotal, h.total, hsum]

end Tracks

/-! ## Answers and fill messages -/

/-- The action of the fills of an order. -/
def fillAction : OrderSide → FillAction
  | .bid => .buy
  | .ask => .sell

theorem signedFill_fillAction (side : OrderSide) (q : Int) : signedFill (fillAction side) q = signedOrder side q := by
  cases side <;> rfl

theorem readAnswer_le {answer : Except Bytes JsonValue} {parsed : OrderResponse} {filled : Int}
    (h : readAnswer answer = some (parsed, filled)) : filled ≤ I64.max := by
  rw [readAnswer] at h
  split at h
  · cases h
  · obtain ⟨filled, hparse, heq⟩ := Option.map_eq_some_iff.mp h
    cases heq
    exact (parseFixed_range hparse).2

namespace Tracks

variable {E : EmaOps} {bot : TradingBot E} {ledger : Ledger}

/-- An answer the bot can read is counted. -/
theorem account_some (h : Tracks bot ledger) {parsed : OrderResponse} {filled : Int}
    (hfresh : parsed.orderId ∉ ledger.map Entry.orderId) (hnonneg : 0 ≤ filled) (signal : Signal)
    (request : OrderRequest) {answer : Except Bytes JsonValue}
    (hread : readAnswer answer = some (parsed, filled)) :
    Tracks (bot.account signal request answer)
      (ledger ++ [⟨parsed.orderId, signal.side, some filled, 0⟩]) := by
  have hmax := readAnswer_le hread
  have hnone := h.others parsed.orderId hfresh
  have hget : bot.unconfirmedFills.get parsed.orderId = 0 := by
    rw [Counters.get, hnone]
    rfl
  let e : Entry := ⟨parsed.orderId, signal.side, some filled, 0⟩
  have hrest : e.rest = filled := Int.sub_zero _
  have hwf : e.Wf := by
    refine ⟨le_rfl, ?_, ?_⟩
    · rintro _ ⟨⟩
      exact hnonneg
    · rintro _ ⟨⟩
      exact hmax
  rw [TradingBot.account, hread]
  by_cases hpos : 0 < filled
  · -- The order was not there before, so its counter becomes what was filled.
    have hadd : bot.unconfirmedFills.add parsed.orderId (signedOrder signal.side filled) =
        bot.unconfirmedFills.insert parsed.orderId (signedOrder signal.side filled) := by
      rw [Counters.add, hget, Int.zero_add, I64.wrap_eq_self (inRange_signedOrder hnonneg hmax)]
    simp only [gt_iff_lt, if_pos hpos, hadd]
    refine h.append hfresh hwf rfl rfl rfl ?_ ?_ ?_
    · rw [Entry.unconfirmed, hrest, if_neg hpos.ne']
      exact AList.lookup_insert _
    · intro id hid
      exact AList.lookup_insert_ne hid
    · rw [Counters.total_insert, hget, hrest, Int.sub_zero]
  · have hzero : filled = 0 := by omega
    simp only [gt_iff_lt, if_neg hpos]
    refine h.append hfresh hwf rfl rfl rfl ?_ (fun _ _ ↦ rfl) ?_
    · rw [Entry.unconfirmed, hrest, if_pos hzero]
      exact hnone
    · rw [hrest, hzero, signedOrder_zero, Int.add_zero]

/-- An answer the bot cannot read is not. -/
theorem account_none (h : Tracks bot ledger) {orderId : Bytes} (hfresh : orderId ∉ ledger.map Entry.orderId)
    (signal : Signal) (request : OrderRequest) {answer : Except Bytes JsonValue}
    (hread : readAnswer answer = none) :
    Tracks (bot.account signal request answer) (ledger ++ [⟨orderId, signal.side, none, 0⟩]) := by
  rw [TradingBot.account, hread]
  refine h.append hfresh ⟨le_rfl, by rintro _ ⟨⟩, by rintro _ ⟨⟩⟩ rfl rfl rfl (h.others orderId hfresh) (fun _ _ ↦ rfl) ?_
  change _ = _ + signedOrder signal.side 0
  rw [signedOrder_zero, Int.add_zero]

/-- **An answer** puts the order into the ledger. -/
theorem account (h : Tracks bot ledger) {orderId : Bytes} (hfresh : orderId ∉ ledger.map Entry.orderId)
    (signal : Signal) (request : OrderRequest) {answer : Except Bytes JsonValue}
    (hanswer : ∀ (parsed : OrderResponse) (filled : Int), readAnswer answer = some (parsed, filled) →
      parsed.orderId = orderId ∧ 0 ≤ filled) :
    Tracks (bot.account signal request answer)
      (ledger ++ [⟨orderId, signal.side, (readAnswer answer).map Prod.snd, 0⟩]) := by
  cases hread : readAnswer answer with
  | none => exact h.account_none hfresh signal request hread
  | some read =>
      obtain ⟨parsed, filled⟩ := read
      obtain ⟨rfl, hnonneg⟩ := hanswer parsed filled hread
      exact h.account_some hfresh hnonneg signal request hread

section Fill

variable {pre post : Ledger} {e : Entry} {fill : Fill} {q : Int}

/-- What a fill message leaves unconfirmed of an order that has something unconfirmed. -/
theorem unconfirmedFills_onFill (h : Tracks bot (pre ++ e :: post)) (hid : fill.orderId = e.orderId)
    (haction : fill.action = fillAction e.side) (hq : parseContracts fill.countFp = some q) (hwf : (e.confirm q).Wf)
    (hrest : e.rest ≠ 0) :
    (bot.onFill fill).unconfirmedFills =
      if (e.confirm q).rest = 0 then bot.unconfirmedFills.erase e.orderId
      else bot.unconfirmedFills.insert e.orderId (signedOrder e.side (e.confirm q).rest) := by
  have hmem : e ∈ pre ++ e :: post := List.mem_append_cons_self
  have hbefore : bot.unconfirmedFills.lookup e.orderId = some (signedOrder e.side e.rest) := by
    rw [h.entry e hmem, Entry.unconfirmed, if_neg hrest]
  have hafter : I64.wrap (signedOrder e.side e.rest - signedFill fill.action q) =
      signedOrder e.side (e.confirm q).rest := by
    rw [haction, signedFill_fillAction, ← signedOrder_sub, ← Entry.rest_confirm hrest]
    exact I64.wrap_eq_self (inRange_signedOrder hwf.rest_range.1 hwf.rest_range.2)
  rw [TradingBot.onFill, hq]
  dsimp only
  rw [hid, hbefore]
  dsimp only
  rw [hafter]
  by_cases hzero : (e.confirm q).rest = 0
  · simp only [hzero, signedOrder_zero, decide_true, Bool.true_or, if_true]
  · -- What is left has the sign it had before.
    have hsign : decide (signedOrder e.side e.rest > 0) = decide (signedOrder e.side (e.confirm q).rest > 0) := by
      have hpos := lt_of_le_of_ne (h.wf e hmem).rest_range.1 (Ne.symm hrest)
      have hpos' := lt_of_le_of_ne hwf.rest_range.1 (Ne.symm hzero)
      exact decide_eq_decide.mpr (signedOrder_pos_iff hpos hpos')
    simp only [hsign, signedOrder_eq_zero_iff, hzero, decide_false, bne_self_eq_false, Bool.or_self,
      Bool.false_eq_true, if_false]

/-- **A fill message** moves its quantity from what is unconfirmed to the position. -/
theorem onFill (h : Tracks bot (pre ++ e :: post)) (hid : fill.orderId = e.orderId)
    (hticker : fill.marketTicker = bot.ticker) (haction : fill.action = fillAction e.side)
    (hq : parseContracts fill.countFp = some q) (hnonneg : 0 ≤ q)
    (hle : ∀ filled ∈ e.reported, e.confirmed + q ≤ filled) :
    Tracks (bot.onFill fill) (pre ++ e.confirm q :: post) := by
  have hmem : e ∈ pre ++ e :: post := List.mem_append_cons_self
  have hwf := h.wf e hmem
  have hwf' : (e.confirm q).Wf :=
    ⟨Int.add_nonneg hwf.confirmed_nonneg hnonneg, hle, hwf.reported_le⟩
  have hlookup := h.entry e hmem
  have hkept : (bot.onFill fill).ticker = bot.ticker := by rw [TradingBot.onFill, hq]
  have hpos : (bot.onFill fill).positions.get bot.ticker =
      I64.wrap (bot.positions.get bot.ticker + signedOrder e.side ((e.confirm q).confirmed - e.confirmed)) := by
    have hdiff : (e.confirm q).confirmed - e.confirmed = q := by
      change e.confirmed + q - e.confirmed = q
      omega
    rw [TradingBot.onFill, hq]
    dsimp only
    rw [hticker, Counters.get_add_self, haction, signedFill_fillAction, hdiff]
  by_cases hrest : e.rest = 0
  · -- The order has no unconfirmed fills, and gets none.
    have hrest' : (e.confirm q).rest = 0 := hwf'.rest_eq_zero hnonneg hrest
    have hfills : (bot.onFill fill).unconfirmedFills = bot.unconfirmedFills := by
      rw [TradingBot.onFill, hq]
      dsimp only
      rw [hid, hlookup, Entry.unconfirmed, if_pos hrest]
    refine h.replace rfl rfl hwf' hkept hpos ?_ (fun _ _ ↦ by rw [hfills]) ?_
    · rw [hfills, hlookup, Entry.unconfirmed, Entry.unconfirmed, if_pos hrest, if_pos hrest']
    · rw [hfills, hrest, hrest', Int.sub_zero, signedOrder_zero, Int.add_zero]
  · have hfills := h.unconfirmedFills_onFill hid haction hq hwf' hrest
    have hget : bot.unconfirmedFills.get e.orderId = signedOrder e.side e.rest := by
      rw [Counters.get, hlookup, Entry.unconfirmed, if_neg hrest, Option.getD_some]
    by_cases hzero : (e.confirm q).rest = 0
    · -- The last of it is confirmed.
      rw [if_pos hzero] at hfills
      refine h.replace rfl rfl hwf' hkept hpos ?_ ?_ ?_
      · rw [hfills, Entry.unconfirmed, if_pos hzero]
        exact AList.lookup_erase _ _
      · intro id hid
        rw [hfills]
        exact AList.lookup_erase_ne hid
      · rw [hfills, Counters.total_erase, hget, signedOrder_sub, hzero, signedOrder_zero, Int.zero_sub]
        rfl
    · rw [if_neg hzero] at hfills
      refine h.replace rfl rfl hwf' hkept hpos ?_ ?_ ?_
      · rw [hfills, Entry.unconfirmed, if_neg hzero]
        exact AList.lookup_insert _
      · intro id hid
        rw [hfills]
        exact AList.lookup_insert_ne hid
      · rw [hfills, Counters.total_insert, hget, signedOrder_sub]
        omega

end Fill

end Tracks

end KalshiClient.Trading
