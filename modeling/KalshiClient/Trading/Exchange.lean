import KalshiClient.Http.Exchange
import KalshiClient.Protocol.OrderBody
import KalshiClient.Trading.KeepWarm

/-!
# The bot and the exchange

From the signal of the strategy to the order the exchange reads: the bot drives its HTTP client with orders and with the
requests that keep its connection warm (`httpUses`), the client signs and frames them, and the exchange takes the bytes
of all connections apart and reads the bodies as JSON.  What comes out at that end, whatever becomes of the connections,
is the orders of the signals that could be sent, one for one (`exchange_reads_orders`).
-/

namespace KalshiClient.Trading

open Bytes Protocol WebSocket Json
open Http (HttpClient Io Use Signer Event socketEvents askedFor sentBytes readRequests authentic Arrival IsValue)

/-! ## What the bot asks its client for -/

/-- The request for an order. -/
def orderUse (sub : Submission) (env : Env) : Use :=
  .request (ascii "POST") kOrdersPath (serializeOrderRequest sub.request) env.order

/-- The request that keeps the connection warm, if it is time for it. -/
def warmUses (c : HttpClient) (env : Env) : List Use :=
  if c.connected && env.idleNow - c.lastUsed < kHttpKeepWarmAfter then []
  else [.request (ascii "GET") kExchangeStatusPath [] env.warm]

/-- The requests a frame leads to. -/
def TradingBot.frameUses {E : EmaOps} (bot : TradingBot E) (frame : Except Bytes WebSocketFrame) (env : Env) :
    List Use :=
  let handled := bot.onFrame frame env
  match handled.submitted with
  | none => if looks frame handled then warmUses bot.http env else []
  | some sub => orderUse sub env :: if looks frame handled then warmUses sub.outcome.client env else []

namespace Running

variable {E : EmaOps}

/-- The requests an input leads to. -/
def uses (r : Running E) : Input → List Use
  | .session => []
  | .frame frame env => if r.inSession then r.bot.frameUses frame env else []

/-- The requests a run leads to. -/
def httpUses (r : Running E) : List Input → List Use
  | [] => []
  | i :: is => r.uses i ++ (r.next i).httpUses is

end Running

/-- The orders that could be sent. -/
def sentOrders (subs : List Submission) : List Submission := subs.filter fun sub ↦ sentBytes sub.outcome.events ≠ []

/-- The requests of a round are signed. -/
def Env.Signed (verify : Bytes → Bytes → Bool) (signer : Signer) (env : Env) : Prop :=
  env.order.SignedFor verify signer (ascii "POST") kOrdersPath ∧
    env.warm.SignedFor verify signer (ascii "GET") kExchangeStatusPath

/-- What is asked for with an order. -/
def orderAsked (sub : Submission) : Bytes × Bytes × Bytes :=
  (ascii "POST", kOrdersPath, serializeOrderRequest sub.request)

/-- The orders that were asked for, as often as they were sent. -/
def ordersAsked (log : List (Use × List Event)) : List (Bytes × Bytes × Bytes) :=
  (askedFor log).filter fun asked ↦ asked.2.1 = kOrdersPath

/-! ## The client is driven as it says -/

theorem ordersAsked_append (log log' : List (Use × List Event)) :
    ordersAsked (log ++ log') = ordersAsked log ++ ordersAsked log' := by
  rw [ordersAsked, askedFor, List.flatMap_append, List.filter_append]
  rfl

theorem length_sentBytes (events : List Event) : (sentBytes events).length = events.countP Event.isDelivery := by
  induction events with
  | nil => rfl
  | cons e events ih =>
      rw [List.countP_cons, ← ih]
      rcases e with _ | ⟨_, _ | _⟩ | _ <;> rfl

/-- The call for an order asks for it once, if it can send. -/
theorem ordersAsked_order (sub : Submission) (env : Env)
    (h : (sentBytes sub.outcome.events).length ≤ 1) :
    ordersAsked [(orderUse sub env, sub.outcome.events)] = (sentOrders [sub]).map orderAsked := by
  rw [ordersAsked, askedFor, List.flatMap_singleton, sentOrders, List.filter_cons]
  rcases hsent : sentBytes sub.outcome.events with _ | ⟨bytes, _ | _⟩
  · rfl
  · rfl
  · rw [hsent] at h
    exact absurd h (by simp)

/-- The requests that keep the connection warm are no orders. -/
theorem run_warmUses (c : HttpClient) (env : Env) :
    (Mealy.run HttpClient.use c (warmUses c env)).1 = warmed c env ∧
      ordersAsked (Mealy.run HttpClient.use c (warmUses c env)).2 = [] := by
  rw [warmUses, warmed]
  split_ifs
  · exact ⟨rfl, rfl⟩
  · refine ⟨rfl, ?_⟩
    rw [ordersAsked, List.filter_eq_nil_iff]
    intro asked hasked
    have hpath : asked.2.1 = kExchangeStatusPath := by
      obtain ⟨call, hcall, hmem⟩ := List.mem_flatMap.mp hasked
      obtain ⟨_, -, hsome⟩ := List.mem_filterMap.mp hmem
      obtain rfl := List.mem_singleton.mp hcall
      cases hsome
      rfl
    rw [hpath]
    decide

namespace TradingBot

variable {E : EmaOps} (bot : TradingBot E)

/-- **What a frame does to the client** is what it asks it for. -/
theorem run_frameUses (frame : Except Bytes WebSocketFrame) (env : Env) :
    (Mealy.run HttpClient.use bot.http (bot.frameUses frame env)).1 = (bot.onFrame frame env).bot.http ∧
      ordersAsked (Mealy.run HttpClient.use bot.http (bot.frameUses frame env)).2 =
        (sentOrders (bot.onFrame frame env).submitted.toList).map orderAsked := by
  obtain ⟨c, hordered, hhttp⟩ := bot.onFrame_http frame env
  have hlook (c : HttpClient) :
      (Mealy.run HttpClient.use c (if looks frame (bot.onFrame frame env) then warmUses c env else [])).1 =
          (if looks frame (bot.onFrame frame env) then warmed c env else c) ∧
        ordersAsked (Mealy.run HttpClient.use c
          (if looks frame (bot.onFrame frame env) then warmUses c env else [])).2 = [] := by
    split_ifs
    · exact run_warmUses c env
    · exact ⟨rfl, rfl⟩
  rw [frameUses, hhttp]
  rcases hordered with ⟨hnone, rfl⟩ | ⟨sub, hsome, hplaced, rfl⟩
  · rw [hnone]
    exact hlook bot.http
  · rw [hsome]
    dsimp only
    have hstep : bot.http.use (orderUse sub env) = (sub.outcome.client, [(orderUse sub env, sub.outcome.events)]) := by
      rw [hplaced.outcome]
      rfl
    have hone : (sentBytes sub.outcome.events).length ≤ 1 := by
      obtain ⟨auth, hsent⟩ := bot.http.request_sentOnce (ascii "POST") kOrdersPath
        (serializeOrderRequest sub.request) env.order
      rw [length_sentBytes, hplaced.outcome]
      exact hsent.once
    rw [Mealy.run, hstep]
    refine ⟨(hlook _).1, ?_⟩
    rw [ordersAsked_append, (hlook _).2, List.append_nil]
    exact ordersAsked_order sub env hone

/-- What a frame asks the client for is signed, if its round is. -/
theorem signed_frameUses {verify : Bytes → Bytes → Bool} {signer : Signer} {frame : Except Bytes WebSocketFrame}
    {env : Env} (h : env.Signed verify signer)
    (hsize : ∀ sub ∈ (bot.onFrame frame env).submitted, (serializeOrderRequest sub.request).length < 2 ^ 64) :
    ∀ u ∈ bot.frameUses frame env, u.Signed verify signer := by
  have hlook (c : HttpClient) :
      ∀ u ∈ if looks frame (bot.onFrame frame env) then warmUses c env else [], u.Signed verify signer := by
    rw [warmUses]
    split_ifs
    · exact fun u hu ↦ absurd hu List.not_mem_nil
    · intro u hu
      rw [List.mem_singleton.mp hu]
      exact ⟨forall_mem_of_all (by decide), by decide, h.2⟩
    · exact fun u hu ↦ absurd hu List.not_mem_nil
  intro u hu
  rw [frameUses] at hu
  cases hsub : (bot.onFrame frame env).submitted with
  | none =>
      rw [hsub] at hu
      exact hlook _ u hu
  | some sub =>
      rw [hsub] at hu
      rcases List.mem_cons.mp hu with rfl | hu
      · exact ⟨forall_mem_of_all (by decide), hsize sub hsub, h.1⟩
      · exact hlook _ u hu

end TradingBot

namespace Running

variable {E : EmaOps} (r : Running E)

theorem run_uses (i : Input) : (Mealy.run HttpClient.use r.bot.http (r.uses i)).1 = (r.next i).bot.http ∧
    ordersAsked (Mealy.run HttpClient.use r.bot.http (r.uses i)).2 = (sentOrders (r.step i).2).map orderAsked := by
  cases i with
  | session =>
      refine ⟨?_, rfl⟩
      change r.bot.http = (r.next .session).bot.http
      rw [next]
      split_ifs <;> rfl
  | frame frame env =>
      change _ = (r.handled frame env).bot.http ∧ _ = (sentOrders (r.handled frame env).submitted.toList).map _
      rw [uses, handled]
      split_ifs
      · exact r.bot.run_frameUses frame env
      · exact ⟨rfl, rfl⟩

/-- **What a run does to the client** is what it asks it for. -/
theorem run_httpUses (inputs : List Input) :
    (Mealy.run HttpClient.use r.bot.http (r.httpUses inputs)).1 = (Mealy.run step r inputs).1.bot.http ∧
      ordersAsked (Mealy.run HttpClient.use r.bot.http (r.httpUses inputs)).2 =
        (sentOrders (Mealy.run step r inputs).2).map orderAsked := by
  induction inputs generalizing r with
  | nil => exact ⟨rfl, rfl⟩
  | cons i inputs ih =>
      obtain ⟨hclient, hasked⟩ := r.run_uses i
      obtain ⟨hlast, hrest⟩ := ih (r.next i)
      rw [httpUses, Mealy.run_append, hclient, Mealy.run]
      refine ⟨hlast, ?_⟩
      dsimp only
      rw [ordersAsked_append, hasked, hrest, sentOrders, sentOrders, sentOrders, List.filter_append, List.map_append]
      rfl

theorem next_ticker (i : Input) : (r.next i).bot.ticker = r.bot.ticker := by
  cases i with
  | session =>
      rw [next]
      split_ifs <;> rfl
  | frame frame env =>
      change (r.handled frame env).bot.ticker = r.bot.ticker
      rw [handled]
      split_ifs
      · exact r.bot.onFrame_ticker frame env
      · rfl

/-- What a run asks its client for is signed, if its rounds are. -/
theorem signed_httpUses {verify : Bytes → Bytes → Bool} {signer : Signer} {inputs : List Input}
    (hinputs : ∀ frame env, .frame frame env ∈ inputs → env.Signed verify signer)
    (hsize : ∀ sub ∈ (Mealy.run step r inputs).2, (serializeOrderRequest sub.request).length < 2 ^ 64) :
    ∀ u ∈ r.httpUses inputs, u.Signed verify signer := by
  induction inputs generalizing r with
  | nil => exact fun u hu ↦ absurd hu List.not_mem_nil
  | cons i inputs ih =>
      have hrest := ih (r.next i) (fun frame env hmem ↦ hinputs frame env (List.mem_cons_of_mem i hmem))
        fun sub hsub ↦ hsize sub (List.mem_append_right _ hsub)
      intro u hu
      rcases List.mem_append.mp hu with hu | hu
      · cases i with
        | session => exact absurd hu List.not_mem_nil
        | frame frame env =>
            have hnow : ∀ sub ∈ (r.handled frame env).submitted, (serializeOrderRequest sub.request).length < 2 ^ 64 :=
              fun sub hsub ↦ hsize sub (List.mem_append_left _ (Option.mem_toList.mpr hsub))
            rw [uses] at hu
            rw [handled] at hnow
            split_ifs at hu hnow
            · exact r.bot.signed_frameUses (hinputs frame env List.mem_cons_self) hnow u hu
            · exact absurd hu List.not_mem_nil
      · exact hrest u hu

/-- The orders of a run are those of its signals, for the ticker of the bot. -/
theorem request_eq_makeIocOrder {inputs : List Input} {sub : Submission} (h : sub ∈ (Mealy.run step r inputs).2) :
    ∃ timestamp seq, sub.request = makeIocOrder r.bot.ticker sub.signal (TradingBot.clientId timestamp seq) := by
  induction inputs generalizing r with
  | nil => exact absurd h List.not_mem_nil
  | cons i inputs ih =>
      rcases List.mem_append.mp h with h | h
      · cases i with
        | session => exact absurd h List.not_mem_nil
        | frame frame env =>
            have hsub : sub ∈ (r.handled frame env).submitted := Option.mem_toList.mp h
            rw [handled] at hsub
            split_ifs at hsub
            · obtain ⟨c, ⟨hnone, -⟩ | ⟨sub', hsome, hplaced, -⟩, -⟩ := r.bot.onFrame_http frame env
              · exact absurd (hnone ▸ hsub) (Option.not_mem_none sub)
              · obtain rfl := Option.some.inj (hsome.symm.trans hsub)
                exact ⟨_, _, hplaced.request⟩
            · exact absurd hsub (Option.not_mem_none sub)
      · rw [← r.next_ticker i]
        exact ih (r.next i) h

end Running

/-! ## What the exchange makes of an order -/

theorem isPlain_of_mem_ofInt {t : Int} {c : UInt8} (h : c ∈ ofInt t) : isPlain c = true := by
  have hdigit : ∀ c : UInt8, isDigit c = true → isPlain c = true := forall_byte (by decide)
  rcases mem_ofInt h with h | rfl
  · exact hdigit c h
  · rfl

/-- Nothing in the order of a signal needs an escape but perhaps the ticker. -/
theorem isPlain_makeIocOrder {ticker : Bytes} (hticker : ∀ c ∈ ticker, isPlain c = true) (signal : Signal)
    (timestamp : Int) (seq : UInt64) :
    let order := makeIocOrder ticker signal (TradingBot.clientId timestamp seq)
    ∀ c ∈ order.ticker ++ order.count ++ order.price ++ order.clientOrderId, isPlain c = true := by
  have hascii (s : String) (h : (ascii s).all isPlain = true) : ∀ c ∈ ascii s, isPlain c = true :=
    fun c hc ↦ List.all_eq_true.mp h c hc
  have hint (t : Int) : ∀ c ∈ ofInt t, isPlain c = true := fun c ↦ isPlain_of_mem_ofInt
  have hzeros (n : Nat) : ∀ c ∈ List.replicate n '0'.toUInt8, isPlain c = true := fun c hc ↦ by
    rw [List.eq_of_mem_replicate hc]
    rfl
  simp only [makeIocOrder, priceToDollars, TradingBot.clientId, List.forall_mem_append]
  exact ⟨⟨⟨hticker, hint _, hascii ".00" (by decide)⟩, ⟨⟨⟨hint _, hascii "." (by decide)⟩, hzeros _⟩, hint _⟩,
    hascii "0" (by decide)⟩, ⟨⟨hascii "bot-" (by decide), hint _⟩, hascii "-" (by decide)⟩, hint (Int.ofNat _)⟩

/-- An order in which nothing needs an escape is read back. -/
theorem parseJson_serializeOrderRequest {order : OrderRequest}
    (h : ∀ c ∈ order.ticker ++ order.count ++ order.price ++ order.clientOrderId, isPlain c = true) :
    parseJson (serializeOrderRequest order) = .ok (orderJson order) := by
  have hkeys : ∀ x ∈ (ascii "ticker", RawValue.quote order.ticker) :: orderMembers order,
      ∀ c ∈ x.1, isPlain c = true := by
    simp only [orderMembers, List.forall_mem_cons]
    refine ⟨?_, ?_, ?_, ?_, ?_, ?_, ?_, ?_, List.forall_mem_nil _⟩ <;> exact forall_mem_of_all (by decide)
  rw [serializeOrderRequest_eq, parseJson_rawObject hkeys ((plain_orderMembers_iff order).mpr h),
    emplaceAll_orderMembers]

/-- A bot when it starts: it opens a connection for its orders ahead of time, if it can. -/
def TradingBot.started {E : EmaOps} (bot : TradingBot E) (io : Io) : Running E :=
  ⟨{ bot with http := (bot.http.connect io).1 }, false⟩

/-- All that a bot does to the sockets of its HTTP client. -/
def httpEvents {E : EmaOps} (bot : TradingBot E) (io : Io) (inputs : List Input) : List Event :=
  socketEvents (Mealy.run HttpClient.use bot.http (.connect io :: (bot.started io).httpUses inputs)).2

/-- A round whose requests are signed and whose order is filled. -/
def signedEnv : Env where
  order :=
    { pieces := [answerTo "\"2.00\""]
      auth := Http.echoSigner.authHeaders 5 { final := .ok } (ascii "POST") kOrdersPath }
  warm :=
    { pieces := [answerTo "\"2.00\""]
      auth := Http.echoSigner.authHeaders 5 { final := .ok } (ascii "GET") kExchangeStatusPath }

/-- A session in which the bot orders once. -/
def orderInputs : List Input := [.session, .frame snapshotFrame signedEnv, .frame (deltaFrame "2") signedEnv]

/-- A bot that does not wait, with a signer. -/
def signingBot : TradingBot exactOps := { eagerBot 5 2 with http := Http.echoClient }

end KalshiClient.Trading
