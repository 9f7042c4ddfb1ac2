import KalshiClient.Http.Sending
import KalshiClient.Trading.Exposure

/-!
# No order is sent twice

A history of the calls the bot makes to its HTTP client: orders, the requests that keep the connection warm, and the
connection opened ahead of time, with any outcome of the operations on the socket.  Each call sends what it sends
once, whatever fails costs the connection, and the orders of one process have different identifiers; so no identifier
reaches the exchange twice (`no_order_duplicated`).
-/

namespace KalshiClient.Trading

open Bytes Protocol Http WebSocket

/-! ## Identifiers -/

/-- The number of an order can be read off its identifier, whatever the time: it follows the last dash. -/
theorem TradingBot.clientId_injective {t t' : Int} {seq seq' : UInt64}
    (h : clientId t seq = clientId t' seq') : seq = seq' := by
  have hlast (pre : Bytes) (n : Nat) :
      ((pre ++ ascii "-" ++ ofNat n).reverse.takeWhile isDigit).reverse = ofNat n := by
    rw [List.reverse_append, List.reverse_append,
      List.takeWhile_append_of_pos fun c hc ↦ isDigit_of_mem_ofNat (List.mem_reverse.mp hc)]
    change ((ofNat n).reverse ++ ('-'.toUInt8 :: pre.reverse).takeWhile isDigit).reverse = _
    rw [List.takeWhile_cons_of_neg (by decide), List.append_nil, List.reverse_reverse]
  have hdigits : ofNat seq.toNat = ofNat seq'.toNat := by
    rw [← hlast (ascii "bot-" ++ ofInt t) seq.toNat, ← hlast (ascii "bot-" ++ ofInt t') seq'.toNat]
    exact congrArg (fun id ↦ (List.takeWhile isDigit id.reverse).reverse) h
  exact UInt64.toNat_inj.mp (ofNat_injective hdigits)

/-! ## Histories -/

/-- A call to the HTTP client. -/
structure Call where
  /-- The order it carries. -/
  order : Option OrderRequest
  /-- Whether it started on a connection that was used before. -/
  reused : Bool
  /-- What it did to the socket. -/
  events : List Event

namespace Call

/-- The identifier of the order. -/
def clientOrderId (call : Call) : Option Bytes := call.order.map OrderRequest.clientOrderId

/-- The identifier, as often as it reaches the exchange. -/
def delivered (call : Call) : List Bytes :=
  (call.events.filter Event.isDelivery).filterMap fun _ ↦ call.clientOrderId

/-- The call sends one request, with its order as the body, and does with it what it may. -/
def SentOnce (call : Call) : Prop :=
  ∃ bytes, (∀ order ∈ call.order, serializeOrderRequest order <:+ bytes) ∧
    Http.SentOnce bytes call.reused call.events

theorem SentOnce.delivered_sublist {call : Call} (h : call.SentOnce) :
    call.delivered.Sublist call.clientOrderId.toList := by
  obtain ⟨bytes, -, hsent⟩ := h
  have hone := hsent.once
  rw [List.countP_eq_length_filter] at hone
  rw [delivered]
  match call.events.filter Event.isDelivery, hone with
  | [], _ => exact List.nil_sublist _
  | [e], _ =>
      cases call.clientOrderId with
      | none => exact List.nil_sublist _
      | some id => exact List.Sublist.refl _

end Call

/-- The identifiers of the orders, in the order of their submission. -/
def clientOrderIds (calls : List Call) : List Bytes := calls.filterMap Call.clientOrderId

/-- The identifiers that reach the exchange. -/
def deliveredIds (calls : List Call) : List Bytes := calls.flatMap Call.delivered

/-- All that is done to the socket. -/
def trace (calls : List Call) : List Event := calls.flatMap Call.events

theorem clientOrderIds_cons (call : Call) (calls : List Call) :
    clientOrderIds (call :: calls) = call.clientOrderId.toList ++ clientOrderIds calls := by
  rw [clientOrderIds, List.filterMap_cons]
  cases call.clientOrderId <;> rfl

theorem clientOrderIds_concat (calls : List Call) (call : Call) :
    clientOrderIds (calls ++ [call]) = clientOrderIds calls ++ call.clientOrderId.toList := by
  rw [clientOrderIds, List.filterMap_append]
  change _ ++ clientOrderIds [call] = _
  rw [clientOrderIds_cons]
  exact congrArg _ (List.append_nil _)

theorem trace_concat (calls : List Call) (call : Call) : trace (calls ++ [call]) = trace calls ++ call.events := by
  rw [trace, List.flatMap_append, List.flatMap_singleton]
  rfl

theorem deliveredIds_sublist {calls : List Call} (h : ∀ call ∈ calls, call.SentOnce) :
    (deliveredIds calls).Sublist (clientOrderIds calls) := by
  induction calls with
  | nil => exact List.Sublist.refl _
  | cons call calls ih =>
      have hcalls := ih fun call hmem ↦ h call (List.mem_cons_of_mem _ hmem)
      rw [deliveredIds, List.flatMap_cons, clientOrderIds_cons]
      exact (h call List.mem_cons_self).delivered_sublist.append hcalls

/-- What a bot has been made to do, from its start: orders are submitted, and anything else may happen in between that
leaves the HTTP client and the number of orders alone. -/
inductive History {E : EmaOps} : TradingBot E → List Call → Prop
  | start {bot : TradingBot E} (hseq : bot.orderSeq = 0) (hhttp : bot.http.connected = false) : History bot []
  | submit {bot : TradingBot E} {calls : List Call} (h : History bot calls) (signal : Signal) (env : Env) :
      History (bot.submit signal env).1 (calls ++ [⟨some (bot.submit signal env).2.request,
        bot.http.reused env.order, (bot.submit signal env).2.outcome.events⟩])
  | warm {bot : TradingBot E} {calls : List Call} (h : History bot calls) (env : Env) {outcome : Outcome}
      (houtcome : bot.warmRequest env = some outcome) :
      History (bot.keepHttpWarm env) (calls ++ [⟨none, bot.http.reused env.warm, outcome.events⟩])
  | connect {bot : TradingBot E} {calls : List Call} (h : History bot calls) (io : Io) :
      History { bot with http := (bot.http.connect io).1 }
        (calls ++ [⟨none, bot.http.reused io, (bot.http.connect io).2.2⟩])
  | other {bot bot' : TradingBot E} {calls : List Call} (h : History bot calls) (hhttp : bot'.http = bot.http)
      (hseq : bot'.orderSeq = bot.orderSeq) : History bot' calls

/-! ## What a call does -/

namespace TradingBot

variable {E : EmaOps} (bot : TradingBot E)

theorem account_http (signal : Signal) (request : OrderRequest) (answer : Except Bytes Json.JsonValue) :
    (bot.account signal request answer).http = bot.http ∧
      (bot.account signal request answer).orderSeq = bot.orderSeq := by
  rw [account]
  cases readAnswer answer <;> exact ⟨rfl, rfl⟩

theorem submit_http (signal : Signal) (env : Env) :
    (bot.submit signal env).1.http = (bot.submit signal env).2.outcome.client := (account_http _ _ _ _).1

theorem submit_orderSeq (signal : Signal) (env : Env) :
    (bot.submit signal env).1.orderSeq = bot.orderSeq + 1 := (account_http _ _ _ _).2

/-- The request that keeps the connection warm. -/
theorem warmRequest_eq_some {env : Env} {outcome : Outcome} (h : bot.warmRequest env = some outcome) :
    outcome = bot.http.request (ascii "GET") kExchangeStatusPath [] env.warm ∧
      bot.keepHttpWarm env = { bot with http := outcome.client } := by
  rw [keepHttpWarm, h]
  rw [warmRequest] at h
  split_ifs at h
  exact ⟨(Option.some.inj h).symm, rfl⟩

end TradingBot

theorem body_suffix_requestBytes (c : HttpClient) (method path body auth : Bytes) :
    body <:+ c.requestBytes method path body auth := List.suffix_append _ _

namespace History

variable {E : EmaOps} {bot : TradingBot E} {calls : List Call}

/-- Each call sends what it sends once. -/
theorem sentOnce (h : History bot calls) : ∀ call ∈ calls, call.SentOnce := by
  have hconcat {calls : List Call} {call : Call} (ih : ∀ call ∈ calls, call.SentOnce) (hcall : call.SentOnce) :
      ∀ call' ∈ calls ++ [call], call'.SentOnce := by
    intro call' hmem
    rcases List.mem_append.mp hmem with hmem | hmem
    · exact ih call' hmem
    · rw [List.mem_singleton.mp hmem]
      exact hcall
  induction h with
  | start => exact fun call hmem ↦ absurd hmem List.not_mem_nil
  | @submit bot calls h signal env ih =>
      obtain ⟨auth, hsent⟩ := bot.http.request_sentOnce (ascii "POST") kOrdersPath
        (serializeOrderRequest (bot.submit signal env).2.request) env.order
      refine hconcat ih ⟨_, ?_, hsent⟩
      rintro order ⟨⟩
      exact body_suffix_requestBytes _ _ _ _ _
  | @warm bot calls h env outcome houtcome ih =>
      obtain ⟨rfl, -⟩ := bot.warmRequest_eq_some houtcome
      obtain ⟨auth, hsent⟩ := bot.http.request_sentOnce (ascii "GET") kExchangeStatusPath [] env.warm
      exact hconcat ih ⟨_, by rintro order ⟨⟩, hsent⟩
  | @connect bot calls h io ih =>
      refine hconcat ih ⟨[], by rintro order ⟨⟩, .of_countP_eq_zero ?_⟩
      rw [HttpClient.connect]
      split <;> rfl
  | other _ _ _ ih => exact ih

/-- All calls together run connections as they may. -/
theorem run (h : History bot calls) : Connection.Run none (trace calls) bot.http.connection := by
  induction h with
  | start hseq hhttp =>
      rw [HttpClient.connection_of_not_connected hhttp]
      exact .nil
  | @submit bot calls h signal env ih =>
      rw [trace_concat, bot.submit_http]
      exact ih.append (bot.http.request_run _ _ _ _)
  | @warm bot calls h env outcome houtcome ih =>
      obtain ⟨rfl, hwarm⟩ := bot.warmRequest_eq_some houtcome
      rw [trace_concat, hwarm]
      exact ih.append (bot.http.request_run _ _ _ _)
  | @connect bot calls h io ih =>
      rw [trace_concat]
      exact ih.append (bot.http.connect_run io)
  | other _ hhttp _ ih =>
      rw [hhttp]
      exact ih

/-- The orders are numbered from one on. -/
theorem clientOrderIds_eq (h : History bot calls) :
    ∃ stamps : List Int, bot.orderSeq = UInt64.ofNat stamps.length ∧
      clientOrderIds calls = stamps.mapIdx fun i t ↦ TradingBot.clientId t (UInt64.ofNat (i + 1)) := by
  have hcall {calls : List Call} {call : Call} (hid : call.clientOrderId = none) :
      clientOrderIds (calls ++ [call]) = clientOrderIds calls := by
    rw [clientOrderIds_concat, hid]
    exact List.append_nil _
  induction h with
  | start hseq => exact ⟨[], hseq, rfl⟩
  | @submit bot calls h signal env ih =>
      obtain ⟨stamps, hseq, hids⟩ := ih
      have hnext : bot.orderSeq + 1 = UInt64.ofNat (stamps.length + 1) := by
        rw [hseq, UInt64.ofNat_add]
        rfl
      refine ⟨stamps ++ [env.timestamp], ?_, ?_⟩
      · rw [bot.submit_orderSeq, hnext, List.length_append]
        rfl
      · rw [clientOrderIds_concat, hids, List.mapIdx_concat, ← hnext]
        rfl
  | @warm bot calls h env outcome houtcome ih =>
      rw [hcall rfl, (bot.warmRequest_eq_some houtcome).2]
      exact ih
  | connect _ _ ih =>
      rw [hcall rfl]
      exact ih
  | other _ _ hseq ih =>
      rw [hseq]
      exact ih

/-- Fewer than `2 ^ 64` orders have different identifiers. -/
theorem nodup_clientOrderIds (h : History bot calls) (hcount : (clientOrderIds calls).length < 2 ^ 64) :
    (clientOrderIds calls).Nodup := by
  obtain ⟨stamps, -, hids⟩ := h.clientOrderIds_eq
  rw [hids, List.length_mapIdx] at hcount
  rw [hids]
  refine List.pairwise_iff_getElem.mpr fun i j hi hj hlt heq ↦ ?_
  rw [List.length_mapIdx] at hi hj
  rw [List.getElem_mapIdx, List.getElem_mapIdx] at heq
  have hseq := congrArg UInt64.toNat (TradingBot.clientId_injective heq)
  rw [UInt64.toNat_ofNat', UInt64.toNat_ofNat', Nat.mod_eq_of_lt (by omega), Nat.mod_eq_of_lt (by omega)] at hseq
  omega

end History

/-! ## Runs -/

/-- Part of a run that submits at most one order, as an extension of a history. -/
def Extends {E : EmaOps} (calls : List Call) (bot : TradingBot E) (submitted : Option Submission) : Prop :=
  ∃ calls', History bot (calls ++ calls') ∧
    clientOrderIds calls' = (submitted.map fun sub ↦ sub.request.clientOrderId).toList

namespace History

variable {E : EmaOps} {bot : TradingBot E} {calls : List Call}

/-- Nothing is submitted. -/
theorem quiet (h : History bot calls) : Extends calls bot none := ⟨[], by rwa [List.append_nil], rfl⟩

theorem consult (h : History bot calls) (env : Env) : Extends calls (bot.consult env).1 (bot.consult env).2 := by
  rw [TradingBot.consult]
  generalize bot.strategy.onBookUpdate bot.book bot.exposure env.now = decision
  obtain ⟨strategy, signal⟩ := decision
  have hstrategy : History { bot with strategy := strategy } calls := h.other rfl rfl
  cases signal with
  | none => exact hstrategy.quiet
  | some signal => exact ⟨_, hstrategy.submit signal env, rfl⟩

theorem applyMessage (h : History bot calls) (m : Protocol.Message) : History (bot.applyMessage m).1 calls := by
  rw [TradingBot.applyMessage]
  cases m.msg with
  | snapshot snapshot | delta delta | none => exact h.other rfl rfl
  | fill fill =>
      refine h.other ?_ ?_ <;>
      · dsimp only
        rw [TradingBot.onFill]
        cases parseContracts fill.countFp <;> rfl

theorem onMessage (h : History bot calls) (m : Protocol.Message) (env : Env) :
    Extends calls (bot.onMessage m env).bot (bot.onMessage m env).submitted := by
  rw [TradingBot.onMessage]
  cases hseq : bot.checkSequence m with
  | none => exact h.quiet
  | some bot₁ =>
      obtain ⟨sid, seq, rfl⟩ := bot.checkSequence_eq_some hseq
      have hchecked : History { bot with bookSid := sid, bookSeq := seq } calls := h.other rfl rfl
      have happlied := hchecked.applyMessage m
      dsimp only
      generalize ({ bot with bookSid := sid, bookSeq := seq } : TradingBot E).applyMessage m = applied at happlied
      obtain ⟨bot₂, ⟨kind, _⟩ | changed⟩ := applied
      · refine (happlied.other ?_ ?_).quiet <;> cases kind <;> rfl
      · cases changed with
        | false => exact happlied.quiet
        | true => exact happlied.consult env

/-- The request that keeps the connection warm carries no order. -/
theorem keepHttpWarm {submitted : Option Submission} (h : Extends calls bot submitted) (env : Env) :
    Extends calls (bot.keepHttpWarm env) submitted := by
  obtain ⟨calls', h, hids⟩ := h
  cases hwarm : bot.warmRequest env with
  | none =>
      rw [TradingBot.keepHttpWarm, hwarm]
      exact ⟨calls', h, hids⟩
  | some outcome =>
      refine ⟨calls' ++ [⟨none, bot.http.reused env.warm, outcome.events⟩], ?_, ?_⟩
      · rw [← List.append_assoc]
        exact h.warm env hwarm
      · rw [clientOrderIds_concat, hids]
        exact List.append_nil _

/-- **A round of the loop** of `run_session` extends the history by the order it submits, if any. -/
theorem onFrame (h : History bot calls) (frame : Except Bytes WebSocketFrame) (env : Env) :
    Extends calls (bot.onFrame frame env).bot (bot.onFrame frame env).submitted := by
  cases frame with
  | error e => exact h.quiet
  | ok frame =>
      rw [TradingBot.onFrame]
      cases frame.opCode with
      | close => exact h.quiet
      | continuation | binary | ping | pong => exact keepHttpWarm h.quiet env
      | text =>
          cases decodeKalshiMessage frame.payload with
          | error e => exact h.quiet
          | ok m =>
              dsimp only
              split
              · exact h.onMessage m env
              · exact keepHttpWarm (h.onMessage m env) env

/-- Every run of the bot is a history. -/
theorem run_inputs {r : Running E} (h : History r.bot calls) (inputs : List Input) :
    ∃ calls', History (inputs.foldl Running.next r).bot calls' := by
  induction inputs generalizing r calls with
  | nil => exact ⟨calls, h⟩
  | cons i inputs ih =>
      cases i with
      | session =>
          have hnext : History (r.next .session).bot calls := by
            rw [Running.next]
            split
            · exact h.other rfl rfl
            · exact h
          exact ih hnext
      | frame frame env =>
          have hnext : Extends calls (r.next (.frame frame env)).bot (r.handled frame env).submitted := by
            rw [Running.next, Running.handled]
            split
            · exact h.onFrame frame env
            · exact h.quiet
          obtain ⟨calls', hnext, -⟩ := hnext
          exact ih hnext

end History

/-- **No order is duplicated.**  In every history, with every outcome of the operations on the socket: a call sends its
request successfully at most once; after a failed operation there is no connection, and the next operation opens one;
the first response on a connection is read into an empty buffer; the identifiers of up to `2 ^ 64 - 1` orders are
different; and so each of them reaches the exchange at most once. -/
theorem no_order_duplicated {E : EmaOps} {bot : TradingBot E} {calls : List Call} (h : History bot calls) :
    (∀ call ∈ calls, call.SentOnce) ∧
    (∀ before e, trace calls = before ++ [e] → e.failed = true → bot.http.connected = false) ∧
    (trace calls).IsChain (fun e e' ↦ e.failed = true → e'.isOpen = true) ∧
    (∀ before mid buffer ok after, trace calls = before ++ .open true :: mid ++ .read buffer ok :: after →
      (∀ e ∈ mid, e.isRead = false) → buffer = []) ∧
    ((clientOrderIds calls).length < 2 ^ 64 → (clientOrderIds calls).Nodup ∧ (deliveredIds calls).Nodup) := by
  have hrun := h.run
  refine ⟨h.sentOnce, fun before e htrace hfailed ↦ ?_, hrun.isChain, ?_, fun hcount ↦ ?_⟩
  · rw [htrace] at hrun
    exact HttpClient.connected_of_connection (hrun.eq_none hfailed)
  · intro before mid buffer ok after htrace hmid
    rw [htrace] at hrun
    exact hrun.buffer_eq_nil hmid
  · have hnodup := h.nodup_clientOrderIds hcount
    exact ⟨hnodup, hnodup.sublist (deliveredIds_sublist h.sentOnce)⟩

/-- An order that has to be sent again on a new connection. -/
def resentOrder : Signal × Env :=
  (⟨.bid, 410, 1⟩, { order := { pieces := [], sent := .error (ascii "broken pipe") } })

/-- A bot that connects ahead of time, and after its first order. -/
def connectedBot : TradingBot exactOps :=
  { eagerBot 5 2 with http := ((eagerBot 5 2).http.connect { pieces := [] }).1 }

/-- The hypotheses of `no_order_duplicated` hold of a history in which both the first attempt to send and the
answer are lost, and the same order is submitted again: both orders are delivered, as different ones. -/
theorem no_order_duplicated_resent :
    ∃ calls, History ((connectedBot.submit resentOrder.1 resentOrder.2).1.submit resentOrder.1 {}).1 calls ∧
      deliveredIds calls = [ascii "bot-0-1", ascii "bot-0-2"] ∧ (deliveredIds calls).Nodup := by
  have hstart : History (eagerBot 5 2) [] := .start rfl rfl
  have hconnected : History connectedBot _ := hstart.connect { pieces := [] }
  have htwice := (hconnected.submit resentOrder.1 resentOrder.2).submit resentOrder.1 {}
  refine ⟨_, htwice, by decide +kernel, ?_⟩
  exact ((no_order_duplicated htwice).2.2.2.2 (by decide +kernel)).2

end KalshiClient.Trading
