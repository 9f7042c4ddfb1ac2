import KalshiClient.Base.Mealy
import KalshiClient.Trading.Orders

/-!
# What a frame does

What the handling of a frame does to the parts of the bot that the accounts and the book leave out: `g_running`, which
is only cleared by a malformed book message, and the HTTP client, on which an order is placed and which is kept warm.
-/

namespace KalshiClient.Trading

open Bytes Protocol WebSocket
open Http (HttpClient Io Outcome)

/-- `Running` as a machine that shows its orders. -/
def Running.step {E : EmaOps} (r : Running E) (i : Input) : Running E × List Submission :=
  (r.next i,
    match i with
    | .session => []
    | .frame frame env => (r.handled frame env).submitted.toList)

theorem TradingBot.onFrame_ticker {E : EmaOps} (bot : TradingBot E) (frame : Except Bytes WebSocketFrame) (env : Env) :
    (bot.onFrame frame env).bot.ticker = bot.ticker := by
  rcases bot.onFrame_cases frame env with
    ⟨m, fill, -, -, -, hsame⟩ | ⟨-, -, hsame⟩ | ⟨m, book, sub, -, -, -, -, hsame⟩
  · rw [hsame.ticker, onFill]
    cases parseContracts fill.countFp <;> rfl
  · exact hsame.ticker
  · rw [hsame.ticker, account]
    cases readAnswer sub.answer <;> rfl

/-- A frame in which no message starts and that does not end the session. -/
def isOther (frame : WebSocketFrame) : Bool := frame.opCode ≠ .text && frame.opCode ≠ .close

/-- A frame that brings no message and does not end the session. -/
def IsSkipped (frame : WebSocketFrame) : Prop :=
  isOther frame = true ∨ frame.opCode = .text ∧ ∃ e, decodeKalshiMessage frame.payload = .error e

theorem isSkipped_of_received {frame : WebSocketFrame} (h : received (.ok frame) = none) (hopen : frame.opCode ≠ .close) :
    IsSkipped frame := by
  by_cases htext : frame.opCode = .text
  · rw [received, if_pos htext] at h
    cases hdecode : decodeKalshiMessage frame.payload with
    | error e => exact .inr ⟨htext, e, hdecode⟩
    | ok m =>
        rw [hdecode] at h
        cases h
  · exact .inl (Bool.and_eq_true_iff.mpr ⟨decide_eq_true htext, decide_eq_true hopen⟩)

/-- It leaves all but the HTTP client as it is. -/
theorem TradingBot.onFrame_skipped {E : EmaOps} (bot : TradingBot E) {frame : WebSocketFrame} (env : Env)
    (h : IsSkipped frame) :
    ∃ http, bot.onFrame (.ok frame) env = { bot := { bot with http := http } } := by
  rcases h with h | ⟨hop, e, hdecode⟩
  · obtain ⟨http, hwarm⟩ := bot.keepHttpWarm_eq env
    refine ⟨http, ?_⟩
    rw [← hwarm, onFrame]
    cases hop : frame.opCode with
    | text | close =>
        rw [isOther, hop] at h
        cases h
    | continuation | binary | ping | pong => rfl
  · refine ⟨bot.http, ?_⟩
    rw [onFrame, hop]
    dsimp only
    rw [hdecode]

/-! ## The flag

Nothing but a malformed book message looks at `g_running` or changes it while a frame is handled. -/

namespace TradingBot

variable {E : EmaOps} (bot : TradingBot E) (flag : Bool)

/-- The bot with `g_running` set to something. -/
def withRunning : TradingBot E := { bot with running := flag }

theorem withRunning_running : bot.withRunning bot.running = bot := rfl

theorem keepHttpWarm_withRunning (env : Env) :
    (bot.withRunning flag).keepHttpWarm env = (bot.keepHttpWarm env).withRunning flag := by
  have hrequest : (bot.withRunning flag).warmRequest env = bot.warmRequest env := rfl
  rw [keepHttpWarm, keepHttpWarm, hrequest]
  cases bot.warmRequest env <;> rfl

theorem account_withRunning (signal : Signal) (request : OrderRequest) (answer : Except Bytes Json.JsonValue) :
    (bot.withRunning flag).account signal request answer = (bot.account signal request answer).withRunning flag := by
  rw [account, account]
  cases readAnswer answer <;> rfl

theorem submit_withRunning (signal : Signal) (env : Env) :
    (bot.withRunning flag).submit signal env =
      ((bot.submit signal env).1.withRunning flag, (bot.submit signal env).2) := by
  have haccount := account_withRunning
    { bot with orderSeq := bot.orderSeq + 1, http := (bot.submit signal env).2.outcome.client } flag signal
    (bot.submit signal env).2.request (bot.submit signal env).2.answer
  exact Prod.ext haccount rfl

theorem consult_withRunning (env : Env) :
    (bot.withRunning flag).consult env = ((bot.consult env).1.withRunning flag, (bot.consult env).2) := by
  have hdecision : (bot.withRunning flag).strategy.onBookUpdate (bot.withRunning flag).book
      (bot.withRunning flag).exposure env.now = bot.strategy.onBookUpdate bot.book bot.exposure env.now := rfl
  rw [consult, consult, hdecision]
  generalize bot.strategy.onBookUpdate bot.book bot.exposure env.now = decision
  obtain ⟨strategy, signal⟩ := decision
  cases signal with
  | none => rfl
  | some signal =>
      have hsubmit := submit_withRunning { bot with strategy := strategy } flag signal env
      exact congrArg (fun r : TradingBot E × Submission ↦ (r.1, some r.2)) hsubmit

theorem checkSequence_withRunning (m : Message) :
    (bot.withRunning flag).checkSequence m = (bot.checkSequence m).map (withRunning · flag) := by
  have hsid : (bot.withRunning flag).bookSid = bot.bookSid := rfl
  have hseq : (bot.withRunning flag).bookSeq = bot.bookSeq := rfl
  rw [checkSequence, checkSequence, hsid, hseq]
  split_ifs <;> rfl

theorem applyMessage_withRunning (m : Message) :
    (bot.withRunning flag).applyMessage m =
      ((bot.applyMessage m).1.withRunning flag, (bot.applyMessage m).2) := by
  rw [applyMessage, applyMessage]
  cases m.msg with
  | fill fill =>
      refine Prod.ext ?_ rfl
      change (bot.withRunning flag).onFill fill = (bot.onFill fill).withRunning flag
      rw [onFill, onFill]
      cases parseContracts fill.countFp <;> rfl
  | snapshot snapshot | delta delta | none => rfl

/-- A message leaves the flag alone, or clears it and ends the session. -/
theorem onMessage_withRunning (m : Message) (env : Env) :
    ∃ keep, (keep = false → (bot.onMessage m env).ended = true) ∧
      ∀ flag, (bot.withRunning flag).onMessage m env =
        { bot.onMessage m env with bot := (bot.onMessage m env).bot.withRunning (flag && keep) } := by
  simp only [onMessage, checkSequence_withRunning]
  cases hseq : bot.checkSequence m with
  | none =>
      refine ⟨true, fun _ ↦ rfl, fun flag ↦ ?_⟩
      rw [Bool.and_true]
      rfl
  | some bot₁ =>
      simp only [Option.map_some, applyMessage_withRunning]
      obtain ⟨bot₂, result⟩ := bot₁.applyMessage m
      rcases result with e | (_ | _)
      · obtain ⟨kind, message⟩ := e
        cases kind with
        | malformed =>
            refine ⟨false, fun _ ↦ rfl, fun flag ↦ ?_⟩
            rw [Bool.and_false]
            rfl
        | outOfSync =>
            refine ⟨true, fun _ ↦ rfl, fun flag ↦ ?_⟩
            rw [Bool.and_true]
            rfl
      · refine ⟨true, fun hfalse ↦ Bool.noConfusion hfalse, fun flag ↦ ?_⟩
        rw [Bool.and_true]
      · refine ⟨true, fun hfalse ↦ Bool.noConfusion hfalse, fun flag ↦ ?_⟩
        simp only [consult_withRunning, Bool.and_true]
        rfl

/-- A frame leaves the flag alone, or clears it and ends the session. -/
theorem onFrame_withRunning (frame : WebSocketFrame) (env : Env) :
    ∃ keep, (keep = false → (bot.onFrame (.ok frame) env).ended = true) ∧
      ∀ flag, (bot.withRunning flag).onFrame (.ok frame) env =
        { bot.onFrame (.ok frame) env with bot := (bot.onFrame (.ok frame) env).bot.withRunning (flag && keep) } := by
  have hquiet : ∃ keep, (keep = false → false = true) ∧ ∀ flag,
      ({ bot := (bot.withRunning flag).keepHttpWarm env } : Handled E) =
        { bot := (bot.keepHttpWarm env).withRunning (flag && keep) } := by
    refine ⟨true, fun hfalse ↦ Bool.noConfusion hfalse, fun flag ↦ ?_⟩
    rw [keepHttpWarm_withRunning, Bool.and_true]
  simp only [onFrame]
  cases hop : frame.opCode with
  | close =>
      refine ⟨true, fun _ ↦ rfl, fun flag ↦ ?_⟩
      rw [Bool.and_true]
  | text =>
      cases hdecode : decodeKalshiMessage frame.payload with
      | error e =>
          refine ⟨true, fun hfalse ↦ Bool.noConfusion hfalse, fun flag ↦ ?_⟩
          rw [Bool.and_true]
      | ok m =>
          obtain ⟨keep, hended, hmessage⟩ := bot.onMessage_withRunning m env
          dsimp only
          by_cases hend : (bot.onMessage m env).ended = true
          · refine ⟨keep, fun _ ↦ by rw [if_pos hend, hend], fun flag ↦ ?_⟩
            rw [hmessage flag, if_pos hend, if_pos hend]
          · refine ⟨keep, fun hfalse ↦ absurd (hended hfalse) hend, fun flag ↦ ?_⟩
            rw [hmessage flag, if_neg hend, if_neg hend]
            dsimp only
            rw [keepHttpWarm_withRunning]
  | continuation | binary | ping | pong => exact hquiet

/-- A frame that does not end the session leaves the flag alone. -/
theorem onFrame_running {bot : TradingBot E} {frame : WebSocketFrame} {env : Env}
    (h : (bot.onFrame (.ok frame) env).ended = false) : (bot.onFrame (.ok frame) env).bot.running = bot.running := by
  obtain ⟨keep, hended, hframe⟩ := bot.onFrame_withRunning frame env
  have hkeep : keep = true := by
    cases keep with
    | true => rfl
    | false => exact absurd (h.symm.trans (hended rfl)) Bool.false_ne_true
  have hsame := hframe bot.running
  rw [withRunning_running, hkeep, Bool.and_true] at hsame
  rw [hsame]
  rfl

theorem onFrame_running_of_stopped {bot : TradingBot E} (h : bot.running = false) (frame : WebSocketFrame) (env : Env) :
    (bot.onFrame (.ok frame) env).bot.running = false := by
  obtain ⟨keep, -, hframe⟩ := bot.onFrame_withRunning frame env
  have hsame := hframe bot.running
  rw [withRunning_running] at hsame
  rw [hsame, h]
  rfl

end TradingBot

/-! ## The client -/

/-- The client after a look at the connection. -/
def warmed (c : HttpClient) (env : Env) : HttpClient :=
  if c.connected && env.idleNow - c.lastUsed < kHttpKeepWarmAfter then c
  else (c.request (ascii "GET") kExchangeStatusPath [] env.warm).client

/-- Whether the handling of a frame comes to the look at the connection. -/
def looks {E : EmaOps} (frame : Except Bytes WebSocketFrame) (handled : Handled E) : Bool :=
  match frame with
  | .error _ => false
  | .ok frame => !handled.ended && (frame.opCode ≠ .text || (decodeKalshiMessage frame.payload).isOk)

/-- How an order is placed. -/
structure Placed {E : EmaOps} (bot : TradingBot E) (env : Env) (sub : Submission) : Prop where
  request : sub.request = makeIocOrder bot.ticker sub.signal (TradingBot.clientId env.timestamp (bot.orderSeq + 1))
  outcome : sub.outcome = bot.http.request (ascii "POST") kOrdersPath (serializeOrderRequest sub.request) env.order
  answer : sub.answer = sub.outcome.result >>= HttpClient.toJson

/-- The client after the order for a frame, if there is one. -/
def Ordered {E : EmaOps} (bot : TradingBot E) (env : Env) (submitted : Option Submission) (c : HttpClient) : Prop :=
  submitted = none ∧ c = bot.http ∨
    ∃ sub, submitted = some sub ∧ Placed bot env sub ∧ c = sub.outcome.client

namespace TradingBot

variable {E : EmaOps} (bot : TradingBot E)

theorem keepHttpWarm_http (env : Env) : (bot.keepHttpWarm env).http = warmed bot.http env := by
  rw [keepHttpWarm, warmRequest, warmed]
  split_ifs <;> rfl

theorem ordered_consult (env : Env) : Ordered bot env (bot.consult env).2 (bot.consult env).1.http := by
  rw [consult]
  generalize bot.strategy.onBookUpdate bot.book bot.exposure env.now = decision
  obtain ⟨strategy, signal⟩ := decision
  cases signal with
  | none => exact .inl ⟨rfl, rfl⟩
  | some signal => exact .inr ⟨_, rfl, ⟨rfl, rfl, rfl⟩, submit_http { bot with strategy := strategy } signal env⟩

theorem applyMessage_http (m : Message) :
    (bot.applyMessage m).1.http = bot.http ∧ (bot.applyMessage m).1.ticker = bot.ticker ∧
      (bot.applyMessage m).1.orderSeq = bot.orderSeq := by
  rw [applyMessage]
  cases m.msg with
  | fill fill =>
      change (bot.onFill fill).http = bot.http ∧ (bot.onFill fill).ticker = bot.ticker ∧
        (bot.onFill fill).orderSeq = bot.orderSeq
      rw [onFill]
      cases parseContracts fill.countFp <;> exact ⟨rfl, rfl, rfl⟩
  | snapshot snapshot | delta delta | none => exact ⟨rfl, rfl, rfl⟩

theorem ordered_onMessage (m : Message) (env : Env) :
    Ordered bot env (bot.onMessage m env).submitted (bot.onMessage m env).bot.http := by
  rw [onMessage]
  cases hseq : bot.checkSequence m with
  | none => exact .inl ⟨rfl, rfl⟩
  | some bot₁ =>
      obtain ⟨sid, seq, rfl⟩ := bot.checkSequence_eq_some hseq
      have hhttp := applyMessage_http { bot with bookSid := sid, bookSeq := seq } m
      dsimp only at hhttp ⊢
      generalize ({ bot with bookSid := sid, bookSeq := seq } : TradingBot E).applyMessage m = applied at hhttp ⊢
      obtain ⟨bot₂, ⟨kind, _⟩ | changed⟩ := applied
      · cases kind <;> exact .inl ⟨rfl, hhttp.1⟩
      · cases changed with
        | false => exact .inl ⟨rfl, hhttp.1⟩
        | true =>
            obtain ⟨hclient, hticker, hnumber⟩ := hhttp
            dsimp only at hclient hticker hnumber
            rcases bot₂.ordered_consult env with ⟨hnone, hc⟩ | ⟨sub, hsome, hplaced, hc⟩
            · exact .inl ⟨hnone, hc.trans hclient⟩
            · have hrequest := hplaced.request
              have houtcome := hplaced.outcome
              rw [hticker, hnumber] at hrequest
              rw [hclient] at houtcome
              exact .inr ⟨sub, hsome, ⟨hrequest, houtcome, hplaced.answer⟩, hc⟩

/-- What a frame does to the client: an order, if there is one, and then a look at the connection, if it comes to it. -/
theorem onFrame_http (frame : Except Bytes WebSocketFrame) (env : Env) :
    ∃ c, Ordered bot env (bot.onFrame frame env).submitted c ∧
      (bot.onFrame frame env).bot.http = if looks frame (bot.onFrame frame env) then warmed c env else c := by
  cases frame with
  | error e => exact ⟨bot.http, .inl ⟨rfl, rfl⟩, rfl⟩
  | ok frame =>
      cases hop : frame.opCode with
      | close =>
          rw [onFrame, looks, hop]
          exact ⟨bot.http, .inl ⟨rfl, rfl⟩, rfl⟩
      | continuation | binary | ping | pong =>
          rw [onFrame, looks, hop]
          exact ⟨bot.http, .inl ⟨rfl, rfl⟩, bot.keepHttpWarm_http env⟩
      | text =>
          cases hdecode : decodeKalshiMessage frame.payload with
          | error e =>
              rw [onFrame, looks, hop, hdecode]
              exact ⟨bot.http, .inl ⟨rfl, rfl⟩, rfl⟩
          | ok m =>
              have hordered := bot.ordered_onMessage m env
              have hlooks (handled : Handled E) : looks (.ok frame) handled = !handled.ended := by
                rw [looks, hop, hdecode]
                exact Bool.and_true _
              have hframe : bot.onFrame (.ok frame) env =
                  if (bot.onMessage m env).ended then bot.onMessage m env
                  else { bot.onMessage m env with bot := (bot.onMessage m env).bot.keepHttpWarm env } := by
                rw [onFrame, hop]
                dsimp only
                rw [hdecode]
              rw [hlooks, hframe]
              by_cases hended : (bot.onMessage m env).ended
              · rw [if_pos hended, hended]
                exact ⟨_, hordered, rfl⟩
              · rw [if_neg hended]
                refine ⟨_, hordered, ?_⟩
                rw [Bool.eq_false_iff.mpr hended]
                exact keepHttpWarm_http _ env

end TradingBot

end KalshiClient.Trading
