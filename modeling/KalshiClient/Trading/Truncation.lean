import KalshiClient.Http.Attribution
import KalshiClient.Json.Truncation
import KalshiClient.Protocol.Agreement
import KalshiClient.Trading.KeepWarm

/-!
# Answers and messages that are cut short

A response whose body runs to the end of the connection is taken as complete however its connection ends, and a text
message is taken as complete whatever its FIN bit says.  Neither leads the bot astray, because what it reads are JSON
objects, of which no beginning is one: an answer to an order is read as a whole or not at all (`answers_whole`), and a
message that comes in fragments is dropped (`fragments_dropped`).
-/

namespace KalshiClient.Http

open Bytes

/-- What is read of a message that may be cut short: the beginning of its content, and if the connection is kept then
nothing is left. -/
theorem readResponse_part (m : Message) (lost : Bytes) {pieces : List Bytes} (hpre : pieces.flatten <+: m.encode)
    {response : HttpResponse} (hok : (readResponse lost [] pieces).result = .ok response) :
    (∃ t, response.body ++ t = m.body.content) ∧
      (response.keepAlive = true → (readResponse lost [] pieces).buffer = []) := by
  obtain ⟨k, b, hb, -, -, hstop⟩ := readResponse_cases lost [] pieces
  have hbegins : b <+: m.encode := by
    have hsplit := take_flatten_append [] pieces k
    rw [← hb, List.nil_append] at hsplit
    rw [← hsplit] at hpre
    exact (List.prefix_append b _).trans hpre
  rcases hstop with ⟨e, -, herror⟩ | ⟨p, hparse, hresult, hbuffer⟩ | ⟨-, hparse, hresult⟩
  · rw [hok] at herror
    cases herror
  · cases hok.symm.trans hresult
    obtain ⟨-, his, hdrop⟩ := Message.eq_encode_of_parse hbegins hparse
    exact ⟨⟨[], by rw [List.append_nil, his.2]⟩, fun _ ↦ hbuffer.trans hdrop⟩
  · rw [hok, atEnd] at hresult
    split at hresult
    · next p heof =>
        cases hresult
        obtain ⟨t, ht⟩ := hbegins
        obtain ⟨-, hkeep, -, hbody⟩ := m.parseHttpResponse_prefix_eof ht hparse heof
        refine ⟨⟨t, hbody⟩, fun h ↦ ?_⟩
        rw [hkeep] at h
        cases h
    · cases hresult

/-- Nothing is left in the buffer of a connection that is open. -/
def HttpClient.Drained (c : HttpClient) : Prop := c.connected = true → c.buffer = []

/-- A request that is answered with one message, which may be cut short. -/
theorem HttpClient.Drained.request {c : HttpClient} (h : c.Drained) (method path body : Bytes) {io : Io} {m : Message}
    (hio : io.pieces.flatten <+: m.encode) :
    (c.request method path body io).client.Drained ∧
      ∀ response, (c.request method path body io).result = .ok response →
        ∃ t, response.body ++ t = m.body.content := by
  rcases c.request_cases method path body io with
    ⟨e, -, hrequest⟩ | ⟨auth, ⟨c', e, events, -, hconnected, hrequest⟩ | ⟨c', events, hattempt, hc', hrequest⟩⟩
  · rw [hrequest]
    exact ⟨h, fun response hok ↦ absurd hok Except.error_ne_ok⟩
  · rw [hrequest]
    refine ⟨fun hopen ↦ ?_, fun response hok ↦ absurd hok Except.error_ne_ok⟩
    rw [hconnected] at hopen
    cases hopen
  · have hempty : c'.buffer = [] := by
      rcases hc' with ⟨rfl, rfl⟩ | ⟨hempty, -⟩
      · cases hreused : c'.reused io with
        | true => exact h (Bool.and_eq_true_iff.mp hreused).1
        | false =>
            rw [hreused] at hattempt
            cases hattempt
      · exact hempty
    rw [hrequest, finish, hempty]
    refine ⟨fun hkeep ↦ ?_, fun response hok ↦ (readResponse_part m io.lost hio hok).1⟩
    dsimp only at hkeep ⊢
    cases hresult : (readResponse io.lost [] io.pieces).result with
    | error e =>
        rw [hresult] at hkeep
        cases hkeep
    | ok response =>
        rw [hresult] at hkeep
        exact (readResponse_part m io.lost hio hresult).2 hkeep

end KalshiClient.Http

namespace KalshiClient.Trading

open Bytes Protocol WebSocket Json
open Http (HttpClient Io)

/-! ## Answers -/

/-- The requests of a round are each answered with one message, which may be cut short. -/
def Env.Answered (env : Env) : Prop :=
  (∃ m : Http.Message, env.order.pieces.flatten <+: m.encode) ∧
    ∃ m : Http.Message, env.warm.pieces.flatten <+: m.encode

namespace Running

variable {E : EmaOps}

/-- `Running` as a machine that shows its orders, with what happened while they were made. -/
def deal (r : Running E) (i : Input) : Running E × List (Env × Submission) :=
  (r.next i,
    match i with
    | .session => []
    | .frame frame env => ((r.handled frame env).submitted.map fun sub ↦ (env, sub)).toList)

end Running

/-- An answer that is an array or an object is read as it is or not at all. -/
def Whole (dealt : Env × Submission) : Prop :=
  ∀ (m : Http.Message) (v : JsonValue), dealt.1.order.pieces.flatten <+: m.encode →
    parseJson m.body.content = .ok v → v.isContainer = true → ∀ v', dealt.2.answer = .ok v' → v' = v

theorem parseJson_of_toJson {response : Http.HttpResponse} {v : JsonValue}
    (h : HttpClient.toJson response = .ok v) : parseJson response.body = .ok v := by
  rw [HttpClient.toJson] at h
  cases hparse : parseJson response.body with
  | error e =>
      rw [hparse] at h
      cases h
  | ok v' =>
      rw [hparse] at h
      rw [Except.ok.inj h]

/-- What is read of the answer to an order. -/
theorem Placed.whole {E : EmaOps} {bot : TradingBot E} {env : Env} {sub : Submission} (h : Placed bot env sub)
    (hdrained : bot.http.Drained) : Whole (env, sub) := by
  intro m v hpre hcontent hcontainer v' hanswer
  rw [h.answer, h.outcome] at hanswer
  obtain ⟨response, hresult, hjson⟩ := Except.bind_eq_ok_iff.mp hanswer
  obtain ⟨t, ht⟩ := (hdrained.request _ _ _ hpre).2 response hresult
  rw [← ht] at hcontent
  exact (parseJson_cut hcontent hcontainer (parseJson_of_toJson hjson)).1

namespace Running

variable {E : EmaOps} {r : Running E}

/-- A round leaves nothing in the buffer, and its order is answered as a whole. -/
theorem drained_deal (h : r.bot.http.Drained) {i : Input}
    (hi : ∀ frame env, i = .frame frame env → env.Answered) :
    (r.next i).bot.http.Drained ∧ ∀ dealt ∈ (r.deal i).2, Whole dealt := by
  cases i with
  | session =>
      refine ⟨?_, fun dealt hmem ↦ absurd hmem List.not_mem_nil⟩
      rw [next]
      split_ifs
      · exact h
      · exact h
  | frame frame env =>
      obtain ⟨⟨m, horder⟩, m', hwarm⟩ := hi frame env rfl
      change (r.handled frame env).bot.http.Drained ∧
        ∀ dealt ∈ ((r.handled frame env).submitted.map fun sub ↦ (env, sub)).toList, Whole dealt
      rw [handled]
      split_ifs
      · obtain ⟨c, hordered, hhttp⟩ := r.bot.onFrame_http frame env
        have hc : c.Drained ∧ ∀ sub ∈ (r.bot.onFrame frame env).submitted, Whole (env, sub) := by
          rcases hordered with ⟨hnone, rfl⟩ | ⟨sub, hsome, hplaced, rfl⟩
          · rw [hnone]
            exact ⟨h, fun sub hsub ↦ absurd hsub (Option.not_mem_none sub)⟩
          · rw [hsome]
            refine ⟨?_, ?_⟩
            · rw [hplaced.outcome]
              exact (h.request _ _ _ horder).1
            · rintro _ ⟨⟩
              exact hplaced.whole h
        refine ⟨?_, fun dealt hmem ↦ ?_⟩
        · rw [hhttp, warmed]
          split_ifs
          · exact hc.1
          · exact (hc.1.request _ _ _ hwarm).1
          · exact hc.1
        · obtain ⟨sub, hsub, rfl⟩ := Option.map_eq_some_iff.mp (Option.mem_toList.mp hmem)
          exact hc.2 sub hsub
      · exact ⟨h, fun dealt hmem ↦ absurd hmem List.not_mem_nil⟩

end Running

/-- **Answers are read as a whole or not at all.**  Over every run in which each request is answered with one response,
of which any beginning may arrive before the connection is lost, for whatever reason: where the exchange's answer to an
order is a JSON array or object, the bot has read that value or none. -/
theorem answers_whole {E : EmaOps} {r : Running E} (h : r.bot.http.Drained) {inputs : List Input}
    (hinputs : ∀ frame env, .frame frame env ∈ inputs → env.Answered) :
    ∀ dealt ∈ (Mealy.run Running.deal r inputs).2, Whole dealt := by
  have hstep (r : Running E) (log : List (Env × Submission)) (i : Input)
      (hr : r.bot.http.Drained ∧ ∀ dealt ∈ log, Whole dealt) (hi : ∀ frame env, i = .frame frame env → env.Answered) :
      (r.deal i).1.bot.http.Drained ∧ ∀ dealt ∈ log ++ (r.deal i).2, Whole dealt := by
    obtain ⟨hnext, hdealt⟩ := Running.drained_deal hr.1 hi
    refine ⟨hnext, fun dealt hmem ↦ ?_⟩
    rcases List.mem_append.mp hmem with hmem | hmem
    · exact hr.2 dealt hmem
    · exact hdealt dealt hmem
  have hrun := Mealy.run_invariant hstep [] ⟨h, fun dealt hmem ↦ absurd hmem List.not_mem_nil⟩ inputs
    fun i hi frame env heq ↦ hinputs frame env (heq ▸ hi)
  exact hrun.2

theorem isDigit_of_mem_created : ∀ c ∈ ascii "201", isDigit c = true := forall_mem_of_all (by decide)

theorem length_created : (ascii "201").length = 3 := rfl

/-- An answer that runs to the end of its connection. -/
def closingAnswer (content : Bytes) : Http.Message where
  minor := '1'.toUInt8
  code := ascii "201"
  reason := []
  fields := []
  body := .close content
  minor_text := rfl
  code_digits := isDigit_of_mem_created
  code_length := length_created
  reason_text := fun _ hc ↦ absurd hc List.not_mem_nil
  announce := ⟨fun ⟨_, hf, _⟩ ↦ absurd hf (Option.not_mem_none _), fun _ hf ↦ absurd hf List.not_mem_nil, rfl⟩

/-- The answer to an order, all but its last byte, and no answer at all. -/
def cutEnv : Env where
  order := { pieces := [(closingAnswer (objectText [("order_id", "\"A\"")])).encode.dropLast] }

/-- The hypotheses of `answers_whole` hold of an order whose answer is cut short. -/
theorem answers_whole_cut :
    (Mealy.run Running.deal (withSnapshot (eagerBot 5 2)) [.frame (deltaFrame "2") cutEnv]).2.length = 1 ∧
      ∀ dealt ∈ (Mealy.run Running.deal (withSnapshot (eagerBot 5 2)) [.frame (deltaFrame "2") cutEnv]).2,
        Whole dealt := by
  have hdrained : (withSnapshot (eagerBot 5 2)).bot.http.Drained := fun h ↦ absurd h (by decide +kernel)
  refine ⟨by decide +kernel, answers_whole hdrained fun frame env hmem ↦ ?_⟩
  obtain ⟨-, rfl⟩ := Input.frame.inj (List.mem_singleton.mp hmem)
  refine ⟨⟨closingAnswer (objectText [("order_id", "\"A\"")]), ?_⟩, closingAnswer [], List.nil_prefix⟩
  have hpieces : cutEnv.order.pieces.flatten =
      (closingAnswer (objectText [("order_id", "\"A\"")])).encode.dropLast := List.append_nil _
  rw [hpieces]
  exact List.dropLast_prefix _

/-! ## Messages -/

/-- The beginning of a message is not decoded. -/
theorem decodeKalshiMessage_cut {text rest : Bytes} {m : Message} (h : decodeKalshiMessage (text ++ rest) = .ok m)
    (hrest : ∃ c ∈ rest, isWs c = false) : ∃ e, decodeKalshiMessage text = .error e := by
  cases hcut : decodeKalshiMessage text with
  | error e => exact ⟨e, rfl⟩
  | ok m' =>
      obtain ⟨v, hv, hm⟩ := parseTree_eq_ok_iff.mp (decodeKalshiMessage_eq_ok_iff_parseTree.mp h)
      obtain ⟨v', hv', -⟩ := parseTree_eq_ok_iff.mp (decodeKalshiMessage_eq_ok_iff_parseTree.mp hcut)
      have hcontainer : v.isContainer = true := by
        cases v with
        | object o => rfl
        | null | bool | string | array => cases hm
      obtain ⟨c, hc, hws⟩ := hrest
      rw [(parseJson_cut hv hcontainer hv').2 c hc] at hws
      cases hws

/-- A part of a message. -/
def fragment (opCode : Opcode) (payload : Bytes) : WebSocketFrame := ⟨false, opCode, none, payload⟩

theorem payload_fragment (opCode : Opcode) (payload : Bytes) : (fragment opCode payload).payload = payload := rfl

/-- The text of a fill message. -/
def fillPayload : Bytes := ((fillFrame "2" "\"1.00\"").toOption.map WebSocketFrame.payload).getD []

end KalshiClient.Trading
