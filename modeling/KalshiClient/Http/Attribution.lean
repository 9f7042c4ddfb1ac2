import KalshiClient.Http.Client
import KalshiClient.Http.Server

/-!
# Which request a response answers

A client and a server over one connection at a time.  The server answers every request that reaches it, and
its bytes arrive in order, in any pieces, possibly not all of them.  `Link` is the client together with the
bytes that are still under way.

A connection that is kept carries nothing from one request to the next (`Link.Idle`): nothing is left in the
buffer and nothing is under way.  This holds as long as every answer is a single response
(`responses_attributed`).  An interim response breaks it, because the client takes it for the answer and
leaves the answer in its buffer (`responses_shifted_by_interim`).
-/

namespace KalshiClient.Http

open Bytes

/-- A client, and what the server has sent on its connection that the client has not read. -/
structure Link where
  /-- The client. -/
  client : HttpClient
  /-- The bytes under way. -/
  wire : Bytes := []

/-- A request, with what happens outside the client and what the server answers. -/
structure Round where
  /-- The method. -/
  method : Bytes
  /-- The path. -/
  path : Bytes
  /-- The body. -/
  body : Bytes
  /-- What happens outside the client. -/
  io : Io
  /-- The answer, if the request reaches the server. -/
  answer : Answer

/-- Whether a connection was opened. -/
def opened (events : List Event) : Bool := .open true ∈ events

/-- Whether the request was sent. -/
def delivered (events : List Event) : Bool :=
  events.any fun e ↦ match e with
    | .send _ ok => ok
    | _ => false

namespace Link

variable (l : Link) (r : Round)

/-- The call of `request`. -/
def outcome : Outcome := l.client.request r.method r.path r.body r.io

/-- What is under way on the connection the call uses, when the server has answered. -/
def onWire : Bytes :=
  (if opened (l.outcome r).events then [] else l.wire) ++
    if delivered (l.outcome r).events then r.answer.encode else []

/-- The transport delivers in order, and nothing else. -/
def InOrder : Prop := r.io.pieces.flatten <+: l.onWire r

instance : Decidable (l.InOrder r) := inferInstanceAs (Decidable (_ <+: _))

/-- The client and the connection after the call. -/
def next : Link :=
  ⟨(l.outcome r).client,
    (l.onWire r).drop (r.io.pieces.flatten.length - (l.outcome r).unread.flatten.length)⟩

/-- The results of a sequence of calls. -/
def results (l : Link) : List Round → List (Except Bytes HttpResponse)
  | [] => []
  | r :: rounds => (l.outcome r).result :: (l.next r).results rounds

/-- Every call of a sequence satisfies a condition on the state it is made in. -/
def Always (P : Link → Round → Prop) (l : Link) : List Round → Prop
  | [] => True
  | r :: rounds => P l r ∧ (l.next r).Always P rounds

/-- A connection that is kept carries nothing over. -/
def Idle : Prop := l.client.connected = true → l.client.buffer = [] ∧ l.wire = []

end Link

/-- A successful call returned the final response to its own request. -/
def Round.Answered (r : Round) (result : Except Bytes HttpResponse) : Prop :=
  ∀ response, result = .ok response → r.answer.final.Is response

/-- The answer is a single response, and if its body runs to the end of the connection then all of it is
delivered before the transport fails. -/
structure Round.Plain (r : Round) : Prop where
  interim : r.answer.interim = []
  complete : r.answer.final.body.framing = .close →
    r.answer.final.encode.length ≤ r.io.pieces.flatten.length

/-! ## Reading one message -/

/-- What has arrived of a message is the whole message when the parser accepts it. -/
theorem Message.eq_encode_of_parse {m : Message} {d : Bytes} {p : ParsedHttpResponse}
    (hd : d <+: m.encode) (hparse : parseHttpResponse d false = .ok (some p)) :
    d = m.encode ∧ m.Is p.response ∧ d.drop p.bytesConsumed = [] := by
  obtain ⟨t, ht⟩ := hd
  have hwhole := parseHttpResponse_append hparse t
  rw [ht] at hwhole
  have hclose : m.body.framing ≠ .close := fun h ↦ m.parseHttpResponse_encode_close h p hwhole
  obtain ⟨his, hconsumed⟩ := m.parseHttpResponse_encode hclose hwhole
  have hle := parseHttpResponse_consumed_le hparse
  have hlen := congrArg List.length ht
  rw [List.length_append] at hlen
  have hnil : t = [] := List.length_eq_zero_iff.mp (by omega)
  rw [hnil, List.append_nil] at ht
  refine ⟨ht, his, List.drop_eq_nil_of_le ?_⟩
  rw [hconsumed, ht]

/-- **One message, one response.**  If all that can be read is a message, or the beginning of one, a successful
read returns it; and if the connection is kept, nothing is left. -/
theorem readResponse_message (m : Message) (lost : Bytes) {buffer : Bytes} {pieces : List Bytes}
    (hpre : buffer ++ pieces.flatten <+: m.encode)
    (hcomplete : m.body.framing = .close → m.encode.length ≤ (buffer ++ pieces.flatten).length)
    {response : HttpResponse} (hok : (readResponse lost buffer pieces).result = .ok response) :
    m.Is response ∧ (response.keepAlive = true → (readResponse lost buffer pieces).buffer = [] ∧
      (readResponse lost buffer pieces).unread.flatten = [] ∧ buffer ++ pieces.flatten = m.encode) := by
  obtain ⟨k, b, hb, -, hunread, hstop⟩ := readResponse_cases lost buffer pieces
  have hsplit := take_flatten_append buffer pieces k
  rw [← hb] at hsplit
  rcases hstop with ⟨e, -, herror⟩ | ⟨p, hparse, hresult, hbuffer⟩ | ⟨hlast, hparse, hresult⟩
  · rw [hok] at herror
    cases herror
  · cases hok.symm.trans hresult
    have hbegins : b <+: m.encode := by
      rw [← hsplit] at hpre
      exact (List.prefix_append b _).trans hpre
    obtain ⟨heq, his, hdrop⟩ := Message.eq_encode_of_parse hbegins hparse
    -- Nothing is left to be read: the buffer holds all of the message already.
    have hnil : (pieces.drop k).flatten = [] := by
      have hlen := hpre.length_le
      rw [← hsplit, List.length_append, heq] at hlen
      exact List.length_eq_zero_iff.mp (by omega)
    refine ⟨his, fun _ ↦ ⟨hbuffer.trans hdrop, by rw [hunread, hnil], ?_⟩⟩
    rw [← hsplit, hnil, List.append_nil, heq]
  · rw [hok, atEnd] at hresult
    rw [List.take_of_length_le hlast] at hb
    rw [← hb] at hpre hcomplete
    split at hresult
    · next p heof =>
        cases hresult
        obtain ⟨t, ht⟩ := hpre
        obtain ⟨hclose, hkeep, hstatus, hbody⟩ := m.parseHttpResponse_prefix_eof ht hparse heof
        have hlen := congrArg List.length ht
        rw [List.length_append] at hlen
        have hnil : t = [] := List.length_eq_zero_iff.mp (by
          have := hcomplete hclose
          omega)
        rw [hnil, List.append_nil] at hbody
        refine ⟨⟨hstatus, hbody⟩, fun h ↦ ?_⟩
        rw [hkeep] at h
        cases h
    · cases hresult

/-! ## One call -/

namespace Link

variable {l : Link} {r : Round}

/-- When a request has been sent from an idle connection, the buffer is empty and exactly its answer is under
way. -/
theorem Idle.onWire_eq (hidle : l.Idle) {bytes : Bytes} {c : HttpClient} {events : List Event}
    (hattempt : Attempt bytes (l.client.reused r.io) events true)
    (hc : c = l.client ∧ events = [.send bytes true] ∨ c.buffer = [] ∧ .open true ∈ events)
    (hreq : l.outcome r = c.finish events r.io) : c.buffer = [] ∧ l.onWire r = r.answer.encode := by
  have hdelivered : delivered (l.outcome r).events = true := by
    rw [hreq]
    change delivered (events ++ [.read c.buffer _]) = true
    generalize l.client.reused r.io = reused at hattempt
    cases hattempt <;> rfl
  have hopened : opened (l.outcome r).events = decide (.open true ∈ events) := by
    rw [hreq]
    change decide (.open true ∈ events ++ [.read c.buffer _]) = _
    simp
  rw [onWire, hdelivered, hopened, if_pos rfl]
  rcases hc with ⟨rfl, rfl⟩ | ⟨hbuffer, hopen⟩
  · have hreused : l.client.reused r.io = true := by
      generalize l.client.reused r.io = reused at hattempt
      cases hattempt
      rfl
    obtain ⟨hbuffer, hwire⟩ := hidle (Bool.and_eq_true_iff.mp hreused).1
    exact ⟨hbuffer, by rw [hwire]; rfl⟩
  · exact ⟨hbuffer, by rw [decide_eq_true hopen]; rfl⟩

/-- **A call on an idle connection** returns the final response to its own request, if it succeeds, and leaves the
connection idle. -/
theorem Idle.step (hidle : l.Idle) (horder : l.InOrder r) (hplain : r.Plain) :
    r.Answered (l.outcome r).result ∧ (l.next r).Idle := by
  rcases l.client.request_cases r.method r.path r.body r.io with
    ⟨e, -, hreq⟩ | ⟨auth, ⟨c', e, events, hattempt, hconn, hreq⟩ | ⟨c', events, hattempt, hc', hreq⟩⟩
  · -- Nothing has happened to the connection.
    have hreq : l.outcome r = ⟨l.client, .error e, [], r.io.pieces⟩ := hreq
    have hnext : l.next r = l := by
      rw [next, onWire, hreq]
      simp [opened, delivered]
    rw [hnext, hreq]
    exact ⟨nofun, hidle⟩
  · have hreq : l.outcome r = ⟨c', .error e, events, r.io.pieces⟩ := hreq
    refine ⟨by rw [hreq]; exact nofun, fun hconn' ↦ ?_⟩
    rw [next, hreq] at hconn'
    exact absurd hconn' (by rw [hconn]; exact Bool.false_ne_true)
  · have hreq : l.outcome r = c'.finish events r.io := hreq
    obtain ⟨hbuffer, hwire⟩ := hidle.onWire_eq hattempt hc' hreq
    have hencode : r.answer.encode = r.answer.final.encode := by
      rw [Answer.encode, hplain.interim]
      rfl
    rw [InOrder, hwire, hencode] at horder
    have hpre : [] ++ r.io.pieces.flatten <+: r.answer.final.encode := horder
    have hbuffer' : readResponse r.io.lost c'.buffer r.io.pieces = readResponse r.io.lost [] r.io.pieces := by
      rw [hbuffer]
    constructor
    · intro response hok
      rw [hreq, HttpClient.finish, hbuffer'] at hok
      exact (readResponse_message _ _ hpre hplain.complete hok).1
    · intro hconn
      rw [next, hreq, HttpClient.finish, hbuffer'] at hconn
      -- The connection is kept only after a response that allows it.
      cases hresult : (readResponse r.io.lost [] r.io.pieces).result with
      | error e =>
          rw [hresult] at hconn
          cases hconn
      | ok response =>
          rw [hresult] at hconn
          obtain ⟨hbuf, hunread, hall⟩ :=
            (readResponse_message _ _ hpre hplain.complete hresult).2 hconn
          rw [List.nil_append] at hall
          rw [next, hwire, hencode, hreq, HttpClient.finish, hbuffer', hbuf, hunread, hall]
          exact ⟨rfl, by simp⟩

/-- Along a run, every call returns the final response to its own request, if it succeeds. -/
theorem Idle.run (hidle : l.Idle) {rounds : List Round} (horder : l.Always InOrder rounds)
    (hplain : ∀ r ∈ rounds, r.Plain) : List.Forall₂ Round.Answered rounds (l.results rounds) := by
  induction rounds generalizing l with
  | nil => exact .nil
  | cons r rounds ih =>
      obtain ⟨hanswered, hidle'⟩ := hidle.step horder.1 (hplain r List.mem_cons_self)
      exact .cons hanswered (ih hidle' horder.2 fun r hr ↦ hplain r (List.mem_cons_of_mem _ hr))

end Link

/-! ## Runs -/

/-- **Responses are never attributed to the wrong request**, as long as every answer is a single response: for
every sequence of calls on a new client, and however the bytes arrive, a call that succeeds returns the final
response to its own request. -/
theorem responses_attributed (host : Bytes) (signed : Bool) (rounds : List Round)
    (horder : Link.Always Link.InOrder ⟨{ host := host, signed := signed }, []⟩ rounds)
    (hplain : ∀ r ∈ rounds, r.Plain) :
    List.Forall₂ Round.Answered rounds (Link.results ⟨{ host := host, signed := signed }, []⟩ rounds) :=
  Link.Idle.run (fun hconn ↦ absurd hconn Bool.false_ne_true) horder hplain

/-! ## Two requests in a row -/

/-- `Content-Length: 1`. -/
def lengthOne : Field where
  name := ascii "Content-Length"
  before := ascii " "
  value := ascii "1"
  after := []
  name_ne := by decide
  name_text := forall_mem_of_all (by decide)
  before_blank := forall_mem_of_all (by decide)
  value_text := forall_mem_of_all (by decide)
  value_head := by rintro _ ⟨⟩; rfl
  value_last := by rintro _ ⟨⟩; rfl
  after_blank := nofun

/-- A response with a body of one byte. -/
def okResponse (b : UInt8) : Message where
  minor := '1'.toUInt8
  code := ascii "200"
  reason := ascii " OK"
  fields := [lengthOne]
  body := .length [b]
  minor_text := by decide
  code_digits := forall_mem_of_all (by decide)
  code_length := rfl
  reason_text := forall_mem_of_all (by decide)
  announce := by
    refine ⟨by decide +kernel, ⟨lengthOne, List.mem_cons_self, by decide +kernel⟩, fun f hf _ ↦ ?_⟩
    rw [List.mem_singleton.mp hf]
    exact ⟨by decide +kernel, by decide +kernel, rfl⟩

/-- An interim response. -/
def earlyHints : Message where
  minor := '1'.toUInt8
  code := ascii "103"
  reason := ascii " Early Hints"
  fields := []
  body := .bodyless
  minor_text := by decide
  code_digits := forall_mem_of_all (by decide)
  code_length := rfl
  reason_text := forall_mem_of_all (by decide)
  announce := by
    refine ⟨?_, nofun, by decide +kernel⟩
    rintro ⟨f, hf, -⟩
    cases hf

/-- The answer that consists of one byte. -/
def plainAnswer (b : UInt8) : Answer where
  interim := []
  final := okResponse b
  interim_status := nofun
  interim_bodyless := nofun
  final_status := (by decide : 200 ≤ ofDigits 10 (ascii "200"))

/-- The same answer after an interim response. -/
def hintedAnswer (b : UInt8) : Answer where
  interim := [earlyHints]
  final := okResponse b
  interim_status := fun m hm ↦ by
    rw [List.mem_singleton.mp hm]
    decide +kernel
  interim_bodyless := fun m hm ↦ by
    rw [List.mem_singleton.mp hm]
    rfl
  final_status := (by decide : 200 ≤ ofDigits 10 (ascii "200"))

/-- A request for a path, during which the socket does what it should and delivers the given pieces. -/
def getRound (path : String) (answer : Answer) (pieces : List Bytes) : Round where
  method := ascii "GET"
  path := ascii path
  body := []
  answer := answer
  io := { pieces := pieces }

/-- Two requests on one connection, the first answer arriving in two pieces. -/
def plainRounds : List Round :=
  [getRound "/a" (plainAnswer 1) [(okResponse 1).encode.take 20, (okResponse 1).encode.drop 20],
    getRound "/b" (plainAnswer 2) [(okResponse 2).encode]]

/-- The hypotheses of `responses_attributed` hold of two requests on one connection. -/
theorem responses_attributed_plain :
    List.Forall₂ Round.Answered plainRounds (Link.results ⟨{ host := [], signed := false }, []⟩ plainRounds) ∧
      Link.results ⟨{ host := [], signed := false }, []⟩ plainRounds =
        [.ok ⟨200, true, [1]⟩, .ok ⟨200, true, [2]⟩] := by
  refine ⟨responses_attributed [] false plainRounds ⟨by decide +kernel, by decide +kernel, trivial⟩ ?_,
    by decide +kernel⟩
  intro r hr
  rcases List.mem_cons.mp hr with rfl | hr
  · exact ⟨rfl, nofun⟩
  · rw [List.mem_singleton.mp hr]
    exact ⟨rfl, nofun⟩

/-- Two requests on one connection, the first answer preceded by an interim response. -/
def hintedRounds : List Round :=
  [getRound "/a" (hintedAnswer 1) [earlyHints.encode ++ (okResponse 1).encode],
    getRound "/b" (plainAnswer 2) [(okResponse 2).encode]]

/-- **An interim response shifts the answers**: the first call returns the interim response as its answer, and the
second call returns the answer to the first. -/
theorem responses_shifted_by_interim :
    Link.Always Link.InOrder ⟨{ host := [], signed := false }, []⟩ hintedRounds ∧
    Link.results ⟨{ host := [], signed := false }, []⟩ hintedRounds =
      [.ok ⟨103, true, []⟩, .ok ⟨200, true, [1]⟩] ∧
    ¬ List.Forall₂ Round.Answered hintedRounds
      (Link.results ⟨{ host := [], signed := false }, []⟩ hintedRounds) := by
  have hresults : Link.results ⟨{ host := [], signed := false }, []⟩ hintedRounds =
      [.ok ⟨103, true, []⟩, .ok ⟨200, true, [1]⟩] := by decide +kernel
  refine ⟨⟨by decide +kernel, by decide +kernel, trivial⟩, hresults, ?_⟩
  rw [hresults]
  intro hall
  cases hall with
  | cons hfirst _ => exact absurd (hfirst _ rfl).1 (by decide +kernel)

end KalshiClient.Http
