import KalshiClient.Base.Mealy
import KalshiClient.Http.Sending
import KalshiClient.Http.Server

/-!
# What a server reads

The other end of `HttpClient::request`: a server that takes the bytes of a connection apart, request by request
(`readRequests`), each with a request line, header lines up to the first empty one, and as many bytes of body as
`Content-Length` says.

Whatever a client is made to do, the server reads on all connections together the requests that were sent, in their
order and each once (`Forall₂_readRequests`).  Of a request that could not be sent a part may have arrived; it is never
taken for a request, and nothing follows it on its connection.
-/

namespace KalshiClient.Http

open Bytes Split

/-! ## The server -/

/-- A request, as a server reads it. -/
structure Request where
  /-- The method. -/
  method : Bytes
  /-- The target. -/
  path : Bytes
  /-- The headers. -/
  headers : List Header
  /-- The body. -/
  body : Bytes
deriving DecidableEq

/-- The method and the target of a request line. -/
def readRequestLine (line : Bytes) : Option (Bytes × Bytes) :=
  match breakOn (ascii " ") line with
  | none => none
  | some (method, rest) =>
    match breakOn (ascii " ") rest with
    | none => none
    | some (path, version) => if version = ascii "HTTP/1.1" then some (method, path) else none

/-- The request at the start of a stream, and the rest of the stream. -/
def readRequest (s : Bytes) : Option (Request × Bytes) :=
  match breakOn (crlf ++ crlf) s with
  | none => none
  | some (head, rest) =>
    match readRequestLine ((breakOn crlf head).elim head Prod.fst) with
    | none => none
    | some (method, path) =>
      let headers := headerList head
      let length := (announcedLength headers).getD 0
      -- A body in a transfer coding is not read here.
      if (lastTransferEncoding headers).isSome ∨ rest.length < length then none
      else some (⟨method, path, headers, rest.take length⟩, rest.drop length)

/-- One request after the other. -/
def readRequestsUpTo : Nat → Bytes → List Request
  | 0, _ => []
  | fuel + 1, s =>
    match readRequest s with
    | none => []
    | some (r, rest) => r :: readRequestsUpTo fuel rest

/-- All requests of a stream; each takes some of it. -/
def readRequests (s : Bytes) : List Request := readRequestsUpTo s.length s

/-! ## Requests as they are written -/

/-- A byte that may stand in a word of the request line. -/
def isWord (c : UInt8) : Bool := isText c && c ≠ ' '.toUInt8

/-- A request that fits on its lines, and whose headers announce its body. -/
structure Written where
  /-- The method. -/
  method : Bytes
  /-- The target. -/
  path : Bytes
  /-- The header lines. -/
  fields : List Field
  /-- The body. -/
  body : Bytes
  method_word : ∀ c ∈ method, isWord c = true
  path_word : ∀ c ∈ path, isWord c = true
  uncoded : lastTransferEncoding (fields.map Field.header) = none
  announced : (announcedLength (fields.map Field.header)).getD 0 = body.length

namespace Written

/-- The request line. -/
def requestLine (w : Written) : Bytes := w.method ++ ascii " " ++ (w.path ++ ascii " " ++ ascii "HTTP/1.1")

/-- The bytes. -/
def encode (w : Written) : Bytes := w.requestLine ++ fieldLines w.fields ++ (crlf ++ crlf) ++ w.body

/-- The request it is. -/
def request (w : Written) : Request := ⟨w.method, w.path, w.fields.map Field.header, w.body⟩

end Written

/-! ## Lines -/

theorem cr_notMem_of_isWord {s : Bytes} (h : ∀ c ∈ s, isWord c = true) : '\r'.toUInt8 ∉ s := by
  intro hmem
  have hword := h _ hmem
  exact absurd hword (by decide)

theorem blank_notMem_of_isWord {s : Bytes} (h : ∀ c ∈ s, isWord c = true) : ' '.toUInt8 ∉ s := by
  intro hmem
  have hword := h _ hmem
  exact absurd hword (by decide)

theorem Field.parseLine_line (f : Field) : parseLine f.line = some f.header := by
  have hcolon : ':'.toUInt8 ∉ f.name := fun hmem ↦ (f.name_text _ hmem).2 rfl
  rw [parseLine, line, breakOn_eq_some hcolon, header]
  cases hname : f.name with
  | nil => exact absurd hname f.name_ne
  | cons c name =>
      dsimp only
      rw [trim_append f.before_blank f.after_blank f.value_head f.value_last]

/-- Header lines are taken apart line by line. -/
theorem lines_fieldLines (f : Field) (fields : List Field) {fuel : Nat} (hfuel : fields.length < fuel) :
    lines fuel (f.line ++ fieldLines fields) = (f :: fields).map Field.line := by
  have hne (f : Field) (s : Bytes) : f.line ++ s ≠ [] := by
    simp [Field.line]
  induction fields generalizing f fuel with
  | nil =>
      obtain ⟨fuel, rfl⟩ : ∃ n, fuel = n + 1 := ⟨fuel - 1, by omega⟩
      have hline : f.line ++ fieldLines [] = f.line := List.append_nil _
      rw [lines, if_neg (hne f _), hline, breakOn_crlf_eq_none f.cr_notMem_line]
      rfl
  | cons g fields ih =>
      obtain ⟨fuel, rfl⟩ : ∃ n, fuel = n + 1 := ⟨fuel - 1, by omega⟩
      have hcut : f.line ++ fieldLines (g :: fields) = f.line ++ crlf ++ (g.line ++ fieldLines fields) := by
        simp only [fieldLines_cons, List.append_assoc]
      rw [lines, if_neg (hne f _), hcut, breakOn_crlf f.cr_notMem_line]
      exact congrArg (f.line :: ·) (ih g (Nat.lt_of_succ_lt_succ hfuel))

/-- The headers of a head are its fields. -/
theorem headerList_fieldLines {first : Bytes} (hfirst : '\r'.toUInt8 ∉ first) (fields : List Field) :
    headerList (first ++ fieldLines fields) = fields.map Field.header := by
  rw [headerList]
  cases fields with
  | nil =>
      have hnil : first ++ fieldLines [] = first := List.append_nil _
      rw [hnil, breakOn_crlf_eq_none hfirst]
      rfl
  | cons f fields =>
      have hcut : first ++ fieldLines (f :: fields) = first ++ crlf ++ (f.line ++ fieldLines fields) := by
        simp only [fieldLines_cons, List.append_assoc]
      have hfuel : fields.length < (f.line ++ fieldLines fields).length := by
        have hlines := length_le_length_flatMap fields fun f ↦ (by simp [crlf] : 0 < (crlf ++ f.line).length)
        rw [← fieldLines] at hlines
        simp only [List.length_append, Field.line, List.length_singleton]
        omega
      rw [hcut, breakOn_crlf hfirst]
      dsimp only
      rw [lines_fieldLines f fields hfuel, List.filterMap_map]
      exact List.filterMap_eq_map_iff_forall_eq_some.mpr fun f _ ↦ f.parseLine_line

theorem breakOn_crlf_fieldLines {first : Bytes} (hfirst : '\r'.toUInt8 ∉ first) (fields : List Field) :
    (breakOn crlf (first ++ fieldLines fields)).elim (first ++ fieldLines fields) Prod.fst = first := by
  cases fields with
  | nil =>
      have hnil : first ++ fieldLines [] = first := List.append_nil _
      rw [hnil, breakOn_crlf_eq_none hfirst]
      rfl
  | cons f fields =>
      rw [fieldLines_cons, ← List.append_assoc, ← List.append_assoc, List.append_assoc (first ++ crlf),
        breakOn_crlf hfirst]
      rfl

namespace Written

variable (w : Written)

theorem cr_notMem_requestLine : '\r'.toUInt8 ∉ w.requestLine := by
  simp only [requestLine, List.mem_append, not_or]
  exact ⟨⟨cr_notMem_of_isWord w.method_word, by decide⟩, ⟨cr_notMem_of_isWord w.path_word, by decide⟩, by decide⟩

theorem readRequestLine_requestLine : readRequestLine w.requestLine = some (w.method, w.path) := by
  have hcut {word : Bytes} (h : ∀ c ∈ word, isWord c = true) (rest : Bytes) :
      breakOn (ascii " ") (word ++ ascii " " ++ rest) = some (word, rest) :=
    breakOn_eq_some (blank_notMem_of_isWord h) rest
  rw [readRequestLine, requestLine, hcut w.method_word]
  dsimp only
  rw [hcut w.path_word]
  exact if_pos rfl

/-- What is read of a stream that has the head of the request, with more or less behind it. -/
theorem readRequest_head (rest : Bytes) :
    readRequest (w.requestLine ++ fieldLines w.fields ++ (crlf ++ crlf) ++ rest) =
      if rest.length < w.body.length then none
      else some (⟨w.method, w.path, w.fields.map Field.header, rest.take w.body.length⟩,
        rest.drop w.body.length) := by
  rw [readRequest, breakOn_fieldLines w.cr_notMem_requestLine]
  dsimp only
  rw [breakOn_crlf_fieldLines w.cr_notMem_requestLine, w.readRequestLine_requestLine]
  dsimp only
  rw [headerList_fieldLines w.cr_notMem_requestLine, w.announced, w.uncoded]
  simp only [Option.isSome_none, Bool.false_eq_true, false_or]

/-- **A request is read back**, whatever follows it. -/
theorem readRequest_encode (rest : Bytes) : readRequest (w.encode ++ rest) = some (w.request, rest) := by
  have hshort : ¬ (w.body ++ rest).length < w.body.length := by
    rw [List.length_append]
    omega
  rw [encode, List.append_assoc _ w.body, w.readRequest_head, if_neg hshort, List.take_left, List.drop_left]
  rfl

/-- **A part of a request** is not taken for a request. -/
theorem readRequest_part {part : Bytes} (h : part <+: w.encode) (hne : part ≠ w.encode) : readRequest part = none := by
  obtain ⟨missing, hmissing⟩ := h
  cases hhead : breakOn (crlf ++ crlf) part with
  | none => rw [readRequest, hhead]
  | some cut =>
      obtain ⟨head, rest⟩ := cut
      have hpart := eq_append_of_breakOn hhead
      have hwhole := breakOn_append hhead missing
      rw [hmissing, encode, breakOn_fieldLines w.cr_notMem_requestLine] at hwhole
      obtain ⟨rfl, hbody⟩ := Prod.mk.inj (Option.some.inj hwhole)
      have hmissing_ne : missing ≠ [] := by
        rintro rfl
        exact hne (by rw [← hmissing, List.append_nil])
      have hlength := List.length_pos_of_ne_nil hmissing_ne
      rw [hpart, w.readRequest_head, if_pos]
      rw [hbody, List.length_append]
      omega

theorem length_encode_pos : 0 < w.encode.length := by
  simp only [encode, List.length_append, crlf, List.length_cons]
  omega

end Written

/-- **A connection is read back**: all requests on it, and nothing of what follows if that is not a request. -/
theorem readRequests_flatMap (ws : List Written) {part : Bytes} (h : readRequest part = none) :
    readRequests (ws.flatMap Written.encode ++ part) = ws.map Written.request := by
  have hupTo : ∀ fuel, ws.length ≤ fuel →
      readRequestsUpTo fuel (ws.flatMap Written.encode ++ part) = ws.map Written.request := by
    induction ws with
    | nil =>
        intro fuel _
        cases fuel with
        | zero => rfl
        | succ fuel =>
            rw [readRequestsUpTo, List.flatMap_nil, List.nil_append, h]
            rfl
    | cons w ws ih =>
        intro fuel hfuel
        obtain ⟨fuel, rfl⟩ : ∃ n, fuel = n + 1 := ⟨fuel - 1, by rw [List.length_cons] at hfuel; omega⟩
        rw [readRequestsUpTo, List.flatMap_cons, List.append_assoc, w.readRequest_encode]
        exact congrArg (w.request :: ·) (ih fuel (Nat.le_of_succ_le_succ hfuel))
  refine hupTo _ ?_
  have hlength := length_le_length_flatMap ws Written.length_encode_pos
  rw [List.length_append]
  omega

/-! ## Connections -/

/-- The bytes that arrive at the server when a client does this to its sockets, one stream for each connection.  Of what
could not be sent a part may arrive. -/
inductive Arrival : List Event → List Bytes → Prop
  | nil : Arrival [] []
  | opened {events : List Event} {streams : List Bytes} (h : Arrival events streams) :
      Arrival (events ++ [.open true]) (streams ++ [[]])
  | notOpened {events : List Event} {streams : List Bytes} (h : Arrival events streams) :
      Arrival (events ++ [.open false]) streams
  | sent {events : List Event} {streams : List Bytes} {stream bytes : Bytes} (h : Arrival events (streams ++ [stream])) :
      Arrival (events ++ [.send bytes true]) (streams ++ [stream ++ bytes])
  | notSent {events : List Event} {streams : List Bytes} {stream bytes part : Bytes}
      (h : Arrival events (streams ++ [stream])) (hpart : part <+: bytes) (hne : part ≠ bytes) :
      Arrival (events ++ [.send bytes false]) (streams ++ [stream ++ part])
  | read {events : List Event} {streams : List Bytes} {buffer : Bytes} {ok : Bool} (h : Arrival events streams) :
      Arrival (events ++ [.read buffer ok]) streams

/-- What was sent. -/
def sentBytes (events : List Event) : List Bytes :=
  events.filterMap fun
    | .send bytes true => some bytes
    | _ => none

/-- What the server has taken: all requests that were sent, and on a connection that is in use there is nothing but
requests. -/
structure Took (s : Option Bytes) (streams : List Bytes) (ws : List Written) : Prop where
  read : streams.flatMap readRequests = ws.map Written.request
  current : s.isSome = true → ∃ closed before now,
    streams = closed ++ [now.flatMap Written.encode] ∧ closed.flatMap readRequests = before.map Written.request ∧
      ws = before ++ now

theorem readRequest_nil : readRequest [] = none := rfl

/-- A connection that is not used again is read to its end. -/
theorem Took.closed {s : Option Bytes} {streams : List Bytes} {ws : List Written} (h : Took s streams ws) :
    Took none streams ws := ⟨h.read, fun hs ↦ Bool.noConfusion hs⟩

/-- What arrives on a connection in use, up to a part of a request. -/
theorem Took.extend {s : Option Bytes} {streams : List Bytes} {stream part : Bytes} {ws : List Written}
    (h : Took s (streams ++ [stream]) ws) (hs : s.isSome = true) (more : List Written) (hpart : readRequest part = none) :
    ∃ before now, stream = now.flatMap Written.encode ∧ streams.flatMap readRequests = before.map Written.request ∧
      ws = before ++ now ∧
      (streams ++ [stream ++ (more.flatMap Written.encode ++ part)]).flatMap readRequests =
        (ws ++ more).map Written.request := by
  obtain ⟨closed, before, now, hstreams, hclosed, rfl⟩ := h.current hs
  obtain ⟨rfl, hstream⟩ := List.append_inj' hstreams rfl
  obtain rfl := List.singleton_inj.mp hstream
  refine ⟨before, now, rfl, hclosed, rfl, ?_⟩
  rw [List.flatMap_append, hclosed, List.flatMap_singleton, ← List.append_assoc, ← List.flatMap_append,
    readRequests_flatMap _ hpart, List.append_assoc, List.map_append, List.map_append, List.map_append]

/-- **What the server takes** of what a client does to its sockets: each request that was sent, and nothing else. -/
theorem Arrival.took {events : List Event} {streams : List Bytes} (h : Arrival events streams) {s : Option Bytes}
    (hrun : Connection.Run none events s)
    (hwritten : ∀ bytes ok, .send bytes ok ∈ events → ∃ w : Written, bytes = w.encode) :
    ∃ ws, sentBytes events = ws.map Written.encode ∧ Took s streams ws := by
  have hsplit {events : List Event} {e : Event} {s : Option Bytes} (hrun : Connection.Run none (events ++ [e]) s) :
      ∃ s₁, Connection.Run none events s₁ ∧ Connection.Step s₁ e s := by
    obtain ⟨s₁, hbefore, hlast⟩ := hrun.split
    cases hlast with
    | cons hstep hrest =>
        cases hrest
        exact ⟨s₁, hbefore, hstep⟩
  have hquiet {events : List Event} {e : Event} (he : e.isDelivery = false) :
      sentBytes (events ++ [e]) = sentBytes events := by
    rw [sentBytes, List.filterMap_append]
    rcases e with _ | ⟨_, _ | _⟩ | _
    · exact List.append_nil _
    · exact List.append_nil _
    · exact Bool.noConfusion he
    · exact List.append_nil _
  -- The induction is on the events, last first; what the connection may do next says which of them can follow.
  induction h generalizing s with
  | nil =>
      cases hrun
      exact ⟨[], rfl, rfl, fun hs ↦ Bool.noConfusion hs⟩
  | @opened events streams h ih =>
      obtain ⟨s₁, hbefore, hstep⟩ := hsplit hrun
      obtain ⟨ws, hsent, htook⟩ := ih hbefore fun bytes ok hmem ↦ hwritten bytes ok (List.mem_append_left _ hmem)
      refine ⟨ws, (hquiet rfl).trans hsent, ?_, fun _ ↦ ⟨streams, ws, [], rfl, htook.read, (List.append_nil _).symm⟩⟩
      rw [List.flatMap_append, htook.read, List.flatMap_singleton]
      exact List.append_nil _
  | @notOpened events streams h ih =>
      obtain ⟨s₁, hbefore, hstep⟩ := hsplit hrun
      obtain ⟨ws, hsent, htook⟩ := ih hbefore fun bytes ok hmem ↦ hwritten bytes ok (List.mem_append_left _ hmem)
      cases hstep
      exact ⟨ws, (hquiet rfl).trans hsent, htook.closed⟩
  | @sent events streams stream bytes h ih =>
      obtain ⟨s₁, hbefore, hstep⟩ := hsplit hrun
      obtain ⟨ws, hsent, htook⟩ := ih hbefore fun bytes ok hmem ↦ hwritten bytes ok (List.mem_append_left _ hmem)
      obtain ⟨w, rfl⟩ := hwritten bytes true (List.mem_append_right _ List.mem_cons_self)
      cases hstep with
      | @sent buffer =>
          obtain ⟨before, now, rfl, hclosed, rfl, hread⟩ := htook.extend rfl [w] readRequest_nil
          rw [List.append_nil, List.flatMap_singleton] at hread
          refine ⟨before ++ now ++ [w], ?_, hread, fun _ ↦ ⟨streams, before, now ++ [w], ?_, hclosed, ?_⟩⟩
          · rw [sentBytes, List.filterMap_append, List.map_append, ← hsent]
            rfl
          · rw [List.flatMap_append, List.flatMap_singleton]
          · rw [List.append_assoc]
  | @notSent events streams stream bytes part h hpart hne ih =>
      obtain ⟨s₁, hbefore, hstep⟩ := hsplit hrun
      obtain ⟨ws, hsent, htook⟩ := ih hbefore fun bytes ok hmem ↦ hwritten bytes ok (List.mem_append_left _ hmem)
      obtain ⟨w, rfl⟩ := hwritten bytes false (List.mem_append_right _ List.mem_cons_self)
      cases hstep with
      | @notSent buffer =>
          obtain ⟨before, now, rfl, -, rfl, hread⟩ := htook.extend rfl [] (w.readRequest_part hpart hne)
          rw [List.append_nil] at hread
          exact ⟨before ++ now, (hquiet rfl).trans hsent, hread, fun hs ↦ Bool.noConfusion hs⟩
  | @read events streams buffer ok h ih =>
      obtain ⟨s₁, hbefore, hstep⟩ := hsplit hrun
      obtain ⟨ws, hsent, htook⟩ := ih hbefore fun bytes ok hmem ↦ hwritten bytes ok (List.mem_append_left _ hmem)
      refine ⟨ws, (hquiet rfl).trans hsent, htook.read, fun _ ↦ ?_⟩
      cases hstep with
      | read => exact htook.current rfl
      | notRead => exact htook.current rfl

end KalshiClient.Http
