import KalshiClient.Http.Auth

/-!
# The client and the exchange

Any sequence of calls on an `HttpClient`, with any outcome of the operations on its sockets, seen from the exchange
(`server_reads_requests`): on all connections together it reads the requests that were sent, in their order and each
once, it finds each one signed, and what is left of requests that could not be sent it never takes for a request.
-/

namespace KalshiClient.Http

open Bytes

/-! ## Calls -/

/-- A call on the client. -/
inductive Use where
  /-- `connect`. -/
  | connect (io : Io)
  /-- `request`. -/
  | request (method path body : Bytes) (io : Io)

/-- What is asked for. -/
def Use.asked : Use → Option (Bytes × Bytes × Bytes)
  | .connect _ => none
  | .request method path body _ => some (method, path, body)

/-- The client after a call, with what the call did to the sockets. -/
def HttpClient.use (c : HttpClient) (u : Use) : HttpClient × List (Use × List Event) :=
  match u with
  | .connect io => ((c.connect io).1, [(u, (c.connect io).2.2)])
  | .request method path body io =>
    let outcome := c.request method path body io
    (outcome.client, [(u, outcome.events)])

/-- All that was done to the sockets. -/
def socketEvents (log : List (Use × List Event)) : List Event := log.flatMap Prod.snd

/-- What was asked for, as often as it was sent. -/
def askedFor (log : List (Use × List Event)) : List (Bytes × Bytes × Bytes) :=
  log.flatMap fun call ↦ (sentBytes call.2).filterMap fun _ ↦ call.1.asked

/-- The request is signed at some time.  What OpenSSL signs the exchange accepts. -/
def Io.SignedFor (verify : Bytes → Bytes → Bool) (signer : Signer) (method path : Bytes) (io : Io) : Prop :=
  ∃ timestamp ssl, io.auth = signer.authHeaders timestamp ssl method path ∧
    ∀ message signature, ssl.final message = .ok signature → verify message signature = true

/-- A request of ordinary size that is signed. -/
def Use.Signed (verify : Bytes → Bytes → Bool) (signer : Signer) : Use → Prop
  | .connect _ => True
  | .request method path body io =>
    (∀ c ∈ method ++ path, isWord c = true) ∧ body.length < 2 ^ 64 ∧ io.SignedFor verify signer method path

/-! ## The bytes of a request -/

/-- The header lines that announce a body. -/
def contentFields (method body : Bytes) : List Field :=
  if body ≠ [] ∨ method = ascii "POST" then
    [spaced (ascii "Content-Type") (by decide) (ascii "application/json") (.of_forall (forall_mem_of_all (by decide))),
      spaced (ascii "Content-Length") (by decide) (ofNat body.length) (isValue_ofInt body.length)]
  else []

/-- The header lines of a request. -/
def requestFields {host keyId : Bytes} (hhost : IsValue host) (hkey : IsValue keyId) (signature : Bytes)
    (timestamp : Int) (method body : Bytes) : List Field :=
  spaced (ascii "Host") (by decide) host hhost ::
    (accessFields hkey signature timestamp ++ contentFields method body)

section Bytes

variable {host keyId : Bytes} (hhost : IsValue host) (hkey : IsValue keyId) (signature : Bytes) (timestamp : Int)
  (method body : Bytes)

theorem uncoded_requestFields :
    lastTransferEncoding ((requestFields hhost hkey signature timestamp method body).map Field.header) = none := by
  rw [requestFields, contentFields]
  split <;> rfl

theorem announced_requestFields (hbody : body.length < 2 ^ 64) :
    (announcedLength ((requestFields hhost hkey signature timestamp method body).map Field.header)).getD 0 =
      body.length := by
  rw [requestFields, contentFields]
  split_ifs with hcontent
  · have hfind : announcedLength ((spaced (ascii "Host") (by decide) host hhost ::
        (accessFields hkey signature timestamp ++
          [spaced (ascii "Content-Type") (by decide) (ascii "application/json")
              (.of_forall (forall_mem_of_all (by decide))),
            spaced (ascii "Content-Length") (by decide) (ofNat body.length)
              (isValue_ofInt body.length)])).map Field.header) =
        parseWhole isDigit 10 64 (ofNat body.length) := rfl
    rw [hfind, parseWhole_ofNat hbody]
    rfl
  · have hempty : body = [] := by
      by_contra hne
      exact hcontent (.inl hne)
    rw [hempty]
    rfl

variable {method body} {path : Bytes}

/-- A signed request, as it is written. -/
def writtenRequest (hwords : ∀ c ∈ method ++ path, isWord c = true) (hbody : body.length < 2 ^ 64) : Written where
  method := method
  path := path
  fields := requestFields hhost hkey signature timestamp method body
  body := body
  method_word c hc := hwords c (List.mem_append_left _ hc)
  path_word c hc := hwords c (List.mem_append_right _ hc)
  uncoded := uncoded_requestFields hhost hkey signature timestamp method body
  announced := announced_requestFields hhost hkey signature timestamp method body hbody

/-- What `request` sends. -/
theorem requestBytes_eq (c : HttpClient) (hhost : IsValue c.host) (hwords : ∀ c ∈ method ++ path, isWord c = true)
    (hbody : body.length < 2 ^ 64) :
    c.requestBytes method path body (endedLines (accessFields hkey signature timestamp)) =
      (writtenRequest hhost hkey signature timestamp hwords hbody).encode := by
  have hcontent : endedLines (contentFields method body) =
      if body ≠ [] ∨ method = ascii "POST" then
        ascii "Content-Type: application/json\r\nContent-Length: " ++ ofNat body.length ++ crlf
      else [] := by
    rw [contentFields]
    split_ifs
    · simp only [endedLines, List.flatMap_cons, List.flatMap_nil, spaced, Field.line, List.append_assoc,
        List.append_nil]
      rfl
    · rfl
  have hlines : fieldLines (requestFields hhost hkey signature timestamp method body) ++ crlf =
      crlf ++ (ascii "Host: " ++ c.host ++ crlf ++ endedLines (accessFields hkey signature timestamp) ++
        endedLines (contentFields method body)) := by
    rw [← crlf_endedLines, requestFields]
    simp only [endedLines, List.flatMap_cons, List.flatMap_append, spaced, Field.line, List.append_assoc]
    rfl
  rw [HttpClient.requestBytes, ← hcontent, Written.encode]
  change _ = (method ++ ascii " " ++ (path ++ ascii " " ++ ascii "HTTP/1.1")) ++ fieldLines _ ++ (crlf ++ crlf) ++ body
  rw [List.append_assoc _ _ (crlf ++ crlf), ← List.append_assoc _ crlf crlf]
  change _ = _ ++ (fieldLines (requestFields hhost hkey signature timestamp method body) ++ crlf ++ crlf) ++ body
  rw [hlines]
  simp only [List.append_assoc]
  rfl

/-- The exchange finds it signed. -/
theorem authentic_writtenRequest {verify : Bytes → Bytes → Bool} (hwords : ∀ c ∈ method ++ path, isWord c = true)
    (hbody : body.length < 2 ^ 64) (hverify : verify (signedMessage timestamp method path) signature = true) :
    authentic verify keyId (writtenRequest hhost hkey signature timestamp hwords hbody).request = true := by
  have hheaders : (writtenRequest hhost hkey signature timestamp hwords hbody).request.headers =
      [(ascii "Host", host)] ++
        ((accessFields hkey signature timestamp).map Field.header ++ (contentFields method body).map Field.header) := by
    exact congrArg (_ :: ·) List.map_append
  refine authentic_of_signed hkey hheaders (fun f hf ↦ ?_) hverify
  rw [List.mem_singleton.mp hf]
  rfl

end Bytes

/-! ## What a call does -/

theorem Attempt.sentBytes_eq {bytes : Bytes} {reused ok : Bool} {events : List Event}
    (h : Attempt bytes reused events ok) : sentBytes events = if ok then [bytes] else [] := by
  cases h <;> rfl

theorem Attempt.eq_of_mem {bytes sent : Bytes} {reused ok received : Bool} {events : List Event}
    (h : Attempt bytes reused events ok) (hmem : .send sent received ∈ events) : sent = bytes := by
  cases h <;> grind

/-- The client speaks to the same host, in the same way. -/
def SameParty (c c' : HttpClient) : Prop := c'.host = c.host ∧ c'.signed = c.signed

namespace HttpClient

variable (c : HttpClient)

theorem sameParty_openConnection (opened : Except Bytes Int) : SameParty c (c.openConnection opened).1 := by
  cases opened <;> exact ⟨rfl, rfl⟩

theorem sameParty_openAndSend (bytes : Bytes) (opened : Except Bytes Int) (sent : Except Bytes Unit) :
    SameParty c (c.openAndSend bytes opened sent).1 := by
  cases opened with
  | error e => exact ⟨rfl, rfl⟩
  | ok now => cases sent <;> exact ⟨rfl, rfl⟩

theorem sameParty_sendRequest (bytes : Bytes) (io : Io) : SameParty c (c.sendRequest bytes io).1 := by
  rw [sendRequest]
  split_ifs
  · cases io.sent with
    | ok _ => exact ⟨rfl, rfl⟩
    | error e => exact c.sameParty_openAndSend bytes io.opened io.resent
  · exact c.sameParty_openAndSend bytes io.opened io.sent

theorem sameParty_requestWith (method path body auth : Bytes) (io : Io) :
    SameParty c (c.requestWith method path body auth io).client := by
  have hsend := c.sameParty_sendRequest (c.requestBytes method path body auth) io
  rw [requestWith]
  generalize c.sendRequest (c.requestBytes method path body auth) io = sent at hsend
  obtain ⟨c', _ | _, events⟩ := sent
  · exact hsend
  · exact hsend

theorem sameParty_use (u : Use) : SameParty c (c.use u).1 := by
  cases u with
  | connect io =>
      change SameParty c (c.connect io).1
      rw [connect]
      split_ifs
      · exact ⟨rfl, rfl⟩
      · exact c.sameParty_openConnection io.opened
  | request method path body io =>
      change SameParty c (c.request method path body io).client
      rw [request]
      split_ifs
      · cases io.auth with
        | error e => exact ⟨rfl, rfl⟩
        | ok auth => exact c.sameParty_requestWith method path body auth io
      · exact c.sameParty_requestWith method path body [] io

/-- A request is attempted, and then perhaps an answer is read. -/
theorem requestWith_events (method path body auth : Bytes) (io : Io) :
    ∃ attempt ok reads, Attempt (c.requestBytes method path body auth) (c.reused io) attempt ok ∧
      (c.requestWith method path body auth io).events = attempt ++ reads ∧ ∀ e ∈ reads, e.isRead = true := by
  rw [requestWith]
  rcases c.sendRequest_cases (c.requestBytes method path body auth) io with
    ⟨c', events, hsend, hattempt, -, -⟩ | ⟨c', e, events, hsend, hattempt, -⟩
  · rw [hsend]
    refine ⟨events, true, _, hattempt, rfl, fun e he ↦ ?_⟩
    rw [List.mem_singleton.mp he]
    rfl
  · rw [hsend]
    exact ⟨events, false, [], hattempt, (List.append_nil _).symm, fun e he ↦ absurd he List.not_mem_nil⟩

theorem use_run (u : Use) : Connection.Run c.connection (socketEvents (c.use u).2) (c.use u).1.connection := by
  cases u with
  | connect io =>
      change Connection.Run _ ((c.connect io).2.2 ++ []) _
      rw [List.append_nil]
      exact c.connect_run io
  | request method path body io =>
      change Connection.Run _ ((c.request method path body io).events ++ []) _
      rw [List.append_nil]
      exact c.request_run method path body io

end HttpClient

/-! ## Runs -/

/-- What a server reads of the bytes of a request depends on the bytes only. -/
theorem map_request_congr {ws ws' : List Written} (h : ws.map Written.encode = ws'.map Written.encode) :
    ws.map Written.request = ws'.map Written.request := by
  have hread (ws : List Written) : (ws.map Written.encode).filterMap (fun bytes ↦ (readRequest bytes).map Prod.fst) =
      ws.map Written.request := by
    rw [List.filterMap_map]
    refine List.filterMap_eq_map_iff_forall_eq_some.mpr fun w _ ↦ ?_
    have hone := w.readRequest_encode []
    rw [List.append_nil] at hone
    rw [Function.comp_apply, hone]
    rfl
  rw [← hread, h, hread]

/-- What the calls so far have sent. -/
structure Reported (verify : Bytes → Bytes → Bool) (keyId : Bytes) (log : List (Use × List Event)) : Prop where
  once : (askedFor log).Sublist (log.filterMap fun call ↦ call.1.asked)
  written : ∀ bytes ok, .send bytes ok ∈ socketEvents log → ∃ w : Written, bytes = w.encode
  sent : ∃ ws : List Written, sentBytes (socketEvents log) = ws.map Written.encode ∧
    ws.map (fun w ↦ (w.method, w.path, w.body)) = askedFor log ∧
    ∀ w ∈ ws, authentic verify keyId w.request = true

theorem Reported.append {verify : Bytes → Bytes → Bool} {keyId : Bytes} {log log' : List (Use × List Event)}
    (h : Reported verify keyId log) (h' : Reported verify keyId log') : Reported verify keyId (log ++ log') := by
  have hevents : socketEvents (log ++ log') = socketEvents log ++ socketEvents log' := List.flatMap_append
  obtain ⟨ws, hsent, hasked, hauthentic⟩ := h.sent
  obtain ⟨ws', hsent', hasked', hauthentic'⟩ := h'.sent
  have hasked_append : askedFor (log ++ log') = askedFor log ++ askedFor log' := List.flatMap_append
  refine ⟨?_, fun bytes ok hmem ↦ ?_, ws ++ ws', ?_, ?_, fun w hw ↦ ?_⟩
  · rw [hasked_append, List.filterMap_append]
    exact h.once.append h'.once
  · rw [hevents] at hmem
    rcases List.mem_append.mp hmem with hmem | hmem
    · exact h.written bytes ok hmem
    · exact h'.written bytes ok hmem
  · rw [hevents, List.map_append, ← hsent, ← hsent']
    exact List.filterMap_append
  · rw [List.map_append, hasked, hasked', hasked_append]
  · rcases List.mem_append.mp hw with hw | hw
    · exact hauthentic w hw
    · exact hauthentic' w hw

/-- A call that sends nothing. -/
theorem Reported.of_not_send {verify : Bytes → Bytes → Bool} {keyId : Bytes} {u : Use} {events : List Event}
    (h : ∀ bytes ok, .send bytes ok ∉ events) : Reported verify keyId [(u, events)] := by
  have hevents : socketEvents [(u, events)] = events := List.append_nil _
  have hnone : sentBytes events = [] := by
    rw [sentBytes, List.filterMap_eq_nil_iff]
    rintro (_ | ⟨bytes, _ | _⟩ | _) he
    · rfl
    · rfl
    · exact absurd he (h bytes true)
    · rfl
  have hasked : askedFor [(u, events)] = [] := by
    rw [askedFor, List.flatMap_singleton, hnone]
    rfl
  refine ⟨?_, fun bytes ok hmem ↦ absurd (hevents ▸ hmem) (h bytes ok), [], ?_, ?_,
    fun w hw ↦ absurd hw List.not_mem_nil⟩
  · rw [hasked]
    exact List.nil_sublist _
  · rw [hevents, hnone]
    rfl
  · rw [hasked]
    rfl

/-- A call that attempts to send a signed request. -/
theorem Reported.of_attempt {verify : Bytes → Bytes → Bool} {keyId : Bytes} {u : Use} {w : Written} {reused ok : Bool}
    {attempt reads : List Event} (h : Attempt w.encode reused attempt ok) (hreads : ∀ e ∈ reads, e.isRead = true)
    (hasked : u.asked = some (w.method, w.path, w.body)) (hauthentic : authentic verify keyId w.request = true) :
    Reported verify keyId [(u, attempt ++ reads)] := by
  have hevents : socketEvents [(u, attempt ++ reads)] = attempt ++ reads := List.append_nil _
  have hnone : sentBytes reads = [] := by
    rw [sentBytes, List.filterMap_eq_nil_iff]
    rintro (_ | ⟨bytes, _ | _⟩ | _) he
    · rfl
    · rfl
    · exact Bool.noConfusion (hreads _ he)
    · rfl
  have hsent : sentBytes (attempt ++ reads) = if ok then [w.encode] else [] := by
    rw [sentBytes, List.filterMap_append, ← sentBytes, ← sentBytes, hnone, List.append_nil, h.sentBytes_eq]
  have haskedFor : askedFor [(u, attempt ++ reads)] = if ok then [(w.method, w.path, w.body)] else [] := by
    rw [askedFor, List.flatMap_singleton, hsent, hasked]
    cases ok <;> rfl
  refine ⟨?_, fun bytes sent hmem ↦ ?_, if ok then [w] else [], ?_, ?_, fun w' hw' ↦ ?_⟩
  · rw [haskedFor, List.filterMap_cons, hasked]
    cases ok with
    | true => exact List.Sublist.refl _
    | false => exact List.nil_sublist _
  · rw [hevents] at hmem
    rcases List.mem_append.mp hmem with hmem | hmem
    · exact ⟨w, h.eq_of_mem hmem⟩
    · exact Bool.noConfusion (hreads _ hmem)
  · rw [hevents, hsent]
    cases ok <;> rfl
  · rw [haskedFor]
    cases ok <;> rfl
  · cases ok with
    | true =>
        rw [List.mem_singleton.mp hw']
        exact hauthentic
    | false => exact absurd hw' List.not_mem_nil

/-- **What one call sends** is nothing, or what was asked for, signed. -/
theorem HttpClient.reported_use {verify : Bytes → Bytes → Bool} {signer : Signer} {c : HttpClient} {u : Use}
    (hsigned : c.signed = true) (hhost : IsValue c.host) (hkey : IsValue signer.keyId) (hu : u.Signed verify signer) :
    Reported verify signer.keyId (c.use u).2 := by
  cases u with
  | connect io =>
      refine .of_not_send fun bytes ok hmem ↦ ?_
      rw [connect] at hmem
      split_ifs at hmem
      · exact absurd hmem List.not_mem_nil
      · cases List.mem_singleton.mp hmem
  | request method path body io =>
      obtain ⟨hwords, hbody, timestamp, ssl, hauth, hverify⟩ := hu
      change Reported verify signer.keyId [(_, (c.request method path body io).events)]
      cases hheaders : signer.authHeaders timestamp ssl method path with
      | error e =>
          rw [request, if_pos hsigned, hauth, hheaders]
          exact .of_not_send fun bytes ok ↦ List.not_mem_nil
      | ok auth =>
          obtain ⟨signature, hfinal, rfl⟩ := Signer.authHeaders_eq_ok hkey hheaders
          rw [request, if_pos hsigned, hauth, hheaders]
          dsimp only
          obtain ⟨attempt, ok, reads, hattempt, hevents, hreads⟩ := c.requestWith_events method path body
            (endedLines (accessFields hkey signature timestamp)) io
          rw [requestBytes_eq hkey signature timestamp c hhost hwords hbody] at hattempt
          rw [hevents]
          exact .of_attempt hattempt hreads rfl
            (authentic_writtenRequest hhost hkey signature timestamp hwords hbody (hverify _ _ hfinal))

/-- The log of a run has the calls in it. -/
theorem HttpClient.filterMap_asked (c : HttpClient) (uses : List Use) :
    (Mealy.run HttpClient.use c uses).2.filterMap (fun call ↦ call.1.asked) = uses.filterMap Use.asked := by
  induction uses generalizing c with
  | nil => rfl
  | cons u uses ih =>
      have hone : (c.use u).2.filterMap (fun call ↦ call.1.asked) = u.asked.toList := by
        cases u <;> rfl
      rw [Mealy.run, List.filterMap_append, ih, hone, List.filterMap_cons]
      cases u.asked <;> rfl

/-- What a run of calls sends, and that it runs connections as it may. -/
theorem HttpClient.reported_run {verify : Bytes → Bytes → Bool} {signer : Signer} {c : HttpClient}
    (hsigned : c.signed = true) (hconnected : c.connected = false) (hhost : IsValue c.host)
    (hkey : IsValue signer.keyId) {uses : List Use} (huses : ∀ u ∈ uses, u.Signed verify signer) :
    Reported verify signer.keyId (Mealy.run HttpClient.use c uses).2 ∧
      Connection.Run none (socketEvents (Mealy.run HttpClient.use c uses).2)
        (Mealy.run HttpClient.use c uses).1.connection := by
  obtain ⟨hreported, hrun, -⟩ := Mealy.run_invariant
    (I := fun c' log ↦ Reported verify signer.keyId log ∧
      Connection.Run none (socketEvents log) c'.connection ∧ SameParty c c')
    (P := fun u ↦ u.Signed verify signer)
    (by
      rintro c' log u ⟨hreported, hrun, hhost', hsigned'⟩ hu
      have hstep := HttpClient.reported_use (hsigned'.trans hsigned) (hhost' ▸ hhost) hkey hu
      have hparty := c'.sameParty_use u
      refine ⟨hreported.append hstep, ?_, hparty.1.trans hhost', hparty.2.trans hsigned'⟩
      rw [socketEvents, List.flatMap_append]
      exact hrun.append (c'.use_run u))
    [] ⟨⟨List.nil_sublist _, fun bytes ok hmem ↦ absurd hmem List.not_mem_nil, [], rfl, rfl,
        fun w hw ↦ absurd hw List.not_mem_nil⟩,
      by rw [HttpClient.connection_of_not_connected hconnected]; exact .nil, rfl, rfl⟩ uses huses
  exact ⟨hreported, hrun⟩

/-- What the exchange reads of all that was sent. -/
theorem Reported.reads {verify : Bytes → Bytes → Bool} {keyId : Bytes} {log : List (Use × List Event)}
    (h : Reported verify keyId log) {s : Option Bytes} (hrun : Connection.Run none (socketEvents log) s)
    {streams : List Bytes} (harrival : Arrival (socketEvents log) streams) :
    (streams.flatMap readRequests).map (fun r ↦ (r.method, r.path, r.body)) = askedFor log ∧
      ∀ r ∈ streams.flatMap readRequests, authentic verify keyId r = true := by
  obtain ⟨ws, hsent, hasked, hauthentic⟩ := h.sent
  obtain ⟨ws', hsent', htook⟩ := harrival.took hrun h.written
  have hread : streams.flatMap readRequests = ws.map Written.request := by
    rw [htook.read]
    exact map_request_congr (hsent'.symm.trans hsent)
  rw [hread]
  refine ⟨?_, fun r hr ↦ ?_⟩
  · rw [List.map_map, ← hasked]
    rfl
  · obtain ⟨w, hw, rfl⟩ := List.mem_map.mp hr
    exact hauthentic w hw

/-- A signer, with an OpenSSL that returns what it is given. -/
def echoSigner : Signer := ⟨ascii "key"⟩

/-- What happens outside the client, for a request it signs and gets an empty answer to. -/
def echoIo (method path : Bytes) (sent : Except Bytes Unit) : Io where
  pieces := [ascii "HTTP/1.1 204 No Content\r\n\r\n"]
  auth := echoSigner.authHeaders 5 { final := .ok } method path
  sent := sent

/-- A client that is asked for a status, and then sends an order for which the connection turns out to be gone. -/
def retriedUses : List Use :=
  [.request (ascii "GET") (ascii "/status") [] (echoIo (ascii "GET") (ascii "/status") (.ok ())),
    .request (ascii "POST") (ascii "/orders") (ascii "\r\n\r\n")
      (echoIo (ascii "POST") (ascii "/orders") (.error (ascii "broken pipe")))]

/-- The client. -/
def echoClient : HttpClient := { host := ascii "example", signed := true }

end KalshiClient.Http
