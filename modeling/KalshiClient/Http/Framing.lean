import KalshiClient.Http.Headers

/-!
# Which framing a response has

HTTP/1.1 says how the end of a body is found: some statuses have no body whatever the headers say, then a chunked
transfer coding counts, then the length, and otherwise the body ends with the connection (`prescribedFraming`).
`parse_http_response` asks in another order, looks at the last transfer coding only, and looks for the word anywhere in
it.  `framing_precedence_iff` says for which header blocks that makes no difference.
-/

namespace KalshiClient.Http

open Bytes Split

/-! ## The standard -/

/-- The value lists the chunked coding. -/
def Header.listsChunked (f : Header) : Bool :=
  (f.2.splitOn ','.toUInt8).any fun coding ↦ iequals (trim coding) (ascii "chunked")

/-- Some header lists the chunked coding. -/
def listChunked (headers : List Header) : Bool :=
  headers.any fun f ↦ f.isNamed (ascii "transfer-encoding") && f.listsChunked

/-- The framing that HTTP/1.1 prescribes. -/
def prescribedFraming (status : Nat) (headers : List Header) : Framing :=
  if isBodyless status then .bodyless
  else if listChunked headers then .chunked
  else
    match announcedLength headers with
    | some len => .length len
    | none => .close

theorem prescribedFraming_of_bodyless {status : Nat} (h : isBodyless status = true) (headers : List Header) :
    prescribedFraming status headers = .bodyless := by
  rw [prescribedFraming, if_pos h]

theorem prescribedFraming_of_body {status : Nat} (h : isBodyless status = false) (headers : List Header) :
    prescribedFraming status headers =
      if listChunked headers then .chunked else (announcedLength headers).elim .close .length := by
  rw [prescribedFraming, h, if_neg Bool.false_ne_true]
  cases announcedLength headers with
  | none => rfl
  | some len => rfl

/-- The response that follows a header block in a given framing, if `rest` follows it and perhaps the end of the
connection. -/
def FramedAs (h : Headers) (head rest : Bytes) (eof : Bool) (p : ParsedHttpResponse) : Framing → Prop
  | .bodyless => p = ⟨⟨h.status, h.keepAlive, []⟩, head.length + 4⟩
  | .chunked =>
    ∃ body left, decodeChunked (rest.length + 1) rest [] = .ok (some (body, left)) ∧
      p = ⟨⟨h.status, h.keepAlive, body⟩, head.length + 4 + rest.length - left.length⟩
  | .length len =>
    len ≤ kMaxHttpBodyBytes ∧ len ≤ rest.length ∧
      p = ⟨⟨h.status, h.keepAlive, rest.take len⟩, head.length + 4 + len⟩
  | .close =>
    eof = true ∧ rest.length ≤ kMaxHttpBodyBytes ∧
      p = ⟨⟨h.status, false, rest⟩, head.length + 4 + rest.length⟩

/-! ## The source -/

section Parser

variable {head rest : Bytes} {eof : Bool} {h : Headers} {p : ParsedHttpResponse}

/-- What the parser makes of the body depends on the framing it has chosen. -/
theorem parseBody_eq_some_iff :
    (∃ left, parseBody h rest eof = .ok (some (p.response, left)) ∧
      p.bytesConsumed = head.length + 4 + rest.length - left) ↔ FramedAs h head rest eof p h.framing := by
  obtain ⟨r, consumed⟩ := p
  rw [parseBody]
  cases h.framing with
  | chunked =>
      constructor
      · rintro ⟨left, hbody, hconsumed⟩
        obtain ⟨decoded, hdecoded, hbody⟩ := Except.bind_eq_ok_iff.mp hbody
        cases decoded with
        | none => cases eof <;> cases hbody
        | some decoded =>
            cases hbody
            cases hconsumed
            exact ⟨_, _, hdecoded, rfl⟩
      · rintro ⟨body, left, hdecoded, hp⟩
        cases hp
        refine ⟨left.length, ?_, rfl⟩
        dsimp only
        rw [hdecoded]
        rfl
  | length len =>
      constructor
      · rintro ⟨left, hbody, hconsumed⟩
        dsimp only at hbody
        split_ifs at hbody with hmax hshort
        · cases hbody
        · cases hbody
          refine ⟨not_lt.mp hmax, not_lt.mp hshort, ?_⟩
          have hlen : head.length + 4 + rest.length - (rest.length - len) = head.length + 4 + len := by omega
          rw [← hlen, ← hconsumed]
      · rintro ⟨hmax, hlen, hp⟩
        cases hp
        refine ⟨rest.length - len, ?_, ?_⟩
        · dsimp only
          rw [if_neg (not_lt.mpr hmax), if_neg (not_lt.mpr hlen)]
        · dsimp only
          omega
  | bodyless =>
      constructor
      · rintro ⟨left, hbody, hconsumed⟩
        cases hbody
        rw [Nat.add_sub_cancel] at hconsumed
        cases hconsumed
        rfl
      · intro hp
        cases hp
        exact ⟨rest.length, rfl, (Nat.add_sub_cancel _ _).symm⟩
  | close =>
      constructor
      · rintro ⟨left, hbody, hconsumed⟩
        cases eof with
        | false => cases hbody
        | true =>
            simp only [Bool.not_true, Bool.false_eq_true, if_false] at hbody
            split_ifs at hbody with hmax
            cases hbody
            cases hconsumed
            exact ⟨rfl, not_lt.mp hmax, rfl⟩
      · rintro ⟨rfl, hmax, hp⟩
        cases hp
        refine ⟨0, ?_, rfl⟩
        simp only [Bool.not_true, Bool.false_eq_true, if_false]
        rw [if_neg (not_lt.mpr hmax)]

/-- What the parser finds after an accepted header block. -/
theorem parseHttpResponse_eq_some_iff (hhead : breakOn (crlf ++ crlf) (head ++ (crlf ++ crlf)) = some (head, []))
    (hmax : head.length ≤ kMaxHttpHeaderBytes) (hok : parseHeaders head = .ok h) :
    parseHttpResponse (head ++ (crlf ++ crlf) ++ rest) eof = .ok (some p) ↔ FramedAs h head rest eof p h.framing := by
  have hlength : (head ++ (crlf ++ crlf) ++ rest).length = head.length + 4 + rest.length := by
    rw [List.length_append, List.length_append]
    rfl
  have hbreak := breakOn_replace hhead rest
  rw [parseHttpResponse_eq_some, hbreak, hlength, ← parseBody_eq_some_iff]
  constructor
  · rintro ⟨head', rest', h', left, hcut, -, hok', hbody, hconsumed⟩
    cases hcut
    cases hok.symm.trans hok'
    exact ⟨left, hbody, hconsumed⟩
  · rintro ⟨left, hbody, hconsumed⟩
    exact ⟨head, rest, h, left, rfl, hmax, hok, hbody, hconsumed⟩

/-- The framing the parser chooses. -/
theorem framing_eq (hok : parseHeaders head = .ok h) :
    h.framing =
      if (lastTransferEncoding (headerList head)).any Header.mentionsChunked then .chunked
      else (announcedLength (headerList head)).elim (if isBodyless h.status then .bodyless else .close) .length := by
  obtain ⟨hchunked, hlength⟩ := parseHeaders_says hok
  rw [Headers.framing, hchunked, hlength]
  cases announcedLength (headerList head) with
  | none => rfl
  | some len => rfl

end Parser

/-! ## Where they differ -/

section Differ

variable {h : Headers} {head : Bytes}

/-- With nothing after the header block, only a response without a body is complete. -/
theorem framedAs_nil_iff {f : Framing} {p : ParsedHttpResponse} :
    FramedAs h head [] false p f ↔
      p = ⟨⟨h.status, h.keepAlive, []⟩, head.length + 4⟩ ∧ (f = .bodyless ∨ f = .length 0) := by
  cases f with
  | chunked =>
      refine iff_of_false ?_ ?_
      · rintro ⟨body, left, hdecoded, -⟩
        cases hdecoded
      · rintro ⟨-, hf | hf⟩ <;> cases hf
  | length len =>
      constructor
      · rintro ⟨-, hlen, hp⟩
        obtain rfl := Nat.le_zero.mp hlen
        exact ⟨hp, .inr rfl⟩
      · rintro ⟨hp, hf⟩
        obtain hf | hf := hf
        · cases hf
        · cases hf
          exact ⟨Nat.zero_le _, Nat.zero_le _, hp⟩
  | bodyless => exact ⟨fun hp ↦ ⟨hp, .inl rfl⟩, fun hp ↦ hp.1⟩
  | close =>
      refine iff_of_false ?_ ?_
      · rintro ⟨heof, -⟩
        cases heof
      · rintro ⟨-, hf | hf⟩ <;> cases hf

/-- A length of zero is as good as no body. -/
theorem framedAs_length_zero {rest : Bytes} {eof : Bool} {p : ParsedHttpResponse} :
    FramedAs h head rest eof p (.length 0) ↔ FramedAs h head rest eof p .bodyless :=
  ⟨fun hp ↦ hp.2.2, fun hp ↦ ⟨Nat.zero_le _, Nat.zero_le _, hp⟩⟩

/-- A last chunk. -/
def lastChunk : Bytes := ascii "0\r\n\r\n"

theorem framedAs_lastChunk :
    FramedAs h head lastChunk false ⟨⟨h.status, h.keepAlive, []⟩, head.length + 4 + 5⟩ .chunked :=
  ⟨[], [], by decide, rfl⟩

/-- As a chunked body it is another response than as any other. -/
theorem not_framedAs_lastChunk {f : Framing} (hf : f ≠ .chunked) :
    ¬ FramedAs h head lastChunk false ⟨⟨h.status, h.keepAlive, []⟩, head.length + 4 + 5⟩ f := by
  cases f with
  | chunked => exact absurd rfl hf
  | length len =>
      rintro ⟨-, -, hp⟩
      rw [ParsedHttpResponse.mk.injEq, HttpResponse.mk.injEq] at hp
      obtain ⟨⟨-, -, hbody⟩, hconsumed⟩ := hp
      obtain rfl : 5 = len := Nat.add_left_cancel hconsumed
      cases hbody
  | bodyless =>
      intro hp
      have hconsumed := congrArg ParsedHttpResponse.bytesConsumed hp
      exact absurd hconsumed (by simp)
  | close =>
      rintro ⟨heof, -⟩
      cases heof

/-- Only a length of zero frames every response as one without a body. -/
theorem framedAs_bodyless_iff {f : Framing} :
    (∀ rest eof p, FramedAs h head rest eof p f ↔ FramedAs h head rest eof p .bodyless) ↔
      f = .bodyless ∨ f = .length 0 := by
  constructor
  · intro hall
    -- Nothing after the header block is enough to tell.
    have hnil := (hall [] false ⟨⟨h.status, h.keepAlive, []⟩, head.length + 4⟩).mpr rfl
    exact (framedAs_nil_iff.mp hnil).2
  · rintro (rfl | rfl) rest eof p
    · rfl
    · exact framedAs_length_zero

/-- What frames every response as a chunked body does is a chunked body. -/
theorem eq_chunked_of_framedAs {f : Framing}
    (hall : ∀ rest eof p, FramedAs h head rest eof p .chunked → FramedAs h head rest eof p f) : f = .chunked := by
  by_contra hf
  -- A last chunk after the header block is enough to tell.
  exact not_framedAs_lastChunk hf (hall lastChunk false _ framedAs_lastChunk)

end Differ

/-- **Where the framing is the prescribed one.**  A response with a status that has no body must announce neither a
chunked coding nor a length other than zero; for the others, the last transfer coding must contain the word exactly if
some transfer coding lists it. -/
theorem framing_precedence_iff (head : Bytes) (h : Headers)
    (hhead : breakOn (crlf ++ crlf) (head ++ (crlf ++ crlf)) = some (head, []))
    (hmax : head.length ≤ kMaxHttpHeaderBytes) (hok : parseHeaders head = .ok h) :
    (∀ rest eof p, parseHttpResponse (head ++ (crlf ++ crlf) ++ rest) eof = .ok (some p) ↔
      FramedAs h head rest eof p (prescribedFraming h.status (headerList head))) ↔
    (isBodyless h.status = true →
      (lastTransferEncoding (headerList head)).any Header.mentionsChunked = false ∧
        (announcedLength (headerList head) = none ∨ announcedLength (headerList head) = some 0)) ∧
    (isBodyless h.status = false →
      (lastTransferEncoding (headerList head)).any Header.mentionsChunked = listChunked (headerList head)) := by
  simp only [parseHttpResponse_eq_some_iff hhead hmax hok, framing_eq hok]
  generalize headerList head = headers
  cases hbodyless : isBodyless h.status with
  | true =>
      simp only [prescribedFraming_of_bodyless hbodyless, framedAs_bodyless_iff, if_true, true_implies,
        Bool.true_eq_false, false_implies, and_true]
      cases (lastTransferEncoding headers).any Header.mentionsChunked with
      | true => simp
      | false => cases announcedLength headers <;> simp
  | false =>
      simp only [prescribedFraming_of_body hbodyless, Bool.false_eq_true, if_false, false_implies, true_and,
        true_implies]
      have hne : (announcedLength headers).elim Framing.close Framing.length ≠ Framing.chunked := by
        cases announcedLength headers <;> simp
      constructor
      · intro hall
        cases hmentioned : (lastTransferEncoding headers).any Header.mentionsChunked with
        | true =>
            cases hlisted : listChunked headers with
            | true => rfl
            | false =>
                simp only [hmentioned, hlisted, if_true, Bool.false_eq_true, if_false] at hall
                exact absurd (eq_chunked_of_framedAs fun rest eof p ↦ (hall rest eof p).mp) hne
        | false =>
            cases hlisted : listChunked headers with
            | true =>
                simp only [hmentioned, hlisted, if_true, Bool.false_eq_true, if_false] at hall
                exact absurd (eq_chunked_of_framedAs fun rest eof p ↦ (hall rest eof p).mpr) hne
            | false => rfl
      · intro hsame rest eof p
        rw [hsame]

/-- A plain response with a length is framed as prescribed, here with more after it. -/
theorem framing_precedence_hello :
    parseHttpResponse (ascii "HTTP/1.1 200\r\nContent-Length: 2" ++ (crlf ++ crlf) ++ ascii "hello") false =
      .ok (some ⟨⟨200, true, ascii "he"⟩, 37⟩) :=
  ((framing_precedence_iff (ascii "HTTP/1.1 200\r\nContent-Length: 2") ⟨200, false, some 2, false, none⟩ (by decide)
    (by decide) (by decide)).mpr (by decide) (ascii "hello") false ⟨⟨200, true, ascii "he"⟩, 37⟩).mpr
      ⟨by decide, by decide, by decide⟩

/-- A response to a conditional request that mentions the length of what it does not send, and a chunked response whose
codings are on two lines. -/
theorem framing_precedence_differs :
    parseHttpResponse (ascii "HTTP/1.1 304 Not Modified\r\nContent-Length: 5\r\n\r\n") false = .ok none ∧
      prescribedFraming 304 (headerList (ascii "HTTP/1.1 304 Not Modified\r\nContent-Length: 5")) = .bodyless ∧
      parseHttpResponse (ascii "HTTP/1.1 200\r\nTransfer-Encoding: chunked\r\nTransfer-Encoding: x\r\n\r\n0\r\n\r\n")
        false = .ok none ∧
      prescribedFraming 200 (headerList (ascii "HTTP/1.1 200\r\nTransfer-Encoding: chunked\r\nTransfer-Encoding: x")) =
        .chunked := by
  decide

end KalshiClient.Http
