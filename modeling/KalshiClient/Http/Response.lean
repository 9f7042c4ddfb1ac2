import KalshiClient.Base.Bytes
import KalshiClient.Base.Result
import KalshiClient.Base.Split

/-!
# HTTP responses: `parse_http_response`

The parser of `src/protocol/http_response.cpp`, which is called with everything received so far.  Where the
source keeps a position in the data, the functions here keep the data from that position on, and
`bytes_consumed` is the length of what has gone.

The result of this file is that a response once parsed is not changed by further bytes
(`parseHttpResponse_append`), and what can make a difference to the parser at the end of the stream
(`parseHttpResponse_eof`).
-/

namespace KalshiClient.Http

open Bytes Split

/-- `struct HttpResponse`. -/
structure HttpResponse where
  /-- `status`. -/
  status : Nat
  /-- `keep_alive`. -/
  keepAlive : Bool
  /-- `body`. -/
  body : Bytes
deriving DecidableEq

/-- `struct ParsedHttpResponse`. -/
structure ParsedHttpResponse where
  /-- `response`. -/
  response : HttpResponse
  /-- `bytes_consumed`. -/
  bytesConsumed : Nat
deriving DecidableEq

/-- `kMaxHttpHeaderBytes`. -/
def kMaxHttpHeaderBytes : Nat := 64 * 1024

/-- `kMaxHttpBodyBytes`. -/
def kMaxHttpBodyBytes : Nat := 16 * 1024 * 1024

/-- `kCrlf`. -/
def crlf : Bytes := ['\r'.toUInt8, '\n'.toUInt8]

/-! ## Characters -/

/-- `lower`. -/
def lower (c : UInt8) : UInt8 := if 'A'.toUInt8 ≤ c ∧ c ≤ 'Z'.toUInt8 then c + 32 else c

/-- `iequals`. -/
def iequals (a b : Bytes) : Bool := a.map lower = b.map lower

/-- `icontains`. -/
def icontains (haystack needle : Bytes) : Bool :=
  (haystack.map lower).tails.any ((needle.map lower).isPrefixOf ·)

/-- What `trim` removes. -/
def isBlank (c : UInt8) : Bool := c = ' '.toUInt8 || c = '\t'.toUInt8

/-- `trim`. -/
def trim (s : Bytes) : Bytes := (s.dropWhile isBlank).rdropWhile isBlank

/-! ## Headers -/

/-- `struct Headers`. -/
structure Headers where
  /-- `status`. -/
  status : Nat
  /-- `http10`. -/
  http10 : Bool
  /-- `content_length`. -/
  contentLength : Option Nat := none
  /-- `chunked`. -/
  chunked : Bool := false
  /-- `connection_keep_alive`. -/
  connectionKeepAlive : Option Bool := none
deriving DecidableEq

/-- The status line.  The code is read as an `int`; a negative one is out of range like any other. -/
def parseStatusLine (statusLine : Bytes) : Except Bytes Headers :=
  if statusLine.length < 12 || !(ascii "HTTP/1.").isPrefixOf statusLine ||
      statusLine[8]? ≠ some ' '.toUInt8 then
    .error (ascii "Malformed HTTP status line")
  else
    match fromChars isDigit 10 31 ((statusLine.drop 9).take 3) with
    | some (status, _) =>
      if status < 100 || status > 599 then .error (ascii "Malformed HTTP status code")
      else .ok { status := status, http10 := statusLine[7]? = some '0'.toUInt8 }
    | none => .error (ascii "Malformed HTTP status code")

/-- One header, once its line has been taken apart. -/
def applyField (h : Headers) (name value : Bytes) : Except Bytes Headers :=
  if iequals name (ascii "content-length") then
    match parseWhole isDigit 10 64 value with
    | none => .error (ascii "Malformed Content-Length")
    | some len =>
      if h.contentLength.any (· ≠ len) then .error (ascii "Conflicting Content-Length headers")
      else .ok { h with contentLength := some len }
  else if iequals name (ascii "transfer-encoding") then
    .ok { h with chunked := icontains value (ascii "chunked") }
  else if iequals name (ascii "connection") then
    if icontains value (ascii "close") then .ok { h with connectionKeepAlive := some false }
    else if icontains value (ascii "keep-alive") then .ok { h with connectionKeepAlive := some true }
    else .ok h
  else .ok h

/-- One round of the loop over the header lines. -/
def parseField (h : Headers) (line : Bytes) : Except Bytes Headers :=
  match breakOn [':'.toUInt8] line with
  | none | some ([], _) => .error (ascii "Malformed HTTP header line")
  | some (name, value) => applyField h name (trim value)

/-- The loop over the header lines; it makes fewer rounds than there are bytes. -/
def parseFields : Nat → Headers → Bytes → Except Bytes Headers
  | 0, h, _ => .ok h
  | fuel + 1, h, s =>
    if s = [] then .ok h
    else
      match breakOn crlf s with
      | some (line, rest) => do
        let h ← parseField h line
        parseFields fuel h rest
      | none => parseField h s

/-- `parse_headers`. -/
def parseHeaders (head : Bytes) : Except Bytes Headers :=
  match breakOn crlf head with
  | some (statusLine, rest) => do
    let h ← parseStatusLine statusLine
    parseFields rest.length h rest
  | none => parseStatusLine head

/-! ## Chunked bodies -/

/-- The trailers after the last chunk, up to and including the empty line: what follows them. -/
def skipTrailers : Nat → Bytes → Option Bytes
  | 0, _ => none
  | fuel + 1, s =>
    match breakOn crlf s with
    | none => none
    | some (line, rest) => if line = [] then some rest else skipTrailers fuel rest

/-- The chunk size on a line, without extensions. -/
def parseChunkSize (line : Bytes) : Option Nat :=
  parseWhole isHex 16 64 (trim (line.takeWhile (· ≠ ';'.toUInt8)))

/-- `decode_chunked`, on the data from the position on: the body and what follows it, or nothing if the data
is incomplete. -/
def decodeChunked : Nat → Bytes → Bytes → Except Bytes (Option (Bytes × Bytes))
  | 0, _, _ => .ok none
  | fuel + 1, s, body =>
    match breakOn crlf s with
    | none =>
      if s.length > 1024 then .error (ascii "Chunk size line too long") else .ok none
    | some (line, rest) =>
      match parseChunkSize line with
      | none => .error (ascii "Malformed chunk size")
      | some chunkSize =>
        if chunkSize = 0 then .ok ((skipTrailers (rest.length + 1) rest).map fun rest ↦ (body, rest))
        else if chunkSize > kMaxHttpBodyBytes || body.length + chunkSize > kMaxHttpBodyBytes then
          .error (ascii "HTTP body too large")
        else if rest.length < chunkSize + 2 then .ok none
        else if (rest.drop chunkSize).take 2 ≠ crlf then
          .error (ascii "Missing CRLF after chunk data")
        else decodeChunked fuel (rest.drop (chunkSize + 2)) (body ++ rest.take chunkSize)

/-! ## The parser -/

/-- Whether a response without framing has no body. -/
def isBodyless (status : Nat) : Bool := status < 200 || status = 204 || status = 304

/-- How the end of a body is found. -/
inductive Framing where
  /-- The body is chunked. -/
  | chunked
  /-- The body has the given length. -/
  | length (len : Nat)
  /-- There is no body. -/
  | bodyless
  /-- The body runs to the end of the connection. -/
  | close
deriving DecidableEq

/-- The framing the headers ask for, in the order of the source's tests. -/
def Headers.framing (h : Headers) : Framing :=
  if h.chunked then .chunked
  else
    match h.contentLength with
    | some len => .length len
    | none => if isBodyless h.status then .bodyless else .close

/-- `keep_alive`, for a body that does not run to the end of the connection. -/
def Headers.keepAlive (h : Headers) : Bool := h.connectionKeepAlive.getD (!h.http10)

/-- The body of a response, from the data after the headers: the response and how much is left after it, or
nothing if the data is incomplete. -/
def parseBody (h : Headers) (data : Bytes) (eof : Bool) : Except Bytes (Option (HttpResponse × Nat)) :=
  match h.framing with
  | .chunked => do
    match ← decodeChunked (data.length + 1) data [] with
    | some (body, rest) => .ok (some (⟨h.status, h.keepAlive, body⟩, rest.length))
    | none => if eof then .error (ascii "Connection closed mid-chunked body") else .ok none
  | .length len =>
    if len > kMaxHttpBodyBytes then .error (ascii "HTTP body too large")
    else if data.length < len then
      if eof then .error (ascii "Connection closed before HTTP body was complete") else .ok none
    else .ok (some (⟨h.status, h.keepAlive, data.take len⟩, data.length - len))
  | .bodyless => .ok (some (⟨h.status, h.keepAlive, []⟩, data.length))
  | .close =>
    if !eof then .ok none
    else if data.length > kMaxHttpBodyBytes then .error (ascii "HTTP body too large")
    else .ok (some (⟨h.status, false, data⟩, 0))

/-- `parse_http_response`. -/
def parseHttpResponse (data : Bytes) (eof : Bool) : Except Bytes (Option ParsedHttpResponse) :=
  match breakOn (crlf ++ crlf) data with
  | none =>
    if data.length > kMaxHttpHeaderBytes then .error (ascii "HTTP headers too large")
    else if eof then .error (ascii "Connection closed before HTTP headers were complete")
    else .ok none
  | some (head, rest) =>
    if head.length > kMaxHttpHeaderBytes then .error (ascii "HTTP headers too large")
    else do
      let h ← parseHeaders head
      let body ← parseBody h rest eof
      .ok (body.map fun (response, left) ↦ ⟨response, data.length - left⟩)

/-! ## Rounds of `decode_chunked` -/

section Chunks

variable {fuel chunkSize : Nat} {s line rest body : Bytes}

/-- The size fits the body. -/
def FitsBody (body : Bytes) (chunkSize : Nat) : Prop :=
  chunkSize ≤ kMaxHttpBodyBytes ∧ body.length + chunkSize ≤ kMaxHttpBodyBytes

theorem decodeChunked_last (hbreak : breakOn crlf s = some (line, rest))
    (hsize : parseChunkSize line = some 0) :
    decodeChunked (fuel + 1) s body =
      .ok ((skipTrailers (rest.length + 1) rest).map fun rest ↦ (body, rest)) := by
  rw [decodeChunked, hbreak]
  dsimp only
  rw [hsize]
  dsimp only
  rw [if_pos rfl]

theorem decodeChunked_chunk (hbreak : breakOn crlf s = some (line, rest))
    (hsize : parseChunkSize line = some chunkSize) (hpos : chunkSize ≠ 0)
    (hfits : FitsBody body chunkSize) (hlen : chunkSize + 2 ≤ rest.length)
    (hcrlf : (rest.drop chunkSize).take 2 = crlf) :
    decodeChunked (fuel + 1) s body =
      decodeChunked fuel (rest.drop (chunkSize + 2)) (body ++ rest.take chunkSize) := by
  have hmax : ¬ (decide (chunkSize > kMaxHttpBodyBytes) ||
      decide (body.length + chunkSize > kMaxHttpBodyBytes)) = true := by
    simp only [Bool.or_eq_true, decide_eq_true_eq, not_or, not_lt]
    exact hfits
  rw [decodeChunked, hbreak]
  dsimp only
  rw [hsize]
  dsimp only
  rw [if_neg hpos, if_neg hmax, if_neg (not_lt.mpr hlen), if_neg (not_not.mpr hcrlf)]

/-- A size that does not fit is refused. -/
theorem decodeChunked_large (hbreak : breakOn crlf s = some (line, rest))
    (hsize : parseChunkSize line = some chunkSize) (hpos : chunkSize ≠ 0)
    (hfits : ¬ FitsBody body chunkSize) :
    decodeChunked (fuel + 1) s body = .error (ascii "HTTP body too large") := by
  have hmax : (decide (chunkSize > kMaxHttpBodyBytes) ||
      decide (body.length + chunkSize > kMaxHttpBodyBytes)) = true := by
    rw [FitsBody, not_and_or, not_le, not_le] at hfits
    simpa only [Bool.or_eq_true, decide_eq_true_eq] using hfits
  rw [decodeChunked, hbreak]
  dsimp only
  rw [hsize]
  dsimp only
  rw [if_neg hpos, if_pos hmax]

/-- What a round that leads to a body can do. -/
theorem decodeChunked_cases {r : Bytes × Bytes}
    (h : decodeChunked (fuel + 1) s body = .ok (some r)) :
    ∃ line rest chunkSize, breakOn crlf s = some (line, rest) ∧
      parseChunkSize line = some chunkSize ∧
      (chunkSize = 0 ∧ (∃ left, skipTrailers (rest.length + 1) rest = some left ∧ r = (body, left)) ∨
        chunkSize ≠ 0 ∧ FitsBody body chunkSize ∧ chunkSize + 2 ≤ rest.length ∧
        (rest.drop chunkSize).take 2 = crlf ∧
        decodeChunked fuel (rest.drop (chunkSize + 2)) (body ++ rest.take chunkSize) =
          .ok (some r)) := by
  rw [decodeChunked] at h
  split at h
  · split_ifs at h
    cases h
  · next line rest hbreak =>
      split at h
      · cases h
      · next chunkSize hsize =>
          refine ⟨line, rest, chunkSize, hbreak, hsize, ?_⟩
          by_cases hzero : chunkSize = 0
          · rw [if_pos hzero, Except.ok.injEq] at h
            obtain ⟨left, hleft, hr⟩ := Option.map_eq_some_iff.mp h
            exact .inl ⟨hzero, left, hleft, hr.symm⟩
          · rw [if_neg hzero] at h
            split_ifs at h with hmax hshort hcrlf
            · cases h
            · simp only [Bool.or_eq_true, decide_eq_true_eq, not_or, not_lt] at hmax
              exact .inr ⟨hzero, hmax, not_lt.mp hshort, not_not.mp hcrlf, h⟩

end Chunks

/-! ## Further bytes -/

theorem skipTrailers_append {fuel : Nat} {s rest : Bytes} (h : skipTrailers fuel s = some rest)
    {fuel' : Nat} (hfuel : fuel ≤ fuel') (t : Bytes) :
    skipTrailers fuel' (s ++ t) = some (rest ++ t) := by
  induction fuel generalizing s fuel' with
  | zero => cases h
  | succ fuel ih =>
      obtain ⟨fuel', rfl⟩ : ∃ n, fuel' = n + 1 := ⟨fuel' - 1, by omega⟩
      rw [skipTrailers] at h
      split at h
      · cases h
      · next line rest' hbreak =>
          rw [skipTrailers, breakOn_append hbreak t]
          dsimp only
          split_ifs at h ⊢ with hline
          · cases h
            rfl
          · exact ih h (by omega)

/-- A chunked body once decoded is not changed by further bytes, nor by more fuel. -/
theorem decodeChunked_append {fuel : Nat} {s body body' left : Bytes}
    (h : decodeChunked fuel s body = .ok (some (body', left))) {fuel' : Nat} (hfuel : fuel ≤ fuel')
    (t : Bytes) : decodeChunked fuel' (s ++ t) body = .ok (some (body', left ++ t)) := by
  induction fuel generalizing s body fuel' with
  | zero => cases h
  | succ fuel ih =>
      obtain ⟨fuel', rfl⟩ : ∃ n, fuel' = n + 1 := ⟨fuel' - 1, by omega⟩
      obtain ⟨line, rest, chunkSize, hbreak, hsize, hround⟩ := decodeChunked_cases h
      have hbreak' := breakOn_append hbreak t
      rcases hround with ⟨rfl, left', hleft, hr⟩ | ⟨hpos, hfits, hlen, hcrlf, h⟩
      · cases hr
        have hmore : rest.length + 1 ≤ (rest ++ t).length + 1 := by
          rw [List.length_append]
          omega
        rw [decodeChunked_last hbreak' hsize, skipTrailers_append hleft hmore]
        rfl
      · have hdrop : chunkSize ≤ rest.length := by omega
        have hcrlf' : ((rest ++ t).drop chunkSize).take 2 = crlf := by
          rw [List.drop_append_of_le_length hdrop, List.take_append_of_le_length, hcrlf]
          rw [List.length_drop]
          omega
        have hlen' : chunkSize + 2 ≤ (rest ++ t).length := by
          rw [List.length_append]
          omega
        rw [decodeChunked_chunk hbreak' hsize hpos hfits hlen' hcrlf',
          List.drop_append_of_le_length hlen, List.take_append_of_le_length hdrop]
        exact ih h (by omega)

/-- A body once parsed is not changed by further bytes, which are all left over. -/
theorem parseBody_append {h : Headers} {data : Bytes} {r : HttpResponse} {left : Nat}
    (hbody : parseBody h data false = .ok (some (r, left))) (t : Bytes) :
    parseBody h (data ++ t) false = .ok (some (r, left + t.length)) := by
  rw [parseBody] at hbody ⊢
  cases hframing : h.framing with
  | chunked =>
      simp only [hframing] at hbody ⊢
      obtain ⟨decoded, hdecoded, hbody⟩ := Except.bind_eq_ok_iff.mp hbody
      have hmore : data.length + 1 ≤ (data ++ t).length + 1 := by
        rw [List.length_append]
        omega
      cases decoded with
      | none => cases hbody
      | some decoded =>
          cases hbody
          rw [decodeChunked_append hdecoded hmore t, Except.bind_ok, ← List.length_append]
  | length len =>
      simp only [hframing] at hbody ⊢
      split_ifs at hbody with hmax hshort
      · cases hbody
      · have hshort' : ¬ (data ++ t).length < len := by
          rw [List.length_append]
          omega
        cases hbody
        rw [if_neg hmax, if_neg hshort', List.take_append_of_le_length (not_lt.mp hshort),
          List.length_append, Nat.sub_add_comm (not_lt.mp hshort)]
  | bodyless =>
      simp only [hframing] at hbody ⊢
      cases hbody
      rw [List.length_append]
  | close =>
      simp only [hframing] at hbody
      cases hbody

/-- What `parse_http_response` has found when it returns a response. -/
theorem parseHttpResponse_eq_some {data : Bytes} {eof : Bool} {p : ParsedHttpResponse} :
    parseHttpResponse data eof = .ok (some p) ↔
      ∃ head rest h left, breakOn (crlf ++ crlf) data = some (head, rest) ∧
        head.length ≤ kMaxHttpHeaderBytes ∧ parseHeaders head = .ok h ∧
        parseBody h rest eof = .ok (some (p.response, left)) ∧
        p.bytesConsumed = data.length - left := by
  constructor
  · intro hparse
    rw [parseHttpResponse] at hparse
    split at hparse
    · split_ifs at hparse
      cases hparse
    · next head rest hbreak =>
        split_ifs at hparse with hmax
        obtain ⟨h, hheaders, hparse⟩ := Except.bind_eq_ok_iff.mp hparse
        obtain ⟨body, hbody, hparse⟩ := Except.bind_eq_ok_iff.mp hparse
        rw [Except.ok.injEq] at hparse
        obtain ⟨⟨r, left⟩, rfl, rfl⟩ := Option.map_eq_some_iff.mp hparse
        exact ⟨head, rest, h, left, hbreak, not_lt.mp hmax, hheaders, hbody, rfl⟩
  · rintro ⟨head, rest, h, left, hbreak, hmax, hheaders, hbody, hconsumed⟩
    rw [parseHttpResponse, hbreak]
    dsimp only
    rw [if_neg (not_lt.mpr hmax), hheaders, Except.bind_ok, hbody, Except.bind_ok, Option.map_some,
      ← hconsumed]

theorem parseHttpResponse_consumed_le {data : Bytes} {eof : Bool} {p : ParsedHttpResponse}
    (h : parseHttpResponse data eof = .ok (some p)) : p.bytesConsumed ≤ data.length := by
  obtain ⟨-, -, -, left, -, -, -, -, hconsumed⟩ := parseHttpResponse_eq_some.mp h
  omega

/-- **Further bytes change nothing**: a response once parsed stays parsed, at the same length. -/
theorem parseHttpResponse_append {data : Bytes} {p : ParsedHttpResponse}
    (h : parseHttpResponse data false = .ok (some p)) (t : Bytes) :
    parseHttpResponse (data ++ t) false = .ok (some p) := by
  obtain ⟨head, rest, headers, left, hbreak, hmax, hheaders, hbody, hconsumed⟩ :=
    parseHttpResponse_eq_some.mp h
  refine parseHttpResponse_eq_some.mpr ⟨head, rest ++ t, headers, left + t.length,
    breakOn_append hbreak t, hmax, hheaders, parseBody_append hbody t, ?_⟩
  rw [hconsumed, List.length_append]
  omega

/-- What the end of the stream can complete is a response without framing, and its body is everything after
the headers. -/
theorem parseHttpResponse_eof {data : Bytes} {p : ParsedHttpResponse}
    (hmore : parseHttpResponse data false = .ok none)
    (h : parseHttpResponse data true = .ok (some p)) :
    ∃ head rest headers, breakOn (crlf ++ crlf) data = some (head, rest) ∧
      parseHeaders head = .ok headers ∧ headers.framing = .close ∧
      p.response = ⟨headers.status, false, rest⟩ := by
  obtain ⟨head, rest, headers, left, hbreak, hmax, hheaders, hbody, -⟩ :=
    parseHttpResponse_eq_some.mp h
  refine ⟨head, rest, headers, hbreak, hheaders, ?_⟩
  -- With any other framing, the same response would have been found before the end.
  have hnone : ∀ r, parseBody headers rest false ≠ .ok (some r) := by
    rintro ⟨r, left⟩ hsome
    have hfound : parseHttpResponse data false = .ok (some ⟨r, data.length - left⟩) :=
      parseHttpResponse_eq_some.mpr ⟨head, rest, headers, left, hbreak, hmax, hheaders, hsome, rfl⟩
    rw [hmore] at hfound
    cases hfound
  rw [parseBody] at hbody
  rw [parseBody] at hnone
  cases hframing : headers.framing with
  | chunked =>
      simp only [hframing] at hbody hnone
      obtain ⟨decoded, hdecoded, hbody⟩ := Except.bind_eq_ok_iff.mp hbody
      rw [hdecoded, Except.bind_ok] at hnone
      cases decoded with
      | none => cases hbody
      | some decoded => exact absurd rfl (hnone _)
  | length len =>
      simp only [hframing] at hbody hnone
      split_ifs at hbody hnone with hlarge hshort
      exact absurd rfl (hnone _)
  | bodyless =>
      simp only [hframing] at hnone
      exact absurd rfl (hnone _)
  | close =>
      simp only [hframing] at hbody
      split_ifs at hbody
      · contradiction
      · simp only [Except.ok.injEq, Option.some.injEq, Prod.mk.injEq] at hbody
        exact ⟨rfl, hbody.1.symm⟩

end KalshiClient.Http
