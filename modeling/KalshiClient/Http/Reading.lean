import KalshiClient.Http.Framing
import KalshiClient.Http.Stability
import KalshiClient.Network.TlsSocket

/-!
# `read_response`

The loop that reads a response, over everything the socket may do: it reads pieces as long as the parser wants more, and
after the last one it asks the parser once again as if the connection had ended (`readResponse_cases`).

The buffer is limited where the header block announces how long the body is (`buffering_bounded_iff`), and a response
that ends with the connection is taken for complete whatever the reason that no more arrives
(`truncation_detected_iff`).
-/

namespace KalshiClient.Http

open Bytes Split Network

/-! ## The size of the buffer -/

/-- A header block and a body, both as large as they may be. -/
def kMaxBuffered : Nat := kMaxHttpHeaderBytes + 4 + kMaxHttpBodyBytes

/-- The header block says how long the body is. -/
def announcesEnd (status : Nat) (headers : List Header) : Bool :=
  !(lastTransferEncoding headers).any Header.mentionsChunked && ((announcedLength headers).isSome || isBodyless status)

/-- Where the parser wants more, the data are small or there is an accepted header block. -/
theorem more_cases {d : Bytes} (hmore : parseHttpResponse d false = .ok none) :
    d.length ≤ kMaxHttpHeaderBytes ∨
      ∃ head rest h, breakOn (crlf ++ crlf) d = some (head, rest) ∧ head.length ≤ kMaxHttpHeaderBytes ∧
        parseHeaders head = .ok h ∧ parseBody h rest false = .ok none := by
  obtain hnone | ⟨⟨head, rest⟩, hbreak⟩ := Option.eq_none_or_eq_some (breakOn (crlf ++ crlf) d)
  · rw [parseHttpResponse_unterminated hnone] at hmore
    split_ifs at hmore with hlong
    exact .inl (Nat.not_lt.mp hlong)
  · obtain ⟨hmax, h, body, hok, hbody⟩ := parseHttpResponse_eq_ok hbreak hmore
    refine .inr ⟨head, rest, h, hbreak, hmax, hok, ?_⟩
    rw [parseHttpResponse_headers hbreak hmax hok, hbody, Except.bind_ok, Except.ok.injEq,
      Option.map_eq_none_iff] at hmore
    rw [hbody, hmore]

section Announced

variable {head : Bytes} {h : Headers} (hok : parseHeaders head = .ok h)
include hok

/-- The header block says how long the body is if its framing does. -/
theorem announcesEnd_iff :
    announcesEnd h.status (headerList head) = true ↔ h.framing ≠ .chunked ∧ h.framing ≠ .close := by
  rw [framing_eq hok, announcesEnd]
  cases (lastTransferEncoding (headerList head)).any Header.mentionsChunked with
  | true => simp
  | false =>
      cases announcedLength (headerList head) with
      | none =>
          cases isBodyless h.status with
          | true => simp
          | false => simp
      | some len => simp

/-- Such a body is limited. -/
theorem length_le_of_announcesEnd (hend : announcesEnd h.status (headerList head) = true) {rest : Bytes}
    (hmore : parseBody h rest false = .ok none) : rest.length ≤ kMaxHttpBodyBytes := by
  obtain ⟨hchunked, hclose⟩ := (announcesEnd_iff hok).mp hend
  rw [parseBody] at hmore
  cases hframing : h.framing with
  | chunked => exact absurd hframing hchunked
  | close => exact absurd hframing hclose
  | bodyless =>
      rw [hframing] at hmore
      cases hmore
  | length len =>
      rw [hframing] at hmore
      dsimp only at hmore
      split_ifs at hmore with hmax hshort
      · exact Nat.le_trans hshort.le (Nat.not_lt.mp hmax)
      · cases hmore

/-- Any other is not. -/
theorem exists_more (hend : announcesEnd h.status (headerList head) = false) (bound : Nat) :
    ∃ rest, bound < rest.length ∧ parseBody h rest false = .ok none := by
  have hlong : bound < (List.replicate (bound + 1) 'x'.toUInt8).length := by
    rw [List.length_replicate]
    exact Nat.lt_succ_self bound
  have hcr : '\r'.toUInt8 ∉ List.replicate (bound + 1) 'x'.toUInt8 := by
    intro hmem
    exact absurd (List.eq_of_mem_replicate hmem) (by decide)
  have hframing : h.framing = .chunked ∨ h.framing = .close := by
    by_contra hno
    have htrue := (announcesEnd_iff hok).mpr (not_or.mp hno)
    rw [hend] at htrue
    cases htrue
  rcases hframing with hframing | hframing
  · -- A trailer that does not end.
    have hlast : parseChunkSize (ascii "0") = some 0 := by decide
    have hzero : '\r'.toUInt8 ∉ ascii "0" := by decide
    have hsize := breakOn_crlf hzero (List.replicate (bound + 1) 'x'.toUInt8)
    refine ⟨ascii "0" ++ crlf ++ List.replicate (bound + 1) 'x'.toUInt8, ?_, ?_⟩
    · rw [List.length_append]
      omega
    · rw [parseBody, hframing]
      dsimp only
      rw [decodeChunked_last hsize hlast, skipTrailers, breakOn_crlf_eq_none hcr]
      rfl
  · refine ⟨List.replicate (bound + 1) 'x'.toUInt8, hlong, ?_⟩
    rw [parseBody, hframing]
    rfl

end Announced

/-- A read adds at most a buffer to what the parser wanted more of. -/
theorem readResponse_length_le {buffer : Bytes} {pieces : List Bytes} (lost : Bytes)
    (hmore : ∀ d, d <+: buffer ++ pieces.flatten → parseHttpResponse d false = .ok none → d.length ≤ kMaxBuffered)
    (hpieces : ∀ piece ∈ pieces, piece.length ≤ kReceiveBufferSize) :
    ∃ k, (readResponse lost buffer pieces).unread = pieces.drop k ∧
      (buffer ++ (pieces.take k).flatten).length ≤ max buffer.length (kMaxBuffered + kReceiveBufferSize) := by
  obtain ⟨k, -, -, hwanted, hunread, -⟩ := readResponse_cases lost buffer pieces
  refine ⟨k, hunread, ?_⟩
  cases k with
  | zero =>
      rw [List.take_zero, List.flatten_nil, List.append_nil]
      exact le_max_left _ _
  | succ k =>
      have hbefore := hmore _ ⟨_, take_flatten_append buffer pieces k⟩ (hwanted k (Nat.lt_succ_self k))
      have hpiece : (pieces[k]?.toList.flatten).length ≤ kReceiveBufferSize := by
        cases hk : pieces[k]? with
        | none => exact Nat.zero_le _
        | some piece =>
            rw [Option.toList_some, List.flatten_singleton]
            exact hpieces piece (List.mem_of_getElem? hk)
      rw [List.take_add_one, List.flatten_append, ← List.append_assoc, List.length_append]
      exact le_trans (Nat.add_le_add hbefore hpiece) (le_max_right _ _)

/-- **Where the buffer is limited.**  After an accepted header block, the parser stops wanting more at some point
whatever follows exactly if the header block says how long the body is; then `read_response` keeps its buffer within a
constant.  Without an accepted header block it stops wanting more as soon as the data are too large for one. -/
theorem buffering_bounded_iff (head : Bytes) (h : Headers)
    (hhead : breakOn (crlf ++ crlf) (head ++ (crlf ++ crlf)) = some (head, []))
    (hmax : head.length ≤ kMaxHttpHeaderBytes) (hok : parseHeaders head = .ok h) :
    ((∃ bound, ∀ rest, bound < rest.length →
        parseHttpResponse (head ++ (crlf ++ crlf) ++ rest) false ≠ .ok none) ↔
      announcesEnd h.status (headerList head) = true) ∧
    (announcesEnd h.status (headerList head) = true →
      ∀ (lost buffer : Bytes) (pieces : List Bytes), head ++ (crlf ++ crlf) <+: buffer ++ pieces.flatten →
        (∀ piece ∈ pieces, piece.length ≤ kReceiveBufferSize) →
        ∃ k, (readResponse lost buffer pieces).unread = pieces.drop k ∧
          (buffer ++ (pieces.take k).flatten).length ≤ max buffer.length (kMaxBuffered + kReceiveBufferSize)) ∧
    ∀ d, kMaxHttpHeaderBytes < d.length → parseHttpResponse d false = .ok none →
      ∃ head rest h, breakOn (crlf ++ crlf) d = some (head, rest) ∧ head.length ≤ kMaxHttpHeaderBytes ∧
        parseHeaders head = .ok h := by
  have hparse (rest : Bytes) := parseHttpResponse_headers (breakOn_replace hhead rest) hmax hok
  have hbody {rest : Bytes} : parseHttpResponse (head ++ (crlf ++ crlf) ++ rest) false = .ok none ↔
      parseBody h rest false = .ok none := by
    rw [hparse]
    constructor
    · intro hmore
      obtain ⟨body, hbody, hmore⟩ := Except.bind_eq_ok_iff.mp hmore
      rw [Except.ok.injEq, Option.map_eq_none_iff] at hmore
      rw [hbody, hmore]
    · intro hmore
      rw [hmore]
      rfl
  refine ⟨⟨?_, ?_⟩, ?_, ?_⟩
  · rintro ⟨bound, hbound⟩
    by_contra hend
    obtain ⟨rest, hlong, hmore⟩ := exists_more hok (Bool.eq_false_of_not_eq_true hend) bound
    exact hbound rest hlong (hbody.mpr hmore)
  · intro hend
    refine ⟨kMaxHttpBodyBytes, fun rest hlong hmore ↦ ?_⟩
    exact absurd (length_le_of_announcesEnd hok hend (hbody.mp hmore)) (Nat.not_le.mpr hlong)
  · intro hend lost buffer pieces hstream hpieces
    refine readResponse_length_le lost ?_ hpieces
    intro d hd hmore
    rcases more_cases hmore with hsmall | ⟨head', rest, h', hbreak, hmax', hok', hmore⟩
    · exact Nat.le_trans hsmall (Nat.le_add_right _ _ |>.trans (Nat.le_add_right _ _))
    · obtain ⟨t, ht⟩ := hd
      obtain ⟨s, hs⟩ := hstream
      have hcut := breakOn_append hbreak t
      rw [ht, ← hs, breakOn_replace hhead] at hcut
      cases hcut
      cases hok.symm.trans hok'
      have hrest := length_le_of_announcesEnd hok hend hmore
      rw [eq_append_of_breakOn hbreak, List.length_append, List.length_append]
      exact Nat.add_le_add (Nat.add_le_add hmax (le_refl _)) hrest
  · intro d hlong hmore
    rcases more_cases hmore with hsmall | ⟨head, rest, h, hbreak, hmax, hok, -⟩
    · exact absurd hsmall (Nat.not_le.mpr hlong)
    · exact ⟨head, rest, h, hbreak, hmax, hok⟩

/-- A response with a length, in pieces. -/
theorem buffering_bounded_hello :
    announcesEnd 200 [(ascii "Content-Length", ascii "5")] = true ∧
    (∃ bound, ∀ rest, bound < rest.length →
      parseHttpResponse (ascii "HTTP/1.1 200\r\nContent-Length: 5" ++ (crlf ++ crlf) ++ rest) false ≠ .ok none) :=
  ⟨by decide, (buffering_bounded_iff (ascii "HTTP/1.1 200\r\nContent-Length: 5") ⟨200, false, some 5, false, none⟩
    (by decide) (by decide) (by decide)).1.mpr (by decide)⟩

/-- There is no limit for a body that ends with the connection, nor for the trailers of a chunked body. -/
theorem buffering_unbounded :
    (∀ bound, ∃ d : Bytes, bound < d.length ∧ ascii "HTTP/1.1 200\r\n\r\n" <+: d ∧
      parseHttpResponse d false = .ok none) ∧
    ∀ bound, ∃ d : Bytes, bound < d.length ∧ ascii "HTTP/1.1 200\r\nTransfer-Encoding: chunked\r\n\r\n" <+: d ∧
      parseHttpResponse d false = .ok none := by
  have hlong (head : Bytes) (h : Headers)
      (hhead : breakOn (crlf ++ crlf) (head ++ (crlf ++ crlf)) = some (head, []))
      (hmax : head.length ≤ kMaxHttpHeaderBytes) (hok : parseHeaders head = .ok h)
      (hend : announcesEnd h.status (headerList head) = false) (bound : Nat) :
      ∃ d : Bytes, bound < d.length ∧ head ++ (crlf ++ crlf) <+: d ∧ parseHttpResponse d false = .ok none := by
    obtain ⟨rest, hrest, hmore⟩ := exists_more hok hend bound
    refine ⟨head ++ (crlf ++ crlf) ++ rest, ?_, List.prefix_append _ _, ?_⟩
    · rw [List.length_append]
      omega
    · rw [parseHttpResponse_headers (breakOn_replace hhead rest) hmax hok, hmore]
      rfl
  exact ⟨hlong (ascii "HTTP/1.1 200") ⟨200, false, none, false, none⟩ (by decide) (by decide) (by decide) (by decide),
    hlong (ascii "HTTP/1.1 200\r\nTransfer-Encoding: chunked") ⟨200, false, none, true, none⟩ (by decide) (by decide)
      (by decide) (by decide)⟩

/-! ## The end of the connection -/

/-- What has been received is a response without an announced end, and within the limits at every read. -/
structure EndsWithConnection (buffer : Bytes) (pieces : List Bytes) (r : HttpResponse) : Prop where
  received : ∃ head h, breakOn (crlf ++ crlf) (buffer ++ pieces.flatten) = some (head, r.body) ∧
    head.length ≤ kMaxHttpHeaderBytes ∧ parseHeaders head = .ok h ∧ r = ⟨h.status, false, r.body⟩ ∧
    (lastTransferEncoding (headerList head)).any Header.mentionsChunked = false ∧
    announcedLength (headerList head) = none ∧ isBodyless h.status = false
  body : r.body.length ≤ kMaxHttpBodyBytes
  reads : ∀ k, breakOn (crlf ++ crlf) (buffer ++ (pieces.take k).flatten) = none →
    (buffer ++ (pieces.take k).flatten).length ≤ kMaxHttpHeaderBytes

/-- A body ends with the connection if nothing in the header block says otherwise. -/
theorem framing_eq_close_iff {head : Bytes} {h : Headers} (hok : parseHeaders head = .ok h) :
    h.framing = .close ↔
      (lastTransferEncoding (headerList head)).any Header.mentionsChunked = false ∧
        announcedLength (headerList head) = none ∧ isBodyless h.status = false := by
  rw [framing_eq hok]
  cases (lastTransferEncoding (headerList head)).any Header.mentionsChunked with
  | true => simp
  | false =>
      cases announcedLength (headerList head) with
      | none =>
          cases isBodyless h.status with
          | true => simp
          | false => simp
      | some len => simp

/-- Such a response is not complete before the end, and is taken for complete then. -/
theorem EndsWithConnection.parse_eq {buffer : Bytes} {pieces : List Bytes} {r : HttpResponse}
    (hends : EndsWithConnection buffer pieces r) :
    (∀ k, parseHttpResponse (buffer ++ (pieces.take k).flatten) false = .ok none) ∧
      ∀ lost, atEnd lost (buffer ++ pieces.flatten) = .ok r := by
  obtain ⟨head, h, hbreak, hmax, hok, hr, hheaders⟩ := hends.received
  have hframing := (framing_eq_close_iff hok).mpr hheaders
  constructor
  · intro k
    obtain hnone | ⟨⟨head', rest⟩, hcut⟩ :=
      Option.eq_none_or_eq_some (breakOn (crlf ++ crlf) (buffer ++ (pieces.take k).flatten))
    · rw [parseHttpResponse_unterminated hnone, if_neg (Nat.not_lt.mpr (hends.reads k hnone))]
    · have hwhole := breakOn_append hcut (pieces.drop k).flatten
      rw [take_flatten_append, hbreak] at hwhole
      obtain ⟨rfl, -⟩ := Prod.mk.inj (Option.some.inj hwhole)
      rw [parseHttpResponse_headers hcut hmax hok, parseBody, hframing]
      rfl
  · intro lost
    have hself := breakOn_self hbreak
    have hparse : parseHttpResponse (buffer ++ pieces.flatten) true =
        .ok (some ⟨r, head.length + 4 + r.body.length⟩) := by
      rw [eq_append_of_breakOn hbreak, parseHttpResponse_eq_some_iff hself hmax hok, hframing]
      exact ⟨rfl, hends.body, by rw [← hr]⟩
    rw [atEnd, hparse]

/-- What is taken for complete at the end is such a response. -/
theorem endsWithConnection_of_atEnd {lost buffer : Bytes} {pieces : List Bytes} {r : HttpResponse}
    (hmore : ∀ k, parseHttpResponse (buffer ++ (pieces.take k).flatten) false = .ok none)
    (hend : atEnd lost (buffer ++ pieces.flatten) = .ok r) : EndsWithConnection buffer pieces r := by
  have hall : parseHttpResponse (buffer ++ pieces.flatten) false = .ok none := by
    have hall := hmore pieces.length
    rwa [List.take_length] at hall
  obtain ⟨p, hparse, rfl⟩ : ∃ p, parseHttpResponse (buffer ++ pieces.flatten) true = .ok (some p) ∧ p.response = r := by
    rw [atEnd] at hend
    rcases hparse : parseHttpResponse (buffer ++ pieces.flatten) true with e | (_ | p)
    · rw [hparse] at hend
      cases hend
    · rw [hparse] at hend
      cases hend
    · rw [hparse] at hend
      cases hend
      exact ⟨p, rfl, rfl⟩
  obtain ⟨head, rest, h, hbreak, hok, hframing, hresponse⟩ := parseHttpResponse_eof hall hparse
  have hmax := (parseHttpResponse_eq_ok hbreak hall).1
  rw [eq_append_of_breakOn hbreak, parseHttpResponse_eq_some_iff (breakOn_self hbreak) hmax hok, hframing] at hparse
  rw [hresponse]
  refine ⟨⟨head, h, hbreak, hmax, hok, rfl, (framing_eq_close_iff hok).mp hframing⟩, hparse.2.1, fun k hnone ↦ ?_⟩
  have hk := hmore k
  rw [parseHttpResponse_unterminated hnone] at hk
  split_ifs at hk with hlong
  exact Nat.not_lt.mp hlong

/-- **When a truncated response is noticed.**  A response that `read_response` returns was complete in what it had read,
or ends with the connection and the other side has closed it, exactly if the reads ended because the other side has
closed the connection, or what they gave is not a response that ends with the connection. -/
theorem truncation_detected_iff (ending : ReadFailure) (buffer : Bytes) (pieces : List Bytes) :
    (∀ r, (readResponse ending.message buffer pieces).result = .ok r →
      (∃ k p, (readResponse ending.message buffer pieces).unread = pieces.drop k ∧
        parseHttpResponse (buffer ++ (pieces.take k).flatten) false = .ok (some p) ∧ p.response = r) ∨
      (∃ head h, breakOn (crlf ++ crlf) (buffer ++ pieces.flatten) = some (head, r.body) ∧
        parseHeaders head = .ok h ∧ h.framing = .close) ∧ ending.peerClosed = true) ↔
    ending.peerClosed = true ∨ ∀ r, ¬ EndsWithConnection buffer pieces r := by
  obtain ⟨k, b, hb, hmore, hunread, hstop⟩ := readResponse_cases ending.message buffer pieces
  constructor
  · intro hdetected
    refine or_iff_not_imp_left.mpr fun hclosed r hends ↦ ?_
    obtain ⟨hwanted, hend⟩ := hends.parse_eq
    have hresult : (readResponse ending.message buffer pieces).result = .ok r := by
      rcases hstop with ⟨e, herror, -⟩ | ⟨p, hfound, -⟩ | ⟨hlast, -, hresult⟩
      · rw [hb, hwanted k] at herror
        cases herror
      · rw [hb, hwanted k] at hfound
        cases hfound
      · rw [hresult, hb, List.take_of_length_le hlast, hend]
    rcases hdetected r hresult with ⟨k, p, -, hfound, -⟩ | ⟨-, hpeer⟩
    · rw [hwanted k] at hfound
      cases hfound
    · exact hclosed hpeer
  · intro hcondition r hresult
    rcases hstop with ⟨e, -, herror⟩ | ⟨p, hfound, hreturned, -⟩ | ⟨hlast, hwanted, hreturned⟩
    · rw [hresult] at herror
      cases herror
    · rw [hresult] at hreturned
      cases hreturned
      exact .inl ⟨k, p, hunread, hb ▸ hfound, rfl⟩
    · have htake : pieces.take k = pieces := List.take_of_length_le hlast
      have hall : ∀ j, parseHttpResponse (buffer ++ (pieces.take j).flatten) false = .ok none := by
        intro j
        rcases Nat.lt_or_ge j k with hj | hj
        · exact hmore j hj
        · rw [List.take_of_length_le (Nat.le_trans hlast hj), ← htake, ← hb]
          exact hwanted
      rw [hb, htake] at hreturned
      have hends := endsWithConnection_of_atEnd hall (hreturned.symm.trans hresult)
      obtain ⟨head, h, hbreak, -, hok, -, hheaders⟩ := hends.received
      refine .inr ⟨⟨head, h, hbreak, hok, (framing_eq_close_iff hok).mpr hheaders⟩, ?_⟩
      exact hcondition.resolve_right fun hnone ↦ hnone r hends

/-- A response cut off by a timeout is returned as if it were complete. -/
theorem truncation_unnoticed :
    (readResponse ReadFailure.wantRead.message [] [ascii "HTTP/1.1 200\r\n\r\n", ascii "\x7b\"a\":1"]).result =
        .ok ⟨200, false, ascii "\x7b\"a\":1"⟩ ∧
      ReadFailure.wantRead.peerClosed = false := by
  decide

end KalshiClient.Http
