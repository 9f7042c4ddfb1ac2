import KalshiClient.Http.Server
import KalshiClient.Http.Stability

/-!
# Responses decode to what was encoded

A `Message` whose body is announced by its length or chunked, within the limits of the client, is read back from its
bytes whatever follows them, and nothing short of its bytes is refused (`parseHttpResponse_roundtrip`).

That nothing short of it is refused needs no second look at the parser: an error on a beginning of the message would be
one on the whole message unless the data are cut short (`parseHttpResponse_error`), and a message within the limits
has no line long enough for that.
-/

namespace KalshiClient.Http

open Bytes Split

/-! ## Messages within the limits -/

/-- The lines with the sizes of the chunks leave room for an end of line within the limit of 1024 bytes. -/
def Body.ShortLines : Body → Prop
  | .chunked chunks last =>
    (∀ c ∈ chunks, (c.size ++ c.ext).length ≤ 1023) ∧ (last.size ++ last.ext).length ≤ 1023
  | _ => True

/-- A final response with a body that is framed, within the limits of the client. -/
structure Message.Acceptable (m : Message) : Prop where
  status : 200 ≤ m.status ∧ m.status ≤ 599 ∧ m.status ≠ 204 ∧ m.status ≠ 304
  framed : (∃ content, m.body = .length content) ∨ ∃ chunks last, m.body = .chunked chunks last
  unambiguous : m.body.framing = .chunked → ∀ f ∈ m.fields, ¬ f.Named (ascii "content-length")
  head : m.head.length + 4 ≤ kMaxHttpHeaderBytes
  content : m.body.content.length ≤ kMaxHttpBodyBytes
  lines : m.body.ShortLines

/-- What `trim` leaves does not begin with a blank. -/
theorem head?_trim (raw : Bytes) : ∀ c ∈ (trim raw).head?, isBlank c = false := by
  intro c hc
  have hcut : raw.dropWhile isBlank = trim raw ++ (raw.dropWhile isBlank).rtakeWhile isBlank :=
    List.rdropWhile_append_rtakeWhile.symm
  have hhead : (raw.dropWhile isBlank).head? = some c := by
    rw [hcut, List.head?_append, Option.mem_def.mp hc]
    rfl
  have hnot := List.head?_dropWhile_not isBlank raw
  rwa [hhead] at hnot

/-- Nor does it end with one. -/
theorem getLast?_trim (raw : Bytes) : ∀ c ∈ (trim raw).getLast?, isBlank c = false := by
  intro c hc
  have hne : trim raw ≠ [] := by
    intro hnil
    rw [hnil] at hc
    cases hc
  have hlast := List.rdropWhile_last_not isBlank (raw.dropWhile isBlank) hne
  rw [List.getLast?_eq_some_getLast hne, Option.mem_some_iff] at hc
  rw [← hc]
  exact eq_false_of_ne_true hlast

/-- Every line with a name and a colon is a header. -/
theorem Field.exists_line {name raw : Bytes} (hne : name ≠ [])
    (hname : ∀ c ∈ name, isText c = true ∧ c ≠ ':'.toUInt8) (hraw : ∀ c ∈ raw, isText c = true) :
    ∃ f : Field, f.name = name ∧ f.line = name ++ [':'.toUInt8] ++ raw := by
  have hcut : raw.takeWhile isBlank ++ trim raw ++ (raw.dropWhile isBlank).rtakeWhile isBlank = raw := by
    rw [trim, List.append_assoc, List.rdropWhile_append_rtakeWhile, List.takeWhile_append_dropWhile]
  have hvalue : ∀ c ∈ trim raw, isText c = true := by
    intro c hc
    refine hraw c ?_
    rw [← hcut]
    exact List.mem_append_left _ (List.mem_append_right _ hc)
  refine ⟨⟨name, raw.takeWhile isBlank, trim raw, (raw.dropWhile isBlank).rtakeWhile isBlank, hne, hname,
    fun c hc ↦ List.mem_takeWhile_imp hc, hvalue, head?_trim raw, getLast?_trim raw,
    fun c hc ↦ List.mem_rtakeWhile_imp hc⟩, rfl, ?_⟩
  rw [Field.line, hcut]

/-! ## The headers are accepted -/

theorem Message.parseStatusLine_ok {m : Message} (hmin : 100 ≤ m.status) (hmax : m.status ≤ 599) :
    ∃ h, parseStatusLine m.statusLine = .ok h ∧ h.contentLength = none := by
  have hcode : (m.statusLine.drop 9).take 3 = m.code := by
    have hdrop : m.statusLine.drop 9 = m.code ++ m.reason := rfl
    rw [hdrop, List.take_append_of_le_length m.code_length.ge, List.take_of_length_le m.code_length.le]
  have hlength : 12 ≤ m.statusLine.length := by
    have hversion : (ascii "HTTP/1.").length = 7 := rfl
    rw [statusLine, List.length_append, List.length_cons, List.length_cons, List.length_append, m.code_length]
    omega
  have hstart : (ascii "HTTP/1.").isPrefixOf m.statusLine = true :=
    List.isPrefixOf_iff_prefix.mpr (List.prefix_append _ _)
  have hspace : m.statusLine[8]? = some ' '.toUInt8 := rfl
  have hne : m.code ≠ [] := by
    intro hnil
    have := m.code_length
    rw [hnil] at this
    cases this
  have hchars : fromChars isDigit 10 31 m.code = some (m.status, []) := by
    have hbits : ¬ 2 ^ 31 ≤ ofDigits 10 m.code := Nat.not_le.mpr (Nat.lt_of_le_of_lt hmax (by decide))
    rw [fromChars, List.takeWhile_eq_self_iff.mpr m.code_digits, List.dropWhile_eq_nil_iff.mpr m.code_digits,
      if_neg hne, if_neg hbits]
    rfl
  have hrange : ¬ (decide (m.status < 100) || decide (m.status > 599)) = true := by
    simp only [Bool.or_eq_true, decide_eq_true_eq, not_or, not_lt]
    exact ⟨hmin, hmax⟩
  have hform : ¬ (decide (m.statusLine.length < 12) || !(ascii "HTTP/1.").isPrefixOf m.statusLine ||
      decide (m.statusLine[8]? ≠ some ' '.toUInt8)) = true := by
    rw [hstart, hspace, decide_eq_false (Nat.not_lt.mpr hlength)]
    simp
  rw [parseStatusLine, if_neg hform, hcode, hchars]
  dsimp only
  rw [if_neg hrange]
  exact ⟨_, rfl, rfl⟩

/-- Fields that announce at most one length are accepted. -/
theorem foldlM_applyField_ok {n : Nat} (hn : n < 2 ^ 64) {fields : List Field}
    (hall : ∀ f ∈ fields, f.Named (ascii "content-length") → f.IsNumber n) {h : Headers}
    (hlength : ∀ len ∈ h.contentLength, len = n) :
    ∃ h', fields.foldlM (fun h f ↦ applyField h f.name f.value) h = .ok h' := by
  induction fields generalizing h with
  | nil => exact ⟨h, rfl⟩
  | cons f fields ih =>
      have hrest := fun g hg ↦ hall g (List.mem_cons_of_mem f hg)
      rw [List.foldlM_cons]
      have hstep : ∃ h₁, applyField h f.name f.value = .ok h₁ ∧ ∀ len ∈ h₁.contentLength, len = n := by
        rw [applyField]
        split_ifs with hnamed
        · obtain ⟨hne, hdigits, hvalue⟩ := hall f List.mem_cons_self hnamed
          rw [parseWhole_digits hne hdigits, hvalue, if_neg (Nat.not_le.mpr hn)]
          have hany : h.contentLength.any (· ≠ n) = false := by
            cases hlen : h.contentLength with
            | none => rfl
            | some len =>
                rw [hlength len hlen]
                exact decide_eq_false (not_not.mpr rfl)
          dsimp only
          rw [if_neg (by rw [hany]; exact Bool.false_ne_true)]
          exact ⟨_, rfl, fun len hlen ↦ (Option.some.inj hlen).symm⟩
        all_goals exact ⟨_, rfl, hlength⟩
      obtain ⟨h₁, hf, hlength₁⟩ := hstep
      rw [hf]
      exact ih hrest hlength₁

/-- The headers of a message within the limits are accepted. -/
theorem Message.Acceptable.parseHeaders_ok {m : Message} (hm : m.Acceptable) : ∃ h, parseHeaders m.head = .ok h := by
  obtain ⟨h₀, hline, hlength⟩ :=
    m.parseStatusLine_ok (Nat.le_trans (by decide) hm.status.1) hm.status.2.1
  have hnone : ∀ n, ∀ len ∈ h₀.contentLength, len = n := by
    intro n len hlen
    rw [hlength] at hlen
    cases hlen
  rw [m.parseHeaders_eq, hline, Except.bind_ok]
  rcases hm.framed with ⟨content, hbody⟩ | ⟨chunks, last, hbody⟩
  · have hannounce := m.announce
    have hcontent := hm.content
    rw [hbody] at hannounce hcontent
    exact foldlM_applyField_ok (Nat.lt_of_le_of_lt hcontent (by decide)) hannounce.2.2 (hnone _)
  · refine foldlM_applyField_ok (Nat.two_pow_pos 64) (fun f hf hnamed ↦ ?_) (hnone 0)
    exact absurd hnamed (hm.unambiguous (by rw [hbody]; rfl) f hf)

/-! ## The body is accepted -/

theorem Chunk.parseChunkSize_of_le (c : Chunk) (h : c.data.length ≤ kMaxHttpBodyBytes) :
    parseChunkSize (c.size ++ c.ext) = some c.data.length := by
  rw [c.parseChunkSize_eq, if_neg (Nat.not_le.mpr (Nat.lt_of_le_of_lt h (by decide)))]

theorem Chunk.length_of_parseChunkSize (c : Chunk) {n : Nat} (h : parseChunkSize (c.size ++ c.ext) = some n) :
    c.data.length = n := by
  rw [c.parseChunkSize_eq] at h
  split_ifs at h
  exact Option.some.inj h

/-- Chunks that fit are passed. -/
theorem reaches_chunks {chunks : List Chunk} {body : Bytes} (rest : Bytes)
    (hfits : (body ++ chunks.flatMap Chunk.data).length ≤ kMaxHttpBodyBytes) :
    Reaches body (chunks.flatMap Chunk.encode ++ rest) (body ++ chunks.flatMap Chunk.data) rest := by
  induction chunks generalizing body with
  | nil =>
      rw [List.flatMap_nil, List.flatMap_nil, List.append_nil, List.nil_append]
      exact .refl body rest
  | cons c chunks ih =>
      rw [List.flatMap_cons, ← List.append_assoc] at hfits
      have hfits' : FitsBody body c.data.length := by
        rw [List.length_append, List.length_append] at hfits
        exact ⟨by omega, by omega⟩
      rw [List.flatMap_cons, List.flatMap_cons, List.append_assoc, ← List.append_assoc body]
      exact .chunk ⟨c.breakOn_encode _, c.parseChunkSize_of_le hfits'.1, c.data_ne, hfits'⟩ (ih hfits)

/-- The body of a message within the limits is found. -/
theorem Message.Acceptable.parseBody_ok {m : Message} (hm : m.Acceptable) {h : Headers}
    (hframing : h.framing = m.body.framing) :
    parseBody h m.body.encode false = .ok (some (⟨h.status, h.keepAlive, m.body.content⟩, 0)) := by
  have hcontent := hm.content
  rw [parseBody, hframing]
  rcases hm.framed with ⟨content, hbody⟩ | ⟨chunks, last, hbody⟩
  · rw [hbody] at hcontent ⊢
    have hmax : ¬ content.length > kMaxHttpBodyBytes := Nat.not_lt.mpr hcontent
    simp only [Body.framing, Body.encode, Body.content, if_neg hmax, lt_irrefl, if_false, List.take_length, Nat.sub_self]
  · rw [hbody] at hcontent ⊢
    have hreaches := reaches_chunks last.encode (show ([] ++ _).length ≤ _ from hcontent)
    obtain ⟨fuel, hfuel, hdecode⟩ :=
      hreaches.decodeChunked_eq [] (by rw [List.append_nil]; exact Nat.lt_succ_self _)
    obtain ⟨fuel, rfl⟩ : ∃ n, fuel = n + 1 := ⟨fuel - 1, by omega⟩
    rw [List.append_nil, List.append_nil, last.decode] at hdecode
    simp only [Body.framing, Body.encode, Body.content]
    rw [hdecode]
    rfl

/-- A message within the limits is read back. -/
theorem Message.Acceptable.parse_encode {m : Message} (hm : m.Acceptable) :
    ∃ p, parseHttpResponse m.encode false = .ok (some p) ∧ m.Is p.response ∧ p.bytesConsumed = m.encode.length := by
  obtain ⟨h, hheaders⟩ := hm.parseHeaders_ok
  obtain ⟨hstatus, hframing⟩ := m.parseHeaders_head hheaders
  refine ⟨⟨⟨h.status, h.keepAlive, m.body.content⟩, m.encode.length⟩, ?_, ⟨hstatus, rfl⟩, rfl⟩
  exact parseHttpResponse_eq_some.mpr ⟨m.head, m.body.encode, h, 0, m.breakOn_head _,
    Nat.le_trans (Nat.le_add_right _ 4) hm.head, hheaders, hm.parseBody_ok hframing, rfl⟩

/-- Nor does the end of the connection change a response. -/
theorem parseHttpResponse_complete {d : Bytes} {p : ParsedHttpResponse}
    (h : parseHttpResponse d false = .ok (some p)) (eof : Bool) : parseHttpResponse d eof = .ok (some p) := by
  obtain ⟨head, rest, headers, left, hbreak, hmax, hheaders, hbody, hconsumed⟩ := parseHttpResponse_eq_some.mp h
  refine parseHttpResponse_eq_some.mpr ⟨head, rest, headers, left, hbreak, hmax, hheaders, ?_, hconsumed⟩
  rw [parseBody] at hbody ⊢
  cases hframing : headers.framing with
  | chunked =>
      simp only [hframing] at hbody ⊢
      obtain ⟨decoded, hdecoded, hresult⟩ := Except.bind_eq_ok_iff.mp hbody
      rw [hdecoded]
      cases decoded with
      | none => cases hresult
      | some decoded => exact hresult
  | length len =>
      simp only [hframing, Bool.false_eq_true, if_false] at hbody ⊢
      split_ifs at hbody with hlarge hshort
      · cases hbody
      · rw [if_neg hlarge, if_neg hshort, hbody]
  | bodyless =>
      simp only [hframing] at hbody ⊢
      exact hbody
  | close =>
      simp only [hframing] at hbody
      cases hbody

/-! ## What has arrived of a message is not refused -/

/-- Whole chunks in a chunked body are chunks of it. -/
theorem Reaches.exists_chunks {chunks : List Chunk} {last : LastChunk} {body body' s : Bytes}
    (h : Reaches body (chunks.flatMap Chunk.encode ++ last.encode) body' s) :
    ∃ rest, rest ⊆ chunks ∧ s = rest.flatMap Chunk.encode ++ last.encode := by
  generalize hdata : chunks.flatMap Chunk.encode ++ last.encode = data at h
  induction h generalizing chunks with
  | refl body s => exact ⟨chunks, List.Subset.refl chunks, hdata.symm⟩
  | chunk hchunk _ ih =>
      have hbreak := hchunk.breakOn_eq
      have hsize := hchunk.size
      rw [← hdata] at hbreak
      cases chunks with
      | nil =>
          rw [List.flatMap_nil, List.nil_append, last.breakOn_encode, Option.some_inj, Prod.mk.injEq] at hbreak
          rw [← hbreak.1, last.parseChunkSize_eq, Option.some_inj] at hsize
          exact absurd (List.length_eq_zero_iff.mp hsize.symm) hchunk.ne
      | cons c chunks =>
          rw [List.flatMap_cons, List.append_assoc, c.breakOn_encode, Option.some_inj, Prod.mk.injEq] at hbreak
          obtain ⟨hline, hrest⟩ := hbreak
          rw [← hline] at hsize
          rw [List.append_assoc, List.append_assoc] at hrest
          obtain ⟨-, hrest⟩ := List.append_inj hrest (c.length_of_parseChunkSize hsize)
          obtain ⟨rest, hsub, hs⟩ := ih (List.append_cancel_left hrest)
          exact ⟨rest, List.Subset.trans hsub (List.subset_cons_self c chunks), hs⟩

/-- A size line that has not ended is within the limit. -/
theorem length_le_of_unterminated {s t line rest : Bytes} (hnone : breakOn crlf s = none)
    (hbreak : breakOn crlf (s ++ t) = some (line, rest)) (hline : line.length ≤ 1023) : s.length ≤ 1024 := by
  have hstart := prefix_of_breakOn_append hnone hbreak
  have hne : s ≠ line ++ crlf := by
    rintro rfl
    rw [breakOn_self hbreak] at hnone
    cases hnone
  have hcrlf : crlf.length = 2 := rfl
  have hle := hstart.length_le
  have hlt : s.length ≠ (line ++ crlf).length := fun heq ↦ hne (hstart.eq_of_length heq)
  rw [List.length_append, hcrlf] at hle hlt
  omega

theorem Reaches.append {body s body' s' : Bytes} (h : Reaches body s body' s') (t : Bytes) :
    Reaches body (s ++ t) body' (s' ++ t) := by
  induction h with
  | refl body s => exact .refl body (s ++ t)
  | chunk hchunk _ ih => exact .chunk (hchunk.append t) ih

/-- A message within the limits is never cut short. -/
theorem Message.Acceptable.not_cutShort {m : Message} (hm : m.Acceptable) {part : Bytes} (hpart : part <+: m.encode) :
    ¬ CutShort part := by
  obtain ⟨t, ht⟩ := hpart
  have hwhole : breakOn (crlf ++ crlf) (part ++ t) = some (m.head, m.body.encode) := by
    rw [ht]
    exact m.breakOn_head m.body.encode
  rintro (⟨hnone, hlong, -⟩ | ⟨head, rest, h, hbreak, -, hheaders, hframing, body', s', hreaches, hnone, hlong, -⟩)
  · have hle := (prefix_of_breakOn_append hnone hwhole).length_le
    have hcrlf : (crlf ++ crlf).length = 4 := rfl
    have hmax := hm.head
    rw [List.length_append, hcrlf] at hle
    omega
  · rw [breakOn_append hbreak t, Option.some_inj, Prod.mk.injEq] at hwhole
    obtain ⟨rfl, hrest⟩ := hwhole
    rw [(m.parseHeaders_head hheaders).2] at hframing
    obtain ⟨chunks, last, hbody⟩ : ∃ chunks last, m.body = .chunked chunks last := by
      rcases hm.framed with ⟨content, hbody⟩ | hbody
      · rw [hbody] at hframing
        cases hframing
      · exact hbody
    have hlines := hm.lines
    rw [hbody] at hlines hrest
    have hreaches := hreaches.append t
    rw [hrest] at hreaches
    obtain ⟨chunks', hsub, hs'⟩ := hreaches.exists_chunks
    refine absurd hlong (Nat.not_lt.mpr ?_)
    cases chunks' with
    | nil =>
        rw [List.flatMap_nil, List.nil_append] at hs'
        exact length_le_of_unterminated hnone (hs' ▸ last.breakOn_encode) hlines.2
    | cons c chunks' =>
        rw [List.flatMap_cons, List.append_assoc] at hs'
        exact length_le_of_unterminated hnone (hs' ▸ c.breakOn_encode _) (hlines.1 c (hsub List.mem_cons_self))

/-- A message within the limits is read back whatever follows it, and nothing short of it is refused or taken for a
response. -/
theorem parseHttpResponse_roundtrip (m : Message) (hm : m.Acceptable) :
    (∀ (t : Bytes) (eof : Bool), ∃ p, parseHttpResponse (m.encode ++ t) eof = .ok (some p) ∧
      p.response.status = m.status ∧ p.response.body = m.body.content ∧ p.bytesConsumed = m.encode.length) ∧
    ∀ part, part <+: m.encode → part ≠ m.encode → parseHttpResponse part false = .ok none := by
  obtain ⟨p, hparse, ⟨hstatus, hbody⟩, hconsumed⟩ := hm.parse_encode
  refine ⟨fun t eof ↦ ⟨p, ?_, hstatus, hbody, hconsumed⟩, fun part hpart hne ↦ ?_⟩
  · exact parseHttpResponse_complete (parseHttpResponse_append hparse t) eof
  · obtain ⟨t, ht⟩ := hpart
    match hresult : parseHttpResponse part false with
    | .ok none => rfl
    | .ok (some q) =>
        have hle := parseHttpResponse_consumed_le hresult
        have hsame := parseHttpResponse_append hresult t
        rw [ht, hparse] at hsame
        cases hsame
        have hlength : part.length = m.encode.length :=
          Nat.le_antisymm (List.IsPrefix.length_le ⟨t, ht⟩) (hconsumed ▸ hle)
        exact absurd (List.IsPrefix.eq_of_length ⟨t, ht⟩ hlength) hne
    | .error e =>
        rcases parseHttpResponse_error hresult t with ⟨e', he'⟩ | hcut
        · rw [ht, hparse] at he'
          cases he'
        · exact absurd hcut (hm.not_cutShort ⟨t, ht⟩)

/-! ## A chunked response -/

/-- `Transfer-Encoding:chunked`. -/
def codingChunked : Field where
  name := ascii "Transfer-Encoding"
  before := []
  value := ascii "chunked"
  after := []
  name_ne := by decide
  name_text := forall_mem_of_all (by decide)
  before_blank := List.forall_mem_nil _
  value_text := forall_mem_of_all (by decide)
  value_head := by rintro _ ⟨⟩; rfl
  value_last := by rintro _ ⟨⟩; rfl
  after_blank := List.forall_mem_nil _

/-- A chunk with an extension. -/
def helloChunk : Chunk where
  size := ascii "05"
  ext := ascii ";x"
  data := ascii "hello"
  size_hex := forall_mem_of_all (by decide)
  size_eq := by decide
  ext_start := by decide
  ext_text := forall_mem_of_all (by decide)
  data_ne := by decide

/-- A last chunk with a trailer. -/
def endChunk : LastChunk where
  size := ascii "0"
  ext := []
  trailers := [ascii "T: v"]
  size_ne := by decide
  size_hex := forall_mem_of_all (by decide)
  size_eq := by decide
  ext_start := .inl rfl
  ext_text := List.forall_mem_nil _
  trailers_ne := by decide +kernel
  trailers_text := by decide +kernel

/-- A response of one chunk. -/
def chunkedHello : Message where
  minor := '0'.toUInt8
  code := ascii "201"
  reason := ascii " Created"
  fields := [codingChunked]
  body := .chunked [helloChunk] endChunk
  minor_text := by decide
  code_digits := forall_mem_of_all (by decide)
  code_length := rfl
  reason_text := forall_mem_of_all (by decide)
  announce := ⟨codingChunked, rfl, (by decide +kernel : ascii "chunked" <:+: (ascii "chunked").map lower)⟩

theorem chunkedHello_acceptable : chunkedHello.Acceptable where
  status := by decide
  framed := .inr ⟨_, _, rfl⟩
  unambiguous _ f hf := by
    rw [List.mem_singleton.mp hf]
    decide
  head := by decide
  content := by decide
  lines := ⟨fun c hc ↦ by rw [List.mem_singleton.mp hc]; decide, by decide⟩

/-- The response is read back, and its first twenty bytes are not enough. -/
theorem parseHttpResponse_roundtrip_chunked :
    (∃ p, parseHttpResponse (chunkedHello.encode ++ [0x48]) false = .ok (some p) ∧ p.response.status = 201 ∧
      p.response.body = ascii "hello" ∧ p.bytesConsumed = chunkedHello.encode.length) ∧
    parseHttpResponse (chunkedHello.encode.take 20) false = .ok none := by
  obtain ⟨hwhole, hpart⟩ := parseHttpResponse_roundtrip chunkedHello chunkedHello_acceptable
  refine ⟨hwhole [0x48] false, hpart _ (List.take_prefix 20 _) fun h ↦ ?_⟩
  have hlength := congrArg List.length h
  exact absurd hlength (by decide)

end KalshiClient.Http
