import KalshiClient.Http.Headers

/-!
# What a server sends

The responses of HTTP/1.1 as a server may write them, independently of the parser: a `Message` is a status line,
header lines and a body in one of the framings, with every freedom the syntax leaves (any header besides
those that frame the body, blanks around values, sizes with leading zeros in either case, chunk extensions
and trailers), and `Message.encode` is its bytes.  `Answer` is what answers one request: interim responses,
then the final one.

The parser finds in the bytes of a message that message or reports an error (`parseHttpResponse_encode`); errors
remain possible because the client limits sizes and refuses some redundant headers.
-/

namespace KalshiClient.Http

open Bytes Split

/-- A byte that may stand in a line. -/
def isText (c : UInt8) : Bool := c ≠ '\r'.toUInt8 && c ≠ '\n'.toUInt8

/-- A header line. -/
structure Field where
  /-- The name. -/
  name : Bytes
  /-- The blanks before the value. -/
  before : Bytes
  /-- The value. -/
  value : Bytes
  /-- The blanks after the value. -/
  after : Bytes
  name_ne : name ≠ []
  name_text : ∀ c ∈ name, isText c = true ∧ c ≠ ':'.toUInt8
  before_blank : ∀ c ∈ before, isBlank c = true
  value_text : ∀ c ∈ value, isText c = true
  value_head : ∀ c ∈ value.head?, isBlank c = false
  value_last : ∀ c ∈ value.getLast?, isBlank c = false
  after_blank : ∀ c ∈ after, isBlank c = true

namespace Field

/-- The line. -/
def line (f : Field) : Bytes := f.name ++ [':'.toUInt8] ++ (f.before ++ f.value ++ f.after)

/-- Whether the field has a given name, in whatever case. -/
abbrev Named (f : Field) (name : Bytes) : Prop := iequals f.name name = true

/-- The value is a decimal number. -/
def IsNumber (f : Field) (n : Nat) : Prop :=
  f.value ≠ [] ∧ (∀ c ∈ f.value, isDigit c = true) ∧ ofDigits 10 f.value = n

/-- The value mentions the chunked coding, in whatever case. -/
def MentionsChunked (f : Field) : Prop := ascii "chunked" <:+: f.value.map lower

end Field

/-- A chunk that is not the last. -/
structure Chunk where
  /-- The size, in hexadecimal. -/
  size : Bytes
  /-- The extensions. -/
  ext : Bytes
  /-- The data. -/
  data : Bytes
  size_hex : ∀ c ∈ size, isHex c = true
  size_eq : ofDigits 16 size = data.length
  ext_start : ext = [] ∨ ext.head? = some ';'.toUInt8
  ext_text : ∀ c ∈ ext, isText c = true
  data_ne : data ≠ []

/-- The bytes of a chunk. -/
def Chunk.encode (c : Chunk) : Bytes := c.size ++ c.ext ++ crlf ++ c.data ++ crlf

/-- The last chunk and the trailers. -/
structure LastChunk where
  /-- The size, in hexadecimal. -/
  size : Bytes
  /-- The extensions. -/
  ext : Bytes
  /-- The trailers. -/
  trailers : List Bytes
  size_ne : size ≠ []
  size_hex : ∀ c ∈ size, isHex c = true
  size_eq : ofDigits 16 size = 0
  ext_start : ext = [] ∨ ext.head? = some ';'.toUInt8
  ext_text : ∀ c ∈ ext, isText c = true
  trailers_ne : ∀ l ∈ trailers, l ≠ []
  trailers_text : ∀ l ∈ trailers, ∀ c ∈ l, isText c = true

/-- The bytes of the last chunk. -/
def LastChunk.encode (c : LastChunk) : Bytes :=
  c.size ++ c.ext ++ crlf ++ (c.trailers.flatMap fun l ↦ l ++ crlf) ++ crlf

/-- A body in its framing. -/
inductive Body where
  /-- A body whose length is announced. -/
  | length (content : Bytes)
  /-- A chunked body. -/
  | chunked (chunks : List Chunk) (last : LastChunk)
  /-- No body. -/
  | bodyless
  /-- A body that ends with the connection. -/
  | close (content : Bytes)

namespace Body

/-- The content. -/
def content : Body → Bytes
  | .length content | .close content => content
  | .chunked chunks _ => chunks.flatMap Chunk.data
  | .bodyless => []

/-- The bytes sent for it. -/
def encode : Body → Bytes
  | .length content | .close content => content
  | .chunked chunks last => chunks.flatMap Chunk.encode ++ last.encode
  | .bodyless => []

/-- The framing. -/
def framing : Body → Framing
  | .length content => .length content.length
  | .chunked _ _ => .chunked
  | .bodyless => .bodyless
  | .close _ => .close

end Body

/-- Header lines, each on a new line. -/
def fieldLines (fields : List Field) : Bytes := fields.flatMap fun f ↦ crlf ++ f.line

/-- The last field that names a transfer coding. -/
def lastCoding (fields : List Field) : Option Field :=
  (fields.filter fun f ↦ iequals f.name (ascii "transfer-encoding")).getLast?

/-- The headers announce a chunked body. -/
def AnnounceChunked (fields : List Field) : Prop := ∃ f ∈ lastCoding fields, f.MentionsChunked

/-- The headers and the status announce the framing of the body. -/
def Announce (fields : List Field) (status : Nat) : Body → Prop
  | .length content =>
    lastCoding fields = none ∧ (∃ f ∈ fields, f.Named (ascii "content-length")) ∧
      ∀ f ∈ fields, f.Named (ascii "content-length") → f.IsNumber content.length
  | .chunked _ _ => AnnounceChunked fields
  | .bodyless =>
    ¬ AnnounceChunked fields ∧ (∀ f ∈ fields, ¬ f.Named (ascii "content-length")) ∧
      isBodyless status = true
  | .close _ =>
    ¬ AnnounceChunked fields ∧ (∀ f ∈ fields, ¬ f.Named (ascii "content-length")) ∧
      isBodyless status = false

/-- A response. -/
structure Message where
  /-- The minor version. -/
  minor : UInt8
  /-- The three digits of the status code. -/
  code : Bytes
  /-- The rest of the status line. -/
  reason : Bytes
  /-- The headers. -/
  fields : List Field
  /-- The body. -/
  body : Body
  minor_text : isText minor = true
  code_digits : ∀ c ∈ code, isDigit c = true
  code_length : code.length = 3
  reason_text : ∀ c ∈ reason, isText c = true
  announce : Announce fields (ofDigits 10 code) body

namespace Message

/-- The status code. -/
def status (m : Message) : Nat := ofDigits 10 m.code

/-- The status line. -/
def statusLine (m : Message) : Bytes :=
  ascii "HTTP/1." ++ m.minor :: ' '.toUInt8 :: (m.code ++ m.reason)

/-- The status line and the headers. -/
def head (m : Message) : Bytes := m.statusLine ++ fieldLines m.fields

/-- The bytes of the response. -/
def encode (m : Message) : Bytes := m.head ++ (crlf ++ crlf) ++ m.body.encode

/-- A response is the message: the status and the content are. -/
def Is (m : Message) (r : HttpResponse) : Prop := r.status = m.status ∧ r.body = m.body.content

end Message

/-- What answers one request. -/
structure Answer where
  /-- The interim responses. -/
  interim : List Message
  /-- The final response. -/
  final : Message
  interim_status : ∀ m ∈ interim, 100 ≤ m.status ∧ m.status < 200
  interim_bodyless : ∀ m ∈ interim, m.body = .bodyless
  final_status : 200 ≤ final.status

/-- The bytes of an answer. -/
def Answer.encode (a : Answer) : Bytes := a.interim.flatMap Message.encode ++ a.final.encode

theorem length_le_length_flatMap {α : Type} {f : α → Bytes} (l : List α) (h : ∀ a, 0 < (f a).length) :
    l.length ≤ (l.flatMap f).length := by
  induction l with
  | nil => exact Nat.zero_le _
  | cons a l ih =>
      have := h a
      rw [List.flatMap_cons, List.length_append, List.length_cons]
      omega

/-! ## Header lines -/

theorem dropWhile_eq_self_of_head? {p : UInt8 → Bool} {s : Bytes}
    (h : ∀ c ∈ s.head?, p c = false) : s.dropWhile p = s := by
  cases s with
  | nil => rfl
  | cons c s => rw [List.dropWhile_cons_of_neg (by rw [h c rfl]; exact Bool.false_ne_true)]

/-- Trimming removes the blanks around a value. -/
theorem trim_append {l s r : Bytes} (hl : ∀ c ∈ l, isBlank c = true) (hr : ∀ c ∈ r, isBlank c = true)
    (hhead : ∀ c ∈ s.head?, isBlank c = false) (hlast : ∀ c ∈ s.getLast?, isBlank c = false) :
    trim (l ++ s ++ r) = s := by
  have hrev : ∀ c ∈ r.reverse, isBlank c = true := fun c hc ↦ hr c (List.mem_reverse.mp hc)
  rw [trim, List.append_assoc, List.dropWhile_append_of_pos hl]
  cases s with
  | nil =>
      rw [List.nil_append, List.dropWhile_eq_nil_iff.mpr hr]
      rfl
  | cons c s =>
      have hhead' : ∀ d ∈ (c :: s ++ r).head?, isBlank d = false := hhead
      rw [dropWhile_eq_self_of_head? hhead', List.rdropWhile, List.reverse_append, List.dropWhile_append_of_pos hrev,
        dropWhile_eq_self_of_head? (by rwa [List.head?_reverse]), List.reverse_reverse]

namespace Field

theorem icontains_chunked_iff (f : Field) :
    icontains f.value (ascii "chunked") = true ↔ f.MentionsChunked := by
  have hlower : (ascii "chunked").map lower = ascii "chunked" := by decide
  simp only [icontains, hlower, List.any_eq_true, List.mem_tails, List.isPrefixOf_iff_prefix,
    MentionsChunked, List.infix_iff_prefix_suffix, and_comm]

theorem cr_notMem_line (f : Field) : '\r'.toUInt8 ∉ f.line := by
  have hblank : isBlank '\r'.toUInt8 = false := by decide
  have htext : isText '\r'.toUInt8 = false := by decide
  simp only [line, List.mem_append, List.mem_singleton, not_or]
  refine ⟨⟨fun h ↦ ?_, by decide⟩, ⟨fun h ↦ ?_, fun h ↦ ?_⟩, fun h ↦ ?_⟩
  · have := (f.name_text _ h).1
    rw [htext] at this
    cases this
  · have := f.before_blank _ h
    rw [hblank] at this
    cases this
  · have := f.value_text _ h
    rw [htext] at this
    cases this
  · have := f.after_blank _ h
    rw [hblank] at this
    cases this

theorem parseField_line (f : Field) (h : Headers) :
    parseField h f.line = applyField h f.name f.value := by
  have hcolon : ':'.toUInt8 ∉ f.name := fun hmem ↦ (f.name_text _ hmem).2 rfl
  rw [parseField, line, breakOn_eq_some hcolon]
  cases hname : f.name with
  | nil => exact absurd hname f.name_ne
  | cons c name =>
      dsimp only
      rw [trim_append f.before_blank f.after_blank f.value_head f.value_last]

end Field

theorem fieldLines_cons (f : Field) (fields : List Field) :
    fieldLines (f :: fields) = crlf ++ f.line ++ fieldLines fields := List.flatMap_cons

/-- The loop over header lines goes from field to field. -/
theorem parseFields_line (f : Field) (fields : List Field) (h : Headers) {fuel : Nat}
    (hfuel : fields.length < fuel) :
    parseFields fuel h (f.line ++ fieldLines fields) =
      (f :: fields).foldlM (fun h f ↦ applyField h f.name f.value) h := by
  have hne (f : Field) (s : Bytes) : f.line ++ s ≠ [] := by
    simp [Field.line]
  induction fields generalizing f h fuel with
  | nil =>
      obtain ⟨fuel, rfl⟩ : ∃ n, fuel = n + 1 := ⟨fuel - 1, by omega⟩
      have hline : f.line ++ fieldLines [] = f.line := List.append_nil _
      rw [parseFields, if_neg (hne f _), hline, breakOn_crlf_eq_none f.cr_notMem_line]
      simp only [f.parseField_line, List.foldlM_cons, List.foldlM_nil]
      exact (bind_pure _).symm
  | cons g fields ih =>
      obtain ⟨fuel, rfl⟩ : ∃ n, fuel = n + 1 := ⟨fuel - 1, by omega⟩
      have hcut : f.line ++ fieldLines (g :: fields) = f.line ++ crlf ++ (g.line ++ fieldLines fields) := by
        simp only [fieldLines_cons, List.append_assoc]
      rw [parseFields, if_neg (hne f _), hcut, breakOn_crlf f.cr_notMem_line, List.foldlM_cons]
      dsimp only
      rw [f.parseField_line]
      refine bind_congr fun h ↦ ?_
      exact ih g h (Nat.lt_of_succ_lt_succ hfuel)

/-- A first line and header lines end at the first empty line. -/
theorem breakOn_fieldLines {first : Bytes} (hfirst : '\r'.toUInt8 ∉ first) (fields : List Field) (rest : Bytes) :
    breakOn (crlf ++ crlf) (first ++ fieldLines fields ++ (crlf ++ crlf) ++ rest) =
      some (first ++ fieldLines fields, rest) := by
  have hline {line : Bytes} (h : '\r'.toUInt8 ∉ line) (s : Bytes) : breakOn (crlf ++ crlf) (line ++ s) =
      (breakOn (crlf ++ crlf) s).map fun p ↦ (line ++ p.1, p.2) := breakOn_of_notMem h s
  have hfields : breakOn (crlf ++ crlf) (fieldLines fields ++ (crlf ++ crlf) ++ rest) =
      some (fieldLines fields, rest) := by
    induction fields with
    | nil => exact breakOn_of_starts (List.prefix_append _ _)
    | cons f fields ih =>
        obtain ⟨c, name, hname⟩ := List.exists_cons_of_ne_nil f.name_ne
        have hc : '\r'.toUInt8 ≠ c := by
          rintro rfl
          exact f.cr_notMem_line (by simp [Field.line, hname])
        -- An end of line is followed by the name of the field, so it is not the empty line.
        have hskip : ∀ s, breakOn (crlf ++ crlf) (crlf ++ (f.line ++ s)) =
            (breakOn (crlf ++ crlf) (f.line ++ s)).map fun p ↦ (crlf ++ p.1, p.2) := by
          intro s
          refine breakOn_skip fun k hk ↦ ?_
          obtain rfl | rfl : k = 0 ∨ k = 1 := by
            have : k < 2 := hk
            omega
          · simp [crlf, Field.line, hname, hc]
          · rintro ⟨t, ht⟩
            exact absurd (List.cons.inj ht).1 (by decide)
        rw [fieldLines_cons, List.append_assoc, List.append_assoc, List.append_assoc, hskip,
          hline f.cr_notMem_line, ← List.append_assoc, ih]
        simp
  rw [List.append_assoc, List.append_assoc, hline hfirst, ← List.append_assoc, hfields]
  rfl

/-! ## What the headers say -/

/-- The field as a header. -/
def Field.header (f : Field) : Header := (f.name, f.value)

theorem foldlM_applyField (fields : List Field) (h : Headers) :
    fields.foldlM (fun h f ↦ applyField h f.name f.value) h = applyHeaders (fields.map Field.header) h := by
  rw [applyHeaders, List.foldlM_map]
  rfl

theorem lastTransferEncoding_map (fields : List Field) :
    lastTransferEncoding (fields.map Field.header) = (lastCoding fields).map Field.header := by
  rw [lastTransferEncoding, List.filter_map, List.getLast?_map]
  rfl

/-- Without an announced length there is none. -/
theorem announcedLength_map_eq_none {fields : List Field} (h : ∀ f ∈ fields, ¬ f.Named (ascii "content-length")) :
    announcedLength (fields.map Field.header) = none := by
  have hnone : (fields.map Field.header).find? (Header.isNamed (ascii "content-length")) = none := by
    rw [List.find?_eq_none, List.forall_mem_map]
    exact h
  rw [announcedLength, hnone]
  rfl

/-- An announced length is found, if it is in range. -/
theorem announcedLength_map_eq_some {fields : List Field} {n : Nat}
    (hall : ∀ f ∈ fields, f.Named (ascii "content-length") → f.IsNumber n)
    (hsome : ∃ f ∈ fields, f.Named (ascii "content-length"))
    (hnumbers : ∀ f ∈ fields.map Field.header, f.isNamed (ascii "content-length") = true → ∃ len, f.number = some len) :
    announcedLength (fields.map Field.header) = some n := by
  obtain ⟨g, hg⟩ : ∃ g, (fields.map Field.header).find? (Header.isNamed (ascii "content-length")) = some g := by
    rw [← Option.isSome_iff_exists, List.find?_isSome]
    obtain ⟨f, hf, hnamed⟩ := hsome
    exact ⟨f.header, List.mem_map_of_mem hf, hnamed⟩
  have hmem := List.mem_of_find?_eq_some hg
  have hnamed := List.find?_some hg
  obtain ⟨len, hlen⟩ := hnumbers g hmem hnamed
  obtain ⟨f, hf, rfl⟩ := List.mem_map.mp hmem
  obtain ⟨hne, hdigits, rfl⟩ := hall f hf hnamed
  have hvalue : f.header.number = parseWhole isDigit 10 64 f.value := rfl
  rw [hvalue, parseWhole_digits hne hdigits] at hlen
  split_ifs at hlen with hbits
  rw [announcedLength, hg, Option.bind_some, hvalue, parseWhole_digits hne hdigits, if_neg hbits]

/-! ## The head of a message -/

namespace Message

variable (m : Message)

theorem cr_notMem_statusLine : '\r'.toUInt8 ∉ m.statusLine := by
  have htext : isText '\r'.toUInt8 = false := by decide
  have hdigit : isDigit '\r'.toUInt8 = false := by decide
  simp only [statusLine, List.mem_append, List.mem_cons, not_or]
  refine ⟨by decide, fun h ↦ ?_, by decide, fun h ↦ ?_, fun h ↦ ?_⟩
  · have := m.minor_text
    rw [← h, htext] at this
    cases this
  · have := m.code_digits _ h
    rw [hdigit] at this
    cases this
  · have := m.reason_text _ h
    rw [htext] at this
    cases this

/-- The head ends at the first empty line. -/
theorem breakOn_head (rest : Bytes) :
    breakOn (crlf ++ crlf) (m.head ++ (crlf ++ crlf) ++ rest) = some (m.head, rest) :=
  breakOn_fieldLines m.cr_notMem_statusLine m.fields rest

/-- The status line is read, or refused for its code. -/
theorem parseStatusLine_statusLine {h : Headers} (hok : parseStatusLine m.statusLine = .ok h) :
    h.status = m.status ∧ h.chunked = false ∧ h.contentLength = none := by
  have hcode : (m.statusLine.drop 9).take 3 = m.code := by
    have hdrop : m.statusLine.drop 9 = m.code ++ m.reason := rfl
    rw [hdrop, List.take_append_of_le_length m.code_length.ge, List.take_of_length_le m.code_length.le]
  rw [parseStatusLine, hcode] at hok
  split_ifs at hok
  split at hok
  · next status rest hchars =>
      split_ifs at hok
      cases hok
      refine ⟨?_, rfl, rfl⟩
      simp only [fromChars, List.takeWhile_eq_self_iff.mpr m.code_digits] at hchars
      split_ifs at hchars
      cases hchars
      rfl
  · cases hok

/-- The headers of a message are its fields, one after the other. -/
theorem parseHeaders_eq :
    parseHeaders m.head = parseStatusLine m.statusLine >>= fun h₀ ↦
      m.fields.foldlM (fun h f ↦ applyField h f.name f.value) h₀ := by
  rw [parseHeaders, head]
  cases hfields : m.fields with
  | nil =>
      have hnil : m.statusLine ++ fieldLines [] = m.statusLine := List.append_nil _
      rw [hnil, breakOn_crlf_eq_none m.cr_notMem_statusLine]
      exact (bind_pure _).symm
  | cons f fields =>
      have hcut : m.statusLine ++ fieldLines (f :: fields) =
          m.statusLine ++ crlf ++ (f.line ++ fieldLines fields) := by
        simp only [fieldLines_cons, List.append_assoc]
      have hfuel : fields.length < (f.line ++ fieldLines fields).length := by
        have hlines := length_le_length_flatMap fields fun f ↦ (by simp [crlf] : 0 < (crlf ++ f.line).length)
        rw [← fieldLines] at hlines
        simp only [List.length_append, Field.line, List.length_singleton]
        omega
      rw [hcut, breakOn_crlf m.cr_notMem_statusLine]
      exact bind_congr fun h₀ ↦ parseFields_line f fields h₀ hfuel

/-- The headers of a message give its status and its framing, if they are accepted. -/
theorem parseHeaders_head {h : Headers} (hok : parseHeaders m.head = .ok h) :
    h.status = m.status ∧ h.framing = m.body.framing := by
  rw [parseHeaders_eq] at hok
  obtain ⟨h₀, hline, hfold⟩ := Except.bind_eq_ok_iff.mp hok
  obtain ⟨hstatus₀, hchunked₀, hlength₀⟩ := m.parseStatusLine_statusLine hline
  rw [foldlM_applyField] at hfold
  obtain ⟨hstatus, hchunked, hlength, hnumbers⟩ := applyHeaders_eq_ok hfold
  rw [lastTransferEncoding_map] at hchunked
  rw [hlength₀, Option.none_or] at hlength
  have hannounce := m.announce
  have hnot : ¬ AnnounceChunked m.fields → h.chunked = false := by
    intro hno
    rw [hchunked]
    cases hcoding : lastCoding m.fields with
    | none => exact hchunked₀
    | some f =>
        rw [Option.map_some, Option.map_some, Option.getD_some, ← Bool.not_eq_true]
        exact fun hmentions ↦ hno ⟨f, hcoding, f.icontains_chunked_iff.mp hmentions⟩
  refine ⟨hstatus.trans hstatus₀, ?_⟩
  rw [Headers.framing, hstatus, hstatus₀]
  cases hbody : m.body with
  | length content =>
      rw [hbody] at hannounce
      obtain ⟨hcoding, hsome, hall⟩ := hannounce
      rw [hcoding] at hchunked
      rw [hchunked, hlength, announcedLength_map_eq_some hall hsome hnumbers]
      simp only [Option.map_none, Option.getD_none, hchunked₀]
      rfl
  | chunked chunks last =>
      rw [hbody] at hannounce
      obtain ⟨f, hcoding, hmentions⟩ := hannounce
      rw [Option.mem_def.mp hcoding, Option.map_some, Option.map_some, Option.getD_some] at hchunked
      have hmentions' : f.header.mentionsChunked = true := f.icontains_chunked_iff.mpr hmentions
      rw [hchunked, hmentions', if_pos rfl]
      rfl
  | bodyless =>
      rw [hbody] at hannounce
      obtain ⟨hno, hnone, hstatus⟩ := hannounce
      rw [hnot hno, hlength, announcedLength_map_eq_none hnone]
      simp only [status, hstatus]
      rfl
  | close content =>
      rw [hbody] at hannounce
      obtain ⟨hno, hnone, hstatus⟩ := hannounce
      rw [hnot hno, hlength, announcedLength_map_eq_none hnone]
      simp only [status, hstatus]
      rfl

end Message

/-! ## Chunked bodies -/

/-- A size line: hexadecimal digits, then possibly extensions. -/
theorem parseChunkSize_append {size ext : Bytes} (hne : size ≠ []) (hsize : ∀ c ∈ size, isHex c = true)
    (hext : ext = [] ∨ ext.head? = some ';'.toUInt8) :
    parseChunkSize (size ++ ext) =
      if 2 ^ 64 ≤ ofDigits 16 size then none else some (ofDigits 16 size) := by
  have hhex : ∀ c ∈ size, c ≠ ';'.toUInt8 ∧ isBlank c = false := by
    intro c hc
    have hall : ∀ c : UInt8, isHex c = true → c ≠ ';'.toUInt8 ∧ isBlank c = false := by
      refine Bytes.forall_byte ?_
      decide
    exact hall c (hsize c hc)
  have htake : (size ++ ext).takeWhile (· ≠ ';'.toUInt8) = size := by
    rw [List.takeWhile_append_of_pos fun c hc ↦ decide_eq_true (hhex c hc).1]
    rcases hext with rfl | hext
    · exact List.append_nil size
    · obtain ⟨t, rfl⟩ : ∃ t, ext = ';'.toUInt8 :: t := by
        cases ext with
        | nil => cases hext
        | cons c t =>
            cases hext
            exact ⟨t, rfl⟩
      rw [List.takeWhile_cons_of_neg (by decide), List.append_nil]
  have htrim : trim size = size := by
    have h := trim_append (l := []) (r := []) nofun nofun
      (fun c hc ↦ (hhex c (List.mem_of_mem_head? hc)).2)
      (fun c hc ↦ (hhex c (List.mem_of_mem_getLast? hc)).2)
    rwa [List.nil_append, List.append_nil] at h
  rw [parseChunkSize, htake, htrim, parseWhole_digits hne hsize]

theorem cr_notMem_sizeLine {size ext : Bytes} (hsize : ∀ c ∈ size, isHex c = true)
    (hext : ∀ c ∈ ext, isText c = true) : '\r'.toUInt8 ∉ size ++ ext := by
  intro hmem
  rcases List.mem_append.mp hmem with hmem | hmem
  · exact absurd (hsize _ hmem) (by decide)
  · exact absurd (hext _ hmem) (by decide)

/-- The trailers are passed over, up to the empty line. -/
theorem skipTrailers_flatMap {trailers : List Bytes} (hne : ∀ l ∈ trailers, l ≠ [])
    (htext : ∀ l ∈ trailers, ∀ c ∈ l, isText c = true) {fuel : Nat} (hfuel : trailers.length < fuel) :
    skipTrailers fuel ((trailers.flatMap fun l ↦ l ++ crlf) ++ crlf) = some [] := by
  induction trailers generalizing fuel with
  | nil =>
      obtain ⟨fuel, rfl⟩ : ∃ n, fuel = n + 1 := ⟨fuel - 1, by omega⟩
      rfl
  | cons l trailers ih =>
      obtain ⟨fuel, rfl⟩ : ∃ n, fuel = n + 1 := ⟨fuel - 1, by omega⟩
      have hcr : '\r'.toUInt8 ∉ l := fun hmem ↦
        absurd (htext l List.mem_cons_self _ hmem) (by decide)
      have hcut : ((l :: trailers).flatMap fun l ↦ l ++ crlf) ++ crlf =
          l ++ crlf ++ ((trailers.flatMap fun l ↦ l ++ crlf) ++ crlf) := by
        simp only [List.flatMap_cons, List.append_assoc]
      rw [skipTrailers, hcut, breakOn_crlf hcr]
      dsimp only
      rw [if_neg (hne l List.mem_cons_self)]
      exact ih (fun l hl ↦ hne l (List.mem_cons_of_mem _ hl))
        (fun l hl ↦ htext l (List.mem_cons_of_mem _ hl)) (Nat.lt_of_succ_lt_succ hfuel)

theorem LastChunk.breakOn_encode (last : LastChunk) :
    breakOn crlf last.encode = some (last.size ++ last.ext, (last.trailers.flatMap fun l ↦ l ++ crlf) ++ crlf) := by
  have hcut : last.encode =
      (last.size ++ last.ext) ++ crlf ++ ((last.trailers.flatMap fun l ↦ l ++ crlf) ++ crlf) := by
    simp only [LastChunk.encode, List.append_assoc]
  rw [hcut, breakOn_crlf (cr_notMem_sizeLine last.size_hex last.ext_text)]

theorem LastChunk.parseChunkSize_eq (last : LastChunk) : parseChunkSize (last.size ++ last.ext) = some 0 := by
  rw [parseChunkSize_append last.size_ne last.size_hex last.ext_start, last.size_eq]
  rfl

theorem LastChunk.decode (last : LastChunk) (fuel : Nat) (body : Bytes) :
    decodeChunked (fuel + 1) last.encode body = .ok (some (body, [])) := by
  have hfuel : last.trailers.length <
      ((last.trailers.flatMap fun l ↦ l ++ crlf) ++ crlf).length + 1 := by
    have hlen := length_le_length_flatMap last.trailers fun l ↦ (by simp [crlf] : 0 < (l ++ crlf).length)
    rw [List.length_append]
    omega
  rw [decodeChunked_last last.breakOn_encode last.parseChunkSize_eq,
    skipTrailers_flatMap last.trailers_ne last.trailers_text hfuel]
  rfl

namespace Chunk

variable (c : Chunk)

theorem length_encode_pos : 0 < c.encode.length := by
  have hcrlf : crlf.length = 2 := rfl
  simp only [encode, List.length_append]
  omega

theorem length_ne_zero : c.data.length ≠ 0 := fun h ↦ c.data_ne (List.length_eq_zero_iff.mp h)

theorem size_ne : c.size ≠ [] := by
  intro hnil
  have hsize := c.size_eq
  rw [hnil] at hsize
  exact c.length_ne_zero hsize.symm

/-- The line with the size of a chunk. -/
theorem breakOn_encode (rest : Bytes) :
    breakOn crlf (c.encode ++ rest) = some (c.size ++ c.ext, c.data ++ crlf ++ rest) := by
  have hcut : c.encode ++ rest = (c.size ++ c.ext) ++ crlf ++ (c.data ++ crlf ++ rest) := by
    simp only [encode, List.append_assoc]
  rw [hcut, breakOn_crlf (cr_notMem_sizeLine c.size_hex c.ext_text)]

theorem parseChunkSize_eq :
    parseChunkSize (c.size ++ c.ext) = if 2 ^ 64 ≤ c.data.length then none else some c.data.length := by
  rw [parseChunkSize_append c.size_ne c.size_hex c.ext_start, c.size_eq]

/-- A chunk is put to the body, or the client finds it too large. -/
theorem decode (fuel : Nat) (rest body : Bytes) :
    (∃ e, decodeChunked (fuel + 1) (c.encode ++ rest) body = .error e) ∨
      decodeChunked (fuel + 1) (c.encode ++ rest) body = decodeChunked fuel rest (body ++ c.data) := by
  have hsize := c.parseChunkSize_eq
  by_cases hbits : 2 ^ 64 ≤ c.data.length
  · rw [if_pos hbits] at hsize
    refine .inl ⟨ascii "Malformed chunk size", ?_⟩
    rw [decodeChunked, c.breakOn_encode]
    dsimp only
    rw [hsize]
  · rw [if_neg hbits] at hsize
    by_cases hfits : FitsBody body c.data.length
    · have hlen : c.data.length + 2 ≤ (c.data ++ crlf ++ rest).length := by
        have hcrlf : crlf.length = 2 := rfl
        simp only [List.length_append]
        omega
      have hcrlf : ((c.data ++ crlf ++ rest).drop c.data.length).take 2 = crlf := by
        rw [List.append_assoc, List.drop_left]
        rfl
      have hdrop : (c.data ++ crlf ++ rest).drop (c.data.length + 2) = rest := by
        rw [List.append_assoc, ← List.drop_drop, List.drop_left]
        rfl
      have htake : (c.data ++ crlf ++ rest).take c.data.length = c.data := by
        rw [List.append_assoc, List.take_left]
      refine .inr ?_
      rw [decodeChunked_chunk (c.breakOn_encode rest) hsize c.length_ne_zero hfits hlen hcrlf, hdrop, htake]
    · exact .inl ⟨_, decodeChunked_large (c.breakOn_encode rest) hsize c.length_ne_zero hfits⟩

end Chunk

/-- The chunks are put together, unless the client finds them too large. -/
theorem decodeChunked_encode (chunks : List Chunk) (last : LastChunk) (body : Bytes) {fuel : Nat}
    (hfuel : chunks.length < fuel) :
    (∃ e, decodeChunked fuel (chunks.flatMap Chunk.encode ++ last.encode) body = .error e) ∨
    decodeChunked fuel (chunks.flatMap Chunk.encode ++ last.encode) body =
      .ok (some (body ++ chunks.flatMap Chunk.data, [])) := by
  induction chunks generalizing body fuel with
  | nil =>
      obtain ⟨fuel, rfl⟩ : ∃ n, fuel = n + 1 := ⟨fuel - 1, by omega⟩
      refine .inr ?_
      rw [List.flatMap_nil, List.flatMap_nil, List.nil_append, List.append_nil, last.decode]
  | cons c chunks ih =>
      obtain ⟨fuel, rfl⟩ : ∃ n, fuel = n + 1 := ⟨fuel - 1, by omega⟩
      rw [List.flatMap_cons, List.flatMap_cons, List.append_assoc, ← List.append_assoc body]
      rcases c.decode fuel (chunks.flatMap Chunk.encode ++ last.encode) body with herror | hdecode
      · exact .inl herror
      · rw [hdecode]
        exact ih (body ++ c.data) (Nat.lt_of_succ_lt_succ hfuel)

/-! ## The parser on a message -/

namespace Message

variable (m : Message)

/-- **The parser finds the message.**  On the bytes of a message whose body does not run to the end of the
connection it returns exactly that message, or it reports an error. -/
theorem parseHttpResponse_encode {p : ParsedHttpResponse} (hclose : m.body.framing ≠ .close)
    (hparse : parseHttpResponse m.encode false = .ok (some p)) :
    m.Is p.response ∧ p.bytesConsumed = m.encode.length := by
  obtain ⟨head, rest, h, left, hbreak, -, hheaders, hbody, hconsumed⟩ :=
    parseHttpResponse_eq_some.mp hparse
  rw [encode, m.breakOn_head] at hbreak
  cases hbreak
  obtain ⟨hstatus, hframing⟩ := m.parseHeaders_head hheaders
  rw [parseBody, hframing] at hbody
  suffices p.response.status = h.status ∧ p.response.body = m.body.content ∧ left = 0 by
    obtain ⟨hs, hb, rfl⟩ := this
    exact ⟨⟨hs.trans hstatus, hb⟩, hconsumed⟩
  cases hm : m.body with
  | length content =>
      simp only [hm, Body.framing, Body.encode] at hbody
      split_ifs at hbody with hmax
      · exact absurd ‹_› (lt_irrefl _)
      · simp only [Except.ok.injEq, Option.some.injEq, Prod.mk.injEq] at hbody
        obtain ⟨hr, hleft⟩ := hbody
        rw [← hr, List.take_length]
        exact ⟨rfl, rfl, by omega⟩
  | chunked chunks last =>
      simp only [hm, Body.framing, Body.encode] at hbody
      obtain ⟨decoded, hdecoded, hbody⟩ := Except.bind_eq_ok_iff.mp hbody
      have hfuel : chunks.length < (chunks.flatMap Chunk.encode ++ last.encode).length + 1 := by
        have := length_le_length_flatMap chunks Chunk.length_encode_pos
        rw [List.length_append]
        omega
      rcases decodeChunked_encode chunks last [] hfuel with ⟨e, herror⟩ | hok
      · rw [herror] at hdecoded
        cases hdecoded
      · rw [hok] at hdecoded
        cases hdecoded
        simp only [Except.ok.injEq, Option.some.injEq, Prod.mk.injEq] at hbody
        obtain ⟨hr, hleft⟩ := hbody
        rw [← hr]
        exact ⟨rfl, rfl, hleft.symm⟩
  | bodyless =>
      simp only [hm, Body.framing, Body.encode, Except.ok.injEq, Option.some.injEq, Prod.mk.injEq] at hbody
      obtain ⟨hr, hleft⟩ := hbody
      rw [← hr]
      exact ⟨rfl, rfl, hleft.symm⟩
  | close content =>
      rw [hm] at hclose
      exact absurd rfl hclose

/-- A body that runs to the end of the connection is not complete before. -/
theorem parseHttpResponse_encode_close (hclose : m.body.framing = .close) (p : ParsedHttpResponse) :
    parseHttpResponse m.encode false ≠ .ok (some p) := by
  intro hparse
  obtain ⟨head, rest, h, left, hbreak, -, hheaders, hbody, -⟩ := parseHttpResponse_eq_some.mp hparse
  rw [encode, m.breakOn_head] at hbreak
  cases hbreak
  rw [parseBody, (m.parseHeaders_head hheaders).2, hclose] at hbody
  cases hbody

/-- What has arrived of a message is complete at the end of the stream only if the body runs to the end of the
connection; then what has arrived of the body is the body. -/
theorem parseHttpResponse_prefix_eof {d t : Bytes} (hd : d ++ t = m.encode) {p : ParsedHttpResponse}
    (hmore : parseHttpResponse d false = .ok none) (hparse : parseHttpResponse d true = .ok (some p)) :
    m.body.framing = .close ∧ p.response.keepAlive = false ∧ p.response.status = m.status ∧
      p.response.body ++ t = m.body.content := by
  obtain ⟨head, rest, h, hbreak, hheaders, hframing, hr⟩ := parseHttpResponse_eof hmore hparse
  have hbreak' := breakOn_append hbreak t
  rw [hd, encode, m.breakOn_head] at hbreak'
  rw [Option.some.injEq, Prod.mk.injEq] at hbreak'
  obtain ⟨rfl, hrest⟩ := hbreak'
  obtain ⟨hstatus, hframing'⟩ := m.parseHeaders_head hheaders
  rw [hframing'] at hframing
  refine ⟨hframing, by rw [hr], by rw [hr]; exact hstatus, ?_⟩
  rw [hr, ← hrest]
  cases hm : m.body with
  | close content => rfl
  | length content | chunked chunks last | bodyless =>
      rw [hm] at hframing
      cases hframing

end Message

end KalshiClient.Http
