import KalshiClient.Http.Response

/-!
# Header blocks

`parse_headers` goes over the lines of a header block and keeps of them what it needs.  Here a header block is the list
of its headers (`headerList`), and `parseHeaders_says` reads off that list what `parse_headers` has kept: the last
transfer coding decides whether the body is chunked, and the first length is the length.
-/

namespace KalshiClient.Http

open Bytes Split

/-- A header: its name, and its value without the blanks around it. -/
abbrev Header := Bytes × Bytes

namespace Header

/-- The header has the given name, in whatever case. -/
def isNamed (name : Bytes) (f : Header) : Bool := iequals f.1 name

/-- The number in a `Content-Length`. -/
def number (f : Header) : Option Nat := parseWhole isDigit 10 64 f.2

/-- The value mentions the chunked coding, alone or as a part of another word. -/
def mentionsChunked (f : Header) : Bool := icontains f.2 (ascii "chunked")

end Header

/-- A header line taken apart. -/
def parseLine (line : Bytes) : Option Header :=
  match breakOn [':'.toUInt8] line with
  | none | some ([], _) => none
  | some (name, value) => some (name, trim value)

/-- The lines of a text; it has fewer than it has bytes. -/
def lines : Nat → Bytes → List Bytes
  | 0, _ => []
  | fuel + 1, s =>
    if s = [] then []
    else
      match breakOn crlf s with
      | some (line, rest) => line :: lines fuel rest
      | none => [s]

/-- The headers of a header block. -/
def headerList (head : Bytes) : List Header :=
  match breakOn crlf head with
  | some (_, rest) => (lines rest.length rest).filterMap parseLine
  | none => []

/-- The length the headers announce. -/
def announcedLength (headers : List Header) : Option Nat :=
  (headers.find? (Header.isNamed (ascii "content-length"))).bind Header.number

/-- The last header that names a transfer coding. -/
def lastTransferEncoding (headers : List Header) : Option Header :=
  (headers.filter (Header.isNamed (ascii "transfer-encoding"))).getLast?

/-- One header after the other. -/
def applyHeaders (headers : List Header) (h : Headers) : Except Bytes Headers :=
  headers.foldlM (fun h f ↦ applyField h f.1 f.2) h

/-! ## Lines -/

theorem breakOn_crlf {line : Bytes} (h : '\r'.toUInt8 ∉ line) (rest : Bytes) :
    breakOn crlf (line ++ crlf ++ rest) = some (line, rest) := breakOn_eq_some h rest

theorem breakOn_crlf_eq_none {line : Bytes} (h : '\r'.toUInt8 ∉ line) : breakOn crlf line = none := by
  have hskip : breakOn crlf (line ++ []) = (breakOn crlf []).map fun p ↦ (line ++ p.1, p.2) :=
    breakOn_of_notMem h []
  rwa [List.append_nil] at hskip

/-! ## One header -/

theorem Header.not_coding_of_length {f : Header} (h : f.isNamed (ascii "content-length") = true) :
    f.isNamed (ascii "transfer-encoding") = false := by
  simp only [isNamed, iequals, decide_eq_true_eq, decide_eq_false_iff_not] at h ⊢
  rw [h]
  decide

/-- What one header can do. -/
theorem applyField_cases {f : Header} {h h' : Headers} (hok : applyField h f.1 f.2 = .ok h') :
    (f.isNamed (ascii "content-length") = true ∧ f.isNamed (ascii "transfer-encoding") = false ∧
      ∃ len, f.number = some len ∧ (∀ n, h.contentLength = some n → n = len) ∧
        h' = { h with contentLength := some len }) ∨
    (f.isNamed (ascii "content-length") = false ∧ f.isNamed (ascii "transfer-encoding") = true ∧
      h' = { h with chunked := f.mentionsChunked }) ∨
    (f.isNamed (ascii "content-length") = false ∧ f.isNamed (ascii "transfer-encoding") = false ∧
      ∃ k, h' = { h with connectionKeepAlive := k }) := by
  have hnamed (name : Bytes) : iequals f.1 name = f.isNamed name := rfl
  rw [applyField, hnamed (ascii "content-length"), hnamed (ascii "transfer-encoding")] at hok
  cases hlength : f.isNamed (ascii "content-length") with
  | true =>
      rw [if_pos hlength] at hok
      refine .inl ⟨rfl, Header.not_coding_of_length hlength, ?_⟩
      obtain hnone | ⟨len, hlen⟩ := Option.eq_none_or_eq_some (parseWhole isDigit 10 64 f.2)
      · rw [hnone] at hok
        cases hok
      · rw [hlen] at hok
        dsimp only at hok
        split_ifs at hok with hconflict
        cases hok
        refine ⟨len, hlen, fun n hn ↦ ?_, rfl⟩
        rw [hn, Option.any_some, decide_eq_true_eq, not_not] at hconflict
        exact hconflict
  | false =>
      rw [hlength, if_neg Bool.false_ne_true] at hok
      refine .inr ?_
      cases hcoding : f.isNamed (ascii "transfer-encoding") with
      | true =>
          rw [if_pos hcoding] at hok
          cases hok
          exact .inl ⟨rfl, rfl, rfl⟩
      | false =>
          rw [hcoding, if_neg Bool.false_ne_true] at hok
          refine .inr ⟨rfl, rfl, ?_⟩
          split_ifs at hok <;> cases hok
          · exact ⟨_, rfl⟩
          · exact ⟨_, rfl⟩
          · exact ⟨h.connectionKeepAlive, rfl⟩
          · exact ⟨h.connectionKeepAlive, rfl⟩

/-! ## All headers -/

theorem lastTransferEncoding_cons (f : Header) (headers : List Header) :
    lastTransferEncoding (f :: headers) =
      (lastTransferEncoding headers).or (if f.isNamed (ascii "transfer-encoding") then some f else none) := by
  rw [lastTransferEncoding, lastTransferEncoding, List.filter_cons]
  cases f.isNamed (ascii "transfer-encoding") with
  | true =>
      rw [if_pos rfl, if_pos rfl, List.getLast?_cons]
      cases (headers.filter _).getLast? <;> rfl
  | false => rw [if_neg Bool.false_ne_true, if_neg Bool.false_ne_true, Option.or_none]

theorem announcedLength_cons (f : Header) (headers : List Header) :
    announcedLength (f :: headers) =
      if f.isNamed (ascii "content-length") then f.number else announcedLength headers := by
  rw [announcedLength, List.find?_cons]
  cases f.isNamed (ascii "content-length") with
  | true => rfl
  | false => rfl

/-- The status is not touched, the last transfer coding decides, and the first length stays. -/
theorem applyHeaders_eq_ok {headers : List Header} {h h' : Headers} (hok : applyHeaders headers h = .ok h') :
    h'.status = h.status ∧
    h'.chunked = ((lastTransferEncoding headers).map Header.mentionsChunked).getD h.chunked ∧
    h'.contentLength = h.contentLength.or (announcedLength headers) ∧
    ∀ f ∈ headers, f.isNamed (ascii "content-length") = true → ∃ len, f.number = some len := by
  induction headers generalizing h with
  | nil =>
      cases hok
      exact ⟨rfl, rfl, Option.or_none.symm, List.forall_mem_nil _⟩
  | cons f headers ih =>
      rw [applyHeaders, List.foldlM_cons] at hok
      obtain ⟨h₁, hf, hok⟩ := Except.bind_eq_ok_iff.mp hok
      obtain ⟨hstatus, hchunked, hlength, hnumbers⟩ := ih hok
      rw [hstatus, hchunked, hlength, lastTransferEncoding_cons, announcedLength_cons, List.forall_mem_cons]
      rcases applyField_cases hf with ⟨hnamed, hcoding, len, hlen, hsame, rfl⟩ | ⟨hnamed, hcoding, rfl⟩ |
        ⟨hnamed, hcoding, k, rfl⟩
      · rw [hnamed, hcoding, if_pos rfl, if_neg Bool.false_ne_true, Option.or_none, hlen]
        refine ⟨rfl, rfl, ?_, fun _ ↦ ⟨len, rfl⟩, hnumbers⟩
        cases hn : h.contentLength with
        | none => rfl
        | some n =>
            rw [hsame n hn]
            rfl
      · rw [hnamed, hcoding, if_pos rfl, if_neg Bool.false_ne_true]
        refine ⟨rfl, ?_, rfl, fun h ↦ absurd h Bool.false_ne_true, hnumbers⟩
        cases lastTransferEncoding headers <;> rfl
      · rw [hnamed, hcoding, if_neg Bool.false_ne_true, if_neg Bool.false_ne_true, Option.or_none]
        exact ⟨rfl, rfl, rfl, fun h ↦ absurd h Bool.false_ne_true, hnumbers⟩

/-! ## The header block -/

theorem parseField_of_parseLine {line : Bytes} {h h' : Headers} (hok : parseField h line = .ok h') :
    ∃ f, parseLine line = some f ∧ applyField h f.1 f.2 = .ok h' := by
  rw [parseField] at hok
  rw [parseLine]
  obtain hnone | ⟨⟨name, value⟩, hbreak⟩ := Option.eq_none_or_eq_some (breakOn [':'.toUInt8] line)
  · rw [hnone] at hok
    cases hok
  · rw [hbreak] at hok ⊢
    cases name with
    | nil => cases hok
    | cons c name => exact ⟨(c :: name, trim value), rfl, hok⟩

/-- The loop over the lines goes from header to header. -/
theorem applyHeaders_of_parseFields {fuel : Nat} {s : Bytes} {h h' : Headers} (hok : parseFields fuel h s = .ok h') :
    applyHeaders ((lines fuel s).filterMap parseLine) h = .ok h' := by
  have hcons {line : Bytes} {rest : List Bytes} {f : Header} (hf : parseLine line = some f) :
      (line :: rest).filterMap parseLine = f :: rest.filterMap parseLine := List.filterMap_cons_some hf
  induction fuel generalizing h s with
  | zero => exact hok
  | succ fuel ih =>
      rw [parseFields] at hok
      rw [lines]
      split_ifs at hok ⊢ with hs
      · exact hok
      · obtain hnone | ⟨⟨line, rest⟩, hbreak⟩ := Option.eq_none_or_eq_some (breakOn crlf s)
        · rw [hnone] at hok ⊢
          obtain ⟨f, hf, hok⟩ := parseField_of_parseLine hok
          dsimp only
          rw [hcons hf, applyHeaders, List.foldlM_cons, hok]
          rfl
        · rw [hbreak] at hok ⊢
          obtain ⟨h₁, hline, hok⟩ := Except.bind_eq_ok_iff.mp hok
          obtain ⟨f, hf, hline⟩ := parseField_of_parseLine hline
          dsimp only
          rw [hcons hf, applyHeaders, List.foldlM_cons, hline, Except.bind_ok]
          exact ih hok

/-- The status line says nothing about the body. -/
theorem parseStatusLine_eq_ok {line : Bytes} {h : Headers} (hok : parseStatusLine line = .ok h) :
    h.chunked = false ∧ h.contentLength = none := by
  rw [parseStatusLine] at hok
  split_ifs at hok
  split at hok
  · split_ifs at hok
    cases hok
    exact ⟨rfl, rfl⟩
  · cases hok

/-- What `parse_headers` keeps of a header block. -/
theorem parseHeaders_says {head : Bytes} {h : Headers} (hok : parseHeaders head = .ok h) :
    h.chunked = (lastTransferEncoding (headerList head)).any Header.mentionsChunked ∧
    h.contentLength = announcedLength (headerList head) := by
  have hboth {headers : List Header} {line : Bytes} {h₀ : Headers} (hline : parseStatusLine line = .ok h₀)
      (hheaders : applyHeaders headers h₀ = .ok h) :
      h.chunked = (lastTransferEncoding headers).any Header.mentionsChunked ∧
      h.contentLength = announcedLength headers := by
    obtain ⟨-, hchunked, hlength, -⟩ := applyHeaders_eq_ok hheaders
    obtain ⟨hchunked₀, hlength₀⟩ := parseStatusLine_eq_ok hline
    rw [hchunked, hlength, hchunked₀, hlength₀]
    refine ⟨?_, rfl⟩
    cases lastTransferEncoding headers <;> rfl
  rw [parseHeaders] at hok
  rw [headerList]
  obtain hnone | ⟨⟨statusLine, rest⟩, hbreak⟩ := Option.eq_none_or_eq_some (breakOn crlf head)
  · rw [hnone] at hok ⊢
    exact hboth hok rfl
  · rw [hbreak] at hok ⊢
    obtain ⟨h₀, hline, hok⟩ := Except.bind_eq_ok_iff.mp hok
    exact hboth hline (applyHeaders_of_parseFields hok)

end KalshiClient.Http
