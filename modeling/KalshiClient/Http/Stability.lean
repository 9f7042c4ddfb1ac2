import KalshiClient.Base.Incremental
import KalshiClient.Http.Client

/-!
# Responses that arrive in pieces

`parse_http_response` is called with everything received so far, again and again.  A response it has found stays
found, and was found in its own bytes alone (`parseHttpResponse_take`).

Errors are another matter.  The limits on the header block and on the line with the size of a chunk are tested
differently before and after the end of the line is seen, so a response may be refused because of where a read ended.
`CutShort` says when.
-/

namespace KalshiClient.Http

open Bytes Split

/-! ## The rounds of `decode_chunked` -/

section Rounds

variable {fuel : Nat} {body s line data rest : Bytes}

/-- The data begin with a whole chunk. -/
structure StartsChunk (body s line data rest : Bytes) : Prop where
  breakOn_eq : breakOn crlf s = some (line, data ++ crlf ++ rest)
  size : parseChunkSize line = some data.length
  ne : data ≠ []
  fits : FitsBody body data.length

/-- The data begin with something that is no chunk, or too large a chunk. -/
def Refused (body s : Bytes) : Prop :=
  ∃ line rest, breakOn crlf s = some (line, rest) ∧
    (parseChunkSize line = none ∨
      ∃ n, parseChunkSize line = some n ∧ n ≠ 0 ∧
        (¬ FitsBody body n ∨ n + 2 ≤ rest.length ∧ (rest.drop n).take 2 ≠ crlf))

/-- The data begin with the size of a chunk that is acceptable so far and not all there. -/
def Short (body s : Bytes) : Prop :=
  ∃ line rest n, breakOn crlf s = some (line, rest) ∧ parseChunkSize line = some n ∧ n ≠ 0 ∧ FitsBody body n ∧
    rest.length < n + 2

/-- What a round of `decode_chunked` can find. -/
inductive ChunkRound (body s : Bytes) : Prop
  | unterminated (h : breakOn crlf s = none)
  | refused (h : Refused body s)
  | short (h : Short body s)
  | last (line rest : Bytes) (hbreak : breakOn crlf s = some (line, rest)) (hsize : parseChunkSize line = some 0)
  | chunk (line data rest : Bytes) (h : StartsChunk body s line data rest)

theorem chunkRound (body s : Bytes) : ChunkRound body s := by
  obtain hbreak | ⟨⟨line, rest⟩, hbreak⟩ := Option.eq_none_or_eq_some (breakOn crlf s)
  · exact .unterminated hbreak
  obtain hsize | ⟨n, hsize⟩ := Option.eq_none_or_eq_some (parseChunkSize line)
  · exact .refused ⟨line, rest, hbreak, .inl hsize⟩
  by_cases hn : n = 0
  · exact .last line rest hbreak (hn ▸ hsize)
  by_cases hfits : FitsBody body n
  · by_cases hshort : rest.length < n + 2
    · exact .short ⟨line, rest, n, hbreak, hsize, hn, hfits, hshort⟩
    by_cases hcrlf : (rest.drop n).take 2 = crlf
    · have hlength : (rest.take n).length = n := by
        rw [List.length_take]
        omega
      have hrest : rest = rest.take n ++ crlf ++ rest.drop (n + 2) := by
        rw [← hcrlf, ← List.drop_drop, List.append_assoc, List.take_append_drop, List.take_append_drop]
      refine .chunk line (rest.take n) (rest.drop (n + 2)) ⟨?_, ?_, ?_, ?_⟩
      · rw [← hrest, hbreak]
      · rw [hlength, hsize]
      · exact List.length_pos_iff.mp (hlength.symm ▸ Nat.pos_of_ne_zero hn)
      · exact hlength.symm ▸ hfits
    · exact .refused ⟨line, rest, hbreak, .inr ⟨n, hsize, hn, .inr ⟨Nat.not_lt.mp hshort, hcrlf⟩⟩⟩
  · exact .refused ⟨line, rest, hbreak, .inr ⟨n, hsize, hn, .inl hfits⟩⟩

theorem decodeChunked_unterminated (h : breakOn crlf s = none) :
    decodeChunked (fuel + 1) s body =
      if s.length > 1024 then .error (ascii "Chunk size line too long") else .ok none := by
  rw [decodeChunked, h]

theorem decodeChunked_refused (h : Refused body s) : ∃ e, decodeChunked (fuel + 1) s body = .error e := by
  obtain ⟨line, rest, hbreak, hsize | ⟨n, hsize, hn, hfits | ⟨hlen, hcrlf⟩⟩⟩ := h
  · refine ⟨ascii "Malformed chunk size", ?_⟩
    rw [decodeChunked, hbreak]
    dsimp only
    rw [hsize]
  · exact ⟨_, decodeChunked_large hbreak hsize hn hfits⟩
  · rw [decodeChunked, hbreak]
    dsimp only
    rw [hsize]
    dsimp only
    rw [if_neg hn, if_neg (Nat.not_lt.mpr hlen), if_pos hcrlf]
    split_ifs
    · exact ⟨_, rfl⟩
    · exact ⟨_, rfl⟩

theorem decodeChunked_short (h : Short body s) : decodeChunked (fuel + 1) s body = .ok none := by
  obtain ⟨line, rest, n, hbreak, hsize, hn, hfits, hshort⟩ := h
  have hmax : ¬ (decide (n > kMaxHttpBodyBytes) || decide (body.length + n > kMaxHttpBodyBytes)) = true := by
    simp only [Bool.or_eq_true, decide_eq_true_eq, not_or, not_lt]
    exact hfits
  rw [decodeChunked, hbreak]
  dsimp only
  rw [hsize]
  dsimp only
  rw [if_neg hn, if_neg hmax, if_pos hshort]

theorem StartsChunk.decodeChunked_eq (h : StartsChunk body s line data rest) :
    decodeChunked (fuel + 1) s body = decodeChunked fuel rest (body ++ data) := by
  have hcrlf : crlf.length = 2 := rfl
  have hlen : data.length + 2 ≤ (data ++ crlf ++ rest).length := by
    rw [List.length_append, List.length_append, hcrlf]
    exact Nat.le_add_right _ _
  have hpos : data.length ≠ 0 := fun h0 ↦ h.ne (List.length_eq_zero_iff.mp h0)
  have htake : ((data ++ crlf ++ rest).drop data.length).take 2 = crlf := by
    rw [List.append_assoc, List.drop_left]
    rfl
  have hdrop : (data ++ crlf ++ rest).drop (data.length + 2) = rest := by
    rw [← hcrlf, ← List.length_append, List.drop_left]
  rw [decodeChunked_chunk h.breakOn_eq h.size hpos h.fits hlen htake, hdrop, List.append_assoc data, List.take_left]

/-- A chunk takes up some of the data. -/
theorem StartsChunk.length_lt (h : StartsChunk body s line data rest) : rest.length + 2 ≤ s.length := by
  have hcrlf : crlf.length = 2 := rfl
  rw [eq_append_of_breakOn h.breakOn_eq]
  simp only [List.length_append]
  omega

end Rounds

/-! ## Further bytes -/

section Append

variable {body s line data rest : Bytes} (t : Bytes)

theorem StartsChunk.append (h : StartsChunk body s line data rest) : StartsChunk body (s ++ t) line data (rest ++ t) :=
  ⟨by rw [breakOn_append h.breakOn_eq, List.append_assoc _ rest], h.size, h.ne, h.fits⟩

/-- Nor does it depend on what follows. -/
theorem StartsChunk.replace (h : StartsChunk body s line data rest) :
    StartsChunk body (line ++ crlf ++ (data ++ crlf ++ t)) line data t :=
  ⟨breakOn_replace h.breakOn_eq _, h.size, h.ne, h.fits⟩

theorem Refused.append (h : Refused body s) : Refused body (s ++ t) := by
  obtain ⟨line, rest, hbreak, hwhy⟩ := h
  refine ⟨line, rest ++ t, breakOn_append hbreak t, hwhy.imp id ?_⟩
  rintro ⟨n, hsize, hn, hwhy⟩
  refine ⟨n, hsize, hn, hwhy.imp id ?_⟩
  rintro ⟨hlen, hcrlf⟩
  refine ⟨?_, ?_⟩
  · rw [List.length_append]
    omega
  · rwa [Incremental.slice_append (by omega)]

end Append

/-! ## A response is found in its own bytes -/

/-- The trailers end with their empty line. -/
theorem skipTrailers_self {fuel : Nat} {s left : Bytes} (h : skipTrailers fuel s = some left) :
    ∃ used, s = used ++ left ∧ ∀ {fuel'}, used.length < fuel' → skipTrailers fuel' used = some [] := by
  induction fuel generalizing s with
  | zero => cases h
  | succ fuel ih =>
      rw [skipTrailers] at h
      split at h
      · cases h
      · next line rest hbreak =>
          have hs : s = line ++ crlf ++ rest := eq_append_of_breakOn hbreak
          split_ifs at h with hline
          · cases h
            refine ⟨line ++ crlf, hs, fun {fuel'} hfuel ↦ ?_⟩
            obtain ⟨fuel', rfl⟩ : ∃ n, fuel' = n + 1 := ⟨fuel' - 1, by omega⟩
            rw [skipTrailers, breakOn_self hbreak]
            exact if_pos hline
          · obtain ⟨used, rfl, hused⟩ := ih h
            refine ⟨line ++ crlf ++ used, by rw [hs, List.append_assoc _ used], fun {fuel'} hfuel ↦ ?_⟩
            obtain ⟨fuel', rfl⟩ : ∃ n, fuel' = n + 1 := ⟨fuel' - 1, by omega⟩
            have hcrlf : crlf.length = 2 := rfl
            simp only [List.length_append] at hfuel
            rw [skipTrailers, breakOn_replace hbreak]
            dsimp only
            rw [if_neg hline]
            exact hused (by omega)

/-- A chunked body ends with its trailers. -/
theorem decodeChunked_self {fuel : Nat} {s body body' left : Bytes}
    (h : decodeChunked fuel s body = .ok (some (body', left))) :
    ∃ used, s = used ++ left ∧
      ∀ {fuel'}, used.length < fuel' → decodeChunked fuel' used body = .ok (some (body', [])) := by
  induction fuel generalizing s body with
  | zero => cases h
  | succ fuel ih =>
      cases chunkRound body s with
      | unterminated hnone =>
          rw [decodeChunked_unterminated hnone] at h
          split_ifs at h
          cases h
      | refused hrefused =>
          obtain ⟨e, he⟩ := decodeChunked_refused hrefused
          rw [he] at h
          cases h
      | short hshort =>
          rw [decodeChunked_short hshort] at h
          cases h
      | last line rest hbreak hsize =>
          rw [decodeChunked_last hbreak hsize, Except.ok.injEq] at h
          obtain ⟨left', hleft, hr⟩ := Option.map_eq_some_iff.mp h
          cases hr
          obtain ⟨used, rfl, hused⟩ := skipTrailers_self hleft
          refine ⟨line ++ crlf ++ used, ?_, fun {fuel'} hfuel ↦ ?_⟩
          · rw [List.append_assoc _ used]
            exact eq_append_of_breakOn hbreak
          · obtain ⟨fuel', rfl⟩ : ∃ n, fuel' = n + 1 := ⟨fuel' - 1, by omega⟩
            rw [decodeChunked_last (breakOn_replace hbreak used) hsize, hused (Nat.lt_succ_self _)]
            rfl
      | chunk line data rest hchunk =>
          rw [hchunk.decodeChunked_eq] at h
          obtain ⟨used, rfl, hused⟩ := ih h
          have hstart := hchunk.replace used
          have hlength := hstart.length_lt
          refine ⟨line ++ crlf ++ (data ++ crlf ++ used), ?_, fun {fuel'} hfuel ↦ ?_⟩
          · rw [List.append_assoc _ _ left, List.append_assoc _ used]
            exact eq_append_of_breakOn hchunk.breakOn_eq
          · obtain ⟨fuel', rfl⟩ : ∃ n, fuel' = n + 1 := ⟨fuel' - 1, by omega⟩
            rw [hstart.decodeChunked_eq]
            exact hused (by omega)

/-- A body is found in its own bytes. -/
theorem parseBody_self {h : Headers} {data : Bytes} {r : HttpResponse} {left : Nat}
    (hbody : parseBody h data false = .ok (some (r, left))) :
    left ≤ data.length ∧ parseBody h (data.take (data.length - left)) false = .ok (some (r, 0)) := by
  rw [parseBody] at hbody ⊢
  cases hframing : h.framing with
  | chunked =>
      simp only [hframing] at hbody ⊢
      obtain ⟨decoded, hdecoded, hresult⟩ := Except.bind_eq_ok_iff.mp hbody
      cases decoded with
      | none => cases hresult
      | some decoded =>
          obtain ⟨body, rest⟩ := decoded
          obtain ⟨used, rfl, hused⟩ := decodeChunked_self hdecoded
          cases hresult
          have hlength : (used ++ rest).length - rest.length = used.length := by
            rw [List.length_append, Nat.add_sub_cancel]
          refine ⟨?_, ?_⟩
          · rw [List.length_append]
            exact Nat.le_add_left _ _
          · rw [hlength, List.take_left, hused (Nat.lt_succ_self _)]
            rfl
  | length len =>
      simp only [hframing] at hbody ⊢
      split_ifs at hbody with hmax hshort
      · cases hbody
      · cases hbody
        have hlen : data.length - (data.length - len) = len := by omega
        have htake : (data.take len).length = len := by
          rw [List.length_take]
          omega
        refine ⟨Nat.sub_le _ _, ?_⟩
        rw [hlen, if_neg hmax, htake, if_neg (lt_irrefl len), List.take_take, Nat.min_self, Nat.sub_self]
  | bodyless =>
      simp only [hframing] at hbody ⊢
      cases hbody
      refine ⟨le_refl _, ?_⟩
      rw [Nat.sub_self]
      rfl
  | close =>
      simp only [hframing] at hbody
      cases hbody

/-- A response is found in its own bytes. -/
theorem parseHttpResponse_take {data : Bytes} {p : ParsedHttpResponse} (h : parseHttpResponse data false = .ok (some p)) :
    parseHttpResponse (data.take p.bytesConsumed) false = .ok (some p) := by
  obtain ⟨head, rest, headers, left, hbreak, hmax, hheaders, hbody, hconsumed⟩ := parseHttpResponse_eq_some.mp h
  obtain ⟨hleft, hself⟩ := parseBody_self hbody
  have hdata : data = head ++ (crlf ++ crlf) ++ rest := eq_append_of_breakOn hbreak
  have hlength : p.bytesConsumed = (head ++ (crlf ++ crlf)).length + (rest.length - left) := by
    have hwhole := congrArg List.length hdata
    rw [List.length_append] at hwhole
    omega
  have htake : data.take p.bytesConsumed = head ++ (crlf ++ crlf) ++ rest.take (rest.length - left) := by
    rw [hlength, hdata, List.take_length_add_append]
  refine parseHttpResponse_eq_some.mpr ⟨head, rest.take (rest.length - left), headers, 0, ?_, hmax, hheaders, hself, ?_⟩
  · rw [htake, breakOn_replace hbreak]
  · rw [List.length_take, Nat.sub_zero, hconsumed]
    omega

/-- A response that has been found is there, is found again whatever follows it, and is found in its own bytes. -/
theorem parseHttpResponse_stable (d e : Bytes) (p : ParsedHttpResponse)
    (h : parseHttpResponse d false = .ok (some p)) :
    p.bytesConsumed ≤ d.length ∧ parseHttpResponse (d ++ e) false = .ok (some p) ∧
      parseHttpResponse (d.take p.bytesConsumed) false = .ok (some p) :=
  ⟨parseHttpResponse_consumed_le h, parseHttpResponse_append h e, parseHttpResponse_take h⟩

/-- An empty response. -/
theorem parseHttpResponse_stable_noContent :
    16 ≤ (ascii "HTTP/1.1 204\r\n\r\n").length ∧
      parseHttpResponse (ascii "HTTP/1.1 204\r\n\r\n" ++ [0x48]) false = .ok (some ⟨⟨204, true, []⟩, 16⟩) ∧
      parseHttpResponse ((ascii "HTTP/1.1 204\r\n\r\n").take 16) false = .ok (some ⟨⟨204, true, []⟩, 16⟩) :=
  parseHttpResponse_stable _ [0x48] ⟨⟨204, true, []⟩, 16⟩ (by decide)

/-! ## Errors because of where a read ended -/

/-- Whole chunks lead from the data and the body so far to other data and a longer body. -/
inductive Reaches : Bytes → Bytes → Bytes → Bytes → Prop
  | refl (body s : Bytes) : Reaches body s body s
  | chunk {body s line data rest body' s' : Bytes} (hchunk : StartsChunk body s line data rest)
      (hrest : Reaches (body ++ data) rest body' s') : Reaches body s body' s'

/-- After whole chunks, the data end within the line with the size of an acceptable chunk, more than 1024 bytes after
its start. -/
def CutLine (body s : Bytes) : Prop :=
  ∃ body' s', Reaches body s body' s' ∧ breakOn crlf s' = none ∧ 1024 < s'.length ∧
    ∃ line n, breakOn crlf (line ++ crlf) = some (line, []) ∧ s' <+: line ++ crlf ∧ parseChunkSize line = some n ∧
      (n ≠ 0 → FitsBody body' n)

/-- The data end within the empty line after an acceptable header block, and are too large for one although the header
block is not. -/
def CutHead (d : Bytes) : Prop :=
  breakOn (crlf ++ crlf) d = none ∧ kMaxHttpHeaderBytes < d.length ∧
    ∃ head h, breakOn (crlf ++ crlf) (head ++ (crlf ++ crlf)) = some (head, []) ∧ d <+: head ++ (crlf ++ crlf) ∧
      head.length ≤ kMaxHttpHeaderBytes ∧ parseHeaders head = .ok h ∧
      ∀ len, h.framing = .length len → len ≤ kMaxHttpBodyBytes

/-- The data are the beginning of something acceptable, and end where the parser takes an unfinished line for one that
is too long. -/
def CutShort (d : Bytes) : Prop :=
  CutHead d ∨
    ∃ head rest h, breakOn (crlf ++ crlf) d = some (head, rest) ∧ head.length ≤ kMaxHttpHeaderBytes ∧
      parseHeaders head = .ok h ∧ h.framing = .chunked ∧ CutLine [] rest

theorem Reaches.decodeChunked_eq {body s body' s' : Bytes} (h : Reaches body s body' s') (t : Bytes) {fuel : Nat}
    (hfuel : (s ++ t).length < fuel) :
    ∃ fuel', (s' ++ t).length < fuel' ∧ decodeChunked fuel (s ++ t) body = decodeChunked fuel' (s' ++ t) body' := by
  induction h generalizing fuel with
  | refl body s => exact ⟨fuel, hfuel, rfl⟩
  | chunk hchunk _ ih =>
      obtain ⟨fuel, rfl⟩ : ∃ n, fuel = n + 1 := ⟨fuel - 1, by omega⟩
      have hstart := hchunk.append t
      have hlength := hstart.length_lt
      rw [hstart.decodeChunked_eq]
      exact ih (by omega)

/-- An error in a chunked body remains, unless the data were cut short. -/
theorem decodeChunked_error {fuel : Nat} {s body e : Bytes} (h : decodeChunked fuel s body = .error e) (t : Bytes)
    {fuel' : Nat} (hfuel : fuel ≤ fuel') : (∃ e', decodeChunked fuel' (s ++ t) body = .error e') ∨ CutLine body s := by
  induction fuel generalizing s body fuel' with
  | zero => cases h
  | succ fuel ih =>
      obtain ⟨fuel', rfl⟩ : ∃ n, fuel' = n + 1 := ⟨fuel' - 1, by omega⟩
      cases chunkRound body s with
      | unterminated hnone =>
          rw [decodeChunked_unterminated hnone] at h
          split_ifs at h with hlong
          -- Whatever ends the line, either it is refused then too or it should not have been.
          have hcut {line rest : Bytes} {n : Nat} (hbreak : breakOn crlf (s ++ t) = some (line, rest))
              (hsize : parseChunkSize line = some n) (hfits : n ≠ 0 → FitsBody body n) : CutLine body s :=
            ⟨body, s, .refl body s, hnone, hlong, line, n, breakOn_self hbreak, prefix_of_breakOn_append hnone hbreak,
              hsize, hfits⟩
          cases chunkRound body (s ++ t) with
          | unterminated hnone' =>
              have hlong' : (s ++ t).length > 1024 := by
                rw [List.length_append]
                omega
              exact .inl ⟨_, by rw [decodeChunked_unterminated hnone', if_pos hlong']⟩
          | refused hrefused => exact .inl (decodeChunked_refused hrefused)
          | short hshort =>
              obtain ⟨line, rest, n, hbreak, hsize, hn, hfits, -⟩ := hshort
              exact .inr (hcut hbreak hsize fun _ ↦ hfits)
          | last line rest hbreak hsize => exact .inr (hcut hbreak hsize fun h ↦ absurd rfl h)
          | chunk line data rest hchunk => exact .inr (hcut hchunk.breakOn_eq hchunk.size fun _ ↦ hchunk.fits)
      | refused hrefused => exact .inl (decodeChunked_refused (hrefused.append t))
      | short hshort =>
          rw [decodeChunked_short hshort] at h
          cases h
      | last line rest hbreak hsize =>
          rw [decodeChunked_last hbreak hsize] at h
          cases h
      | chunk line data rest hchunk =>
          rw [hchunk.decodeChunked_eq] at h
          rw [(hchunk.append t).decodeChunked_eq]
          refine (ih h (Nat.le_of_succ_le_succ hfuel)).imp id ?_
          rintro ⟨body', s', hreaches, hcut⟩
          exact ⟨body', s', .chunk hchunk hreaches, hcut⟩

/-- Data cut short are refused, and some continuation of them is not. -/
theorem CutLine.decodeChunked_eq {body s : Bytes} (h : CutLine body s) :
    (∀ {fuel}, s.length < fuel → ∃ e, decodeChunked fuel s body = .error e) ∧
      ∃ t, ∀ {fuel}, (s ++ t).length < fuel → decodeChunked fuel (s ++ t) body = .ok none := by
  obtain ⟨body', s', hreaches, hnone, hlong, line, n, hbreak, ⟨t, ht⟩, hsize, hfits⟩ := h
  constructor
  · intro fuel hfuel
    obtain ⟨fuel', hfuel', heq⟩ := hreaches.decodeChunked_eq [] (by rwa [List.append_nil])
    obtain ⟨fuel', rfl⟩ : ∃ n, fuel' = n + 1 := ⟨fuel' - 1, by omega⟩
    rw [List.append_nil, List.append_nil] at heq
    exact ⟨_, by rw [heq, decodeChunked_unterminated hnone, if_pos hlong]⟩
  · refine ⟨t, fun {fuel} hfuel ↦ ?_⟩
    obtain ⟨fuel', hfuel', heq⟩ := hreaches.decodeChunked_eq t hfuel
    obtain ⟨fuel', rfl⟩ : ∃ n, fuel' = n + 1 := ⟨fuel' - 1, by omega⟩
    rw [heq, ht]
    by_cases hn : n = 0
    · rw [decodeChunked_last hbreak (hn ▸ hsize)]
      rfl
    · exact decodeChunked_short ⟨line, [], n, hbreak, hsize, hn, hfits hn, Nat.succ_pos _⟩

/-- An error in a body remains, unless the data were cut short. -/
theorem parseBody_error {h : Headers} {data e : Bytes} (hbody : parseBody h data false = .error e) (t : Bytes) :
    (∃ e', parseBody h (data ++ t) false = .error e') ∨ h.framing = .chunked ∧ CutLine [] data := by
  rw [parseBody] at hbody ⊢
  cases hframing : h.framing with
  | chunked =>
      simp only [hframing] at hbody ⊢
      rcases Except.bind_eq_error_iff.mp hbody with herror | ⟨decoded, -, hresult⟩
      · have hmore : data.length + 1 ≤ (data ++ t).length + 1 := by
          rw [List.length_append]
          omega
        rcases decodeChunked_error herror t hmore with ⟨e', he'⟩ | hcut
        · exact .inl ⟨e', by rw [he']; rfl⟩
        · exact .inr ⟨trivial, hcut⟩
      · cases decoded <;> cases hresult
  | length len =>
      simp only [hframing, Bool.false_eq_true, if_false] at hbody ⊢
      split_ifs at hbody with hmax
      rw [if_pos hmax]
      exact .inl ⟨_, rfl⟩
  | bodyless =>
      simp only [hframing] at hbody
      cases hbody
  | close =>
      simp only [hframing] at hbody
      cases hbody

/-- Data cut short in a body are refused, and some continuation of them is not. -/
theorem parseBody_of_cutLine {h : Headers} {data : Bytes} (hframing : h.framing = .chunked) (hcut : CutLine [] data) :
    (∃ e, parseBody h data false = .error e) ∧ ∃ t, parseBody h (data ++ t) false = .ok none := by
  obtain ⟨herror, t, ht⟩ := hcut.decodeChunked_eq
  obtain ⟨e, he⟩ := herror (Nat.lt_succ_self _)
  simp only [parseBody, hframing]
  refine ⟨⟨e, by rw [he]; rfl⟩, t, ?_⟩
  rw [ht (Nat.lt_succ_self _)]
  rfl

section Parser

variable {d head rest : Bytes}

/-- Once the header block is there, what is accepted so far is so because of its parts. -/
theorem parseHttpResponse_eq_ok {x : Option ParsedHttpResponse} (hbreak : breakOn (crlf ++ crlf) d = some (head, rest))
    (hok : parseHttpResponse d false = .ok x) :
    head.length ≤ kMaxHttpHeaderBytes ∧ ∃ h y, parseHeaders head = .ok h ∧ parseBody h rest false = .ok y := by
  rw [parseHttpResponse, hbreak] at hok
  dsimp only at hok
  split_ifs at hok with hmax
  obtain ⟨h, hheaders, hok⟩ := Except.bind_eq_ok_iff.mp hok
  obtain ⟨y, hbody, -⟩ := Except.bind_eq_ok_iff.mp hok
  exact ⟨Nat.not_lt.mp hmax, h, y, hheaders, hbody⟩

/-- Once the header block has been accepted, the body decides. -/
theorem parseHttpResponse_headers {h : Headers} (hbreak : breakOn (crlf ++ crlf) d = some (head, rest))
    (hmax : head.length ≤ kMaxHttpHeaderBytes) (hheaders : parseHeaders head = .ok h) :
    parseHttpResponse d false = parseBody h rest false >>= fun body ↦
      .ok (body.map fun (response, left) ↦ ⟨response, d.length - left⟩) := by
  rw [parseHttpResponse, hbreak]
  dsimp only
  rw [if_neg (Nat.not_lt.mpr hmax), hheaders, Except.bind_ok]

theorem parseHttpResponse_unterminated (hnone : breakOn (crlf ++ crlf) d = none) :
    parseHttpResponse d false =
      if d.length > kMaxHttpHeaderBytes then .error (ascii "HTTP headers too large") else .ok none := by
  rw [parseHttpResponse, hnone]
  rfl

/-- With an acceptable header block alone, more is needed or the response is there. -/
theorem parseBody_nil {h : Headers} (hlen : ∀ len, h.framing = .length len → len ≤ kMaxHttpBodyBytes) :
    ∃ y, parseBody h [] false = .ok y := by
  rw [parseBody]
  cases hframing : h.framing with
  | chunked => exact ⟨none, rfl⟩
  | length len =>
      simp only [if_neg (Nat.not_lt.mpr (hlen len hframing)), Bool.false_eq_true, if_false]
      split_ifs
      · exact ⟨_, rfl⟩
      · exact ⟨_, rfl⟩
  | bodyless => exact ⟨_, rfl⟩
  | close => exact ⟨none, rfl⟩

theorem length_le_of_parseBody {h : Headers} {data : Bytes} {y : Option (HttpResponse × Nat)}
    (hok : parseBody h data false = .ok y) {len : Nat} (hframing : h.framing = .length len) : len ≤ kMaxHttpBodyBytes := by
  rw [parseBody, hframing] at hok
  dsimp only at hok
  split_ifs at hok with hmax
  · exact Nat.not_lt.mp hmax
  · exact Nat.not_lt.mp hmax

end Parser

/-- An error remains, unless the data were cut short. -/
theorem parseHttpResponse_error {d e : Bytes} (h : parseHttpResponse d false = .error e) (t : Bytes) :
    (∃ e', parseHttpResponse (d ++ t) false = .error e') ∨ CutShort d := by
  cases hok : parseHttpResponse (d ++ t) false with
  | error e' => exact .inl ⟨e', rfl⟩
  | ok x =>
      refine .inr ?_
      obtain hnone | ⟨⟨head, rest⟩, hbreak⟩ := Option.eq_none_or_eq_some (breakOn (crlf ++ crlf) d)
      · rw [parseHttpResponse_unterminated hnone] at h
        split_ifs at h with hlong
        obtain hnone' | ⟨⟨head, rest⟩, hbreak⟩ := Option.eq_none_or_eq_some (breakOn (crlf ++ crlf) (d ++ t))
        · have hlong' : (d ++ t).length > kMaxHttpHeaderBytes := by
            rw [List.length_append]
            omega
          rw [parseHttpResponse_unterminated hnone', if_pos hlong'] at hok
          cases hok
        · obtain ⟨hmax, headers, y, hheaders, hbody⟩ := parseHttpResponse_eq_ok hbreak hok
          exact .inl ⟨hnone, hlong, head, headers, breakOn_self hbreak, prefix_of_breakOn_append hnone hbreak, hmax,
            hheaders, fun len ↦ length_le_of_parseBody hbody⟩
      · obtain ⟨hmax, headers, y, hheaders, hbody⟩ := parseHttpResponse_eq_ok (breakOn_append hbreak t) hok
        rw [parseHttpResponse_headers hbreak hmax hheaders] at h
        rcases Except.bind_eq_error_iff.mp h with herror | ⟨_, _, hresult⟩
        · rcases parseBody_error herror t with ⟨e', he'⟩ | ⟨hframing, hcut⟩
          · rw [hbody] at he'
            cases he'
          · exact .inr ⟨head, rest, headers, hbreak, hmax, hheaders, hframing, hcut⟩
        · cases hresult

/-- Data cut short are refused, and some continuation of them is not. -/
theorem CutShort.parseHttpResponse_eq {d : Bytes} (h : CutShort d) :
    (∃ e, parseHttpResponse d false = .error e) ∧ ∃ t x, parseHttpResponse (d ++ t) false = .ok x := by
  rcases h with ⟨hnone, hlong, head, h, hbreak, ⟨t, ht⟩, hmax, hheaders, hlen⟩ |
    ⟨head, rest, h, hbreak, hmax, hheaders, hframing, hcut⟩
  · refine ⟨⟨_, by rw [parseHttpResponse_unterminated hnone, if_pos hlong]⟩, t, ?_⟩
    obtain ⟨y, hy⟩ := parseBody_nil hlen
    rw [ht, parseHttpResponse_headers hbreak hmax hheaders, hy]
    exact ⟨_, rfl⟩
  · obtain ⟨⟨e, he⟩, t, ht⟩ := parseBody_of_cutLine hframing hcut
    refine ⟨⟨e, by rw [parseHttpResponse_headers hbreak hmax hheaders, he]; rfl⟩, t, ?_⟩
    rw [parseHttpResponse_headers (breakOn_append hbreak t) hmax hheaders, ht]
    exact ⟨_, rfl⟩

/-- What is accepted when it arrives in one piece is accepted when it arrives in several, none of which ends where the
data are cut short. -/
theorem readResponse_pieces {lost buffer : Bytes} {pieces : List Bytes} {r : HttpResponse}
    (hcut : ∀ k, ¬ CutShort (buffer ++ (pieces.take k).flatten))
    (hwhole : (readResponse lost (buffer ++ pieces.flatten) []).result = .ok r) :
    (readResponse lost buffer pieces).result = .ok r := by
  induction pieces generalizing buffer with
  | nil => rwa [List.flatten_nil, List.append_nil] at hwhole
  | cons piece pieces ih =>
      rw [List.flatten_cons] at hwhole
      rw [readResponse]
      rcases hparse : parseHttpResponse buffer false with e | (_ | p)
      · rcases parseHttpResponse_error hparse (piece ++ pieces.flatten) with ⟨e', he'⟩ | hshort
        · rw [readResponse, he'] at hwhole
          cases hwhole
        · have hnow := hcut 0
          rw [List.take_zero, List.flatten_nil, List.append_nil] at hnow
          exact absurd hshort hnow
      · refine ih (fun k ↦ ?_) (by rwa [List.append_assoc])
        have hlater := hcut (k + 1)
        rwa [List.take_succ_cons, List.flatten_cons, ← List.append_assoc] at hlater
      · rw [readResponse, parseHttpResponse_append hparse] at hwhole
        exact hwhole

/-- An error is one on every continuation exactly if the data are not cut short; and if none of the reads ends where
the data are cut short, `read_response` accepts what it would have accepted in one piece. -/
theorem rejection_stable_iff (d : Bytes) :
    (((∃ e, parseHttpResponse d false = .error e) → ∀ t, ∃ e, parseHttpResponse (d ++ t) false = .error e) ↔
      ¬ CutShort d) ∧
    ∀ (lost : Bytes) (pieces : List Bytes) (r : HttpResponse), pieces.flatten = d →
      (∀ k, ¬ CutShort (pieces.take k).flatten) → (readResponse lost [] [d]).result = .ok r →
        (readResponse lost [] pieces).result = .ok r := by
  constructor
  · constructor
    · intro hstable hcut
      obtain ⟨herror, t, x, hok⟩ := hcut.parseHttpResponse_eq
      obtain ⟨e, he⟩ := hstable herror t
      rw [hok] at he
      cases he
    · rintro hcut ⟨e, he⟩ t
      exact (parseHttpResponse_error he t).resolve_right hcut
  · rintro lost pieces r rfl hcut hwhole
    exact readResponse_pieces hcut hwhole

/-! ## A long line cut before its end -/

/-- A chunked response up to the size of the first chunk, which has an extension of 1023 bytes. -/
def longLine : Bytes :=
  ascii "HTTP/1.1 200\r\n" ++ ascii "Transfer-Encoding: chunked\r\n\r\n" ++ ascii "1;" ++
    List.replicate 1023 'x'.toUInt8

/-- The rest of it. -/
def afterLongLine : Bytes := ascii "\r\nA\r\n0\r\n\r\n"

/-- The response is accepted in one piece and refused if a read ends with the line. -/
theorem longLine_rejected :
    parseHttpResponse longLine false = .error (ascii "Chunk size line too long") ∧
      parseHttpResponse (longLine ++ afterLongLine) false = .ok (some ⟨⟨200, true, ascii "A"⟩, 1079⟩) ∧
      (readResponse [] [] [longLine, afterLongLine]).result = .error (ascii "Chunk size line too long") ∧
      (readResponse [] [] [longLine ++ afterLongLine]).result = .ok ⟨200, true, ascii "A"⟩ := by
  decide +kernel

end KalshiClient.Http
