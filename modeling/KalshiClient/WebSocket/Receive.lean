import KalshiClient.Base.Result
import KalshiClient.Network.TlsSocket
import KalshiClient.WebSocket.Frame

/-!
# `WebSocket::receive_frame`

The loop of `src/network/web_socket.cpp` that turns the bytes of the TLS stream into frames is the
library's `Incremental.receive` at `frame_parser`; this file supplies what the library asks for, that
`frame_parser` is stable and consumes at least the two header bytes and never more than it was given,
and draws the consequence for whole runs of `receive_frame`.  The limit on the payload is also a limit on the
buffer (`receive_bounded`).
-/

namespace KalshiClient.WebSocket

open Incremental Network

/-- `frame_parser` read as an incremental parser: incomplete input asks for more. -/
def frameVerdict (bytes : Bytes) : Verdict String WebSocketFrame :=
  match frameParser bytes with
  | .ok r => .done r.frame r.bytesConsumed
  | .error ⟨.malformed, message⟩ => .fail message
  | .error ⟨.incomplete, _⟩ => .more

/-- One call of `receive_frame` on the buffer `_buffer`, when `receive_data` will return the pieces
`pending` one by one and then fail with `lost`. -/
def receiveFrame (lost : String) (buffer : Bytes) (pending : List Bytes) :
    Received UInt8 String WebSocketFrame String :=
  receive frameVerdict lost buffer pending

/-- The results of the first `k` calls of `receive_frame`, up to the first failure, which is where
`run_session` stops calling. -/
def receiveFrames (lost : String) (k : Nat) (buffer : Bytes) (pending : List Bytes) :
    List (Except (Failure String String) WebSocketFrame) :=
  receiveAll frameVerdict lost k buffer pending

/-- The results of `k` applications of `frame_parser` to a whole stream, dropping `bytes_consumed`
each time. -/
def parseFrames (lost : String) (k : Nat) (stream : Bytes) :
    List (Except (Failure String String) WebSocketFrame) :=
  parseAll frameVerdict lost k stream

/-! ## What an accepted frame consumes -/

theorem readHeader_length {b : Bytes} {byte0 byte1 : UInt8} (h : readHeader b = .ok (byte0, byte1)) :
    2 ≤ b.length := by
  match b with
  | [] => cases h
  | [_] => cases h
  | _ :: _ :: t => simp

theorem readLength_pos {payloadLen : UInt8} {b : Bytes} {len pos : Nat}
    (h : readLength payloadLen b = .ok (len, pos)) (hb : 2 ≤ b.length) :
    2 ≤ pos ∧ pos ≤ b.length := by
  unfold readLength at h
  split at h
  · split at h
    · cases h
    · cases h
      omega
  · split at h
    · split at h
      · cases h
      · split at h
        · cases h
        · cases h
          omega
    · cases h
      exact ⟨le_refl 2, hb⟩

theorem readMaskKey_pos {maskBit : Bool} {pos pos' : Nat} {b : Bytes}
    {key : Option (Vector UInt8 4)} (h : readMaskKey maskBit pos b = .ok (key, pos'))
    (hb : pos ≤ b.length) : pos ≤ pos' ∧ pos' ≤ b.length := by
  unfold readMaskKey at h
  split at h
  · split at h
    · cases h
    · cases h
      omega
  · cases h
    exact ⟨le_refl pos, hb⟩

theorem readPayload_le {key : Option (Vector UInt8 4)} {len pos : Nat} {b payload : Bytes}
    (h : readPayload key len pos b = .ok payload) : len ≤ b.length - pos := by
  unfold readPayload at h
  split at h
  · cases h
  · next hlen => exact Nat.not_lt.mp hlen

/-- An accepted frame takes at least its two header bytes, and no byte that was not given. -/
theorem frameParser_consumed {b : Bytes} {r : ParseResult} (h : frameParser b = .ok r) :
    2 ≤ r.bytesConsumed ∧ r.bytesConsumed ≤ b.length := by
  obtain ⟨⟨byte0, byte1⟩, hhead, h⟩ := Except.bind_eq_ok_iff.mp h
  obtain ⟨opcode, -, h⟩ := Except.bind_eq_ok_iff.mp h
  obtain ⟨⟨len, pos⟩, hlen, h⟩ := Except.bind_eq_ok_iff.mp h
  obtain ⟨-, -, h⟩ := Except.bind_eq_ok_iff.mp h
  obtain ⟨⟨key, pos'⟩, hkey, h⟩ := Except.bind_eq_ok_iff.mp h
  obtain ⟨payload, hpayload, h⟩ := Except.bind_eq_ok_iff.mp h
  cases h
  obtain ⟨hpos, hpos_le⟩ := readLength_pos hlen (readHeader_length hhead)
  obtain ⟨hpos', hpos'_le⟩ := readMaskKey_pos hkey hpos_le
  have hpay := readPayload_le hpayload
  constructor
  · change 2 ≤ pos' + len
    omega
  · change pos' + len ≤ b.length
    omega

/-! ## Stability, and runs of `receive_frame` -/

theorem frameVerdict_eq_done {b : Bytes} {f : WebSocketFrame} {n : Nat} :
    frameVerdict b = .done f n ↔ frameParser b = .ok ⟨f, n⟩ := by
  unfold frameVerdict
  constructor
  · intro h
    split at h
    · next r hr => cases h; exact hr
    · cases h
    · cases h
  · intro h
    rw [h]

theorem frameVerdict_eq_fail {b : Bytes} {message : String} :
    frameVerdict b = .fail message ↔ frameParser b = .error ⟨.malformed, message⟩ := by
  unfold frameVerdict
  constructor
  · intro h
    split at h
    · cases h
    · next m hm => cases h; exact hm
    · cases h
  · intro h
    rw [h]

theorem stable_frameVerdict : Stable frameVerdict where
  done_append h t := frameVerdict_eq_done.mpr
    (settled_frameParser.ok_append (frameVerdict_eq_done.mp h) t)
  fail_append h t := frameVerdict_eq_fail.mpr
    (settled_frameParser.error_append (frameVerdict_eq_fail.mp h) rfl t)
  consumed_le h := (frameParser_consumed (frameVerdict_eq_done.mp h)).2
  consumed_pos h := lt_of_lt_of_le Nat.zero_lt_two
    (frameParser_consumed (frameVerdict_eq_done.mp h)).1

/-- **Framing does not depend on how the bytes arrive.**  However a stream is cut into pieces before
the transport fails, the calls of `receive_frame` from an empty buffer return what iterating
`frame_parser` over the whole stream returns: the same frames, in the same order, and the same end.
The run does end, in a malformed frame or in the transport failure; and what `frame_parser` has
accepted or rejected on a prefix it accepts or rejects, in the same words, on every extension. -/
theorem receiveFrames_independent_of_cutting (lost : String) (stream : Bytes)
    (cut₁ cut₂ : List Bytes) (h₁ : cut₁.flatten = stream) (h₂ : cut₂.flatten = stream) :
    (∀ k, receiveFrames lost k [] cut₁ = receiveFrames lost k [] cut₂ ∧
      receiveFrames lost k [] cut₁ = parseFrames lost k stream) ∧
    (∃ (frames : List WebSocketFrame) (e : Failure String String),
      receiveFrames lost (stream.length + 1) [] cut₁ = frames.map Except.ok ++ [Except.error e]) ∧
    (∀ (b t : Bytes) (r : ParseResult), frameParser b = .ok r → frameParser (b ++ t) = .ok r) ∧
    (∀ (b t : Bytes) (e : ParseError), frameParser b = .error e → e.kind = .malformed →
      frameParser (b ++ t) = .error e) := by
  have whole : ∀ k cut, cut.flatten = stream →
      receiveFrames lost k [] cut = parseFrames lost k stream := by
    rintro k cut rfl
    exact receiveAll_eq_parseAll stable_frameVerdict lost k [] cut
  refine ⟨fun k ↦ ⟨?_, whole k cut₁ h₁⟩, ?_, ?_, ?_⟩
  · rw [whole k cut₁ h₁, whole k cut₂ h₂]
  · rw [whole _ cut₁ h₁]
    refine parseAll_ends stable_frameVerdict stable_frameVerdict.consumed_pos lost _ stream ?_
    rw [Nat.one_mul]
    exact Nat.lt_succ_self _
  · intro b t r h
    exact settled_frameParser.ok_append h t
  · intro b t e h he
    exact settled_frameParser.error_append h he t

/-- An empty text frame followed by a frame with a reserved bit, cut between and inside the frames. -/
theorem receiveFrames_independent_of_cutting_reserved :
    receiveFrames "reset" 3 [] [[0x81], [0x00, 0x91], [0x00]] =
      receiveFrames "reset" 3 [] [[0x81, 0x00], [0x91, 0x00]] ∧
    receiveFrames "reset" 3 [] [[0x81], [0x00, 0x91], [0x00]] =
      [.ok ⟨true, .text, none, []⟩, .error (.malformed "Malformed frame: reserved bits set")] :=
  ⟨((receiveFrames_independent_of_cutting "reset" [0x81, 0x00, 0x91, 0x00]
    [[0x81], [0x00, 0x91], [0x00]] [[0x81, 0x00], [0x91, 0x00]] rfl rfl).1 3).1, by decide⟩

/-! ## The size of the buffer -/

section Incomplete

variable {b : Bytes} {e : ParseError}

theorem length_lt_of_readHeader (h : readHeader b = .error e) : b.length < 2 := by
  rcases b with _ | ⟨_, _ | ⟨_, t⟩⟩
  · exact Nat.zero_lt_two
  · exact Nat.one_lt_two
  · cases h

theorem readOpcode_malformed {byte0 : UInt8} (h : readOpcode byte0 = .error e) : e.kind = .malformed := by
  rw [readOpcode] at h
  split at h
  · cases h
    rfl
  · split_ifs at h
    cases h
    rfl

/-- The field with the length ends in the first ten bytes. -/
theorem readLength_cases (payloadLen : UInt8) :
    (∃ len pos, readLength payloadLen b = .ok (len, pos) ∧ pos ≤ 10) ∨
      ∃ e, readLength payloadLen b = .error e ∧ (e.kind = .malformed ∨ b.length < 10) := by
  rw [readLength]
  split_ifs with h126 hshort h127 hshort hmsb
  · exact .inr ⟨_, rfl, .inr (by omega)⟩
  · exact .inl ⟨_, _, rfl, by omega⟩
  · exact .inr ⟨_, rfl, .inr (by omega)⟩
  · exact .inr ⟨_, rfl, .inl rfl⟩
  · exact .inl ⟨_, _, rfl, le_refl _⟩
  · exact .inl ⟨_, _, rfl, by omega⟩

/-- The length is within the limit, or the frame is malformed. -/
theorem checkLength_cases (opcode : Opcode) (fin : Bool) (len : Nat) :
    (checkLength opcode fin len = .ok () ∧ len ≤ kMaxFramePayload) ∨
      ∃ e, checkLength opcode fin len = .error e ∧ e.kind = .malformed := by
  rw [checkLength]
  split_ifs with hcontrol hlarge
  · exact .inr ⟨_, rfl, rfl⟩
  · exact .inr ⟨_, rfl, rfl⟩
  · exact .inl ⟨rfl, not_lt.mp hlarge⟩

theorem readMaskKey_cases (maskBit : Bool) (pos : Nat) :
    (∃ key pos', readMaskKey maskBit pos b = .ok (key, pos') ∧ pos' ≤ pos + 4) ∨
      (∃ e, readMaskKey maskBit pos b = .error e) ∧ b.length < pos + 4 := by
  rw [readMaskKey]
  split_ifs with hmask hshort
  · exact .inr ⟨⟨_, rfl⟩, hshort⟩
  · exact .inl ⟨_, _, rfl, le_refl _⟩
  · exact .inl ⟨_, _, rfl, Nat.le_add_right _ _⟩

theorem length_lt_of_readPayload {key : Option (Vector UInt8 4)} {len pos : Nat}
    (h : readPayload key len pos b = .error e) : b.length < pos + len := by
  rw [readPayload] at h
  split_ifs at h with hshort
  · omega
  · cases key <;> cases h

/-- **What is incomplete is short**: shorter than the largest header with the largest payload. -/
theorem length_lt_of_incomplete {message : String} (h : frameParser b = .error ⟨.incomplete, message⟩) :
    b.length < 14 + kMaxFramePayload := by
  have hkind {e : ParseError} (he : e.kind = .malformed) : e ≠ ⟨.incomplete, message⟩ := by
    rintro rfl
    cases he
  rcases Except.bind_eq_error_iff.mp h with h | ⟨⟨byte0, byte1⟩, -, h⟩
  · have := length_lt_of_readHeader h
    omega
  rcases Except.bind_eq_error_iff.mp h with h | ⟨opcode, -, h⟩
  · exact absurd rfl (hkind (readOpcode_malformed h))
  rcases readLength_cases (b := b) (byte1 &&& 0x7F) with ⟨len, pos, hlen, hpos⟩ | ⟨e, he, hwhy⟩
  swap
  · rw [he, Except.bind_error] at h
    cases h
    have := hwhy.resolve_left fun hmalformed ↦ hkind hmalformed rfl
    omega
  rw [hlen, Except.bind_ok] at h
  rcases checkLength_cases opcode (byte0 &&& 0x80 ≠ 0) len with ⟨hcheck, hmax⟩ | ⟨e, he, hmalformed⟩
  swap
  · dsimp only at h
    rw [he, Except.bind_error] at h
    cases h
    exact absurd rfl (hkind hmalformed)
  dsimp only at h
  rw [hcheck, Except.bind_ok] at h
  rcases readMaskKey_cases (b := b) (byte1 &&& 0x80 ≠ 0) pos with ⟨key, pos', hkey, hpos'⟩ | ⟨-, hshort⟩
  swap
  · omega
  rw [hkey, Except.bind_ok] at h
  rcases Except.bind_eq_error_iff.mp h with h | ⟨payload, -, h⟩
  · have := length_lt_of_readPayload h
    omega
  · cases h

end Incomplete

theorem length_le_of_more {b : Bytes} (h : frameVerdict b = .more) : b.length ≤ 14 + kMaxFramePayload := by
  rw [frameVerdict] at h
  split at h
  · cases h
  · cases h
  · next message herror => exact (length_lt_of_incomplete herror).le

/-- A successful call takes at least two bytes out of the stream. -/
theorem receiveFrame_removes {lost : String} {buffer : Bytes} {pending : List Bytes} {f : WebSocketFrame}
    (h : (receiveFrame lost buffer pending).result = .ok f) :
    ((receiveFrame lost buffer pending).buffer ++ (receiveFrame lost buffer pending).pending.flatten).length + 2 ≤
      (buffer ++ pending.flatten).length := by
  have hspec := receive_spec stable_frameVerdict lost buffer pending
  rw [receiveFrame] at h ⊢
  dsimp only at hspec
  cases hverdict : frameVerdict (buffer ++ pending.flatten) with
  | more =>
      rw [hverdict] at hspec
      cases hspec.symm.trans h
  | fail e =>
      rw [hverdict] at hspec
      cases hspec.symm.trans h
  | done a n =>
      rw [hverdict] at hspec
      obtain ⟨hmin, hmax⟩ := frameParser_consumed (frameVerdict_eq_done.mp hverdict)
      dsimp only at hspec hmin hmax
      rw [hspec.2, List.length_drop]
      omega

/-- **Receiving is bounded.**  Whatever a server sends and however it arrives, the buffer `b` from which a call of
`receive_frame` takes its frame stays below a constant, in every run of calls; a successful call takes at least two bytes
from it; and without further reads there is an end. -/
theorem receive_bounded :
    (∀ (b : Bytes) (message : String), frameParser b = .error ⟨.incomplete, message⟩ →
      b.length < 14 + kMaxFramePayload) ∧
    (∀ buffer : Bytes, Buffered frameVerdict String kReceiveBufferSize buffer →
      ∀ (lost : String) (pending : List Bytes), (∀ piece ∈ pending, piece.length ≤ kReceiveBufferSize) →
        ∃ k b, b = buffer ++ (pending.take k).flatten ∧ b.length ≤ 14 + kMaxFramePayload + kReceiveBufferSize ∧
          (receiveFrame lost buffer pending).pending = pending.drop k ∧
          (receiveFrame lost buffer pending).buffer <:+ b) ∧
    (∀ (lost : String) (buffer : Bytes) (pending : List Bytes) (f : WebSocketFrame),
      (receiveFrame lost buffer pending).result = .ok f →
        ((receiveFrame lost buffer pending).buffer ++ (receiveFrame lost buffer pending).pending.flatten).length + 2 ≤
          (buffer ++ pending.flatten).length) ∧
    ∀ (lost : String) (buffer : Bytes), ∃ (frames : List WebSocketFrame) (e : Failure String String),
      receiveFrames lost (buffer.length / 2 + 1) buffer [] = frames.map Except.ok ++ [Except.error e] := by
  refine ⟨fun b message h ↦ length_lt_of_incomplete h, ?_, fun _ _ _ _ h ↦ receiveFrame_removes h, ?_⟩
  · intro buffer hbuffer lost pending hpieces
    obtain ⟨k, b, hb, hlength, hcall⟩ := receive_reads lost (fun b _ ↦ length_le_of_more) hpieces
    rw [Nat.max_eq_right (hbuffer.length_le fun _ ↦ length_le_of_more)] at hlength
    refine ⟨k, b, hb, hlength, ?_⟩
    rw [receiveFrame]
    obtain ⟨a, n, -, hcall⟩ | ⟨e, hcall⟩ := hcall
    · rw [hcall]
      exact ⟨rfl, List.drop_suffix n b⟩
    · rw [hcall]
      exact ⟨rfl, List.suffix_refl b⟩
  · intro lost buffer
    rw [receiveFrames, receiveAll_eq_parseAll stable_frameVerdict, List.flatten_nil, List.append_nil]
    refine parseAll_ends stable_frameVerdict (fun h ↦ (frameParser_consumed (frameVerdict_eq_done.mp h)).1) lost _ _ ?_
    omega

end KalshiClient.WebSocket
