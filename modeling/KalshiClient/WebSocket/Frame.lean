import KalshiClient.Base.Bytes
import KalshiClient.Base.Incremental

/-!
# WebSocket frames: `frame_parser`

The receive side of RFC 6455 framing as `src/protocol/frame_parser.cpp` implements it: two header
bytes, a length in one of three forms, an optional masking key and the payload, with the protocol
checks made in the order of the source.  The parser is written as a sequence of reads, one for each
place where the source tests `bytes.size()`, so that its stability is assembled from the stability of
the reads (`Incremental.Settled`).

Lengths are natural numbers; the source computes them in `uint64_t`, and every value below `2 ^ 64`
that the wire can name is one.
-/

namespace KalshiClient.WebSocket

open Incremental

/-- `WebSocketFrame::Opcode`. -/
inductive Opcode where
  | continuation | text | binary | close | ping | pong
deriving DecidableEq, Repr

namespace Opcode

/-- The four-bit code on the wire. -/
def toByte : Opcode → UInt8
  | .continuation => 0x0
  | .text => 0x1
  | .binary => 0x2
  | .close => 0x8
  | .ping => 0x9
  | .pong => 0xA

/-- `valid_opcodes`, as a partial inverse of `toByte`. -/
def ofByte? (b : UInt8) : Option Opcode :=
  [continuation, text, binary, close, ping, pong].find? (·.toByte = b)

end Opcode

/-- `struct WebSocketFrame`. -/
structure WebSocketFrame where
  /-- FIN. -/
  finBit : Bool
  /-- The opcode. -/
  opCode : Opcode
  /-- The masking key, if the frame was masked. -/
  maskKey : Option (Vector UInt8 4)
  /-- The unmasked payload. -/
  payload : Bytes
deriving DecidableEq

/-- `ParseError::Kind`. -/
inductive ParseErrorKind where
  | incomplete | malformed
deriving DecidableEq, Repr

/-- `struct ParseError`. -/
structure ParseError where
  /-- Whether more bytes could help. -/
  kind : ParseErrorKind
  /-- The text reported. -/
  message : String
deriving DecidableEq, Repr

/-- `struct ParseResult`. -/
structure ParseResult where
  /-- The frame. -/
  frame : WebSocketFrame
  /-- The number of bytes it took. -/
  bytesConsumed : Nat
deriving DecidableEq

/-- `kMaxFramePayload`. -/
def kMaxFramePayload : Nat := 16 * 1024 * 1024

/-- An error that more bytes may resolve. -/
def incomplete {α : Type} (message : String) : Except ParseError α := .error ⟨.incomplete, message⟩

/-- A protocol violation. -/
def malformed {α : Type} (message : String) : Except ParseError α := .error ⟨.malformed, message⟩

/-- Big-endian value of a byte string: `std::bit_cast` followed by a byte swap where needed. -/
def bigEndian (bs : Bytes) : Nat := bs.foldl (fun v b ↦ v * 256 + b.toNat) 0

/-- `payload[i] ^= mask_key[i % 4]` for every `i`. -/
def applyMask (key : Vector UInt8 4) (payload : Bytes) : Bytes :=
  payload.mapIdx fun i b ↦ b ^^^ key.get ⟨i % 4, Nat.mod_lt _ (by decide)⟩

/-- One lower-case hexadecimal digit, for `{:#04x}` of a four-bit value. -/
def hexNibble (b : UInt8) : String := String.singleton (Nat.digitChar (b.toNat % 16))

/-! ## The reads -/

/-- The first two bytes. -/
def readHeader (bytes : Bytes) : Except ParseError (UInt8 × UInt8) :=
  match bytes with
  | [] => incomplete "No bytes available to parse"
  | [_] => incomplete "Frame header incomplete: only 1 byte received"
  | byte0 :: byte1 :: _ => .ok (byte0, byte1)

/-- The checks on the first byte: a known opcode and no reserved bit. -/
def readOpcode (byte0 : UInt8) : Except ParseError Opcode :=
  match Opcode.ofByte? (byte0 &&& 0x0F) with
  | none => malformed ("Malformed frame: unrecognized opcode 0x0" ++ hexNibble byte0)
  | some opcode =>
    if byte0 &&& 0x70 ≠ 0 then malformed "Malformed frame: reserved bits set" else .ok opcode

/-- The payload length, with the offset just past its field. -/
def readLength (payloadLen : UInt8) (bytes : Bytes) : Except ParseError (Nat × Nat) :=
  if payloadLen = 126 then
    if 2 + 2 > bytes.length then
      incomplete "Frame header incomplete: missing 2-byte extended length field"
    else .ok (bigEndian ((bytes.drop 2).take 2), 2 + 2)
  else if payloadLen = 127 then
    if 2 + 8 > bytes.length then
      incomplete "Frame header incomplete: missing 8-byte extended length field"
    else if 2 ^ 63 ≤ bigEndian ((bytes.drop 2).take 8) then
      malformed "Malformed frame: 64-bit length has MSB set"
    else .ok (bigEndian ((bytes.drop 2).take 8), 2 + 8)
  else .ok (payloadLen.toNat, 2)

/-- The checks on the length: control frames are short and unfragmented, and no payload exceeds the
limit. -/
def checkLength (opcode : Opcode) (fin : Bool) (len : Nat) : Except ParseError Unit :=
  if 0x8 ≤ opcode.toByte ∧ (fin = false ∨ 125 < len) then
    malformed "Malformed frame: invalid control frame"
  else if kMaxFramePayload < len then
    malformed ("Frame payload of " ++ toString len ++ " bytes exceeds limit")
  else .ok ()

/-- The masking key at `pos` if the mask bit is set, with the offset of the payload. -/
def readMaskKey (maskBit : Bool) (pos : Nat) (bytes : Bytes) :
    Except ParseError (Option (Vector UInt8 4) × Nat) :=
  if maskBit then
    if pos + 4 > bytes.length then
      incomplete "Frame header incomplete: missing 4-byte masking key"
    else
      let raw := (bytes.drop pos).take 4
      .ok (some (Vector.ofFn fun i ↦ raw.getD i 0), pos + 4)
  else .ok (none, pos)

/-- The payload of `len` bytes at `pos`, unmasked. -/
def readPayload (key : Option (Vector UInt8 4)) (len pos : Nat) (bytes : Bytes) :
    Except ParseError Bytes :=
  if len > bytes.length - pos then
    incomplete "Frame payload incomplete: received fewer bytes than indicated by length field"
  else
    let payload := (bytes.drop pos).take len
    match key with
    | none => .ok payload
    | some key => .ok (applyMask key payload)

/-- `frame_parser`. -/
def frameParser (bytes : Bytes) : Except ParseError ParseResult := do
  let (byte0, byte1) ← readHeader bytes
  let fin := byte0 &&& 0x80 ≠ 0
  let opcode ← readOpcode byte0
  let maskBit := byte1 &&& 0x80 ≠ 0
  let (len, pos) ← readLength (byte1 &&& 0x7F) bytes
  checkLength opcode fin len
  let (key, pos) ← readMaskKey maskBit pos bytes
  let payload ← readPayload key len pos bytes
  return ⟨⟨fin, opcode, key, payload⟩, pos + len⟩

/-! ## Stability

Only the malformed verdicts are about the stream; the incomplete ones ask for more. -/

/-- The errors that further bytes cannot change. -/
def Final (e : ParseError) : Prop := e.kind = .malformed

theorem not_final_incomplete (message : String) : ¬ Final ⟨.incomplete, message⟩ := by
  simp [Final]

theorem settled_readHeader : Settled Final readHeader := by
  constructor
  · intro b a h t
    match b with
    | [] => cases h
    | [_] => cases h
    | _ :: _ :: _ => exact h
  · intro b e h hfin t
    match b with
    | [] => cases h; exact absurd hfin (not_final_incomplete _)
    | [_] => cases h; exact absurd hfin (not_final_incomplete _)
    | _ :: _ :: _ => cases h

theorem settled_readLength (payloadLen : UInt8) : Settled Final (readLength payloadLen) := by
  unfold readLength
  by_cases h126 : payloadLen = 126
  · simp only [if_pos h126]
    refine Settled.guarded (not_final_incomplete _) fun b t hb ↦ ⟨?_, ?_⟩
    · rw [List.length_append]
      omega
    · rw [slice_append (by omega)]
  · by_cases h127 : payloadLen = 127
    · simp only [if_neg h126, if_pos h127]
      refine Settled.guarded (not_final_incomplete _) fun b t hb ↦ ⟨?_, ?_⟩
      · rw [List.length_append]
        omega
      · rw [slice_append (by omega)]
    · simp only [if_neg h126, if_neg h127]
      exact Settled.const _

theorem settled_readMaskKey (maskBit : Bool) (pos : Nat) : Settled Final (readMaskKey maskBit pos) := by
  cases maskBit with
  | false => exact Settled.const _
  | true =>
      refine Settled.guarded (not_final_incomplete _) fun b t hb ↦ ⟨?_, ?_⟩
      · rw [List.length_append]
        omega
      · simp only [slice_append (show 4 ≤ b.length - pos by omega)]

theorem settled_readPayload (key : Option (Vector UInt8 4)) (len pos : Nat) :
    Settled Final (readPayload key len pos) := by
  refine Settled.guarded (not_final_incomplete _) fun b t hb ↦ ⟨?_, ?_⟩
  · rw [List.length_append]
    omega
  · simp only [slice_append (show len ≤ b.length - pos by omega)]

/-- Everything `frame_parser` decides, it decides about the stream. -/
theorem settled_frameParser : Settled Final frameParser :=
  settled_readHeader.bind fun (byte0, byte1) ↦
    (Settled.const (readOpcode byte0)).bind fun opcode ↦
      (settled_readLength (byte1 &&& 0x7F)).bind fun (len, _) ↦
        (Settled.const (checkLength opcode (byte0 &&& 0x80 ≠ 0) len)).bind fun _ ↦
          (settled_readMaskKey (byte1 &&& 0x80 ≠ 0) _).bind fun (key, pos) ↦
            (settled_readPayload key len pos).bind fun _ ↦ Settled.const _

end KalshiClient.WebSocket
