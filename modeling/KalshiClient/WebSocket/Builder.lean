import KalshiClient.WebSocket.Wire

/-!
# Sending frames: `frame_builder`, `send_frame`, `send_pong` and `send_text`

The builder of `src/protocol/frame_builder.cpp` always sets FIN, always masks, and chooses the shortest form of the
length.  What it builds for a frame within the limits is therefore an encoding in the sense of `WireFrame`, and that
the parser reads it back is the completeness of the parser.  Any frame that was parsed is within the limits.

`RAND_bytes` is a parameter: the key it draws, or nothing if it fails.
-/

namespace KalshiClient.WebSocket

/-! ## The source -/

/-- The bytes of the length field, the mask bit set. -/
def lengthField (size : Nat) : Bytes :=
  if size ≤ 125 then [0x80 ||| UInt8.ofNat size]
  else if size ≤ 65535 then (0x80 ||| 126) :: bigEndianBytes 2 size
  else (0x80 ||| 127) :: bigEndianBytes 8 size

/-- `frame_builder`. -/
def frameBuilder (drawn : Option (Vector UInt8 4)) (frame : WebSocketFrame) : Except String Bytes :=
  match drawn with
  | none => .error "Failed to generate masking key"
  | some key =>
    .ok ((0x80 ||| frame.opCode.toByte) :: lengthField frame.payload.length ++ key.toList ++
      applyMask key frame.payload)

/-- `WebSocket::send_frame`: what is handed to `send_data`, and the result if `send_data` answers `answer`. -/
def sendFrame (drawn : Option (Vector UInt8 4)) (answer : Except String Unit) (frame : WebSocketFrame) :
    List Bytes × Except String Unit :=
  match frameBuilder drawn frame with
  | .error e => ([], .error e)
  | .ok bytes => ([bytes], answer)

/-- `WebSocket::send_pong`. -/
def sendPong (drawn : Option (Vector UInt8 4)) (answer : Except String Unit) (pingFrame : WebSocketFrame) :
    List Bytes × Except String Unit :=
  sendFrame drawn answer ⟨true, .pong, none, pingFrame.payload⟩

/-- `WebSocket::send_text`. -/
def sendText (drawn : Option (Vector UInt8 4)) (answer : Except String Unit) (text : Bytes) :
    List Bytes × Except String Unit :=
  sendFrame drawn answer ⟨true, .text, none, text⟩

/-! ## Frames that may be sent -/

/-- The limits on what is sent: those the parser has, whatever FIN. -/
structure WebSocketFrame.Sendable (frame : WebSocketFrame) : Prop where
  limit : frame.payload.length ≤ kMaxFramePayload
  control : 0x8 ≤ frame.opCode.toByte → frame.payload.length ≤ 125

@[simp] theorem length_applyMask (key : Vector UInt8 4) (payload : Bytes) :
    (applyMask key payload).length = payload.length :=
  List.length_mapIdx

@[simp] theorem length_unmask (key : Option (Vector UInt8 4)) (data : Bytes) :
    (unmask key data).length = data.length := by
  cases key with
  | none => rfl
  | some key => exact length_applyMask key data

/-- Masking twice changes nothing. -/
@[simp] theorem applyMask_applyMask (key : Vector UInt8 4) (payload : Bytes) :
    applyMask key (applyMask key payload) = payload := by
  refine List.ext_getElem (by simp) fun i _ _ ↦ ?_
  simp only [applyMask, List.getElem_mapIdx, UInt8.xor_assoc, UInt8.xor_self, UInt8.xor_zero]

/-- What was parsed may be sent. -/
theorem sendable_of_frameParser {b : Bytes} {r : ParseResult} (h : frameParser b = .ok r) : r.frame.Sendable := by
  obtain ⟨w, -, hframe⟩ := exists_encode h
  rw [← hframe]
  constructor
  · exact (length_unmask w.key w.data).symm ▸ w.limit
  · exact fun hop ↦ (length_unmask w.key w.data).symm ▸ (w.control hop).2

namespace LengthForm

/-- The form the builder chooses. -/
def shortest (size : Nat) : LengthForm :=
  if size ≤ 125 then .short else if size ≤ 65535 then .medium else .long

theorem shortest_fits {size : Nat} (h : size ≤ kMaxFramePayload) : (shortest size).Fits size := by
  rw [shortest]
  split_ifs with hshort hmedium
  · exact hshort
  · exact Nat.lt_succ_of_le hmedium
  · exact Nat.lt_of_le_of_lt h (by decide)

theorem lengthField_eq (size : Nat) :
    lengthField size = (0x80 ||| (shortest size).code size) :: bigEndianBytes (shortest size).width size := by
  rw [lengthField, shortest]
  split_ifs <;> rfl

end LengthForm

/-- What is built for a frame. -/
def WebSocketFrame.Sendable.wire {frame : WebSocketFrame} (h : frame.Sendable) (key : Vector UInt8 4) : WireFrame where
  fin := true
  opcode := frame.opCode
  form := .shortest frame.payload.length
  key := some key
  data := applyMask key frame.payload
  fits := (length_applyMask key frame.payload).symm ▸ LengthForm.shortest_fits h.limit
  limit := (length_applyMask key frame.payload).symm ▸ h.limit
  control hop := ⟨rfl, (length_applyMask key frame.payload).symm ▸ h.control hop⟩

namespace WebSocketFrame.Sendable

variable {frame : WebSocketFrame} (h : frame.Sendable) (key : Vector UInt8 4)

theorem frameBuilder_eq : frameBuilder (some key) frame = .ok (h.wire key).encode := by
  have hlength := length_applyMask key frame.payload
  rw [frameBuilder, LengthForm.lengthField_eq, WireFrame.encode, WireFrame.header, wire]
  dsimp only
  rw [hlength]
  rfl

theorem sendFrame_eq (answer : Except String Unit) :
    sendFrame (some key) answer frame = ([(h.wire key).encode], answer) := by
  rw [sendFrame, h.frameBuilder_eq key]

theorem frame_wire : (h.wire key).frame = ⟨true, frame.opCode, some key, frame.payload⟩ := by
  rw [WireFrame.frame, wire]
  dsimp only [unmask, Option.elim]
  rw [applyMask_applyMask]

theorem frameParser_wire (t : Bytes) :
    frameParser ((h.wire key).encode ++ t) =
      .ok ⟨⟨true, frame.opCode, some key, frame.payload⟩, (h.wire key).encode.length⟩ := by
  rw [frameParser_encode, frame_wire]

end WebSocketFrame.Sendable

/-- A text within the limit is sent in one frame, which is read back as the text. -/
theorem frameParser_sendText {text : Bytes} (h : text.length ≤ kMaxFramePayload) (key : Vector UInt8 4)
    (answer : Except String Unit) :
    ∃ built, sendText (some key) answer text = ([built], answer) ∧
      ∀ t, frameParser (built ++ t) = .ok ⟨⟨true, .text, some key, text⟩, built.length⟩ := by
  have hdata : ¬ 0x8 ≤ Opcode.text.toByte := by decide
  have hsendable : (⟨true, .text, none, text⟩ : WebSocketFrame).Sendable := ⟨h, fun hop ↦ absurd hop hdata⟩
  exact ⟨_, hsendable.sendFrame_eq key answer, hsendable.frameParser_wire key⟩

/-- What is built for a frame within the limits is read back, whatever follows, and nothing short of it is a frame.
Every frame that was parsed is within the limits, so it can be built again and read back, and the Pong for a Ping
that was parsed carries the payload of the Ping. -/
theorem frameParser_frameBuilder :
    (∀ (frame : WebSocketFrame) (key : Vector UInt8 4), frame.Sendable →
      ∃ built, frameBuilder (some key) frame = .ok built ∧
        (∀ t, frameParser (built ++ t) = .ok ⟨⟨true, frame.opCode, some key, frame.payload⟩, built.length⟩) ∧
        ∀ part, part <+: built → part ≠ built → ∃ message, frameParser part = .error ⟨.incomplete, message⟩) ∧
    (∀ (b : Bytes) (r : ParseResult) (key : Vector UInt8 4), frameParser b = .ok r →
      ∃ built, frameBuilder (some key) r.frame = .ok built ∧
        ∀ t, frameParser (built ++ t) = .ok ⟨⟨true, r.frame.opCode, some key, r.frame.payload⟩, built.length⟩) ∧
    ∀ (b : Bytes) (r : ParseResult) (key : Vector UInt8 4) (answer : Except String Unit), frameParser b = .ok r →
      r.frame.opCode = .ping →
      ∃ built, sendPong (some key) answer r.frame = ([built], answer) ∧
        ∀ t, frameParser (built ++ t) = .ok ⟨⟨true, .pong, some key, r.frame.payload⟩, built.length⟩ := by
  refine ⟨?_, ?_, ?_⟩
  · intro frame key h
    refine ⟨_, h.frameBuilder_eq key, h.frameParser_wire key, fun part hpart hne ↦ ?_⟩
    exact frameParser_of_truncated _ hpart hne
  · intro b r key hr
    have h := sendable_of_frameParser hr
    exact ⟨_, h.frameBuilder_eq key, h.frameParser_wire key⟩
  · intro b r key answer hr hping
    have hlimits := sendable_of_frameParser hr
    have hcontrol : r.frame.payload.length ≤ 125 := hlimits.control (hping ▸ by decide)
    have h : (⟨true, .pong, none, r.frame.payload⟩ : WebSocketFrame).Sendable := ⟨hlimits.limit, fun _ ↦ hcontrol⟩
    exact ⟨_, h.sendFrame_eq key answer, h.frameParser_wire key⟩

/-- The Ping `hi`, sent in a masked frame. -/
theorem frameParser_frameBuilder_ping :
    ∃ built, frameBuilder (some #v[1, 2, 3, 4]) ⟨true, .ping, none, [0x68, 0x69]⟩ = .ok built ∧
      ∀ t, frameParser (built ++ t) = .ok ⟨⟨true, .ping, some #v[1, 2, 3, 4], [0x68, 0x69]⟩, built.length⟩ := by
  obtain ⟨built, hbuilt, hparse, -⟩ :=
    frameParser_frameBuilder.1 ⟨true, .ping, none, [0x68, 0x69]⟩ #v[1, 2, 3, 4] ⟨by decide, by decide⟩
  exact ⟨built, hbuilt, hparse⟩

end KalshiClient.WebSocket
