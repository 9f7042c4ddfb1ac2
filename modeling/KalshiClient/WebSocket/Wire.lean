import KalshiClient.Base.Checked
import KalshiClient.WebSocket.Receive

/-!
# The wire format of frames

RFC 6455 framing as data, independently of the parser: a `WireFrame` is a frame as it stands in the stream, with the
form its length is written in and the payload as it is sent, and `WireFrame.encode` is its bytes.  The limits the
client adds are part of it.  `frame_parser` accepts exactly these encodings, whatever follows
(`frameParser_eq_ok_iff`).

The source reads by index and by `subspan`, and subtracts the position from the size.  `frameParserChecked` is the
same sequence of reads with every such access checked; no check ever fails.
-/

namespace KalshiClient.WebSocket

open Incremental

/-! ## Numbers in bytes -/

/-- The last `n` bytes of a number, most significant first. -/
def bigEndianBytes : Nat → Nat → Bytes
  | 0, _ => []
  | n + 1, v => bigEndianBytes n (v / 256) ++ [UInt8.ofNat v]

@[simp] theorem length_bigEndianBytes (n v : Nat) : (bigEndianBytes n v).length = n := by
  induction n generalizing v with
  | zero => rfl
  | succ n ih => rw [bigEndianBytes, List.length_append, ih, List.length_singleton]

theorem bigEndian_concat (bs : Bytes) (b : UInt8) : bigEndian (bs ++ [b]) = bigEndian bs * 256 + b.toNat := by
  rw [bigEndian, List.foldl_append]
  rfl

theorem bigEndian_lt (bs : Bytes) : bigEndian bs < 256 ^ bs.length := by
  induction bs using List.reverseRecOn with
  | nil => exact Nat.one_pos
  | append_singleton bs b ih =>
      have hb := b.toNat_lt
      rw [bigEndian_concat, List.length_append, List.length_singleton, Nat.pow_succ]
      omega

/-- A number that fits is read back. -/
theorem bigEndian_bigEndianBytes {n v : Nat} (h : v < 256 ^ n) : bigEndian (bigEndianBytes n v) = v := by
  induction n generalizing v with
  | zero =>
      rw [Nat.pow_zero, Nat.lt_one_iff] at h
      rw [h]
      rfl
  | succ n ih =>
      rw [Nat.pow_succ] at h
      have hbyte : (UInt8.ofNat v).toNat = v % 256 := UInt8.toNat_ofNat'
      rw [bigEndianBytes, bigEndian_concat, ih (Nat.div_lt_of_lt_mul (by omega)), hbyte]
      omega

/-- Every byte string of that length is a number. -/
theorem bigEndianBytes_bigEndian {n : Nat} {bs : Bytes} (h : bs.length = n) :
    bigEndianBytes n (bigEndian bs) = bs := by
  induction n generalizing bs with
  | zero => rw [List.length_eq_zero_iff.mp h]; rfl
  | succ n ih =>
      rcases List.eq_nil_or_concat' bs with rfl | ⟨bs, b, rfl⟩
      · cases h
      · rw [List.length_append, List.length_singleton, Nat.add_right_cancel_iff] at h
        have hb := b.toNat_lt
        have hdiv : (bigEndian bs * 256 + b.toNat) / 256 = bigEndian bs := by omega
        have hlast : UInt8.ofNat (bigEndian bs * 256 + b.toNat) = b := by
          refine UInt8.toNat_inj.mp ?_
          rw [UInt8.toNat_ofNat']
          omega
        rw [bigEndian_concat, bigEndianBytes, hdiv, hlast, ih h]

/-! ## Flags in bytes -/

/-- The top bit. -/
def flag (b : Bool) : UInt8 := if b then 0x80 else 0

/-- A byte is its top bit and the seven others. -/
theorem flag_or_low : ∀ x : UInt8, flag (x &&& 0x80 ≠ 0) ||| (x &&& 0x7F) = x := by
  refine Bytes.forall_byte ?_
  decide

/-- Without reserved bits, the seven others are the opcode. -/
theorem low_eq_opcode : ∀ x : UInt8, x &&& 0x70 = 0 → x &&& 0x7F = x &&& 0x0F := by
  refine Bytes.forall_byte ?_
  decide

/-- The top bit of a byte put together from its parts. -/
theorem flag_of_or (b : Bool) : ∀ x : UInt8, x < 0x80 → decide ((flag b ||| x) &&& 0x80 ≠ 0) = b := by
  cases b <;> refine Bytes.forall_byte ?_ <;> decide

/-- The seven others. -/
theorem low_of_or (b : Bool) : ∀ x : UInt8, x < 0x80 → (flag b ||| x) &&& 0x7F = x := by
  cases b <;> refine Bytes.forall_byte ?_ <;> decide

namespace Opcode

theorem ofByte?_eq_some {b : UInt8} {opcode : Opcode} : ofByte? b = some opcode ↔ opcode.toByte = b := by
  constructor
  · intro h
    have hfound := List.find?_some h
    exact of_decide_eq_true hfound
  · rintro rfl
    cases opcode <;> rfl

end Opcode

/-- The first byte of a frame. -/
theorem readOpcode_eq_ok {byte0 : UInt8} {opcode : Opcode} :
    readOpcode byte0 = .ok opcode ↔ byte0 = flag (byte0 &&& 0x80 ≠ 0) ||| opcode.toByte := by
  rw [readOpcode]
  constructor
  · intro h
    cases hop : Opcode.ofByte? (byte0 &&& 0x0F) with
    | none =>
        rw [hop] at h
        cases h
    | some op =>
        rw [hop] at h
        dsimp only at h
        split_ifs at h with hreserved
        · cases h
        · cases h
          rw [Opcode.ofByte?_eq_some.mp hop, ← low_eq_opcode byte0 (not_not.mp hreserved), flag_or_low]
  · intro h
    have hlow : ∀ (b : Bool) (opcode : Opcode),
        (flag b ||| opcode.toByte) &&& 0x0F = opcode.toByte ∧ (flag b ||| opcode.toByte) &&& 0x70 = 0 := by
      intro b opcode
      cases b <;> cases opcode <;> exact ⟨rfl, rfl⟩
    obtain ⟨hop, hreserved⟩ := hlow (byte0 &&& 0x80 ≠ 0) opcode
    rw [← h] at hop hreserved
    rw [Opcode.ofByte?_eq_some.mpr hop.symm]
    exact if_neg (not_not.mpr hreserved)

/-! ## Frames on the wire -/

/-- The form a length is written in. -/
inductive LengthForm where
  | short | medium | long
deriving DecidableEq

namespace LengthForm

/-- The lengths that can be written so. -/
def Fits : LengthForm → Nat → Prop
  | .short, len => len ≤ 125
  | .medium, len => len < 2 ^ 16
  | .long, len => len < 2 ^ 63

/-- The seven bits of the second byte. -/
def code : LengthForm → Nat → UInt8
  | .short, len => UInt8.ofNat len
  | .medium, _ => 126
  | .long, _ => 127

/-- The number of further bytes. -/
def width : LengthForm → Nat
  | .short => 0
  | .medium => 2
  | .long => 8

end LengthForm

/-- The bytes of a masking key, if there is one. -/
def keyBytes (key : Option (Vector UInt8 4)) : Bytes := key.elim [] Vector.toList

/-- The payload behind a masking key, if there is one. -/
def unmask (key : Option (Vector UInt8 4)) (data : Bytes) : Bytes := key.elim data (applyMask · data)

/-- A frame as it is sent. -/
structure WireFrame where
  /-- FIN. -/
  fin : Bool
  /-- The opcode. -/
  opcode : Opcode
  /-- The form of the length. -/
  form : LengthForm
  /-- The masking key. -/
  key : Option (Vector UInt8 4)
  /-- The payload, masked if there is a key. -/
  data : Bytes
  fits : form.Fits data.length
  limit : data.length ≤ kMaxFramePayload
  control : 0x8 ≤ opcode.toByte → fin = true ∧ data.length ≤ 125

namespace WireFrame

variable (w : WireFrame)

/-- The first two bytes and the length. -/
def header : Bytes :=
  (flag w.fin ||| w.opcode.toByte) :: (flag w.key.isSome ||| w.form.code w.data.length) ::
    bigEndianBytes w.form.width w.data.length

/-- The bytes of the frame. -/
def encode : Bytes := w.header ++ keyBytes w.key ++ w.data

/-- The frame. -/
def frame : WebSocketFrame := ⟨w.fin, w.opcode, w.key, unmask w.key w.data⟩

end WireFrame

/-! ## Reading an encoding -/

section Reads

variable {bytes front rest : Bytes} {pos : Nat}

/-- A field at a position is what stands there. -/
theorem slice_eq {field : Bytes} {n : Nat} (hbytes : bytes = front ++ field ++ rest) (hpos : front.length = pos)
    (hn : field.length = n) : (bytes.drop pos).take n = field := by
  rw [hbytes, List.append_assoc, ← hpos, List.drop_left, ← hn, List.take_left]

theorem readLength_of_form {form : LengthForm} {len : Nat} (hfits : form.Fits len) (hfront : front.length = 2)
    (hbytes : bytes = front ++ bigEndianBytes form.width len ++ rest) :
    readLength (form.code len) bytes = .ok (len, 2 + form.width) := by
  have hslice := slice_eq hbytes hfront (length_bigEndianBytes _ _)
  have hlength : 2 + form.width ≤ bytes.length := by
    rw [hbytes, List.length_append, List.length_append, hfront, length_bigEndianBytes]
    omega
  rw [readLength]
  cases form with
  | short =>
      have hle : len ≤ 125 := hfits
      have hcode : (LengthForm.short.code len).toNat = len := by
        rw [LengthForm.code, UInt8.toNat_ofNat']
        omega
      have hne (n : UInt8) (hn : 126 ≤ n.toNat) : LengthForm.short.code len ≠ n := by
        rintro rfl
        omega
      rw [if_neg (hne 126 (by decide)), if_neg (hne 127 (by decide)), hcode]
      rfl
  | medium =>
      have hlt : len < 256 ^ 2 := hfits
      have hvalue : bigEndian ((bytes.drop 2).take 2) = len :=
        (congrArg bigEndian hslice).trans (bigEndian_bigEndianBytes hlt)
      have hcode : LengthForm.medium.code len = 126 := rfl
      have hroom : ¬ 2 + 2 > bytes.length := Nat.not_lt.mpr hlength
      rw [if_pos hcode, if_neg hroom, hvalue]
      rfl
  | long =>
      have hlt : len < 2 ^ 63 := hfits
      have hvalue : bigEndian ((bytes.drop 2).take 8) = len :=
        (congrArg bigEndian hslice).trans (bigEndian_bigEndianBytes (show len < 256 ^ 8 by omega))
      have hcode : LengthForm.long.code len = 127 := rfl
      have hroom : ¬ 2 + 8 > bytes.length := Nat.not_lt.mpr hlength
      rw [hcode, if_neg (by decide), if_pos rfl, if_neg hroom, hvalue, if_neg (Nat.not_le.mpr hlt)]
      rfl

theorem readMaskKey_of_keyBytes {key : Option (Vector UInt8 4)} (hfront : front.length = pos)
    (hbytes : bytes = front ++ keyBytes key ++ rest) :
    readMaskKey key.isSome pos bytes = .ok (key, pos + (keyBytes key).length) := by
  rw [readMaskKey]
  cases key with
  | none => rfl
  | some key =>
      have hlength : (keyBytes (some key)).length = 4 := key.length_toList
      have hslice : (bytes.drop pos).take 4 = key.toList := slice_eq hbytes hfront hlength
      have hroom : pos + 4 ≤ bytes.length := by
        rw [hbytes, List.length_append, List.length_append, hfront, hlength]
        omega
      have hkey : (Vector.ofFn fun i : Fin 4 ↦ key.toList.getD i 0) = key := by
        ext i hi
        simp
      rw [if_pos (Option.isSome_some), if_neg (Nat.not_lt.mpr hroom), hlength]
      dsimp only
      rw [hslice, hkey]

theorem readPayload_of_data {key : Option (Vector UInt8 4)} {data : Bytes} (hfront : front.length = pos)
    (hbytes : bytes = front ++ data ++ rest) :
    readPayload key data.length pos bytes = .ok (unmask key data) := by
  have hslice : (bytes.drop pos).take data.length = data := slice_eq hbytes hfront rfl
  have hroom : data.length ≤ bytes.length - pos := by
    rw [hbytes, List.length_append, List.length_append, hfront]
    omega
  rw [readPayload, if_neg (Nat.not_lt.mpr hroom), hslice]
  cases key <;> rfl

end Reads

theorem checkLength_eq_ok {opcode : Opcode} {fin : Bool} {len : Nat} :
    checkLength opcode fin len = .ok () ↔
      (0x8 ≤ opcode.toByte → fin = true ∧ len ≤ 125) ∧ len ≤ kMaxFramePayload := by
  rw [checkLength]
  split_ifs with hcontrol hlimit
  · refine iff_of_false Except.error_ne_ok fun h ↦ ?_
    obtain ⟨hfin, hlen⟩ := h.1 hcontrol.1
    rcases hcontrol.2 with hfin' | hlen'
    · exact absurd (hfin'.symm.trans hfin) Bool.false_ne_true
    · exact absurd hlen (Nat.not_le.mpr hlen')
  · exact iff_of_false Except.error_ne_ok fun h ↦ absurd h.2 (Nat.not_le.mpr hlimit)
  · refine iff_of_true rfl ⟨fun hop ↦ ?_, Nat.not_lt.mp hlimit⟩
    have hneither := not_or.mp fun h ↦ hcontrol ⟨hop, h⟩
    exact ⟨eq_true_of_ne_false hneither.1, Nat.not_lt.mp hneither.2⟩

namespace LengthForm

theorem code_lt {form : LengthForm} {len : Nat} (h : form.Fits len) : form.code len < 0x80 := by
  cases form with
  | short =>
      have hle : len ≤ 125 := h
      rw [UInt8.lt_iff_toNat_lt, code, UInt8.toNat_ofNat']
      exact Nat.lt_of_le_of_lt (Nat.mod_le len _) (Nat.lt_of_le_of_lt hle (by decide))
  | medium => exact (by decide : (126 : UInt8) < 0x80)
  | long => exact (by decide : (127 : UInt8) < 0x80)

end LengthForm

namespace WireFrame

variable (w : WireFrame)

theorem length_header : w.header.length = 2 + w.form.width := by
  rw [header, List.length_cons, List.length_cons, length_bigEndianBytes]
  omega

theorem length_encode :
    w.encode.length = 2 + w.form.width + (keyBytes w.key).length + w.data.length := by
  rw [encode, List.length_append, List.length_append, length_header]

end WireFrame

theorem Opcode.toByte_lt (opcode : Opcode) : opcode.toByte < 0x80 := by
  cases opcode <;> decide

/-- The parser reads an encoding back, whatever follows. -/
theorem frameParser_encode (w : WireFrame) (t : Bytes) :
    frameParser (w.encode ++ t) = .ok ⟨w.frame, w.encode.length⟩ := by
  have hfin := flag_of_or w.fin w.opcode.toByte w.opcode.toByte_lt
  have hmask := flag_of_or w.key.isSome _ (LengthForm.code_lt w.fits)
  have hopcode : readOpcode (flag w.fin ||| w.opcode.toByte) = .ok w.opcode := by
    rw [readOpcode_eq_ok, hfin]
  have hcode := low_of_or w.key.isSome _ (LengthForm.code_lt w.fits)
  have hbytes : w.encode ++ t = [flag w.fin ||| w.opcode.toByte, flag w.key.isSome ||| w.form.code w.data.length] ++
      bigEndianBytes w.form.width w.data.length ++ (keyBytes w.key ++ (w.data ++ t)) := by
    rw [WireFrame.encode, WireFrame.header, List.append_assoc, List.append_assoc]
    rfl
  have hlen : readLength (w.form.code w.data.length) (w.encode ++ t) = .ok (w.data.length, 2 + w.form.width) :=
    readLength_of_form w.fits rfl hbytes
  have hkey : readMaskKey w.key.isSome (2 + w.form.width) (w.encode ++ t) = .ok (w.key, _) :=
    readMaskKey_of_keyBytes w.length_header
      (by rw [WireFrame.encode, List.append_assoc (w.header ++ keyBytes w.key)])
  have hpayload : readPayload w.key w.data.length (2 + w.form.width + (keyBytes w.key).length) (w.encode ++ t) =
      .ok (unmask w.key w.data) :=
    readPayload_of_data (by rw [List.length_append, w.length_header]) rfl
  calc frameParser (w.encode ++ t)
    _ = (readOpcode (flag w.fin ||| w.opcode.toByte) >>= _) := rfl
    _ = _ := by
      rw [hopcode, Except.bind_ok, hcode, hlen, Except.bind_ok]
      dsimp only
      rw [hfin, checkLength_eq_ok.mpr ⟨w.control, w.limit⟩, Except.bind_ok, hmask, hkey, Except.bind_ok]
      dsimp only
      rw [hpayload, Except.bind_ok, w.length_encode]
      rfl

/-- Short of an encoding, the parser asks for more. -/
theorem frameParser_of_truncated (w : WireFrame) {part : Bytes} (hpart : part <+: w.encode) (hne : part ≠ w.encode) :
    ∃ message, frameParser part = .error ⟨.incomplete, message⟩ := by
  obtain ⟨t, ht⟩ := hpart
  have hwhole : frameParser (part ++ t) = .ok ⟨w.frame, w.encode.length⟩ := by
    rw [ht, ← List.append_nil w.encode, frameParser_encode, List.append_nil]
  match hresult : frameParser part with
  | .error ⟨.incomplete, message⟩ => exact ⟨message, rfl⟩
  | .error ⟨.malformed, message⟩ =>
      rw [settled_frameParser.error_append hresult rfl t] at hwhole
      cases hwhole
  | .ok r =>
      have hle := (frameParser_consumed hresult).2
      rw [settled_frameParser.ok_append hresult t] at hwhole
      cases hwhole
      have ht' : t = [] := by
        rw [← List.length_eq_zero_iff, ← Nat.le_zero]
        have hlength := congrArg List.length ht
        rw [List.length_append] at hlength
        change w.encode.length ≤ part.length at hle
        omega
      exact absurd (by rw [← ht, ht', List.append_nil]) hne

/-! ## What is accepted is an encoding -/

theorem low_lt : ∀ x : UInt8, x &&& 0x7F < 0x80 := by
  refine Bytes.forall_byte ?_
  decide

theorem length_slice {bytes : Bytes} {pos n : Nat} (h : pos + n ≤ bytes.length) :
    ((bytes.drop pos).take n).length = n := by
  rw [List.length_take, List.length_drop]
  omega

section Inversion

variable {bytes : Bytes} {len pos pos' : Nat}

theorem readHeader_eq_ok {byte0 byte1 : UInt8} (h : readHeader bytes = .ok (byte0, byte1)) :
    bytes.take 2 = [byte0, byte1] := by
  match bytes with
  | [] => cases h
  | [_] => cases h
  | _ :: _ :: _ =>
      cases h
      rfl

theorem readLength_eq_ok {code : UInt8} (h : readLength code bytes = .ok (len, pos)) (hcode : code < 0x80) :
    ∃ form : LengthForm, form.Fits len ∧ form.code len = code ∧ pos = 2 + form.width ∧
      (bytes.drop 2).take form.width = bigEndianBytes form.width len := by
  rw [readLength] at h
  split_ifs at h with h126 hroom h127 hroom htop
  · cases h
  · cases h
    have hslice := length_slice (Nat.not_lt.mp hroom)
    have hlt := bigEndian_lt ((bytes.drop 2).take 2)
    rw [hslice] at hlt
    exact ⟨.medium, hlt, h126.symm, rfl, (bigEndianBytes_bigEndian hslice).symm⟩
  · cases h
  · cases h
  · cases h
    have hslice := length_slice (Nat.not_lt.mp hroom)
    exact ⟨.long, Nat.not_le.mp htop, h127.symm, rfl, (bigEndianBytes_bigEndian hslice).symm⟩
  · cases h
    have hne126 : code.toNat ≠ 126 := fun h ↦ h126 (UInt8.toNat_inj.mp h)
    have hne127 : code.toNat ≠ 127 := fun h ↦ h127 (UInt8.toNat_inj.mp h)
    have hlt : code.toNat < 128 := UInt8.lt_iff_toNat_lt.mp hcode
    have hle : code.toNat ≤ 125 := by omega
    exact ⟨.short, hle, UInt8.ofNat_toNat, rfl, rfl⟩

theorem toList_ofFn_getD {raw : Bytes} (h : raw.length = 4) :
    (Vector.ofFn fun i : Fin 4 ↦ raw.getD i 0).toList = raw := by
  match raw with
  | [_, _, _, _] => rfl

theorem readMaskKey_eq_ok {maskBit : Bool} {key : Option (Vector UInt8 4)}
    (h : readMaskKey maskBit pos bytes = .ok (key, pos')) :
    key.isSome = maskBit ∧ pos' = pos + (keyBytes key).length ∧
      (bytes.drop pos).take (keyBytes key).length = keyBytes key := by
  rw [readMaskKey] at h
  split_ifs at h with hmask hroom
  · cases h
  · cases h
    have hslice := length_slice (Nat.not_lt.mp hroom)
    have hkey : keyBytes (some (Vector.ofFn fun i ↦ ((bytes.drop pos).take 4).getD i 0)) = (bytes.drop pos).take 4 :=
      toList_ofFn_getD hslice
    exact ⟨hmask.symm, by rw [hkey, hslice], by rw [hkey, hslice]⟩
  · cases h
    exact ⟨(eq_false_of_ne_true hmask).symm, rfl, rfl⟩

theorem readPayload_eq_ok {key : Option (Vector UInt8 4)} {payload : Bytes}
    (h : readPayload key len pos bytes = .ok payload) : payload = unmask key ((bytes.drop pos).take len) := by
  rw [readPayload] at h
  split_ifs at h with hroom
  · cases h
  · cases key <;> (cases h; rfl)

end Inversion

/-- Whatever the parser accepts is an encoding of what it returns. -/
theorem exists_encode {b : Bytes} {r : ParseResult} (h : frameParser b = .ok r) :
    ∃ w : WireFrame, w.encode = b.take r.bytesConsumed ∧ w.frame = r.frame := by
  have hconsumed := frameParser_consumed h
  obtain ⟨⟨byte0, byte1⟩, hhead, h⟩ := Except.bind_eq_ok_iff.mp h
  obtain ⟨opcode, hopcode, h⟩ := Except.bind_eq_ok_iff.mp h
  obtain ⟨⟨len, pos⟩, hlen, h⟩ := Except.bind_eq_ok_iff.mp h
  obtain ⟨⟨⟩, hcheck, h⟩ := Except.bind_eq_ok_iff.mp h
  obtain ⟨⟨key, pos'⟩, hkey, h⟩ := Except.bind_eq_ok_iff.mp h
  obtain ⟨payload, hpayload, h⟩ := Except.bind_eq_ok_iff.mp h
  cases h
  obtain ⟨form, hfits, hcode, rfl, hlength⟩ := readLength_eq_ok hlen (low_lt byte1)
  obtain ⟨hmask, rfl, hkeyBytes⟩ := readMaskKey_eq_ok hkey
  obtain ⟨hcontrol, hlimit⟩ := checkLength_eq_ok.mp hcheck
  have hdata := length_slice hconsumed.2
  refine ⟨⟨byte0 &&& 0x80 ≠ 0, opcode, form, key, (b.drop (2 + form.width + (keyBytes key).length)).take len,
    ?_, ?_, ?_⟩, ?_, ?_⟩
  · exact hdata.symm ▸ hfits
  · exact hdata.symm ▸ hlimit
  · exact hdata.symm ▸ hcontrol
  · have hbyte0 := readOpcode_eq_ok.mp hopcode
    rw [WireFrame.encode, WireFrame.header]
    dsimp only
    rw [hdata, hcode, hmask, ← hbyte0, flag_or_low, List.take_add, List.take_add, List.take_add,
      readHeader_eq_ok hhead, hlength, hkeyBytes]
    rfl
  · rw [WireFrame.frame, readPayload_eq_ok hpayload]

/-! ## The accesses of the source

Each read again, with the accesses it makes in the source. -/

section Accesses

variable {ε : Type}

/-- `bytes[i]`. -/
def byteAt (bytes : Bytes) (i : Nat) : Checked ε UInt8 := .partially bytes[i]?

/-- `bytes.subspan(pos, n)`. -/
def subspan (bytes : Bytes) (pos n : Nat) : Checked ε Bytes :=
  .partially (if pos + n ≤ bytes.length then some ((bytes.drop pos).take n) else none)

/-- `std::ranges::copy` of a span to the start of a zeroed array of `n` bytes. -/
def copyInto (n : Nat) (span : Bytes) : Checked ε Bytes :=
  .partially (if span.length ≤ n then some (span ++ List.replicate (n - span.length) 0) else none)

/-- `mask_key.value()[i % 4]`. -/
def keyAt (key : Option (Vector UInt8 4)) (i : Nat) : Checked ε UInt8 :=
  .partially (key.bind fun key ↦ key.toList[i % 4]?)

variable {bytes : Bytes} {pos n : Nat}

theorem subspan_eq (h : pos + n ≤ bytes.length) :
    (subspan bytes pos n : Checked ε Bytes) = .defined (.ok ((bytes.drop pos).take n)) :=
  Checked.partially_some (if_pos h)

theorem copyInto_eq {span : Bytes} (h : span.length = n) : (copyInto n span : Checked ε Bytes) = .defined (.ok span) := by
  refine Checked.partially_some ?_
  rw [if_pos h.le, h, Nat.sub_self, List.replicate_zero, List.append_nil]

theorem keyAt_eq (key : Vector UInt8 4) (i : Nat) :
    (keyAt (some key) i : Checked ε UInt8) = .defined (.ok (key.get ⟨i % 4, Nat.mod_lt _ (by decide)⟩)) := by
  have hi : i % 4 < key.toList.length := by
    rw [key.length_toList]
    exact Nat.mod_lt _ (by decide)
  exact Checked.partially_some (List.getElem?_eq_getElem hi)

/-- The loop that unmasks the payload from its `i`th byte on. -/
def unmaskChecked (key : Option (Vector UInt8 4)) : Nat → Bytes → Checked ε Bytes
  | _, [] => return []
  | i, b :: bs => do
    let k ← keyAt key i
    let bs ← unmaskChecked key (i + 1) bs
    return (b ^^^ k) :: bs

theorem unmaskChecked_eq (key : Vector UInt8 4) (i : Nat) (bs : Bytes) :
    (unmaskChecked (some key) i bs : Checked ε Bytes) =
      .defined (.ok (bs.mapIdx fun j b ↦ b ^^^ key.get ⟨(i + j) % 4, Nat.mod_lt _ (by decide)⟩)) := by
  induction bs generalizing i with
  | nil => rfl
  | cons b bs ih =>
      rw [unmaskChecked, keyAt_eq, Checked.defined_ok_bind, ih, Checked.defined_ok_bind, List.mapIdx_cons]
      simp only [Nat.add_assoc, Nat.add_comm 1]
      rfl

end Accesses

/-- The first two bytes. -/
def readHeaderChecked (bytes : Bytes) : Checked ParseError (UInt8 × UInt8) :=
  if bytes.length = 0 then .fail ⟨.incomplete, "No bytes available to parse"⟩
  else if bytes.length < 2 then .fail ⟨.incomplete, "Frame header incomplete: only 1 byte received"⟩
  else do
    let byte0 ← byteAt bytes 0
    let byte1 ← byteAt bytes 1
    return (byte0, byte1)

/-- The payload length. -/
def readLengthChecked (payloadLen : UInt8) (bytes : Bytes) : Checked ParseError (Nat × Nat) :=
  if payloadLen = 126 then
    if 2 + 2 > bytes.length then
      .fail ⟨.incomplete, "Frame header incomplete: missing 2-byte extended length field"⟩
    else do
      let extended ← subspan bytes 2 2
      let buf ← copyInto 2 extended
      return (bigEndian buf, 2 + 2)
  else if payloadLen = 127 then
    if 2 + 8 > bytes.length then
      .fail ⟨.incomplete, "Frame header incomplete: missing 8-byte extended length field"⟩
    else do
      let extended ← subspan bytes 2 8
      let buf ← copyInto 8 extended
      if 2 ^ 63 ≤ bigEndian buf then .fail ⟨.malformed, "Malformed frame: 64-bit length has MSB set"⟩
      else return (bigEndian buf, 2 + 8)
  else return (payloadLen.toNat, 2)

/-- The masking key. -/
def readMaskKeyChecked (maskBit : Bool) (pos : Nat) (bytes : Bytes) :
    Checked ParseError (Option (Vector UInt8 4) × Nat) :=
  if maskBit then
    if pos + 4 > bytes.length then
      .fail ⟨.incomplete, "Frame header incomplete: missing 4-byte masking key"⟩
    else do
      let span ← subspan bytes pos 4
      let rawKey ← copyInto 4 span
      return (some (Vector.ofFn fun i ↦ rawKey.getD i 0), pos + 4)
  else return (none, pos)

/-- The payload. -/
def readPayloadChecked (maskBit : Bool) (key : Option (Vector UInt8 4)) (len pos : Nat) (bytes : Bytes) :
    Checked ParseError Bytes := do
  let left ← .minus bytes.length pos
  if len > left then
    .fail ⟨.incomplete, "Frame payload incomplete: received fewer bytes than indicated by length field"⟩
  else
    let payload ← subspan bytes pos len
    if maskBit then unmaskChecked key 0 payload else return payload

/-- `frame_parser` with its accesses. -/
def frameParserChecked (bytes : Bytes) : Checked ParseError ParseResult := do
  let (byte0, byte1) ← readHeaderChecked bytes
  let fin := byte0 &&& 0x80 ≠ 0
  let opcode ← .defined (readOpcode byte0)
  let maskBit := byte1 &&& 0x80 ≠ 0
  let (len, pos) ← readLengthChecked (byte1 &&& 0x7F) bytes
  Checked.defined (checkLength opcode fin len)
  let (key, pos) ← readMaskKeyChecked maskBit pos bytes
  let payload ← readPayloadChecked maskBit key len pos bytes
  return ⟨⟨fin, opcode, key, payload⟩, pos + len⟩

theorem readHeaderChecked_eq (bytes : Bytes) : readHeaderChecked bytes = .defined (readHeader bytes) := by
  match bytes with
  | [] => rfl
  | [_] => rfl
  | _ :: _ :: _ => rfl

theorem readLengthChecked_eq (payloadLen : UInt8) (bytes : Bytes) :
    readLengthChecked payloadLen bytes = .defined (readLength payloadLen bytes) := by
  refine Checked.ite_defined (fun _ ↦ Checked.ite_defined (fun _ ↦ rfl) fun hroom ↦ ?_)
    fun _ ↦ Checked.ite_defined (fun _ ↦ Checked.ite_defined (fun _ ↦ rfl) fun hroom ↦ ?_) fun _ ↦ rfl
  · rw [subspan_eq (Nat.not_lt.mp hroom), Checked.defined_ok_bind, copyInto_eq (length_slice (Nat.not_lt.mp hroom))]
    rfl
  · rw [subspan_eq (Nat.not_lt.mp hroom), Checked.defined_ok_bind, copyInto_eq (length_slice (Nat.not_lt.mp hroom)),
      Checked.defined_ok_bind]
    exact Checked.ite_defined (fun _ ↦ rfl) fun _ ↦ rfl

theorem readMaskKeyChecked_eq (maskBit : Bool) (pos : Nat) (bytes : Bytes) :
    readMaskKeyChecked maskBit pos bytes = .defined (readMaskKey maskBit pos bytes) := by
  refine Checked.ite_defined (fun _ ↦ Checked.ite_defined (fun _ ↦ rfl) fun hroom ↦ ?_) fun _ ↦ rfl
  rw [subspan_eq (Nat.not_lt.mp hroom), Checked.defined_ok_bind, copyInto_eq (length_slice (Nat.not_lt.mp hroom))]
  rfl

/-- The payload is read after a key only if there is one, and from a position in the buffer. -/
theorem readPayloadChecked_eq {maskBit : Bool} {key : Option (Vector UInt8 4)} {pos : Nat} {bytes : Bytes} (len : Nat)
    (hkey : key.isSome = maskBit) (hpos : pos ≤ bytes.length) :
    readPayloadChecked maskBit key len pos bytes = .defined (readPayload key len pos bytes) := by
  rw [readPayloadChecked, Checked.minus_eq hpos, Checked.defined_ok_bind]
  refine Checked.ite_defined (fun _ ↦ rfl) fun hroom ↦ ?_
  have hle : pos + len ≤ bytes.length := by omega
  rw [subspan_eq hle, Checked.defined_ok_bind, ← hkey]
  cases key with
  | none => rfl
  | some key =>
      refine (unmaskChecked_eq key 0 _).trans ?_
      simp only [Nat.zero_add]
      rfl

/-- No access of `frame_parser` is out of range and no subtraction goes below zero. -/
theorem frameParserChecked_eq (b : Bytes) : frameParserChecked b = .defined (frameParser b) := by
  rw [frameParserChecked, readHeaderChecked_eq]
  refine Checked.bind_defined fun ⟨byte0, byte1⟩ hhead ↦ ?_
  refine Checked.bind_defined fun opcode _ ↦ ?_
  dsimp only
  rw [readLengthChecked_eq]
  refine Checked.bind_defined fun ⟨len, pos⟩ hlen ↦ ?_
  refine Checked.bind_defined fun _ _ ↦ ?_
  dsimp only
  rw [readMaskKeyChecked_eq]
  refine Checked.bind_defined fun ⟨key, pos'⟩ hkey ↦ ?_
  have hpos := (readLength_pos hlen (readHeader_length hhead)).2
  dsimp only
  rw [readPayloadChecked_eq len (readMaskKey_eq_ok hkey).1 (readMaskKey_pos hkey hpos).2]
  exact Checked.bind_defined fun _ _ ↦ rfl

/-- `frame_parser` accepts a frame of `n` bytes exactly if the first `n` bytes are an encoding of it, and it gets
there without an undefined access. -/
theorem frameParser_eq_ok_iff (b : Bytes) (f : WebSocketFrame) (n : Nat) :
    (frameParser b = .ok ⟨f, n⟩ ↔ n ≤ b.length ∧ ∃ w : WireFrame, w.encode = b.take n ∧ w.frame = f) ∧
      frameParserChecked b = .defined (frameParser b) := by
  refine ⟨⟨fun h ↦ ⟨(frameParser_consumed h).2, exists_encode h⟩, ?_⟩, frameParserChecked_eq b⟩
  rintro ⟨hn, w, hencode, rfl⟩
  have hlength : w.encode.length = n := by
    rw [hencode, List.length_take, Nat.min_eq_left hn]
  rw [← List.take_append_drop n b, ← hencode, frameParser_encode, hlength]

end KalshiClient.WebSocket
