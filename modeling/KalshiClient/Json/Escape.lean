import KalshiClient.Base.Result
import KalshiClient.Json.Syntax

/-!
# Escape sequences: `decode_json_string`

The escape decoder of `src/encoding/json_parser.cpp` (with `hex4` and `append_utf8`), and its
specification against the grammar: on the text of a string body, it succeeds exactly when the
surrogates are paired, and then returns what the body stands for (`decodeJsonString_text`).

The arithmetic is that of the source, on 32-bit words.  That shifting and masking computes the digits
of a number in base 16 and the pieces of a UTF-8 encoding is proved once here.
-/

namespace KalshiClient.Json

open Bytes

/-- The value `hex4` adds for one character; the last branch is taken for anything that is neither a
digit nor a lower-case letter, as the source relies on the lexer. -/
def hexDigit (c : UInt8) : UInt32 :=
  if '0'.toUInt8 ≤ c && c ≤ '9'.toUInt8 then (c - '0'.toUInt8).toUInt32
  else if 'a'.toUInt8 ≤ c && c ≤ 'f'.toUInt8 then (c - 'a'.toUInt8 + 10).toUInt32
  else UInt32.ofInt (c.toInt8.toInt - 65 + 10)

/-- `hex4`. -/
def hex4 (s : Bytes) : UInt32 := (s.take 4).foldl (fun v c ↦ (v <<< 4) ||| hexDigit c) 0

/-- `static_cast<char>(tag | x)`. -/
def byteOr (tag x : UInt32) : UInt8 := (tag ||| x).toUInt8

/-- The scalar value a surrogate pair writes: `0x10000 + ((cp - 0xD800) << 10) + (low - 0xDC00)`. -/
def surrogatePair (cp low : UInt32) : UInt32 :=
  (0x10000 : UInt32) + ((cp - 0xD800) <<< (10 : UInt32)) + (low - 0xDC00)

/-- `append_utf8`: the bytes it appends. -/
def appendUtf8 (cp : UInt32) : Bytes :=
  if cp < 0x80 then [cp.toUInt8]
  else if cp < 0x800 then [byteOr 0xC0 (cp >>> 6), byteOr 0x80 (cp &&& 0x3F)]
  else if cp < 0x10000 then
    [byteOr 0xE0 (cp >>> 12), byteOr 0x80 ((cp >>> 6) &&& 0x3F), byteOr 0x80 (cp &&& 0x3F)]
  else
    [byteOr 0xF0 (cp >>> 18), byteOr 0x80 ((cp >>> 12) &&& 0x3F),
      byteOr 0x80 ((cp >>> 6) &&& 0x3F), byteOr 0x80 (cp &&& 0x3F)]

/-- The cases of the switch that stand for one byte. -/
def shortEscape (e : UInt8) : Option UInt8 :=
  if e = '"'.toUInt8 then some '"'.toUInt8
  else if e = '\\'.toUInt8 then some '\\'.toUInt8
  else if e = '/'.toUInt8 then some '/'.toUInt8
  else if e = 'b'.toUInt8 then some 0x08
  else if e = 'f'.toUInt8 then some 0x0C
  else if e = 'n'.toUInt8 then some 0x0A
  else if e = 'r'.toUInt8 then some 0x0D
  else if e = 't'.toUInt8 then some 0x09
  else none

/-- `decode_json_string`.  The source walks an index over `raw`; its tests `i + 4 >= raw.size()` and
`i + 6 >= raw.size()` are the patterns that ask for four and six further bytes. -/
def decodeJsonString : Bytes → Except String Bytes
  | [] => .ok []
  | c :: t =>
    if c ≠ '\\'.toUInt8 then do
      let out ← decodeJsonString t
      .ok (c :: out)
    else
      match t with
      | [] => .error "Dangling backslash in string"
      | e :: t =>
        match shortEscape e with
        | some b => do
          let out ← decodeJsonString t
          .ok (b :: out)
        | none =>
          if e = 'u'.toUInt8 then
            match t with
            | h₁ :: h₂ :: h₃ :: h₄ :: t =>
              let cp := hex4 [h₁, h₂, h₃, h₄]
              if 0xD800 ≤ cp && cp ≤ 0xDBFF then
                match t with
                | b :: u :: g₁ :: g₂ :: g₃ :: g₄ :: t =>
                  if b ≠ '\\'.toUInt8 || u ≠ 'u'.toUInt8 then
                    .error "Unpaired UTF-16 surrogate in string"
                  else
                    let low := hex4 [g₁, g₂, g₃, g₄]
                    if low < 0xDC00 || low > 0xDFFF then
                      .error "Invalid UTF-16 surrogate pair in string"
                    else do
                      let out ← decodeJsonString t
                      .ok (appendUtf8 (surrogatePair cp low) ++ out)
                | _ => .error "Unpaired UTF-16 surrogate in string"
              else if 0xDC00 ≤ cp && cp ≤ 0xDFFF then
                .error "Unpaired UTF-16 surrogate in string"
              else do
                let out ← decodeJsonString t
                .ok (appendUtf8 cp ++ out)
            | _ => .error "Truncated \\u escape"
          else .error "Invalid escape in string"

/-! ## Words as numbers -/

theorem hexDigit_toNat : ∀ c : UInt8, isHex c = true →
    (hexDigit c).toNat = hexVal c ∧ hexVal c < 16 := by
  refine Bytes.forall_byte ?_
  decide

/-- One step of `hex4`: a free nibble is filled. -/
theorem toNat_shiftLeft_or (v d : UInt32) (hv : v.toNat < 2 ^ 28) (hd : d.toNat < 16) :
    (v <<< 4 ||| d).toNat = v.toNat * 16 + d.toNat := by
  have hor := Nat.two_pow_add_eq_or_of_lt (i := 4) (b := d.toNat) hd v.toNat
  rw [UInt32.toNat_or, UInt32.toNat_shiftLeft, show (4 : UInt32).toNat % 32 = 4 from rfl,
    Nat.shiftLeft_eq, Nat.mod_eq_of_lt (by omega), Nat.mul_comm, ← hor]

/-- `hex4` reads the code unit. -/
theorem hex4_toNat (q : HexQuad) : (hex4 q.text).toNat = q.unit ∧ q.unit < 0x10000 := by
  have hq := q.isHex
  simp only [Bool.and_eq_true] at hq
  obtain ⟨⟨⟨ha, hb⟩, hc⟩, hd⟩ := hq
  obtain ⟨ea, la⟩ := hexDigit_toNat _ ha
  obtain ⟨eb, lb⟩ := hexDigit_toNat _ hb
  obtain ⟨ec, lc⟩ := hexDigit_toNat _ hc
  obtain ⟨ed, ld⟩ := hexDigit_toNat _ hd
  have h₁ := toNat_shiftLeft_or 0 (hexDigit q.a) (by decide) (by omega)
  have h₂ := toNat_shiftLeft_or _ (hexDigit q.b) (by rw [h₁, UInt32.toNat_zero]; omega) (by omega)
  have h₃ := toNat_shiftLeft_or _ (hexDigit q.c) (by rw [h₂, h₁, UInt32.toNat_zero]; omega) (by omega)
  have h₄ := toNat_shiftLeft_or _ (hexDigit q.d)
    (by rw [h₃, h₂, h₁, UInt32.toNat_zero]; omega) (by omega)
  simp only [hex4, HexQuad.unit, HexQuad.text, ofDigits, List.take, List.foldl]
  rw [h₄, h₃, h₂, h₁, UInt32.toNat_zero]
  omega

/-! ## UTF-8 -/

/-- Filling the free low bits of a tag adds. -/
theorem byteOr_eq {tag x : UInt32} (i m : Nat) (htag : tag.toNat = 2 ^ i * m)
    (hx : x.toNat < 2 ^ i) : byteOr tag x = UInt8.ofNat (x.toNat + tag.toNat) := by
  apply UInt8.toNat_inj.mp
  rw [byteOr, UInt32.toNat_toUInt8, UInt32.toNat_or, htag, ← Nat.two_pow_add_eq_or_of_lt hx m,
    UInt8.toNat_ofNat', Nat.add_comm]

theorem toNat_shiftRight_ofNat (cp : UInt32) (k : Nat) (hk : k < 32) :
    (cp >>> UInt32.ofNat k).toNat = cp.toNat / 2 ^ k := by
  rw [UInt32.toNat_shiftRight, UInt32.toNat_ofNat', Nat.shiftRight_eq_div_pow,
    Nat.mod_eq_of_lt (b := 2 ^ 32) (by omega), Nat.mod_eq_of_lt hk]

/-- A continuation byte. -/
theorem byteOr_and (x : UInt32) : byteOr 0x80 (x &&& 0x3F) = UInt8.ofNat (x.toNat % 64 + 128) := by
  have hmask : (x &&& 0x3F).toNat = x.toNat % 64 := by
    rw [UInt32.toNat_and]
    exact Nat.and_two_pow_sub_one_eq_mod x.toNat 6
  rw [byteOr_eq 6 2 rfl (by rw [hmask]; exact Nat.mod_lt _ (by decide)), hmask]
  rfl

theorem toNat_val_ofNat {n : Nat} (h : n.isValidChar) : (Char.ofNat n).val.toNat = n := by
  rw [Char.ofNat, dif_pos h]
  rfl

/-- `append_utf8` is the standard encoding on every scalar value. -/
theorem appendUtf8_eq {cp : UInt32} (h : cp.toNat.isValidChar) : appendUtf8 cp = utf8 cp.toNat := by
  have hlt : cp.toNat < 0x110000 := by
    rcases h with h | h
    · exact lt_trans h (by decide)
    · exact h.2
  have h6 : (cp >>> 6).toNat = cp.toNat / 64 := toNat_shiftRight_ofNat cp 6 (by decide)
  have h12 : (cp >>> 12).toNat = cp.toNat / 4096 := toNat_shiftRight_ofNat cp 12 (by decide)
  have h18 : (cp >>> 18).toNat = cp.toNat / 262144 := toNat_shiftRight_ofNat cp 18 (by decide)
  simp only [utf8, String.utf8EncodeChar, toNat_val_ofNat h, appendUtf8, byteOr_and, h6, h12,
    UInt32.lt_iff_toNat_lt, show UInt32.toNat 0x80 = 0x80 from rfl,
    show UInt32.toNat 0x800 = 0x800 from rfl, show UInt32.toNat 0x10000 = 0x10000 from rfl]
  by_cases h₁ : cp.toNat < 0x80
  · rw [if_pos h₁, if_pos (show cp.toNat ≤ 127 by omega), List.cons.injEq]
    refine ⟨?_, rfl⟩
    apply UInt8.toNat_inj.mp
    rw [UInt32.toNat_toUInt8, UInt8.toNat_ofNat']
  rw [if_neg h₁, if_neg (show ¬ cp.toNat ≤ 127 by omega)]
  by_cases h₂ : cp.toNat < 0x800
  · rw [if_pos h₂, if_pos (show cp.toNat ≤ 2047 by omega),
      byteOr_eq 5 6 rfl (by rw [h6]; omega), h6, Nat.mod_eq_of_lt (show cp.toNat / 64 < 32 by omega)]
    rfl
  rw [if_neg h₂, if_neg (show ¬ cp.toNat ≤ 2047 by omega)]
  by_cases h₃ : cp.toNat < 0x10000
  · rw [if_pos h₃, if_pos (show cp.toNat ≤ 65535 by omega),
      byteOr_eq 4 14 rfl (by rw [h12]; omega), h12,
      Nat.mod_eq_of_lt (show cp.toNat / 4096 < 16 by omega)]
    rfl
  · rw [if_neg h₃, if_neg (show ¬ cp.toNat ≤ 65535 by omega),
      byteOr_eq 3 30 rfl (by rw [h18]; omega), h18,
      Nat.mod_eq_of_lt (show cp.toNat / 262144 < 8 by omega)]
    rfl

/-! ## Surrogates -/

namespace HexQuad

theorem isHigh_iff (q : HexQuad) : q.isHigh = true ↔ 0xD800 ≤ q.unit ∧ q.unit ≤ 0xDBFF := by
  simp [isHigh]

theorem isLow_iff (q : HexQuad) : q.isLow = true ↔ 0xDC00 ≤ q.unit ∧ q.unit ≤ 0xDFFF := by
  simp [isLow]

/-- The test for a high surrogate in `decode_json_string`. -/
theorem hex4_high (q : HexQuad) :
    (decide (0xD800 ≤ hex4 q.text) && decide (hex4 q.text ≤ 0xDBFF)) = q.isHigh := by
  simp [isHigh, UInt32.le_iff_toNat_le, (hex4_toNat q).1]

/-- The test for a low surrogate in `decode_json_string`. -/
theorem hex4_low (q : HexQuad) :
    (decide (0xDC00 ≤ hex4 q.text) && decide (hex4 q.text ≤ 0xDFFF)) = q.isLow := by
  simp [isLow, UInt32.le_iff_toNat_le, (hex4_toNat q).1]

/-- The test that rejects a second escape which is not a low surrogate. -/
theorem hex4_not_low (q : HexQuad) :
    (hex4 q.text < 0xDC00 ∨ hex4 q.text > 0xDFFF) ↔ q.isLow = false := by
  rw [← Bool.not_eq_true, isLow_iff, gt_iff_lt, UInt32.lt_iff_toNat_lt, UInt32.lt_iff_toNat_lt,
    (hex4_toNat q).1, show UInt32.toNat 0xDC00 = 0xDC00 from rfl,
    show UInt32.toNat 0xDFFF = 0xDFFF from rfl]
  omega

/-- A code unit that is not a surrogate is a scalar value. -/
theorem appendUtf8_unit {q : HexQuad} (hh : q.isHigh = false) (hl : q.isLow = false) :
    appendUtf8 (hex4 q.text) = utf8 q.unit := by
  obtain ⟨hunit, hlt⟩ := hex4_toNat q
  have nh := mt q.isHigh_iff.mpr (by simp [hh])
  have nl := mt q.isLow_iff.mpr (by simp [hl])
  rw [← hunit]
  refine appendUtf8_eq ?_
  rw [hunit, Nat.isValidChar]
  omega

/-- A surrogate pair writes a scalar value above the basic plane. -/
theorem appendUtf8_pair {q r : HexQuad} (hq : q.isHigh = true) (hr : r.isLow = true) :
    appendUtf8 (surrogatePair (hex4 q.text) (hex4 r.text)) =
      utf8 (0x10000 + (q.unit - 0xD800) * 0x400 + (r.unit - 0xDC00)) := by
  obtain ⟨hq₁, hq₂⟩ := q.isHigh_iff.mp hq
  obtain ⟨hr₁, hr₂⟩ := r.isLow_iff.mp hr
  have hval : (surrogatePair (hex4 q.text) (hex4 r.text)).toNat =
      0x10000 + (q.unit - 0xD800) * 0x400 + (r.unit - 0xDC00) := by
    have hdq : (hex4 q.text - 0xD800).toNat = q.unit - 0xD800 := by
      rw [UInt32.toNat_sub_of_le _ _ (UInt32.le_iff_toNat_le.mpr (by rw [(hex4_toNat q).1]; exact hq₁)), (hex4_toNat q).1]
      rfl
    have hdr : (hex4 r.text - 0xDC00).toNat = r.unit - 0xDC00 := by
      rw [UInt32.toNat_sub_of_le _ _ (UInt32.le_iff_toNat_le.mpr (by rw [(hex4_toNat r).1]; exact hr₁)), (hex4_toNat r).1]
      rfl
    rw [surrogatePair, UInt32.toNat_add, UInt32.toNat_add, UInt32.toNat_shiftLeft, hdq, hdr,
      show (10 : UInt32).toNat % 32 = 10 from rfl, Nat.shiftLeft_eq,
      show (0x10000 : UInt32).toNat = 0x10000 from rfl]
    omega
  rw [← hval]
  refine appendUtf8_eq ?_
  rw [hval, Nat.isValidChar]
  omega

end HexQuad

/-! ## Decoding a string body, one character at a time -/

theorem isPlain_ne_backslash {c : UInt8} (h : isPlain c = true) : c ≠ '\\'.toUInt8 := by
  rintro rfl
  exact absurd h (by decide)

theorem isShortEscape_ne_u {e : UInt8} (h : isShortEscape e = true) : e ≠ 'u'.toUInt8 := by
  rintro rfl
  exact absurd h (by decide)

/-- The switch of `decode_json_string` accepts the short escapes of the grammar and gives each its
byte. -/
theorem shortEscape_eq : ∀ e : UInt8, isShortEscape e = true → shortEscape e = some (shortByte e) := by
  refine Bytes.forall_byte ?_
  decide

theorem decodeJsonString_plain {c : UInt8} (h : isPlain c = true) (t : Bytes) :
    decodeJsonString (c :: t) = decodeJsonString t >>= fun out ↦ .ok (c :: out) := by
  rw [decodeJsonString.eq_def]
  exact if_pos (isPlain_ne_backslash h)

theorem decodeJsonString_short {e : UInt8} (h : isShortEscape e = true) (t : Bytes) :
    decodeJsonString ('\\'.toUInt8 :: e :: t) =
      decodeJsonString t >>= fun out ↦ .ok (shortByte e :: out) := by
  rw [decodeJsonString.eq_def]
  simp only [ne_eq, not_true_eq_false, if_false, shortEscape_eq e h]

/-- What `decode_json_string` does after a `\u` escape, by the kind of the code unit. -/
theorem decodeJsonString_unicode (q : HexQuad) (t : Bytes) :
    decodeJsonString ('\\'.toUInt8 :: 'u'.toUInt8 :: q.text ++ t) =
      if q.isHigh then
        match t with
        | b :: u :: g₁ :: g₂ :: g₃ :: g₄ :: t =>
          if b ≠ '\\'.toUInt8 || u ≠ 'u'.toUInt8 then
            .error "Unpaired UTF-16 surrogate in string"
          else if hex4 [g₁, g₂, g₃, g₄] < 0xDC00 || hex4 [g₁, g₂, g₃, g₄] > 0xDFFF then
            .error "Invalid UTF-16 surrogate pair in string"
          else
            decodeJsonString t >>= fun out ↦
              .ok (appendUtf8 (surrogatePair (hex4 q.text) (hex4 [g₁, g₂, g₃, g₄])) ++ out)
        | _ => .error "Unpaired UTF-16 surrogate in string"
      else if q.isLow then .error "Unpaired UTF-16 surrogate in string"
      else decodeJsonString t >>= fun out ↦ .ok (appendUtf8 (hex4 q.text) ++ out) := by
  rw [decodeJsonString.eq_def, ← q.hex4_high, ← q.hex4_low]
  rfl

/-- A `\u` escape that is no surrogate stands for itself. -/
theorem decodeJsonString_unit {q : HexQuad} (hh : q.isHigh = false) (hl : q.isLow = false)
    (t : Bytes) :
    decodeJsonString ('\\'.toUInt8 :: 'u'.toUInt8 :: q.text ++ t) =
      decodeJsonString t >>= fun out ↦ .ok (utf8 q.unit ++ out) := by
  rw [decodeJsonString_unicode, hh, hl, HexQuad.appendUtf8_unit hh hl]
  rfl

/-- A surrogate pair stands for one scalar value. -/
theorem decodeJsonString_pair {q r : HexQuad} (hq : q.isHigh = true) (hr : r.isLow = true)
    (t : Bytes) :
    decodeJsonString ('\\'.toUInt8 :: 'u'.toUInt8 :: q.text ++
        ('\\'.toUInt8 :: 'u'.toUInt8 :: r.text ++ t)) =
      decodeJsonString t >>= fun out ↦
        .ok (utf8 (0x10000 + (q.unit - 0xD800) * 0x400 + (r.unit - 0xDC00)) ++ out) := by
  have low : ¬ (hex4 r.text < 0xDC00 ∨ hex4 r.text > 0xDFFF) := by
    rw [r.hex4_not_low, hr]
    decide
  rw [decodeJsonString_unicode, hq, ← HexQuad.appendUtf8_pair hq hr]
  simp only [HexQuad.text, List.cons_append, List.nil_append, if_true] at low ⊢
  rw [if_neg (by simp), if_neg (by simpa using low)]

/-- After a high surrogate, a body that does not continue with a low one is rejected. -/
theorem decodeJsonString_high {q : HexQuad} (hq : q.isHigh = true) {s : StrBody}
    (hs : ∀ r s', s = .unicode r :: s' → r.isLow = false) :
    ∃ e, decodeJsonString ('\\'.toUInt8 :: 'u'.toUInt8 :: q.text ++ s.text) = .error e := by
  rw [decodeJsonString_unicode, hq, if_pos rfl]
  match s with
  | [] => exact ⟨_, rfl⟩
  | .plain c h :: s' =>
      have hne := isPlain_ne_backslash h
      rw [StrBody.text, List.flatMap_cons, StrChar.text, List.singleton_append]
      split
      · next heq =>
          obtain ⟨rfl, -⟩ := List.cons.inj heq
          exact ⟨_, if_pos (by simp [hne])⟩
      · exact ⟨_, rfl⟩
  | .short e h :: s' =>
      have hne := isShortEscape_ne_u h
      rw [StrBody.text, List.flatMap_cons, StrChar.text, List.cons_append, List.singleton_append]
      split
      · next heq =>
          obtain ⟨-, heq⟩ := List.cons.inj heq
          obtain ⟨rfl, -⟩ := List.cons.inj heq
          exact ⟨_, if_pos (by simp [hne])⟩
      · exact ⟨_, rfl⟩
  | .unicode r :: s' =>
      have low := r.hex4_not_low.mpr (hs r s' rfl)
      rw [StrBody.text, List.flatMap_cons, StrChar.text]
      simp only [HexQuad.text, List.cons_append, List.nil_append] at low ⊢
      rw [if_neg (by simp), if_pos (by simpa using low)]
      exact ⟨_, rfl⟩

/-- **Escape decoding.**  On the text of a string body `decode_json_string` fails exactly when some
surrogate escape is not part of a proper pair, and otherwise returns the bytes the body stands for. -/
theorem decodeJsonString_text (s : StrBody) :
    (decodeJsonString s.text).Gives (s.paired = true) s.unescape := by
  -- the induction follows `paired`, which looks at two characters at once
  fun_induction StrBody.paired s with
  | case1 q r s hq ih =>
      cases hr : r.isLow with
      | true =>
          have htext : StrBody.text (.unicode q :: .unicode r :: s) =
              '\\'.toUInt8 :: 'u'.toUInt8 :: q.text ++
                ('\\'.toUInt8 :: 'u'.toUInt8 :: r.text ++ StrBody.text s) := by
            simp [StrBody.text, StrChar.text]
          rw [htext, decodeJsonString_pair hq hr, Bool.true_and, StrBody.unescape, hq, hr]
          exact ih.map _
      | false =>
          refine ⟨fun h ↦ by simp at h, fun _ ↦ ?_⟩
          refine decodeJsonString_high (s := .unicode r :: s) hq fun r' s' h ↦ ?_
          cases h
          exact hr
  | case2 q r s hq ih =>
      rw [Bool.not_eq_true] at hq
      have htext : StrBody.text (.unicode q :: .unicode r :: s) =
          '\\'.toUInt8 :: 'u'.toUInt8 :: q.text ++ StrBody.text (.unicode r :: s) := by
        simp [StrBody.text, StrChar.text]
      rw [htext]
      cases hl : q.isLow with
      | true =>
          refine ⟨fun h ↦ by simp at h, fun _ ↦ ?_⟩
          exact ⟨_, by rw [decodeJsonString_unicode, hq, hl]; rfl⟩
      | false =>
          rw [decodeJsonString_unit hq hl, Bool.not_false, Bool.true_and, StrBody.unescape, hq]
          exact ih.map _
  | case3 q s hs ih =>
      have htext : StrBody.text (.unicode q :: s) =
          '\\'.toUInt8 :: 'u'.toUInt8 :: q.text ++ StrBody.text s := by
        simp [StrBody.text, StrChar.text]
      rw [htext]
      cases hh : q.isHigh with
      | true =>
          refine ⟨fun h ↦ by simp at h, fun _ ↦ ?_⟩
          exact decodeJsonString_high hh fun r s' h ↦ absurd h (hs r s')
      | false =>
          cases hl : q.isLow with
          | true =>
              refine ⟨fun h ↦ by simp at h, fun _ ↦ ?_⟩
              exact ⟨_, by rw [decodeJsonString_unicode, hh, hl]; rfl⟩
          | false =>
              rw [decodeJsonString_unit hh hl, Bool.not_false, Bool.true_and, Bool.true_and,
                StrBody.unescape.eq_2 _ _ fun _ r s' _ h ↦ hs r s' h]
              exact ih.map _
  | case4 c s h₁ h₂ ih =>
      rw [StrBody.unescape.eq_2 _ _ fun q r s' h h' ↦ h₁ q r s' h h']
      match c with
      | .plain c h =>
          have htext : StrBody.text (.plain c h :: s) = c :: StrBody.text s := rfl
          rw [htext, decodeJsonString_plain h]
          exact ih.map _
      | .short e h =>
          have htext : StrBody.text (.short e h :: s) = '\\'.toUInt8 :: e :: StrBody.text s := rfl
          rw [htext, decodeJsonString_short h]
          exact ih.map _
      | .unicode q => exact absurd rfl (h₂ q)
  | case5 => exact (Except.Gives.ok []).congr (by simp)

end KalshiClient.Json
