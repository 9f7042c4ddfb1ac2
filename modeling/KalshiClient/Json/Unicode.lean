import KalshiClient.Base.Utf8
import KalshiClient.Json.Escape
import KalshiClient.Json.LexerSpec

/-!
# Strings as Unicode

What `decode_json_string` makes of a string that the lexer has accepted, in terms of characters.  A string whose
surrogates are paired is a sequence of `Piece`s, each of which stands for some bytes; what is decoded is these bytes, one
piece after the other.  A string that was UTF-8 stays UTF-8, and a character may be written in any of the ways the syntax
has for it (`Writes`).
-/

namespace KalshiClient.Json

open Bytes

/-! ## Bodies without escapes -/

namespace StrBody

/-- The body that is written as it is. -/
def ofPlain (s : Bytes) (h : ∀ c ∈ s, isPlain c = true) : StrBody := s.pmap StrChar.plain h

variable {s : Bytes} (h : ∀ c ∈ s, isPlain c = true) (b : StrBody)

theorem ofPlain_cons {c : UInt8} (h : ∀ x ∈ c :: s, isPlain x = true) :
    ofPlain (c :: s) h =
      .plain c (h c List.mem_cons_self) :: ofPlain s fun x hx ↦ h x (List.mem_cons_of_mem c hx) := rfl

theorem text_ofPlain : text (ofPlain s h) = s := by
  induction s with
  | nil => rfl
  | cons c s ih =>
      rw [ofPlain_cons, text, List.flatMap_cons, ← text, ih]
      rfl

theorem hasEscapes_ofPlain : hasEscapes (ofPlain s h) = false := by
  induction s with
  | nil => rfl
  | cons c s ih =>
      rw [ofPlain_cons, hasEscapes, List.any_cons, ← hasEscapes, ih]
      rfl

theorem unescape_ofPlain_append : unescape (ofPlain s h ++ b) = s ++ unescape b := by
  induction s with
  | nil => rfl
  | cons c s ih =>
      rw [ofPlain_cons, List.cons_append, List.cons_append, ← ih]
      rfl

theorem paired_ofPlain_append : paired (ofPlain s h ++ b) = paired b := by
  induction s with
  | nil => rfl
  | cons c s ih =>
      rw [ofPlain_cons, List.cons_append, ← ih]
      rfl

theorem unescape_ofPlain : unescape (ofPlain s h) = s := by
  have happend := unescape_ofPlain_append h []
  rw [List.append_nil] at happend
  exact happend.trans (List.append_nil s)

theorem paired_ofPlain : paired (ofPlain s h) = true := by
  have happend := paired_ofPlain_append h []
  rw [List.append_nil] at happend
  exact happend

/-- A character that is no surrogate stands for itself. -/
theorem unescape_cons {x : StrChar} {s : StrBody} (h : ∀ q, x = .unicode q → q.isHigh = false ∧ q.isLow = false) :
    unescape (x :: s) = x.bytes ++ s.unescape ∧ paired (x :: s) = s.paired := by
  cases x with
  | plain c hc | short c hc => exact ⟨rfl, rfl⟩
  | unicode q =>
      obtain ⟨hhigh, hlow⟩ := h q rfl
      cases s with
      | nil => simp [unescape, paired, hhigh, hlow]
      | cons y s => cases y <;> simp [unescape, paired, StrChar.bytes, hhigh, hlow]

/-- Surrogates that form a pair stand for one character. -/
theorem unescape_pair {q r : HexQuad} (hq : q.isHigh = true) (hr : r.isLow = true) (s : StrBody) :
    unescape (.unicode q :: .unicode r :: s) =
        utf8 (0x10000 + (q.unit - 0xD800) * 0x400 + (r.unit - 0xDC00)) ++ s.unescape ∧
      paired (.unicode q :: .unicode r :: s) = s.paired := by
  rw [unescape, paired, hq, hr]
  exact ⟨rfl, rfl⟩

/-- A body has an escape if it has a backslash. -/
theorem hasEscapes_eq (b : StrBody) : b.hasEscapes = decide ('\\'.toUInt8 ∈ b.text) := by
  induction b with
  | nil => rfl
  | cons x b ih =>
      have htext : text (x :: b) = x.text ++ text b := List.flatMap_cons
      rw [hasEscapes, List.any_cons, ← hasEscapes, ih, htext]
      cases x with
      | plain c hc =>
          have hne : '\\'.toUInt8 ∉ [c] := fun hmem ↦ isPlain_ne_backslash hc (List.mem_singleton.mp hmem).symm
          simp only [StrChar.isEscape, StrChar.text, Bool.false_or, List.mem_append, hne, false_or]
      | short e he => exact (decide_eq_true (List.mem_append_left _ List.mem_cons_self)).symm
      | unicode q => exact (decide_eq_true (List.mem_append_left _ List.mem_cons_self)).symm

end StrBody

/-- Text without a backslash is decoded to itself. -/
theorem decodeJsonString_of_notMem {s : Bytes} (h : '\\'.toUInt8 ∉ s) : decodeJsonString s = .ok s := by
  induction s with
  | nil => rfl
  | cons c s ih =>
      obtain ⟨hc, hs⟩ := not_or.mp (mt List.mem_cons.mpr h)
      rw [decodeJsonString.eq_def]
      dsimp only
      rw [if_pos (Ne.symm hc), ih hs, Except.bind_ok]

/-! ## Surrogates -/

/-- A high surrogate. -/
def StrChar.isHigh : StrChar → Bool
  | .unicode q => q.isHigh
  | .plain _ _ | .short _ _ => false

/-- A low surrogate. -/
def StrChar.isLow : StrChar → Bool
  | .unicode q => q.isLow
  | .plain _ _ | .short _ _ => false

namespace StrBody

/-- There is a high surrogate at the position. -/
def highAt (b : StrBody) (i : Nat) : Bool := b[i]?.any StrChar.isHigh

/-- There is a low surrogate at the position. -/
def lowAt (b : StrBody) (i : Nat) : Bool := b[i]?.any StrChar.isLow

/-- Some surrogate is not part of a high surrogate immediately followed by a low one. -/
def Unpaired (b : StrBody) : Prop :=
  ∃ i, (b.highAt i = true ∧ b.lowAt (i + 1) = false) ∨ (b.lowAt i = true ∧ ∀ j, j + 1 = i → b.highAt j = false)

theorem not_isLow_of_isHigh {q : HexQuad} (h : q.isHigh = true) : q.isLow = false := by
  rw [HexQuad.isHigh_iff] at h
  rw [← Bool.not_eq_true, HexQuad.isLow_iff]
  omega

theorem not_isHigh_of_isLow {q : HexQuad} (h : q.isLow = true) : q.isHigh = false := by
  rw [← Bool.not_eq_true]
  intro hhigh
  rw [not_isLow_of_isHigh hhigh] at h
  cases h

theorem lowAt_cons_zero (x : StrChar) (s : StrBody) : lowAt (x :: s) 0 = x.isLow := rfl

theorem highAt_eq_lowAt_cons_iff (x : StrChar) (s : StrBody) :
    (∀ i, highAt (x :: s) i = lowAt (x :: s) (i + 1)) ↔
      x.isHigh = lowAt s 0 ∧ ∀ i, highAt s i = lowAt s (i + 1) := Nat.and_forall_add_one.symm

/-- Surrogates are paired if the high ones stand exactly before the low ones. -/
theorem paired_iff_positions (b : StrBody) :
    b.paired = true ↔ b.lowAt 0 = false ∧ ∀ i, b.highAt i = b.lowAt (i + 1) := by
  fun_induction StrBody.paired b with
  | case1 q r s hq ih =>
      rw [Bool.and_eq_true, ih, highAt_eq_lowAt_cons_iff, highAt_eq_lowAt_cons_iff, lowAt_cons_zero,
        lowAt_cons_zero, StrChar.isHigh, StrChar.isHigh, StrChar.isLow, StrChar.isLow,
        hq, not_isLow_of_isHigh hq]
      constructor
      · rintro ⟨hr, hs, hrest⟩
        exact ⟨rfl, hr.symm, (not_isHigh_of_isLow hr).trans hs.symm, hrest⟩
      · rintro ⟨-, hr, hs, hrest⟩
        exact ⟨hr.symm, hs.symm.trans (not_isHigh_of_isLow hr.symm), hrest⟩
  | case2 q r s hq ih =>
      rw [Bool.not_eq_true] at hq
      rw [Bool.and_eq_true, ih, highAt_eq_lowAt_cons_iff (.unicode q), lowAt_cons_zero (.unicode q), StrChar.isHigh, StrChar.isLow, hq, Bool.not_eq_true']
      exact and_congr_right fun _ ↦ and_congr_left fun _ ↦ eq_comm
  | case3 q s hs ih =>
      rw [Bool.and_eq_true, Bool.and_eq_true, ih, highAt_eq_lowAt_cons_iff, lowAt_cons_zero, StrChar.isHigh, StrChar.isLow, Bool.not_eq_true',
        Bool.not_eq_true']
      constructor
      · rintro ⟨⟨hhigh, hlow⟩, hfirst, hrest⟩
        exact ⟨hlow, hhigh.trans hfirst.symm, hrest⟩
      · rintro ⟨hlow, hhigh, hrest⟩
        have hfirst : lowAt s 0 = false := by
          cases s with
          | nil => rfl
          | cons x s =>
              cases x with
              | plain c hc | short e he => rfl
              | unicode r => exact absurd rfl (hs r s)
        exact ⟨⟨hhigh.trans hfirst, hlow⟩, hfirst, hrest⟩
  | case4 c s h₁ h₂ ih =>
      have hno : c.isHigh = false ∧ c.isLow = false := by
        cases c with
        | plain c hc | short e he => exact ⟨rfl, rfl⟩
        | unicode q => exact absurd rfl (h₂ q)
      rw [ih, highAt_eq_lowAt_cons_iff, lowAt_cons_zero, hno.1, hno.2]
      constructor
      · rintro ⟨hfirst, hrest⟩
        exact ⟨rfl, hfirst.symm, hrest⟩
      · rintro ⟨-, hfirst, hrest⟩
        exact ⟨hfirst.symm, hrest⟩
  | case5 => exact iff_of_true rfl ⟨rfl, fun _ ↦ rfl⟩

/-- The surrogates are paired unless one is not. -/
theorem not_paired_iff (b : StrBody) : b.paired = false ↔ b.Unpaired := by
  rw [← Bool.not_eq_true, paired_iff_positions, Unpaired]
  constructor
  · intro hnot
    by_contra hno
    refine hnot ⟨?_, fun i ↦ ?_⟩
    · rw [← Bool.not_eq_true]
      exact fun hlow ↦ hno ⟨0, .inr ⟨hlow, fun j hj ↦ absurd hj (Nat.succ_ne_zero j)⟩⟩
    · cases hhigh : b.highAt i with
      | true =>
          rw [eq_comm, ← Bool.not_eq_false]
          exact fun hlow ↦ hno ⟨i, .inl ⟨hhigh, hlow⟩⟩
      | false =>
          rw [eq_comm, ← Bool.not_eq_true]
          refine fun hlow ↦ hno ⟨i + 1, .inr ⟨hlow, fun j hj ↦ ?_⟩⟩
          rw [Nat.succ.inj hj]
          exact hhigh
  · rintro ⟨i, ⟨hhigh, hlow⟩ | ⟨hlow, hbefore⟩⟩ ⟨hfirst, hall⟩
    · rw [← hall, hhigh] at hlow
      cases hlow
    · cases i with
      | zero =>
          rw [hfirst] at hlow
          cases hlow
      | succ i =>
          rw [← hall, hbefore i rfl] at hlow
          cases hlow

end StrBody

/-! ## Pieces -/

/-- A part of a string that stands for some bytes. -/
inductive Piece where
  /-- A byte that stands for itself. -/
  | plain (c : UInt8) (h : isPlain c = true)
  /-- A short escape. -/
  | short (e : UInt8) (h : isShortEscape e = true)
  /-- An escaped character of the basic plane. -/
  | unit (q : HexQuad) (hhigh : q.isHigh = false) (hlow : q.isLow = false)
  /-- A character outside of it, as two surrogates. -/
  | pair (q r : HexQuad) (hq : q.isHigh = true) (hr : r.isLow = true)

namespace Piece

/-- How it is written. -/
def chars : Piece → StrBody
  | .plain c h => [.plain c h]
  | .short e h => [.short e h]
  | .unit q _ _ => [.unicode q]
  | .pair q r _ _ => [.unicode q, .unicode r]

/-- The bytes it stands for. -/
def bytes : Piece → Bytes
  | .plain c _ => [c]
  | .short e _ => [shortByte e]
  | .unit q _ _ => utf8 q.unit
  | .pair q r _ _ => utf8 (0x10000 + (q.unit - 0xD800) * 0x400 + (r.unit - 0xDC00))

theorem unescape_chars_append (p : Piece) (s : StrBody) :
    StrBody.unescape (p.chars ++ s) = p.bytes ++ s.unescape ∧ StrBody.paired (p.chars ++ s) = s.paired := by
  cases p with
  | plain c h | short e h => exact ⟨rfl, rfl⟩
  | unit q hhigh hlow =>
      refine StrBody.unescape_cons fun q' hq' ↦ ?_
      cases hq'
      exact ⟨hhigh, hlow⟩
  | pair q r hq hr => exact StrBody.unescape_pair hq hr s

end Piece

/-- A string whose surrogates are paired is a sequence of pieces. -/
theorem StrBody.exists_pieces {b : StrBody} (h : b.paired = true) :
    ∃ ps : List Piece, ps.flatMap Piece.chars = b ∧ ps.flatMap Piece.bytes = b.unescape := by
  have hcons {p : Piece} {s : StrBody} (hs : ∃ ps : List Piece, ps.flatMap Piece.chars = s ∧
      ps.flatMap Piece.bytes = s.unescape) : ∃ ps : List Piece, ps.flatMap Piece.chars = p.chars ++ s ∧
      ps.flatMap Piece.bytes = StrBody.unescape (p.chars ++ s) := by
    obtain ⟨ps, rfl, hbytes⟩ := hs
    refine ⟨p :: ps, List.flatMap_cons, ?_⟩
    rw [List.flatMap_cons, hbytes, (p.unescape_chars_append _).1]
  fun_induction StrBody.paired b with
  | case1 q r s hq ih =>
      obtain ⟨hr, hs⟩ := Bool.and_eq_true_iff.mp h
      exact hcons (p := .pair q r hq hr) (ih hs)
  | case2 q r s hq ih =>
      obtain ⟨hlow, hs⟩ := Bool.and_eq_true_iff.mp h
      rw [Bool.not_eq_true] at hq
      rw [Bool.not_eq_true'] at hlow
      exact hcons (p := .unit q hq hlow) (ih hs)
  | case3 q s hs ih =>
      obtain ⟨hq, hrest⟩ := Bool.and_eq_true_iff.mp h
      obtain ⟨hhigh, hlow⟩ := Bool.and_eq_true_iff.mp hq
      rw [Bool.not_eq_true'] at hhigh hlow
      exact hcons (p := .unit q hhigh hlow) (ih hrest)
  | case4 c s h₁ h₂ ih =>
      cases c with
      | plain c hc => exact hcons (p := .plain c hc) (ih h)
      | short e he => exact hcons (p := .short e he) (ih h)
      | unicode q => exact absurd rfl (h₂ q)
  | case5 => exact ⟨[], rfl, rfl⟩

/-! ## UTF-8 -/

theorem valid_utf8 (cp : Nat) : Utf8.Valid (utf8 cp) := Utf8.valid_encode (Char.ofNat cp)

namespace Piece

/-- The bytes of a piece as written. -/
def text (p : Piece) : Bytes := p.chars.text

theorem text_flatMap (ps : List Piece) : StrBody.text (ps.flatMap chars) = ps.flatMap text := List.flatMap_assoc

/-- The bytes of an escaped code unit. -/
def isUnitByte (c : UInt8) : Bool := c = '\\'.toUInt8 || c = 'u'.toUInt8 || isHex c

theorem isUnitByte_of_mem {q : HexQuad} : ∀ x ∈ StrChar.text (.unicode q), isUnitByte x = true := by
  have hq := q.isHex
  simp only [Bool.and_eq_true] at hq
  obtain ⟨⟨⟨ha, hb⟩, hc⟩, hd⟩ := hq
  have hhex {c : UInt8} (h : isHex c = true) : isUnitByte c = true := by
    rw [isUnitByte, h, Bool.or_true]
  simp only [StrChar.text, HexQuad.text, List.forall_mem_cons]
  exact ⟨rfl, rfl, hhex ha, hhex hb, hhex hc, hhex hd, List.forall_mem_nil _⟩

theorem isUnitByte_unit {q : HexQuad} (hhigh : q.isHigh = false) (hlow : q.isLow = false) :
    ∀ x ∈ (unit q hhigh hlow).text, isUnitByte x = true := by
  have htext : (unit q hhigh hlow).text = StrChar.text (.unicode q) := List.append_nil _
  rw [htext]
  exact isUnitByte_of_mem

theorem isUnitByte_pair {q r : HexQuad} (hq : q.isHigh = true) (hr : r.isLow = true) :
    ∀ x ∈ (pair q r hq hr).text, isUnitByte x = true := by
  rw [text, chars, StrBody.text, List.flatMap_cons, List.flatMap_singleton, List.forall_mem_append]
  exact ⟨isUnitByte_of_mem, isUnitByte_of_mem⟩

/-- A piece is a byte above ASCII, or it is written in ASCII and stands for a valid string. -/
theorem ascii_or_high (p : Piece) :
    (∃ c h, p = .plain c h ∧ 0x80 ≤ c) ∨ (∀ x ∈ p.text, x < 0x80) ∧ Utf8.Valid p.bytes := by
  have hunit : ∀ c : UInt8, isUnitByte c = true → c < 0x80 := by
    refine Bytes.forall_byte ?_
    decide
  cases p with
  | plain c h =>
      rcases lt_or_ge c 0x80 with hc | hc
      · exact .inr ⟨fun x hx ↦ (List.mem_singleton.mp hx) ▸ hc, Utf8.valid_singleton hc⟩
      · exact .inl ⟨c, h, rfl, hc⟩
  | short e h =>
      have hshort : ∀ e : UInt8, isShortEscape e = true → e < 0x80 ∧ shortByte e < 0x80 := by
        refine Bytes.forall_byte ?_
        decide
      obtain ⟨he, hbyte⟩ := hshort e h
      refine .inr ⟨?_, Utf8.valid_singleton hbyte⟩
      have htext : text (.short e h) = ['\\'.toUInt8, e] := rfl
      rw [htext, List.forall_mem_cons]
      exact ⟨by decide, fun x hx ↦ (List.mem_singleton.mp hx) ▸ he⟩
  | unit q hhigh hlow => exact .inr ⟨fun x hx ↦ hunit x (isUnitByte_unit hhigh hlow x hx), valid_utf8 _⟩
  | pair q r hq hr => exact .inr ⟨fun x hx ↦ hunit x (isUnitByte_pair hq hr x hx), valid_utf8 _⟩

/-- Bytes above ASCII are written as they are. -/
theorem exists_of_high {ps : List Piece} {u t : Bytes} (h : ps.flatMap text = u ++ t) (hu : ∀ x ∈ u, 0x80 ≤ x) :
    ∃ qs rest, ps = qs ++ rest ∧ qs.flatMap bytes = u ∧ rest.flatMap text = t ∧ qs.length = u.length := by
  induction u generalizing ps with
  | nil => exact ⟨[], ps, rfl, rfl, h, rfl⟩
  | cons c u ih =>
      obtain ⟨hc, hu⟩ := List.forall_mem_cons.mp hu
      cases ps with
      | nil => cases h
      | cons p ps =>
          rw [List.flatMap_cons] at h
          rcases p.ascii_or_high with ⟨d, hd, rfl, -⟩ | ⟨hascii, -⟩
          · obtain ⟨hdc, hrest⟩ := List.cons.inj h
            obtain ⟨qs, rest, rfl, hbytes, htext, hlength⟩ := ih hrest hu
            refine ⟨.plain d hd :: qs, rest, rfl, ?_, htext, congrArg Nat.succ hlength⟩
            rw [List.flatMap_cons, hbytes, hdc.symm]
            rfl
          · exfalso
            cases htext : p.text with
            | nil => cases p <;> cases htext
            | cons x s =>
                rw [htext] at h hascii
                obtain ⟨rfl, -⟩ := List.cons.inj h
                exact absurd (hascii x List.mem_cons_self) (not_lt.mpr hc)

/-- What a valid string stands for is valid. -/
theorem valid_bytes {ps : List Piece} (h : Utf8.Valid (ps.flatMap text)) : Utf8.Valid (ps.flatMap bytes) := by
  -- By induction on the number of pieces: the bytes of a character above ASCII are several of them.
  induction hn : ps.length using Nat.strong_induction_on generalizing ps with
  | _ n ih =>
      cases ps with
      | nil => exact Utf8.valid_nil
      | cons p ps =>
          rw [List.flatMap_cons] at h
          rcases p.ascii_or_high with ⟨c, hc, rfl, hhigh⟩ | ⟨hascii, hbytes⟩
          · rcases h.cons_cases with ⟨hlow, -⟩ | ⟨u, t, hut, hne, hu, hvalid, ht⟩
            · exact absurd hlow (not_lt.mpr hhigh)
            · have hut' : (Piece.plain c hc :: ps).flatMap text = u ++ t := by
                rw [List.flatMap_cons]
                exact hut
              obtain ⟨qs, rest, hps, hqs, hrest, hlength⟩ := exists_of_high hut' hu
              rw [hps, List.flatMap_append, hqs]
              refine hvalid.append (ih rest.length ?_ (hrest.symm ▸ ht) rfl)
              have hpos := List.length_pos_of_ne_nil hne
              rw [← hn, hps, List.length_append]
              omega
          · rw [List.flatMap_cons]
            refine hbytes.append (ih ps.length ?_ (h.of_append hascii) rfl)
            rw [← hn]
            exact Nat.lt_succ_self _

end Piece

/-! ## Characters -/

/-- The ways to write a character in a string. -/
inductive Writes : Char → StrBody → Prop
  /-- As it is. -/
  | raw (c : Char) (h : ∀ x ∈ String.utf8EncodeChar c, isPlain x = true) : Writes c (StrBody.ofPlain _ h)
  /-- As a short escape. -/
  | short (c : Char) (e : UInt8) (h : isShortEscape e = true) (hc : (shortByte e).toNat = c.toNat) :
      Writes c [.short e h]
  /-- As an escaped code unit. -/
  | unit (c : Char) (q : HexQuad) (hc : q.unit = c.toNat) : Writes c [.unicode q]
  /-- As a surrogate pair. -/
  | pair (c : Char) (q r : HexQuad) (hq : q.isHigh = true) (hr : r.isLow = true)
      (hc : 0x10000 + (q.unit - 0xD800) * 0x400 + (r.unit - 0xDC00) = c.toNat) : Writes c [.unicode q, .unicode r]

theorem utf8_toNat (c : Char) : utf8 c.toNat = String.utf8EncodeChar c := by
  rw [utf8, Char.ofNat_toNat]

/-- A character that is written stands for its encoding. -/
theorem Writes.unescape_append {c : Char} {b : StrBody} (h : Writes c b) (s : StrBody) :
    StrBody.unescape (b ++ s) = String.utf8EncodeChar c ++ s.unescape ∧ StrBody.paired (b ++ s) = s.paired := by
  cases h with
  | raw h => exact ⟨StrBody.unescape_ofPlain_append h s, StrBody.paired_ofPlain_append h s⟩
  | short e he hc =>
      have hascii : ∀ e : UInt8, isShortEscape e = true → shortByte e < 0x80 := by
        refine Bytes.forall_byte ?_
        decide
      have hlt : c.toNat < 0x80 := by
        rw [← hc]
        exact hascii e he
      rw [Utf8.encode_of_ascii hlt, ← hc, UInt8.ofNat_toNat]
      exact ⟨rfl, rfl⟩
  | unit q hc =>
      have hvalid : c.toNat.isValidChar := c.valid
      have hnot : q.isHigh = false ∧ q.isLow = false := by
        rw [← Bool.not_eq_true, ← Bool.not_eq_true, q.isHigh_iff, q.isLow_iff, hc]
        rw [Nat.isValidChar] at hvalid
        omega
      rw [← utf8_toNat, ← hc]
      refine StrBody.unescape_cons fun q' hq' ↦ ?_
      cases hq'
      exact hnot
  | pair q r hq hr hc =>
      rw [← utf8_toNat, ← hc]
      exact StrBody.unescape_pair hq hr s

/-- Characters that are written stand for their encodings. -/
theorem unescape_flatten {cs : List Char} {bs : List StrBody} (h : List.Forall₂ Writes cs bs) :
    StrBody.unescape bs.flatten = cs.flatMap String.utf8EncodeChar ∧ StrBody.paired bs.flatten = true := by
  induction h with
  | nil => exact ⟨rfl, rfl⟩
  | cons hwrites _ ih =>
      rw [List.flatten_cons, List.flatMap_cons, (hwrites.unescape_append _).1, (hwrites.unescape_append _).2, ih.1]
      exact ⟨rfl, ih.2⟩

/-- A digit. -/
def nibble (n : Nat) : UInt8 := (Nat.digitChar (n % 16)).toUInt8

theorem nibble_spec (n : Nat) : isHex (nibble n) = true ∧ hexVal (nibble n) = n % 16 := by
  have hall : ∀ k : Fin 16, isHex (Nat.digitChar k.val).toUInt8 = true ∧ hexVal (Nat.digitChar k.val).toUInt8 = k.val := by
    decide
  exact hall ⟨n % 16, Nat.mod_lt n (by decide)⟩

/-- The digits of a code unit. -/
def quadOf (n : Nat) : HexQuad :=
  ⟨nibble (n / 4096), nibble (n / 256), nibble (n / 16), nibble n, by
    rw [(nibble_spec _).1, (nibble_spec _).1, (nibble_spec _).1, (nibble_spec _).1]
    rfl⟩

theorem unit_quadOf {n : Nat} (h : n < 0x10000) : (quadOf n).unit = n := by
  simp only [HexQuad.unit, HexQuad.text, quadOf, ofDigits, List.foldl, (nibble_spec _).2]
  omega

/-- Every character can be escaped. -/
theorem exists_writes (c : Char) : ∃ b, Writes c b ∧ ∀ x ∈ b, x.isEscape = true := by
  have hvalid : c.toNat.isValidChar := c.valid
  rw [Nat.isValidChar] at hvalid
  by_cases hc : c.toNat < 0x10000
  · refine ⟨_, .unit c (quadOf c.toNat) (unit_quadOf hc), fun x hx ↦ ?_⟩
    rw [List.mem_singleton.mp hx]
    rfl
  · have hq := unit_quadOf (n := 0xD800 + (c.toNat - 0x10000) / 0x400) (by omega)
    have hr := unit_quadOf (n := 0xDC00 + (c.toNat - 0x10000) % 0x400) (by omega)
    refine ⟨_, .pair c (quadOf (0xD800 + (c.toNat - 0x10000) / 0x400)) (quadOf (0xDC00 + (c.toNat - 0x10000) % 0x400))
      ?_ ?_ ?_, ?_⟩
    · rw [HexQuad.isHigh_iff, hq]
      omega
    · rw [HexQuad.isLow_iff, hr]
      omega
    · rw [hq, hr]
      omega
    · simp only [List.forall_mem_cons]
      exact ⟨rfl, rfl, List.forall_mem_nil _⟩

/-! ## The decoder -/

/-- **Decoding escapes.**  A string that the lexer accepts is decoded unless some surrogate is not part of a pair, to the
bytes its pieces stand for; it stays UTF-8 if it was, and without a backslash it stays as it is.  Characters may be
written in any way the syntax has for them, and each can be escaped. -/
theorem escape_decoding :
    (∀ (l l' : JsonLexer) (token : Token), l.lexString = .ok (token, l') →
      ∃ b : StrBody, token.text = b.text ∧ token.hasEscapes = decide ('\\'.toUInt8 ∈ token.text) ∧
        ((∃ e, decodeJsonString token.text = .error e) ↔ b.Unpaired) ∧
        (¬ b.Unpaired → ∃ ps : List Piece, ps.flatMap Piece.chars = b ∧
          decodeJsonString token.text = .ok (ps.flatMap Piece.bytes)) ∧
        (Utf8.Valid token.text → ∀ out, decodeJsonString token.text = .ok out → Utf8.Valid out) ∧
        ('\\'.toUInt8 ∉ token.text → decodeJsonString token.text = .ok token.text)) ∧
    (∀ (cs : List Char) (bs : List StrBody), List.Forall₂ Writes cs bs →
      decodeJsonString (StrBody.text bs.flatten) = .ok (cs.flatMap String.utf8EncodeChar)) ∧
    ∀ c, ∃ b, Writes c b ∧ ∀ x ∈ b, x.isEscape = true := by
  refine ⟨?_, ?_, exists_writes⟩
  · intro l l' token hlex
    obtain ⟨⟨text, escapes, rest⟩, hscan, hok⟩ := Except.bind_eq_ok_iff.mp hlex
    cases hok
    obtain ⟨b, rfl, rfl, -⟩ := scanString_sound _ _ hscan
    obtain ⟨hgives, hfails⟩ := decodeJsonString_text b
    refine ⟨b, rfl, b.hasEscapes_eq, ?_, ?_, ?_, decodeJsonString_of_notMem⟩
    · rw [← b.not_paired_iff]
      constructor
      · rintro ⟨e, he⟩
        rw [← Bool.not_eq_true]
        intro hpaired
        cases he.symm.trans (hgives hpaired)
      · intro hpaired
        exact hfails (by rw [hpaired]; exact Bool.false_ne_true)
    · intro hunpaired
      rw [← b.not_paired_iff, Bool.not_eq_false] at hunpaired
      obtain ⟨ps, hchars, hbytes⟩ := StrBody.exists_pieces hunpaired
      exact ⟨ps, hchars, hbytes.symm ▸ hgives hunpaired⟩
    · intro hvalid out hout
      obtain ⟨hpaired, rfl⟩ := Except.Gives.of_ok ⟨hgives, hfails⟩ hout
      obtain ⟨ps, rfl, hbytes⟩ := StrBody.exists_pieces hpaired
      rw [← hbytes]
      refine Piece.valid_bytes ?_
      rw [← Piece.text_flatMap]
      exact hvalid
  · intro cs bs hwrites
    obtain ⟨hunescape, hpaired⟩ := unescape_flatten hwrites
    rw [← hunescape]
    exact (decodeJsonString_text _).1 hpaired

end KalshiClient.Json
