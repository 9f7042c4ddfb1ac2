import KalshiClient.Base.Bytes

/-!
# Base64

Three bytes at a time become four characters of an alphabet of 64, and a rest of one or two bytes is filled up with
padding.  Decoding is the reverse, and `decode_encode` is that it is.
-/

namespace KalshiClient.Base64

open Bytes

/-- The 64 characters. -/
def alphabet : Bytes := ascii "ABCDEFGHIJKLMNOPQRSTUVWXYZabcdefghijklmnopqrstuvwxyz0123456789+/"

/-- The padding. -/
def pad : UInt8 := '='.toUInt8

/-- The character for six bits. -/
def symbol (n : Nat) : UInt8 := alphabet.getD n pad

/-- The six bits of a character. -/
def value (c : UInt8) : Option Nat := alphabet.idxOf? c

/-- Encoding. -/
def encode : Bytes → Bytes
  | [] => []
  | [a] => [symbol (a.toNat / 4), symbol (a.toNat % 4 * 16), pad, pad]
  | [a, b] =>
    [symbol (a.toNat / 4), symbol (a.toNat % 4 * 16 + b.toNat / 16), symbol (b.toNat % 16 * 4), pad]
  | a :: b :: c :: s =>
    symbol (a.toNat / 4) :: symbol (a.toNat % 4 * 16 + b.toNat / 16) ::
      symbol (b.toNat % 16 * 4 + c.toNat / 64) :: symbol (c.toNat % 64) :: encode s

/-- Decoding of text that has no line breaks and is padded. -/
def decode : Bytes → Option Bytes
  | [] => some []
  | w :: x :: y :: z :: s =>
    match value w, value x with
    | some w, some x =>
      let a := UInt8.ofNat (w * 4 + x / 16)
      -- Padding is the end.
      if y = pad then if z = pad ∧ s = [] then some [a] else none
      else
        match value y with
        | none => none
        | some y =>
          let b := UInt8.ofNat (x % 16 * 16 + y / 4)
          if z = pad then if s = [] then some [a, b] else none
          else
            match value z with
            | none => none
            | some z => (decode s).map fun s ↦ a :: b :: UInt8.ofNat (y % 4 * 64 + z) :: s
    | _, _ => none
  | _ => none

@[simp] theorem value_symbol {n : Nat} (h : n < 64) : value (symbol n) = some n := by
  revert n
  decide +kernel

theorem symbol_ne_pad {n : Nat} (h : n < 64) : symbol n ≠ pad := by
  intro heq
  -- The padding has no value, and a symbol has one.
  have hpad : value pad = none := by rfl
  have hvalue := value_symbol h
  rw [heq, hpad] at hvalue
  cases hvalue

theorem symbol_mem (n : Nat) : symbol n ∈ alphabet ++ [pad] := by
  rcases Nat.lt_or_ge n alphabet.length with h | h
  · rw [symbol, List.getD_eq_getElem _ _ h]
    exact List.mem_append_left _ (List.getElem_mem h)
  · rw [symbol, List.getD_eq_default _ _ h]
    exact List.mem_append_right _ List.mem_cons_self

/-- What is encoded is made of the 64 characters and the padding. -/
theorem mem_of_mem_encode {s : Bytes} {c : UInt8} (h : c ∈ encode s) : c ∈ alphabet ++ [pad] := by
  have hpad : pad ∈ alphabet ++ [pad] := List.mem_append_right _ List.mem_cons_self
  fun_induction encode s with
  | case1 => exact absurd h List.not_mem_nil
  | case2 | case3 =>
      simp only [List.mem_cons, List.not_mem_nil, or_false] at h
      rcases h with rfl | rfl | rfl | rfl <;> first | exact symbol_mem _ | exact hpad
  | case4 a b c s ih =>
      simp only [List.mem_cons] at h
      rcases h with rfl | rfl | rfl | rfl | h
      · exact symbol_mem _
      · exact symbol_mem _
      · exact symbol_mem _
      · exact symbol_mem _
      · exact ih h

/-- Four characters for three bytes, or what is left of three. -/
theorem length_encode (s : Bytes) : (encode s).length = 4 * ((s.length + 2) / 3) := by
  fun_induction encode s with
  | case1 => rfl
  | case2 | case3 => simp only [List.length_cons, List.length_nil]
  | case4 a b c s ih =>
      simp only [List.length_cons, ih]
      omega

/-- **Decoding reverses encoding.** -/
theorem decode_encode (s : Bytes) : decode (encode s) = some s := by
  have hofNat (a : UInt8) {n : Nat} (h : n = a.toNat) : UInt8.ofNat n = a := by
    rw [h, UInt8.ofNat_toNat]
  fun_induction encode s with
  | case1 => rfl
  | case2 a =>
      have ha := a.toNat_lt
      rw [decode, value_symbol (by omega), value_symbol (by omega)]
      simp only [true_and, if_true]
      rw [hofNat a (by omega)]
  | case3 a b =>
      have ha := a.toNat_lt
      have hb := b.toNat_lt
      rw [decode, value_symbol (by omega), value_symbol (by omega), value_symbol (by omega)]
      simp only [if_neg (symbol_ne_pad (show b.toNat % 16 * 4 < 64 by omega)), if_true]
      rw [hofNat a (by omega), hofNat b (by omega)]
  | case4 a b c s ih =>
      have ha := a.toNat_lt
      have hb := b.toNat_lt
      have hc := c.toNat_lt
      rw [decode, value_symbol (by omega), value_symbol (by omega), value_symbol (by omega),
        value_symbol (by omega), ih]
      simp only [if_neg (symbol_ne_pad (show b.toNat % 16 * 4 + c.toNat / 64 < 64 by omega)),
        if_neg (symbol_ne_pad (show c.toNat % 64 < 64 by omega)), Option.map_some]
      rw [hofNat a (by omega), hofNat b (by omega), hofNat c (by omega)]

example : encode (ascii "any car") = ascii "YW55IGNhcg==" := by rfl

end KalshiClient.Base64
