import Mathlib

/-!
# Byte strings and the character routines of the standard library

Everything the client receives or sends is a sequence of bytes: `std::string`, `std::string_view` and
`std::span<const std::byte>` are all `Bytes` here.  The file also fixes the handful of
standard-library routines that more than one component uses, in the generality they are used:
`std::from_chars` for unsigned integers and the decimal and hexadecimal formatting of `std::format`.
-/

/-- Bytes are ordered as unsigned numbers, so byte strings are ordered as `std::string` compares them:
lexicographically, by unsigned bytes. -/
instance linearOrderByte : LinearOrder UInt8 where
  le_refl := UInt8.le_refl
  le_trans _ _ _ := UInt8.le_trans
  le_antisymm _ _ := UInt8.le_antisymm
  le_total := UInt8.le_total
  toDecidableLE := inferInstance
  toDecidableEq := inferInstance
  toDecidableLT := inferInstance
  lt_iff_le_not_ge a b := by
    rw [UInt8.lt_iff_toNat_lt, UInt8.le_iff_toNat_le, UInt8.le_iff_toNat_le]
    exact lt_iff_le_not_ge

/-- A byte string. -/
abbrev Bytes := List UInt8

namespace Bytes

/-- The bytes of an ASCII literal of the source. -/
def ascii (s : String) : Bytes := s.toList.map Char.toUInt8

/-- `'0'` to `'9'`. -/
def isDigit (c : UInt8) : Bool := '0'.toUInt8 ≤ c && c ≤ '9'.toUInt8

/-- A hexadecimal digit in either case. -/
def isHex (c : UInt8) : Bool :=
  isDigit c || ('a'.toUInt8 ≤ c && c ≤ 'f'.toUInt8) || ('A'.toUInt8 ≤ c && c ≤ 'F'.toUInt8)

/-- The value of a hexadecimal digit; any byte that is not one counts as an upper-case letter, as in
the last branch of the usual cascade. -/
def hexVal (c : UInt8) : Nat :=
  if '0'.toUInt8 ≤ c ∧ c ≤ '9'.toUInt8 then c.toNat - 48
  else if 'a'.toUInt8 ≤ c ∧ c ≤ 'f'.toUInt8 then c.toNat - 97 + 10
  else c.toNat - 65 + 10

/-- The number a digit string denotes, most significant digit first. -/
def ofDigits (base : Nat) (ds : Bytes) : Nat := ds.foldl (fun v c ↦ v * base + hexVal c) 0

/-- `std::from_chars` on an unsigned type of `bits` bits: the longest run of digits is read; no digit
and a value out of range are both errors.  Returns the value and what follows the digits. -/
def fromChars (digit : UInt8 → Bool) (base bits : Nat) (s : Bytes) : Option (Nat × Bytes) :=
  let ds := s.takeWhile digit
  if ds = [] then none
  else if 2 ^ bits ≤ ofDigits base ds then none
  else some (ofDigits base ds, s.dropWhile digit)

/-- The pattern `ec == errc{} && ptr == end`: the whole string is one number in range. -/
def parseWhole (digit : UInt8 → Bool) (base bits : Nat) (s : Bytes) : Option Nat :=
  match fromChars digit base bits s with
  | some (n, []) => some n
  | _ => none

/-- A decimal number as `uint64_t`. -/
def parseU64 (s : Bytes) : Option UInt64 := (parseWhole isDigit 10 64 s).map UInt64.ofNat

/-- `{}` of a nonnegative integer: its decimal digits. -/
def ofNat (n : Nat) : Bytes := (Nat.toDigits 10 n).map Char.toUInt8

/-- `{}` of a signed integer. -/
def ofInt : Int → Bytes
  | .ofNat n => ofNat n
  | .negSucc n => '-'.toUInt8 :: ofNat (n + 1)

/-- A decidable property of all bytes can be decided over the bit vectors. -/
theorem forall_byte {p : UInt8 → Prop} (h : ∀ x : BitVec 8, p ⟨x⟩) (c : UInt8) : p c := h c.toBitVec

/-- A decidable property of the bytes of a string can be decided byte by byte. -/
theorem forall_mem_of_all {p : UInt8 → Prop} [DecidablePred p] {s : Bytes} (h : s.all (fun c ↦ decide (p c)) = true) :
    ∀ c ∈ s, p c :=
  fun c hc ↦ of_decide_eq_true (List.all_eq_true.mp h c hc)

/-- The byte of a decimal digit. -/
theorem toNat_toUInt8 {c : Char} (h : c.isDigit = true) :
    c.toUInt8.toNat = c.toNat ∧ 48 ≤ c.toNat ∧ c.toNat ≤ 57 := by
  rw [Char.isDigit, Bool.and_eq_true, decide_eq_true_eq, decide_eq_true_eq] at h
  have hge : 48 ≤ c.toNat := h.1
  have hle : c.toNat ≤ 57 := h.2
  refine ⟨?_, hge, hle⟩
  rw [Char.toUInt8, UInt32.toNat_toUInt8]
  exact Nat.mod_eq_of_lt (show c.toNat < 256 by omega)

/-- A number is written in digits. -/
theorem isDigit_of_mem_ofNat {n : Nat} {c : UInt8} (h : c ∈ ofNat n) : isDigit c = true := by
  obtain ⟨d, hd, rfl⟩ := List.mem_map.mp h
  obtain ⟨heq, hge, hle⟩ := toNat_toUInt8 (Nat.isDigit_of_mem_toDigits (by decide) (by decide) hd)
  rw [isDigit, Bool.and_eq_true, decide_eq_true_eq, decide_eq_true_eq, UInt8.le_iff_toNat_le, UInt8.le_iff_toNat_le,
    heq]
  exact ⟨hge, hle⟩

/-- The digits of a number denote it. -/
theorem ofDigits_ofNat (n : Nat) : ofDigits 10 (ofNat n) = n := by
  rw [ofDigits, ofNat, List.foldl_map]
  conv_rhs => rw [← Nat.ofDigitChars_ten_toDigits (n := n)]
  refine List.foldl_ext _ _ 0 fun v c hc ↦ ?_
  obtain ⟨heq, hge, hle⟩ := toNat_toUInt8 (Nat.isDigit_of_mem_toDigits (by decide) (by decide) hc)
  have hrange : '0'.toUInt8 ≤ c.toUInt8 ∧ c.toUInt8 ≤ '9'.toUInt8 := by
    rw [UInt8.le_iff_toNat_le, UInt8.le_iff_toNat_le, heq]
    exact ⟨hge, hle⟩
  rw [hexVal, if_pos hrange, heq, Nat.mul_comm]
  rfl

/-- Different numbers are written differently. -/
theorem ofNat_injective : Function.Injective ofNat := by
  intro m n h
  rw [← ofDigits_ofNat m, h, ofDigits_ofNat]

theorem ofNat_ne_nil (n : Nat) : ofNat n ≠ [] := by
  intro h
  have hlength : (Nat.toDigits 10 n).length = 0 := by
    rw [← List.length_map (f := Char.toUInt8)]
    exact congrArg List.length h
  exact absurd hlength (Nat.ne_of_gt Nat.length_toDigits_pos)

/-- A digit string is a number, if it is in range. -/
theorem parseWhole_digits {digit : UInt8 → Bool} {base bits : Nat} {s : Bytes} (hne : s ≠ [])
    (hs : ∀ c ∈ s, digit c = true) :
    parseWhole digit base bits s = if 2 ^ bits ≤ ofDigits base s then none else some (ofDigits base s) := by
  have htake : s.takeWhile digit = s := List.takeWhile_eq_self_iff.mpr hs
  have hdrop : s.dropWhile digit = [] := List.dropWhile_eq_nil_iff.mpr hs
  rw [parseWhole, fromChars]
  simp only [htake, hdrop, if_neg hne]
  split_ifs <;> rfl

/-- A number is read back. -/
theorem parseWhole_ofNat {n bits : Nat} (h : n < 2 ^ bits) : parseWhole isDigit 10 bits (ofNat n) = some n := by
  rw [parseWhole_digits (ofNat_ne_nil n) fun c hc ↦ isDigit_of_mem_ofNat hc, ofDigits_ofNat, if_neg (Nat.not_le.mpr h)]

theorem mem_ofInt {t : Int} {c : UInt8} (h : c ∈ ofInt t) : isDigit c = true ∨ c = '-'.toUInt8 := by
  cases t with
  | ofNat n => exact .inl (isDigit_of_mem_ofNat h)
  | negSucc n =>
      rcases List.mem_cons.mp h with rfl | h
      · exact .inr rfl
      · exact .inl (isDigit_of_mem_ofNat h)

theorem ofInt_injective : Function.Injective ofInt := by
  have hsign (n : Nat) (s : Bytes) : ofNat n ≠ '-'.toUInt8 :: s := fun h ↦ by
    have hdigit := isDigit_of_mem_ofNat (n := n) (h ▸ List.mem_cons_self)
    exact absurd hdigit (by decide)
  intro t t' h
  cases t with
  | ofNat n =>
      cases t' with
      | ofNat n' => exact congrArg Int.ofNat (ofNat_injective h)
      | negSucc n' => exact absurd h (hsign n _)
  | negSucc n =>
      cases t' with
      | ofNat n' => exact absurd h.symm (hsign n' _)
      | negSucc n' => exact congrArg Int.negSucc (Nat.succ_injective (ofNat_injective (List.cons.inj h).2))

end Bytes
