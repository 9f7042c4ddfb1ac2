import KalshiClient.Base.Bytes

/-!
# Decimal numbers

A decimal number as it is written: an optional sign, digits, and possibly a point and more digits, with at least one
digit somewhere.  It denotes a rational number.  If all its digits after the first `n` fractional ones are zero, that
number times `10 ^ n` is an integer, which can be read off the digits (`Decimal.value_mul`).
-/

open Bytes

namespace Bytes

/-- The number a digit string denotes after the digits of another number. -/
def digitsFrom (base v : Nat) (ds : Bytes) : Nat := ds.foldl (fun v c ↦ v * base + hexVal c) v

theorem ofDigits_append (base : Nat) (ds es : Bytes) :
    ofDigits base (ds ++ es) = digitsFrom base (ofDigits base ds) es :=
  List.foldl_append

@[simp] theorem digitsFrom_cons (base v : Nat) (c : UInt8) (ds : Bytes) :
    digitsFrom base v (c :: ds) = digitsFrom base (v * base + hexVal c) ds := rfl

/-- Further digits do not make a number smaller. -/
theorem le_digitsFrom {base : Nat} (hbase : 0 < base) (v : Nat) (ds : Bytes) : v ≤ digitsFrom base v ds := by
  induction ds generalizing v with
  | nil => exact Nat.le_refl v
  | cons c ds ih =>
      refine Nat.le_trans ?_ (ih (v * base + hexVal c))
      exact Nat.le_trans (Nat.le_mul_of_pos_right v hbase) (Nat.le_add_right _ _)

/-- Zeros at the end of a number. -/
theorem digitsFrom_zeros (base v : Nat) {zs : Bytes} (hzs : ∀ c ∈ zs, c = '0'.toUInt8) :
    digitsFrom base v zs = v * base ^ zs.length := by
  induction zs generalizing v with
  | nil => exact (Nat.mul_one v).symm
  | cons c zs ih =>
      have hzero : hexVal '0'.toUInt8 = 0 := rfl
      rw [digitsFrom_cons, ih _ fun c hc ↦ hzs c (List.mem_cons_of_mem _ hc), hzs c List.mem_cons_self, hzero,
        Nat.add_zero, List.length_cons, Nat.pow_succ', Nat.mul_assoc]

end Bytes

/-- A decimal number as it is written. -/
structure Decimal where
  /-- Whether there is a minus sign. -/
  negative : Bool
  /-- The digits before the point. -/
  whole : Bytes
  /-- The digits after the point, if there is one. -/
  point : Option Bytes
  whole_digits : ∀ c ∈ whole, isDigit c = true
  point_digits : ∀ c ∈ point.getD [], isDigit c = true
  ne : whole ++ point.getD [] ≠ []

namespace Decimal

variable (n : Decimal)

/-- The fractional digits. -/
def frac : Bytes := n.point.getD []

/-- The number without its sign, as it is written. -/
def unsigned : Bytes := n.whole ++ n.point.elim [] ('.'.toUInt8 :: ·)

/-- The number as it is written. -/
def text : Bytes := if n.negative then '-'.toUInt8 :: n.unsigned else n.unsigned

/-- The number denoted. -/
def value : ℚ := (if n.negative then -1 else 1) * (ofDigits 10 (n.whole ++ n.frac) / 10 ^ n.frac.length)

/-- The number without its sign times a power of ten, as far as the digits are kept. -/
def scaled (scale : Nat) : Nat := ofDigits 10 (n.whole ++ n.frac.take scale) * 10 ^ (scale - n.frac.length)

/-- The digits beyond the scale are zero. -/
def Exact (scale : Nat) : Prop := ∀ c ∈ n.frac.drop scale, c = '0'.toUInt8

variable {n} {scale : Nat}

/-- All digits, as a number at the scale. -/
theorem scaled_mul (h : n.Exact scale) :
    n.scaled scale * 10 ^ n.frac.length = ofDigits 10 (n.whole ++ n.frac) * 10 ^ scale := by
  have hcut : n.whole ++ n.frac = (n.whole ++ n.frac.take scale) ++ n.frac.drop scale := by
    rw [List.append_assoc, List.take_append_drop]
  have hpow : scale - n.frac.length + n.frac.length = (n.frac.length - scale) + scale := by omega
  rw [hcut, ofDigits_append, digitsFrom_zeros 10 _ h, scaled, List.length_drop, Nat.mul_assoc, Nat.mul_assoc,
    ← Nat.pow_add, ← Nat.pow_add, hpow]

/-- The number denoted, times the power of ten. -/
theorem value_mul (h : n.Exact scale) :
    n.value * 10 ^ scale = ((if n.negative then -(n.scaled scale : Int) else n.scaled scale : Int) : ℚ) := by
  have hscaled : (n.scaled scale : ℚ) * 10 ^ n.frac.length = ofDigits 10 (n.whole ++ n.frac) * 10 ^ scale := by
    exact_mod_cast scaled_mul h
  have hquot : (ofDigits 10 (n.whole ++ n.frac) : ℚ) / 10 ^ n.frac.length * 10 ^ scale = n.scaled scale := by
    rw [div_mul_eq_mul_div, ← hscaled, mul_div_cancel_right₀]
    exact pow_ne_zero _ (by norm_num)
  rw [value, mul_assoc, hquot]
  cases n.negative with
  | false => simp
  | true => simp

end Decimal
