import KalshiClient.Base.Bytes
import KalshiClient.Base.I64

/-!
# Fixed-point numbers

`parse_fixed` of `include/fixed_point.hpp`: a decimal string as an integer scaled by a power of ten.  The
accumulated value is never negative, and both places that could overflow are guarded, so it is a `Nat`
here.
-/

namespace KalshiClient.Trading

open Bytes

/-- The local variables of `parse_fixed`. -/
structure FixedState where
  /-- `value`. -/
  value : Nat := 0
  /-- `digits`: all digits consumed. -/
  digits : Nat := 0
  /-- `frac_digits`: the digits kept after the decimal point. -/
  fracDigits : Nat := 0
  /-- `seen_point`. -/
  seenPoint : Bool := false

/-- One round of the loop over the characters. -/
def fixedStep (scale : Nat) (st : FixedState) (c : UInt8) : Option FixedState :=
  if c = '.'.toUInt8 then
    if st.seenPoint then none else some { st with seenPoint := true }
  else if !isDigit c then none
  else if st.seenPoint && st.fracDigits = scale then
    -- More precision than can be represented is accepted only if it is zero.
    if c ≠ '0'.toUInt8 then none else some { st with digits := st.digits + 1 }
  else
    let digit := c.toNat - '0'.toNat
    if st.value > (I64.max - digit) / 10 then none
    else
      some { st with
        value := st.value * 10 + digit
        digits := st.digits + 1
        fracDigits := if st.seenPoint then st.fracDigits + 1 else st.fracDigits }

/-- The loop that makes up for missing fractional digits, `n` of them. -/
def scaleUp (value : Nat) : Nat → Option Nat
  | 0 => some value
  | n + 1 => if value > I64.max / 10 then none else scaleUp (value * 10) n

/-- `parse_fixed` without the sign. -/
def parseMagnitude (scale : Nat) (s : Bytes) : Option Nat := do
  let st ← s.foldlM (fixedStep scale) {}
  if st.digits = 0 then none else scaleUp st.value (scale - st.fracDigits)

/-- `parse_fixed<Scale>`. -/
def parseFixed (scale : Nat) (s : Bytes) : Option Int :=
  match s with
  | [] => none
  | c :: t =>
    if c = '-'.toUInt8 then (parseMagnitude scale t).map fun value : Nat ↦ -(value : Int)
    else (parseMagnitude scale (c :: t)).map fun value : Nat ↦ (value : Int)

theorem fixedStep_value_le {scale : Nat} {st st' : FixedState} {c : UInt8}
    (h : fixedStep scale st c = some st') (hst : st.value ≤ I64.max) : st'.value ≤ I64.max := by
  have hmax : 9 ≤ I64.max := by decide
  have hc : isDigit c = true → c.toNat - '0'.toNat ≤ 9 := by
    intro h
    simp only [isDigit, Bool.and_eq_true, decide_eq_true_eq] at h
    have : c.toNat ≤ '9'.toUInt8.toNat := UInt8.le_iff_toNat_le.mp h.2
    exact Nat.sub_le_of_le_add this
  rw [fixedStep] at h
  dsimp only at h
  split at h
  · split at h
    · cases h
    · cases h
      exact hst
  · split at h
    · cases h
    · next hdigit =>
        split at h
        · split at h
          · cases h
          · cases h
            exact hst
        · split at h
          · cases h
          · next hover =>
              cases h
              have hle := hc (by simpa using hdigit)
              have hdiv := not_lt.mp hover
              dsimp only
              omega

theorem scaleUp_le {value n x : Nat} (h : scaleUp value n = some x) (hv : value ≤ I64.max) :
    x ≤ I64.max := by
  induction n generalizing value with
  | zero =>
      cases h
      exact hv
  | succ n ih =>
      rw [scaleUp] at h
      split_ifs at h with hover
      exact ih h (by omega)

theorem foldlM_fixedStep_value_le {scale : Nat} {s : Bytes} {st st' : FixedState}
    (h : s.foldlM (fixedStep scale) st = some st') (hst : st.value ≤ I64.max) :
    st'.value ≤ I64.max := by
  induction s generalizing st with
  | nil =>
      cases h
      exact hst
  | cons c s ih =>
      rw [List.foldlM_cons] at h
      obtain ⟨st₁, hstep, h⟩ := Option.bind_eq_some_iff.mp h
      exact ih h (fixedStep_value_le hstep hst)

theorem parseMagnitude_le {scale x : Nat} {s : Bytes} (h : parseMagnitude scale s = some x) :
    x ≤ I64.max := by
  obtain ⟨st, hfold, h⟩ := Option.bind_eq_some_iff.mp h
  split_ifs at h
  exact scaleUp_le h (foldlM_fixedStep_value_le hfold (Nat.zero_le _))

/-- Whatever is parsed is representable, and so is its negation. -/
theorem parseFixed_range {scale : Nat} {s : Bytes} {x : Int} (h : parseFixed scale s = some x) :
    -(I64.max : Int) ≤ x ∧ x ≤ I64.max := by
  cases s with
  | nil => cases h
  | cons c t =>
      rw [parseFixed] at h
      split_ifs at h
      · obtain ⟨value, hvalue, rfl⟩ := Option.map_eq_some_iff.mp h
        have := parseMagnitude_le hvalue
        omega
      · obtain ⟨value, hvalue, rfl⟩ := Option.map_eq_some_iff.mp h
        have := parseMagnitude_le hvalue
        omega

end KalshiClient.Trading
