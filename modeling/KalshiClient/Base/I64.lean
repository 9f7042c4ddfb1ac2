import Mathlib

/-!
# 64-bit signed arithmetic

A value of type `int64_t` is an integer, and an operation on it is the operation on integers followed by
`wrap`, which brings the result back into range modulo `2 ^ 64`.  Sums that are taken step by step can be
taken at the end instead (`wrap_wrap_add`), and a result in range is exact (`wrap_eq_self`).
-/

namespace I64

/-- `INT64_MAX`. -/
def max : Nat := 2 ^ 63 - 1

/-- The representable values. -/
def InRange (x : Int) : Prop := -(2 ^ 63) ≤ x ∧ x < 2 ^ 63

instance (x : Int) : Decidable (InRange x) := inferInstanceAs (Decidable (_ ∧ _))

/-- The representable value congruent to `x` modulo `2 ^ 64`. -/
def wrap (x : Int) : Int := x.bmod (2 ^ 64)

theorem wrap_eq_self {x : Int} (h : InRange x) : wrap x = x := by
  obtain ⟨hlo, hhi⟩ := h
  refine Int.bmod_eq_of_le ?_ ?_ <;> omega

theorem inRange_wrap (x : Int) : InRange (wrap x) := by
  have hlo := Int.le_bmod (x := x) (m := 2 ^ 64) (by decide)
  have hhi := Int.bmod_lt (x := x) (m := 2 ^ 64) (by decide)
  constructor <;> rw [wrap] <;> omega

@[simp] theorem wrap_wrap_add (x y : Int) : wrap (wrap x + y) = wrap (x + y) := Int.bmod_add_bmod

end I64
