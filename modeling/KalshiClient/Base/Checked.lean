import KalshiClient.Base.Result

/-!
# Computations with undefined operations

An index out of range, a subtraction of sizes below zero and a signed overflow have no meaning in the source.  A
`Checked` computation gives nothing at all where it meets one, besides returning or failing with an error as
`std::expected` does.  To show that a function never meets one, write it with checked operations and show that it is
`Checked.defined` of the plain model.
-/

/-- A computation that returns, fails with an error, or meets an undefined operation. -/
abbrev Checked (ε α : Type) : Type := ExceptT ε Option α

namespace Checked

variable {ε α β : Type}

/-- The computation, which meets no undefined operation. -/
def defined (x : Except ε α) : Checked ε α := ExceptT.mk (some x)

/-- An operation that is undefined where it gives nothing. -/
def partially (x : Option α) : Checked ε α := ExceptT.mk (x.map .ok)

/-- Failing is defined. -/
def fail (e : ε) : Checked ε α := defined (.error e)

/-- An operation with a result. -/
theorem partially_some {x : Option α} {a : α} (h : x = some a) :
    (partially x : Checked ε α) = defined (.ok a) := by
  rw [h]
  rfl

@[simp] theorem defined_ok_bind (a : α) (f : α → Checked ε β) : (defined (.ok a) >>= f) = f a := rfl

/-- Chains of defined computations are defined; the rest of a chain may rely on the result it is given. -/
theorem bind_defined {x : Except ε α} {f : α → Checked ε β} {g : α → Except ε β}
    (h : ∀ a, x = .ok a → f a = defined (g a)) : (defined x >>= f) = defined (x >>= g) := by
  cases x with
  | error e => rfl
  | ok a => exact h a rfl

/-- The same for a test. -/
theorem ite_defined {c : Prop} [Decidable c] {x y : Checked ε α} {x' y' : Except ε α} (hx : c → x = defined x')
    (hy : ¬ c → y = defined y') : (if c then x else y) = defined (if c then x' else y') := by
  by_cases hc : c
  · rw [if_pos hc, if_pos hc, hx hc]
  · rw [if_neg hc, if_neg hc, hy hc]

/-! ## Arithmetic -/

/-- A result that must not exceed the largest value of its type. -/
def within (bound n : Nat) : Checked ε Nat := partially (if n ≤ bound then some n else none)

/-- A difference that must not be negative. -/
def minus (a b : Nat) : Checked ε Nat := partially (if b ≤ a then some (a - b) else none)

theorem within_eq {bound n : Nat} (h : n ≤ bound) : (within bound n : Checked ε Nat) = defined (.ok n) :=
  partially_some (if_pos h)

theorem minus_eq {a b : Nat} (h : b ≤ a) : (minus a b : Checked ε Nat) = defined (.ok (a - b)) :=
  partially_some (if_pos h)

/-! ## Optional results -/

/-- A result that may be missing, as an error without a description. -/
def orFail (x : Option α) : Except Unit α := x.elim (.error ()) .ok

@[simp] theorem orFail_some (a : α) : orFail (some a) = .ok a := rfl

theorem orFail_eq_ok {x : Option α} {a : α} : orFail x = .ok a ↔ x = some a := by
  cases x with
  | none => exact iff_of_false Except.error_ne_ok (Option.some_ne_none a).symm
  | some b => rw [orFail_some, Except.ok.injEq, Option.some.injEq]

theorem orFail_bind (x : Option α) (f : α → Option β) : orFail (x >>= f) = orFail x >>= fun a ↦ orFail (f a) := by
  cases x <;> rfl

end Checked
