import Mathlib.Order.Bounds.Basic

/-!
# The top of an array, maintained incrementally

`IsTop P b` says that `b` is the greatest positive index at which `P` holds, or `0` if there is none.
The index is found by scanning downwards (`isTop_scan`), and after a change at a single index it is
brought up to date without a scan, unless it is the top itself that no longer satisfies `P`.
-/

namespace Top

/-- The greatest positive index up to `n` at which `P` holds, or `0`. -/
def scan (P : Nat → Bool) : Nat → Nat
  | 0 => 0
  | n + 1 => if P (n + 1) then n + 1 else scan P n

/-- `b` is the greatest positive index at which `P` holds, or `0` if there is none. -/
structure IsTop (P : Nat → Bool) (b : Nat) : Prop where
  /-- Nothing holds above `b`. -/
  le : ∀ p, 0 < p → P p = true → p ≤ b
  /-- `P` holds at `b`, unless `b` is `0`. -/
  mem : 0 < b → P b = true

variable {P Q : Nat → Bool} {b q : Nat}

/-- A scan finds the top if nothing holds above where it starts. -/
theorem isTop_scan {n : Nat} (h : ∀ p, n < p → P p = false) : IsTop P (scan P n) := by
  induction n with
  | zero =>
      refine ⟨fun p hp hP ↦ ?_, fun h ↦ absurd h (lt_irrefl 0)⟩
      rw [h p hp] at hP
      cases hP
  | succ n ih =>
      rw [scan]
      split
      · next hn =>
          refine ⟨fun p _ hP ↦ ?_, fun _ ↦ hn⟩
          by_contra hlt
          rw [h p (not_le.mp hlt)] at hP
          cases hP
      · next hn =>
          refine ih fun p hp ↦ ?_
          rcases (Nat.succ_le_of_lt hp).eq_or_lt with rfl | hlt
          · exact Bool.eq_false_iff.mpr hn
          · exact h p hlt

namespace IsTop

theorem eq_false_of_lt (h : IsTop P b) {p : Nat} (hp : b < p) : P p = false := by
  refine Bool.eq_false_iff.mpr fun hP ↦ ?_
  exact absurd (h.le p (lt_of_le_of_lt (Nat.zero_le b) hp) hP) (not_le.mpr hp)

/-- There is at most one top. -/
theorem unique {c : Nat} (h : IsTop P b) (h' : IsTop P c) : b = c := by
  have le_of {b c : Nat} (h : IsTop P b) (h' : IsTop P c) : b ≤ c := by
    rcases Nat.eq_zero_or_pos b with rfl | hb
    · exact Nat.zero_le c
    · exact h'.le b hb (h.mem hb)
  exact le_antisymm (le_of h h') (le_of h' h)

section Update

variable (h : IsTop P b) (hPQ : ∀ p, p ≠ q → Q p = P p)
include h hPQ

/-- An index above the top now satisfies `P`. -/
theorem raise (hq : b < q) (hQ : Q q = true) : IsTop Q q := by
  refine ⟨fun p hp hQp ↦ ?_, fun _ ↦ hQ⟩
  by_contra hlt
  have hne : p ≠ q := fun e ↦ hlt e.le
  rw [hPQ p hne, h.eq_false_of_lt (hq.trans (not_le.mp hlt))] at hQp
  cases hQp

/-- An index below the top has changed, or the top still satisfies `P`. -/
theorem keep (hq : q ≤ b) (hb : q = b → 0 < b → Q b = true) : IsTop Q b := by
  refine ⟨fun p hp hQp ↦ ?_, fun hpos ↦ ?_⟩
  · by_cases hpq : p = q
    · exact hpq.le.trans hq
    · rw [hPQ p hpq] at hQp
      exact h.le p hp hQp
  · by_cases hqb : q = b
    · exact hb hqb hpos
    · rw [hPQ b (Ne.symm hqb)]
      exact h.mem hpos

/-- An index above the top has changed, but does not satisfy `P`. -/
theorem keep_of_false (hne : q ≠ b) (hQ : Q q = false) : IsTop Q b := by
  refine ⟨fun p hp hQp ↦ ?_, fun hpos ↦ ?_⟩
  · by_cases hpq : p = q
    · subst hpq
      rw [hQ] at hQp
      cases hQp
    · rw [hPQ p hpq] at hQp
      exact h.le p hp hQp
  · rw [hPQ b (Ne.symm hne)]
    exact h.mem hpos

/-- The top no longer satisfies `P`: the next one is found by a scan from below it. -/
theorem rescan (hb : q = b) (hQ : Q q = false) : IsTop Q (scan Q (q - 1)) := by
  refine isTop_scan fun p hp ↦ ?_
  by_cases hpq : p = q
  · rw [hpq, hQ]
  · rw [hPQ p hpq]
    exact h.eq_false_of_lt (by omega)

end Update

end IsTop

end Top
