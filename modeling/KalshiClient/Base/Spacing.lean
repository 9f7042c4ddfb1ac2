import Mathlib

/-!
# Events with a gap between them

If each event of a sequence comes at least `gap` after those before it, few of them fit into an interval: at most the
length of the interval divided by `gap`, and one more (`Spaced.length_le`).
-/

/-- Every time is at least `gap` after all times before it. -/
def Spaced (gap : Int) (ts : List Int) : Prop := ts.Pairwise fun a b ↦ a + gap ≤ b

namespace Spaced

variable {gap : Int}

/-- Each further event moves the end by the gap. -/
theorem add_length_mul_le {t hi : Int} {ts : List Int} (h : Spaced gap (t :: ts)) (hhi : ∀ a ∈ t :: ts, a ≤ hi) :
    t + ts.length * gap ≤ hi := by
  induction ts generalizing t with
  | nil =>
      rw [List.length_nil, Nat.cast_zero, Int.zero_mul, Int.add_zero]
      exact hhi t List.mem_cons_self
  | cons t' ts ih =>
      obtain ⟨ht, hts⟩ := List.pairwise_cons.mp h
      have hfirst : t + gap ≤ t' := ht t' List.mem_cons_self
      have hrest := ih hts fun a ha ↦ hhi a (List.mem_cons_of_mem t ha)
      calc t + (t' :: ts).length * gap
        _ = t + gap + ts.length * gap := by rw [List.length_cons, Nat.cast_succ, Int.add_mul, Int.one_mul]; omega
        _ ≤ t' + ts.length * gap := by omega
        _ ≤ hi := hrest

/-- How many events fit into an interval. -/
theorem length_le {lo hi : Int} {ts : List Int} (h : Spaced gap ts) (hgap : 0 < gap) (hle : lo ≤ hi)
    (hts : ∀ a ∈ ts, lo ≤ a ∧ a ≤ hi) : (ts.length : Int) ≤ (hi - lo) / gap + 1 := by
  cases ts with
  | nil =>
      have hnonneg : 0 ≤ (hi - lo) / gap := Int.ediv_nonneg (by omega) (by omega)
      rw [List.length_nil, Nat.cast_zero]
      omega
  | cons t ts =>
      have hend := h.add_length_mul_le fun a ha ↦ (hts a ha).2
      have hstart := (hts t List.mem_cons_self).1
      have hdiv : (ts.length : Int) ≤ (hi - lo) / gap := (Int.le_ediv_iff_mul_le hgap).mpr (by omega)
      rw [List.length_cons, Nat.cast_succ]
      omega

end Spaced
