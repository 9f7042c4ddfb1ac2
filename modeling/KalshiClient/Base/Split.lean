import Mathlib.Data.List.Infix

/-!
# Cutting a list at a separator

`find` on a string followed by two `substr`: everything before the first occurrence of a separator, and
everything after it.  A cut, once found, is not moved by what is appended (`breakOn_append`), and a part in
which the separator cannot start is passed over (`breakOn_skip`).
-/

namespace Split

universe u

variable {α : Type u} [DecidableEq α] {sep s t a b : List α}

/-- What stands before and after the first occurrence of `sep`. -/
def breakOn (sep : List α) : List α → Option (List α × List α)
  | [] => if sep = [] then some ([], []) else none
  | c :: s =>
    if sep.isPrefixOf (c :: s) then some ([], (c :: s).drop sep.length)
    else (breakOn sep s).map fun p ↦ (c :: p.1, p.2)

theorem breakOn_of_starts (h : sep <+: s) : breakOn sep s = some ([], s.drop sep.length) := by
  cases s with
  | nil =>
      obtain rfl := List.prefix_nil.mp h
      rfl
  | cons c s => rw [breakOn, if_pos (List.isPrefixOf_iff_prefix.mpr h)]

theorem breakOn_cons {c : α} (h : ¬ sep <+: c :: s) :
    breakOn sep (c :: s) = (breakOn sep s).map fun p ↦ (c :: p.1, p.2) := by
  rw [breakOn, if_neg fun hp ↦ h (List.isPrefixOf_iff_prefix.mp hp)]

/-- The separator stands between the two parts. -/
theorem eq_append_of_breakOn (h : breakOn sep s = some (a, b)) : s = a ++ sep ++ b := by
  induction s generalizing a with
  | nil =>
      rw [breakOn] at h
      split_ifs at h with hsep
      cases h
      rw [hsep]
      rfl
  | cons c s ih =>
      by_cases hp : sep <+: c :: s
      · rw [breakOn_of_starts hp] at h
        cases h
        obtain ⟨rest, hrest⟩ := hp
        rw [← hrest, List.drop_left, List.nil_append]
      · rw [breakOn_cons hp] at h
        obtain ⟨⟨a', b'⟩, hab, he⟩ := Option.map_eq_some_iff.mp h
        cases he
        rw [ih hab]
        rfl

/-- What is appended does not move the cut. -/
theorem breakOn_append (h : breakOn sep s = some (a, b)) (t : List α) :
    breakOn sep (s ++ t) = some (a, b ++ t) := by
  induction s generalizing a with
  | nil =>
      rw [breakOn] at h
      split_ifs at h with hsep
      cases h
      rw [hsep, breakOn_of_starts List.nil_prefix]
      rfl
  | cons c s ih =>
      by_cases hp : sep <+: c :: s
      · rw [breakOn_of_starts hp] at h
        cases h
        rw [breakOn_of_starts (hp.trans (List.prefix_append _ _)),
          List.drop_append_of_le_length hp.length_le]
      · rw [breakOn_cons hp] at h
        obtain ⟨⟨a', b'⟩, hab, he⟩ := Option.map_eq_some_iff.mp h
        cases he
        have hp' : ¬ sep <+: c :: (s ++ t) := by
          -- The cut lies within `s`, so the separator is not longer than what was looked at.
          intro hlong
          have hlen := congrArg List.length (eq_append_of_breakOn hab)
          simp only [List.length_append] at hlen
          refine hp (List.prefix_of_prefix_length_le hlong (List.prefix_append (c :: s) t) ?_)
          simp only [List.length_cons]
          omega
        rw [List.cons_append, breakOn_cons hp', ih hab]
        rfl

/-- The cut is found without what follows it. -/
theorem breakOn_self (h : breakOn sep s = some (a, b)) : breakOn sep (a ++ sep) = some (a, []) := by
  induction s generalizing a with
  | nil =>
      rw [breakOn] at h
      split_ifs at h with hsep
      cases h
      rw [hsep]
      rfl
  | cons c s ih =>
      by_cases hp : sep <+: c :: s
      · rw [breakOn_of_starts hp] at h
        cases h
        rw [List.nil_append, breakOn_of_starts (List.prefix_refl sep), List.drop_length]
      · rw [breakOn_cons hp] at h
        obtain ⟨⟨a', b'⟩, hab, he⟩ := Option.map_eq_some_iff.mp h
        cases he
        have hshort : a' ++ sep <+: s := ⟨_, (eq_append_of_breakOn hab).symm⟩
        have hp' : ¬ sep <+: c :: (a' ++ sep) :=
          fun hstart ↦ hp (hstart.trans (List.prefix_cons_inj c |>.mpr hshort))
        rw [List.cons_append, breakOn_cons hp', ih hab]
        rfl

/-- Nor does it depend on it. -/
theorem breakOn_replace (h : breakOn sep s = some (a, b)) (t : List α) : breakOn sep (a ++ sep ++ t) = some (a, t) := by
  rw [breakOn_append (breakOn_self h), List.nil_append]

/-- A list without the separator, to which something is appended, ends in the separator at the latest. -/
theorem prefix_of_breakOn_append (hnone : breakOn sep s = none) (h : breakOn sep (s ++ t) = some (a, b)) :
    s <+: a ++ sep := by
  have hcut : s ++ t = a ++ sep ++ b := eq_append_of_breakOn h
  rcases Nat.le_total (a ++ sep).length s.length with hlen | hlen
  · obtain ⟨x, hx⟩ := List.prefix_of_prefix_length_le ⟨b, hcut.symm⟩ (List.prefix_append s t) hlen
    rw [← hx, breakOn_replace h] at hnone
    cases hnone
  · exact List.prefix_of_prefix_length_le (List.prefix_append s t) ⟨b, hcut.symm⟩ hlen

/-- A part in which the separator does not start is passed over. -/
theorem breakOn_skip (h : ∀ k < a.length, ¬ sep <+: (a ++ s).drop k) :
    breakOn sep (a ++ s) = (breakOn sep s).map fun p ↦ (a ++ p.1, p.2) := by
  induction a with
  | nil =>
      rw [List.nil_append]
      cases breakOn sep s with
      | none => rfl
      | some p => rfl
  | cons c a ih =>
      have hc : ¬ sep <+: c :: (a ++ s) := h 0 (Nat.zero_lt_succ _)
      rw [List.cons_append, breakOn_cons hc, ih fun k hk ↦ h (k + 1) (Nat.succ_lt_succ hk),
        Option.map_map]
      rfl

/-- The separator does not start in a part without its first element. -/
theorem breakOn_of_notMem {c : α} (h : c ∉ a) (s : List α) :
    breakOn (c :: sep) (a ++ s) = (breakOn (c :: sep) s).map fun p ↦ (a ++ p.1, p.2) := by
  refine breakOn_skip fun k hk hp ↦ h ?_
  rw [List.drop_append_of_le_length hk.le, List.drop_eq_getElem_cons hk, List.cons_append,
    List.cons_prefix_cons] at hp
  rw [hp.1]
  exact List.getElem_mem hk

/-- The first part ends at the separator if its first element does not occur before. -/
theorem breakOn_eq_some {c : α} (h : c ∉ a) (b : List α) :
    breakOn (c :: sep) (a ++ (c :: sep) ++ b) = some (a, b) := by
  rw [List.append_assoc, breakOn_of_notMem h, breakOn_of_starts (List.prefix_append _ _),
    List.drop_left]
  simp

end Split
