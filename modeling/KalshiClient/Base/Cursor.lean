import Mathlib.Data.List.Basic

/-!
# Scanning by index

A scanner that is written with an index keeps its whole input and moves the index; one that is easy to reason about
keeps only what it has still to read.  `At` says that the two stand at the same place, with a rule for each way the
index moves, and `Agrees` that a call on the one returns what a call on the other does.  The two differ in what a
failing call leaves behind: the index stays where it was, but there is nothing left to read on from.
-/

namespace Cursor

universe u v w

/-- `At input pos s`: the index is within the input, and `s` is the input from there on. -/
structure At {α : Type u} (input : List α) (pos : Nat) (s : List α) : Prop where
  /-- The index is at most the length of the input. -/
  within : pos ≤ input.length
  /-- What is left to read. -/
  drop_eq : input.drop pos = s

/-- The `n` elements from an index on. -/
def substr {α : Type u} (input : List α) (pos n : Nat) : List α := (input.drop pos).take n

section At

variable {α : Type u} {input s t x r : List α} {pos : Nat} {c : α}

namespace At

/-- Every index within the input stands somewhere. -/
theorem of_le (h : pos ≤ input.length) : At input pos (input.drop pos) := ⟨h, rfl⟩

theorem length_eq (h : At input pos s) : pos + s.length = input.length := by
  rw [← h.drop_eq, List.length_drop]
  exact Nat.add_sub_of_le h.within

theorem pos_eq (h : At input pos s) : pos = input.length - s.length := by
  rw [← h.length_eq]
  exact (Nat.add_sub_cancel pos s.length).symm

theorem lt (h : At input pos (c :: t)) : pos < input.length := by
  rw [← h.length_eq]
  exact Nat.lt_add_of_pos_right (Nat.succ_pos _)

theorem not_lt (h : At input pos []) : ¬ pos < input.length := Nat.not_lt.mpr (Nat.le_of_eq h.length_eq.symm)

/-- The element at the index is the first that is left. -/
theorem getElem_eq (h : At input pos (c :: t)) (hlt : pos < input.length) : input[pos] = c := by
  have hdrop := h.drop_eq
  rw [List.drop_eq_getElem_cons hlt] at hdrop
  exact (List.cons.inj hdrop).1

/-- The index moves over what has been read. -/
theorem advance (h : At input pos (x ++ r)) : At input (pos + x.length) r := by
  constructor
  · rw [← h.length_eq, List.length_append]
    exact Nat.add_le_add_left (Nat.le_add_right _ _) _
  · rw [← List.drop_drop, h.drop_eq, List.drop_left]

theorem step (h : At input pos (c :: t)) : At input (pos + 1) t := advance (x := [c]) h

/-- What has been read is a part of the input. -/
theorem substr_eq (h : At input pos (x ++ r)) : substr input pos x.length = x := by
  rw [substr, h.drop_eq, List.take_left]

/-- The same, with the index afterwards. -/
theorem substr_sub_eq {pos' : Nat} (h : At input pos (x ++ r)) (h' : At input pos' r) :
    substr input pos (pos' - pos) = x := by
  have hlength := h.advance.length_eq.trans h'.length_eq.symm
  rw [← Nat.add_right_cancel hlength, Nat.add_sub_cancel_left, h.substr_eq]

end At

end At

/-! ## A loop -/

section SkipWhile

variable {α : Type u} (p : α → Bool) (input : List α)

/-- `while (pos < input.size() && p(input[pos])) ++pos`. -/
def skipWhile (pos : Nat) : Nat :=
  if h : pos < input.length then
    if p input[pos] then skipWhile (pos + 1) else pos
  else pos
termination_by input.length - pos

variable {p input}

/-- The loop drops what `dropWhile` does. -/
theorem At.skipWhile {pos : Nat} {s : List α} (h : At input pos s) :
    At input (skipWhile p input pos) (s.dropWhile p) := by
  induction s generalizing pos with
  | nil =>
      rw [Cursor.skipWhile, dif_neg h.not_lt]
      exact h
  | cons c t ih =>
      rw [Cursor.skipWhile, dif_pos h.lt, h.getElem_eq]
      cases hc : p c with
      | true =>
          rw [if_pos rfl, List.dropWhile_cons_of_pos hc]
          exact ih h.step
      | false =>
          rw [if_neg Bool.false_ne_true, List.dropWhile_cons_of_neg (by rw [hc]; exact Bool.false_ne_true)]
          exact h

end SkipWhile

/-! ## Results -/

/-- What a call returns and the state it leaves, against what a call on the related state returns: the same value with
related states, or the same error, in which case the state it leaves is related to some other. -/
inductive Agrees {ε : Type u} {α : Type v} {σ τ : Type w} (S : σ → τ → Prop) :
    Except ε α × σ → Except ε (α × τ) → Prop
  | ok (a : α) {s : σ} {t : τ} (h : S s t) : Agrees S (.ok a, s) (.ok (a, t))
  | error (e : ε) {s : σ} {t : τ} (h : S s t) : Agrees S (.error e, s) (.error e)

namespace Agrees

variable {ε : Type u} {α : Type v} {σ τ : Type w} {S : σ → τ → Prop} {x : Except ε α × σ} {y : Except ε (α × τ)}

/-- Whatever a call returns, it leaves a related state. -/
theorem exists_related (h : Agrees S x y) : ∃ t, S x.2 t := by
  cases h with
  | ok a h => exact ⟨_, h⟩
  | error e h => exact ⟨_, h⟩

/-- A call that succeeds is one that succeeds on the related state. -/
theorem of_ok (h : Agrees S x y) {a : α} (ha : x.1 = .ok a) : ∃ t, S x.2 t ∧ y = .ok (a, t) := by
  cases h with
  | ok a' h =>
      cases ha
      exact ⟨_, h, rfl⟩
  | error e h => cases ha

end Agrees

end Cursor
