import Mathlib.Data.List.Basic
import Mathlib.Data.List.Forall2

/-!
# Machines that read inputs and write a log

A machine is a function `step` from a state and an input to a state and some output.  `run` feeds it a list of inputs
and collects the output.  The rules below reduce a statement about runs to one about steps: an invariant that may speak
of the log so far (`run_invariant`), a rank that bounds the steps left (`run_rank`), a potential that bounds what is
still written (`run_potential`), two machines in lockstep (`run_lockstep`), and a machine each of whose steps is some
steps of another (`run_refines`).
-/

namespace Mealy

universe u v w

variable {σ τ : Type u} {ι κ : Type v} {ω ο : Type w} (step : σ → ι → σ × List ω)

/-- The state after some inputs, and what was written. -/
def run (s : σ) : List ι → σ × List ω
  | [] => (s, [])
  | i :: is => ((run (step s i).1 is).1, (step s i).2 ++ (run (step s i).1 is).2)

theorem run_append (s : σ) (is js : List ι) :
    run step s (is ++ js) =
      ((run step (run step s is).1 js).1, (run step s is).2 ++ (run step (run step s is).1 js).2) := by
  induction is generalizing s with
  | nil => rfl
  | cons i is ih => rw [List.cons_append, run, ih, run, List.append_assoc]

variable {step}

/-- A property of the state and the log that every step keeps, if the inputs are as they should be. -/
theorem run_invariant {I : σ → List ω → Prop} {P : ι → Prop}
    (hstep : ∀ s log i, I s log → P i → I (step s i).1 (log ++ (step s i).2)) {s : σ} (log : List ω) (h : I s log)
    (is : List ι) (hin : ∀ i ∈ is, P i) : I (run step s is).1 (log ++ (run step s is).2) := by
  induction is generalizing s log with
  | nil => rwa [run, List.append_nil]
  | cons i is ih =>
      rw [run, ← List.append_assoc]
      have hnext := hstep s log i h (hin i List.mem_cons_self)
      exact ih _ hnext fun j hj ↦ hin j (List.mem_cons_of_mem i hj)

/-- A property of the state that every step keeps. -/
theorem run_keeps {P : σ → Prop} (hstep : ∀ s i, P s → P (step s i).1) {s : σ} (h : P s) (is : List ι) :
    P (run step s is).1 :=
  run_invariant (I := fun s _ ↦ P s) (P := fun _ ↦ True) (fun s _ i hs _ ↦ hstep s i hs) [] h is fun _ _ ↦ trivial

/-- Every input that counts lowers the rank, and no input raises it. -/
theorem run_rank {P : σ → Prop} (rank : σ → Nat) (counts : ι → Bool)
    (hstep : ∀ s i, P s → P (step s i).1 ∧ rank (step s i).1 ≤ rank s - if counts i then 1 else 0) {s : σ} (h : P s)
    (is : List ι) : rank (run step s is).1 ≤ rank s - is.countP counts := by
  induction is generalizing s with
  | nil => exact Nat.le_refl _
  | cons i is ih =>
      obtain ⟨hnext, hrank⟩ := hstep s i h
      have hrest := ih hnext
      rw [run, List.countP_cons]
      dsimp only
      omega

/-- What is written is paid for out of the potential. -/
theorem run_potential {P : σ → Prop} (potential : σ → Nat) (q : ω → Bool)
    (hstep : ∀ s i, P s → P (step s i).1 ∧ (step s i).2.countP q + potential (step s i).1 ≤ potential s) {s : σ}
    (h : P s) (is : List ι) : (run step s is).2.countP q + potential (run step s is).1 ≤ potential s := by
  induction is generalizing s with
  | nil => exact Nat.le_of_eq (Nat.zero_add _)
  | cons i is ih =>
      obtain ⟨hnext, hpaid⟩ := hstep s i h
      have hrest := ih hnext
      rw [run, List.countP_append]
      dsimp only
      omega

/-- Two machines in lockstep write the same. -/
theorem run_lockstep {step' : τ → κ → τ × List ω} {R : σ → τ → Prop} {Q : ι → κ → Prop}
    (hstep : ∀ s t i j, R s t → Q i j → (step' t j).2 = (step s i).2 ∧ R (step s i).1 (step' t j).1) {s : σ} {t : τ}
    (h : R s t) {is : List ι} {js : List κ} (hin : List.Forall₂ Q is js) :
    (run step' t js).2 = (run step s is).2 ∧ R (run step s is).1 (run step' t js).1 := by
  induction hin generalizing s t with
  | nil => exact ⟨rfl, h⟩
  | @cons i j is js hij _ ih =>
      obtain ⟨hout, hnext⟩ := hstep s t i j h hij
      obtain ⟨hlog, hlast⟩ := ih hnext
      exact ⟨by rw [run, run, hout, hlog], hlast⟩

/-- A machine each of whose steps is some steps of another one: every run of the first is a run of the second, which
writes what the second can see of the log. -/
theorem run_refines {step' : τ → κ → τ × List ο} {R : σ → τ → Prop} {view : ω → Option ο}
    (hstep : ∀ s t i, R s t → ∃ js, (run step' t js).2 = (step s i).2.filterMap view ∧
      R (step s i).1 (run step' t js).1) {s : σ} {t : τ} (h : R s t) (is : List ι) :
    ∃ js, (run step' t js).2 = (run step s is).2.filterMap view ∧ R (run step s is).1 (run step' t js).1 := by
  induction is generalizing s t with
  | nil => exact ⟨[], rfl, h⟩
  | cons i is ih =>
      obtain ⟨js, hout, hnext⟩ := hstep s t i h
      obtain ⟨ks, hlog, hlast⟩ := ih hnext
      refine ⟨js ++ ks, ?_, ?_⟩
      · rw [run_append, hout, hlog, run, List.filterMap_append]
      · rw [run_append]
        exact hlast

end Mealy
