import Mathlib

/-!
# Sorted association lists

`std::flat_map` keeps its entries in one sequence, in increasing order of the keys, each key once.
`emplace` inserts an entry unless the key is there already, so that of several entries with one key
the first to come stays.  A map is a list of entries; `Sorted` is its invariant.
-/

namespace FlatMap

universe u v

variable {κ : Type u} {ν : Type v} [LinearOrder κ]

/-- The keys are strictly increasing. -/
def Sorted (m : List (κ × ν)) : Prop := m.Pairwise fun p q ↦ p.1 < q.1

/-- The value stored under a key. -/
def find (k : κ) : List (κ × ν) → Option ν
  | [] => none
  | p :: m => if p.1 = k then some p.2 else find k m

/-- `flat_map::emplace`: an entry whose key is already present changes nothing. -/
def emplace (k : κ) (x : ν) : List (κ × ν) → List (κ × ν)
  | [] => [(k, x)]
  | p :: m =>
    if k < p.1 then (k, x) :: p :: m
    else if p.1 = k then p :: m
    else p :: emplace k x m

/-- The map built by emplacing entries one after the other. -/
def emplaceAll (m : List (κ × ν)) (entries : List (κ × ν)) : List (κ × ν) :=
  entries.foldl (fun m p ↦ emplace p.1 p.2 m) m

@[simp] theorem find_nil (k : κ) : find k ([] : List (κ × ν)) = none := rfl

theorem find_cons (k : κ) (p : κ × ν) (m : List (κ × ν)) :
    find k (p :: m) = if p.1 = k then some p.2 else find k m := rfl

@[simp] theorem emplaceAll_nil (m : List (κ × ν)) : emplaceAll m [] = m := rfl

@[simp] theorem emplaceAll_cons (m : List (κ × ν)) (p : κ × ν) (entries : List (κ × ν)) :
    emplaceAll m (p :: entries) = emplaceAll (emplace p.1 p.2 m) entries := rfl

/-- Where a key stands for one value only, it is this value that is found. -/
theorem find_eq_some_iff {k : κ} {x : ν} {m : List (κ × ν)} (h : ∀ y z, (k, y) ∈ m → (k, z) ∈ m → y = z) :
    find k m = some x ↔ (k, x) ∈ m := by
  induction m with
  | nil => exact iff_of_false (Option.some_ne_none x).symm List.not_mem_nil
  | cons p m ih =>
      obtain ⟨k', y⟩ := p
      have htail : ∀ y z, (k, y) ∈ m → (k, z) ∈ m → y = z := fun y z hy hz ↦
        h y z (List.mem_cons_of_mem _ hy) (List.mem_cons_of_mem _ hz)
      by_cases hk : k' = k
      · subst hk
        rw [find_cons, if_pos rfl, Option.some.injEq]
        refine ⟨fun hx ↦ hx ▸ List.mem_cons_self, fun hx ↦ h y x List.mem_cons_self hx⟩
      · have hne : (k, x) ≠ (k', y) := fun heq ↦ hk (congrArg Prod.fst heq).symm
        rw [find_cons, if_neg hk, ih htail, List.mem_cons, or_iff_right hne]

omit [LinearOrder κ] in
/-- Keys that come once stand for one value. -/
theorem unique_of_nodup {m : List (κ × ν)} (h : (m.map Prod.fst).Nodup) (k : κ) :
    ∀ y z, (k, y) ∈ m → (k, z) ∈ m → y = z := fun _ _ hy hz ↦
  congrArg Prod.snd (List.inj_on_of_nodup_map h hy hz rfl)

/-- Lookups do not depend on the order of the entries, nor on entries with other keys. -/
theorem find_congr {k : κ} {m m' : List (κ × ν)} (h : ∀ y z, (k, y) ∈ m → (k, z) ∈ m → y = z)
    (hmem : ∀ x, (k, x) ∈ m' ↔ (k, x) ∈ m) : find k m' = find k m := by
  have h' : ∀ y z, (k, y) ∈ m' → (k, z) ∈ m' → y = z := fun y z hy hz ↦
    h y z ((hmem y).mp hy) ((hmem z).mp hz)
  refine Option.ext fun x ↦ ?_
  rw [find_eq_some_iff h', hmem, find_eq_some_iff h]

/-- Entries related one by one are found related. -/
theorem find_rel {S : κ → ν → ν → Prop} {m m' : List (κ × ν)}
    (h : List.Forall₂ (fun p q ↦ p.1 = q.1 ∧ S p.1 p.2 q.2) m m') (k : κ) :
    Option.Rel (S k) (find k m) (find k m') := by
  induction h with
  | nil => exact .none
  | @cons p q m m' hpq _ ih =>
      obtain ⟨hkey, hvalue⟩ := hpq
      rw [find_cons, find_cons, ← hkey]
      split
      · next hk =>
          rw [hk] at hvalue
          exact .some hvalue
      · exact ih

/-- No key of a sorted map is below its first. -/
theorem find_eq_none_of_lt {k : κ} {p : κ × ν} {m : List (κ × ν)} (h : Sorted (p :: m))
    (hk : k < p.1) : find k (p :: m) = none := by
  induction m generalizing p with
  | nil => rw [find_cons, if_neg (ne_of_gt hk), find_nil]
  | cons q m ih =>
      obtain ⟨hp, hm⟩ := List.pairwise_cons.mp h
      rw [find_cons, if_neg (ne_of_gt hk)]
      exact ih hm (lt_trans hk (hp q List.mem_cons_self))

/-- Looking up a key that is being emplaced: an earlier entry wins. -/
theorem find_emplace_self {k : κ} {x : ν} {m : List (κ × ν)} (h : Sorted m) :
    find k (emplace k x m) = some ((find k m).getD x) := by
  induction m with
  | nil => simp [emplace, find_cons]
  | cons p m ih =>
      rw [emplace]
      split
      · next hlt => simp [find_eq_none_of_lt h hlt, find_cons]
      · split
        · next heq => simp [find_cons, heq]
        · next hne =>
            rw [find_cons, if_neg hne, find_cons, if_neg hne]
            exact ih (List.pairwise_cons.mp h).2

/-- Looking up any other key. -/
theorem find_emplace_of_ne {k k' : κ} (hk : k' ≠ k) {x : ν} {m : List (κ × ν)} :
    find k' (emplace k x m) = find k' m := by
  induction m with
  | nil => simp [emplace, find_cons, hk.symm]
  | cons p m ih =>
      rw [emplace]
      split
      · simp [find_cons, hk.symm]
      · split
        · rfl
        · rw [find_cons, find_cons, ih]

/-- The entries after `emplace`. -/
theorem mem_emplace {k : κ} {x : ν} {q : κ × ν} {m : List (κ × ν)} (h : q ∈ emplace k x m) :
    q = (k, x) ∨ q ∈ m := by
  induction m with
  | nil => exact .inl (List.mem_singleton.mp h)
  | cons p m ih =>
      rw [emplace] at h
      split at h
      · rcases List.mem_cons.mp h with rfl | h
        · exact .inl rfl
        · exact .inr h
      · split at h
        · exact .inr h
        · rcases List.mem_cons.mp h with rfl | h
          · exact .inr List.mem_cons_self
          · exact (ih h).imp_right (List.mem_cons_of_mem p)

/-- `emplace` keeps the invariant. -/
theorem sorted_emplace {k : κ} {x : ν} {m : List (κ × ν)} (h : Sorted m) : Sorted (emplace k x m) := by
  induction m with
  | nil => exact List.pairwise_singleton _ _
  | cons p m ih =>
      obtain ⟨hp, hm⟩ := List.pairwise_cons.mp h
      rw [emplace]
      split
      · next hlt =>
          refine List.pairwise_cons.mpr ⟨fun q hq ↦ ?_, h⟩
          rcases List.mem_cons.mp hq with rfl | hq
          · exact hlt
          · exact lt_trans hlt (hp q hq)
      · next hnlt =>
          split
          · exact h
          · next hne =>
              refine List.pairwise_cons.mpr ⟨fun q hq ↦ ?_, ih hm⟩
              rcases mem_emplace hq with rfl | hq
              · exact lt_of_le_of_ne (not_lt.mp hnlt) hne
              · exact hp q hq

theorem mem_emplaceAll {q : κ × ν} {m entries : List (κ × ν)} (h : q ∈ emplaceAll m entries) :
    q ∈ m ∨ q ∈ entries := by
  induction entries generalizing m with
  | nil => exact .inl h
  | cons p entries ih =>
      rcases ih h with h | h
      · rcases mem_emplace h with rfl | h
        · exact .inr List.mem_cons_self
        · exact .inl h
      · exact .inr (List.mem_cons_of_mem p h)

theorem sorted_emplaceAll {m entries : List (κ × ν)} (h : Sorted m) :
    Sorted (emplaceAll m entries) := by
  induction entries generalizing m with
  | nil => exact h
  | cons p entries ih => exact ih (sorted_emplace h)

/-- **First come, first kept**: what a map finds after emplacing is what it found before, and otherwise
the first of the new entries. -/
theorem find_emplaceAll {m entries : List (κ × ν)} (h : Sorted m) (k : κ) :
    find k (emplaceAll m entries) = (find k m).or (find k entries) := by
  induction entries generalizing m with
  | nil => simp
  | cons p entries ih =>
      rw [emplaceAll_cons, ih (sorted_emplace h)]
      by_cases hk : k = p.1
      · subst hk
        rw [find_emplace_self h, find_cons, if_pos rfl]
        cases find p.1 m <;> rfl
      · rw [find_emplace_of_ne hk, find_cons, if_neg (Ne.symm hk)]

/-- An entry above all keys goes to the end. -/
theorem emplace_eq_append {k : κ} {x : ν} {m : List (κ × ν)} (h : ∀ q ∈ m, q.1 < k) :
    emplace k x m = m ++ [(k, x)] := by
  induction m with
  | nil => rfl
  | cons p m ih =>
      have hp := h p List.mem_cons_self
      rw [emplace, if_neg (not_lt.mpr (le_of_lt hp)), if_neg (ne_of_lt hp),
        ih fun q hq ↦ h q (List.mem_cons_of_mem p hq), List.cons_append]

/-- Emplacing the entries of a sorted map in order rebuilds it. -/
theorem emplaceAll_eq_append {m entries : List (κ × ν)} (h : Sorted (m ++ entries)) :
    emplaceAll m entries = m ++ entries := by
  induction entries generalizing m with
  | nil => simp
  | cons p entries ih =>
      have hlt : ∀ q ∈ m, q.1 < p.1 := fun q hq ↦
        (List.pairwise_append.mp h).2.2 q hq p List.mem_cons_self
      rw [emplaceAll_cons, emplace_eq_append hlt, ih (by simpa using h)]
      simp

end FlatMap
