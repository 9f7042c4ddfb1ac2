import KalshiClient.Base.I64

/-!
# Maps of counters

`std::unordered_map<K, int64_t>`, where an absent key counts as zero.  The sum of all entries changes with one
entry at a time (`total_insert`, `total_erase`), and adding the entries up one by one in 64-bit arithmetic gives
the sum, wrapped once (`fold_eq_wrap`), so that the order in which a hash map is traversed does not matter.
-/

/-- A map from keys to counters. -/
abbrev Counters (κ : Type) := AList fun _ : κ ↦ Int

namespace Counters

variable {κ : Type} [DecidableEq κ] (m : Counters κ)

/-- The counter of a key. -/
def get (k : κ) : Int := (m.lookup k).getD 0

/-- `m[k] += q`. -/
def add (k : κ) (q : Int) : Counters κ := m.insert k (I64.wrap (m.get k + q))

omit [DecidableEq κ] in
/-- The sum of the entries. -/
def total : Int := (m.entries.map Sigma.snd).sum

omit [DecidableEq κ] in
/-- `std::ranges::fold_left(m | std::views::values, init, std::plus{})`. -/
def fold (init : Int) : Int := (m.entries.map Sigma.snd).foldl (fun a v ↦ I64.wrap (a + v)) init

theorem sum_kerase (k : κ) (l : List (Sigma fun _ : κ ↦ Int)) :
    ((l.kerase k).map Sigma.snd).sum = (l.map Sigma.snd).sum - (l.dlookup k).getD 0 := by
  induction l with
  | nil => rfl
  | cons e l ih =>
      obtain ⟨k', v⟩ := e
      by_cases h : k = k'
      · have herase : List.kerase k (⟨k', v⟩ :: l) = l := List.kerase_cons_eq h
        subst h
        rw [herase, List.dlookup_cons_eq, List.map_cons, List.sum_cons, Option.getD_some,
          Int.add_comm, Int.add_sub_cancel]
      · have hlookup : List.dlookup k (⟨k', v⟩ :: l) = List.dlookup k l := List.dlookup_cons_ne _ _ h
        rw [List.kerase_cons_ne h, hlookup, List.map_cons, List.map_cons, List.sum_cons, List.sum_cons, ih]
        omega

theorem total_erase (k : κ) : total (m.erase k) = m.total - m.get k := sum_kerase k m.entries

theorem total_insert (k : κ) (v : Int) : total (m.insert k v) = m.total - m.get k + v := by
  rw [total, AList.entries_insert, List.map_cons, List.sum_cons, sum_kerase]
  change v + (m.total - m.get k) = _
  omega

omit [DecidableEq κ] in
/-- Counters added up one by one. -/
theorem fold_eq_wrap {init : Int} (h : I64.InRange init) : m.fold init = I64.wrap (init + m.total) := by
  rw [fold, total]
  generalize m.entries.map Sigma.snd = vs
  induction vs generalizing init with
  | nil => rw [List.foldl_nil, List.sum_nil, Int.add_zero, I64.wrap_eq_self h]
  | cons v vs ih =>
      rw [List.foldl_cons, ih (I64.inRange_wrap _), I64.wrap_wrap_add, List.sum_cons, Int.add_assoc]

@[simp] theorem get_insert_self (k : κ) (v : Int) : get (m.insert k v) k = v := by
  rw [get, AList.lookup_insert, Option.getD_some]

theorem get_add_self (k : κ) (q : Int) : (m.add k q).get k = I64.wrap (m.get k + q) := get_insert_self ..

end Counters
