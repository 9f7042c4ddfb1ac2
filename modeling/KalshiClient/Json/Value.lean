import KalshiClient.Base.Bytes
import KalshiClient.Base.FlatMap

/-!
# JSON values

`JsonValue` of `include/json_parser.hpp`.  Numbers are kept as their text, so a number and a string
are the same alternative of the variant; an object is a `std::flat_map`, a list of members whose keys
are strictly increasing, at every level of the tree (`JsonValue.Sorted`).
-/

namespace KalshiClient.Json

/-- `struct JsonValue`. -/
inductive JsonValue where
  | null
  | bool (b : Bool)
  | string (s : Bytes)
  | array (vs : List JsonValue)
  | object (ms : List (Bytes × JsonValue))

/-- `JsonObject`. -/
abbrev JsonObject := List (Bytes × JsonValue)

/-- `JsonArray`. -/
abbrev JsonArray := List JsonValue

/-- `kMaxJsonDepth`. -/
def kMaxJsonDepth : Nat := 64

namespace JsonValue

/-- Induction over a value with hypotheses for the elements and the members. -/
@[elab_as_elim, induction_eliminator]
theorem induct {motive : JsonValue → Prop} (null : motive .null)
    (bool : ∀ b, motive (.bool b)) (string : ∀ s, motive (.string s))
    (array : ∀ vs, (∀ v ∈ vs, motive v) → motive (.array vs))
    (object : ∀ ms, (∀ m ∈ ms, motive m.2) → motive (.object ms)) (v : JsonValue) : motive v :=
  @JsonValue.rec motive (fun vs ↦ ∀ v ∈ vs, motive v) (fun ms ↦ ∀ m ∈ ms, motive m.2)
    (fun m ↦ motive m.2) null bool string array object
    (fun _ h ↦ absurd h List.not_mem_nil)
    (fun _ _ hv hvs _ h ↦ (List.mem_cons.mp h).elim (fun e ↦ e ▸ hv) (hvs _))
    (fun _ h ↦ absurd h List.not_mem_nil)
    (fun _ _ hm hms _ h ↦ (List.mem_cons.mp h).elim (fun e ↦ e ▸ hm) (hms _))
    (fun _ _ h ↦ h) v

mutual

/-- How deep the containers of a value nest: a scalar has depth 0, an empty array or object 1. -/
def depth : JsonValue → Nat
  | .null | .bool _ | .string _ => 0
  | .array vs => depthElements vs + 1
  | .object ms => depthMembers ms + 1

/-- The depth of the deepest element. -/
def depthElements : List JsonValue → Nat
  | [] => 0
  | v :: vs => max (depth v) (depthElements vs)

/-- The depth of the deepest member. -/
def depthMembers : List (Bytes × JsonValue) → Nat
  | [] => 0
  | m :: ms => max (depth m.2) (depthMembers ms)

end

mutual

/-- Every object of the value has unique keys in increasing order, the invariant of `flat_map`. -/
def Sorted : JsonValue → Prop
  | .null | .bool _ | .string _ => True
  | .array vs => SortedElements vs
  | .object ms => FlatMap.Sorted ms ∧ SortedMembers ms

/-- `Sorted` for every element. -/
def SortedElements : List JsonValue → Prop
  | [] => True
  | v :: vs => Sorted v ∧ SortedElements vs

/-- `Sorted` for the value of every member. -/
def SortedMembers : List (Bytes × JsonValue) → Prop
  | [] => True
  | m :: ms => Sorted m.2 ∧ SortedMembers ms

end

theorem depthElements_le_iff {vs : List JsonValue} {n : Nat} :
    depthElements vs ≤ n ↔ ∀ v ∈ vs, depth v ≤ n := by
  induction vs with
  | nil => simp [depthElements]
  | cons v vs ih => rw [depthElements, Nat.max_le, ih, List.forall_mem_cons]

theorem depthMembers_le_iff {ms : List (Bytes × JsonValue)} {n : Nat} :
    depthMembers ms ≤ n ↔ ∀ m ∈ ms, depth m.2 ≤ n := by
  induction ms with
  | nil => simp [depthMembers]
  | cons m ms ih => rw [depthMembers, Nat.max_le, ih, List.forall_mem_cons]

theorem sortedElements_iff {vs : List JsonValue} : SortedElements vs ↔ ∀ v ∈ vs, Sorted v := by
  induction vs with
  | nil => simp [SortedElements]
  | cons v vs ih => rw [SortedElements, ih, List.forall_mem_cons]

theorem sortedMembers_iff {ms : List (Bytes × JsonValue)} :
    SortedMembers ms ↔ ∀ m ∈ ms, Sorted m.2 := by
  induction ms with
  | nil => simp [SortedMembers]
  | cons m ms ih => rw [SortedMembers, ih, List.forall_mem_cons]

end JsonValue

end KalshiClient.Json
