/-!
# Sequencing fallible computations

`std::expected` is `Except`, and a chain of `if (!x) return std::unexpected(x.error())` is a chain of
binds.  These are the rules for taking such a chain apart.
-/

namespace Except

universe u v

variable {ε : Type u} {α β : Type v}

theorem error_ne_ok {e : ε} {a : α} : (.error e : Except ε α) ≠ .ok a := by
  intro h
  cases h

/-- Two computations that fail agree on what they return. -/
theorem error_eq_ok_iff_error_eq_ok {e e' : ε} {a : α} {b : β} :
    (.error e : Except ε α) = .ok a ↔ (.error e' : Except ε β) = .ok b :=
  iff_of_false error_ne_ok error_ne_ok

/-- A chain succeeds when every link does. -/
theorem bind_eq_ok_iff {x : Except ε α} {f : α → Except ε β} {b : β} :
    (x >>= f) = .ok b ↔ ∃ a, x = .ok a ∧ f a = .ok b := by
  constructor
  · intro h
    cases x with
    | error e => cases h
    | ok a => exact ⟨a, rfl, h⟩
  · rintro ⟨a, rfl, h⟩
    exact h

/-- A chain fails at its first failing link. -/
theorem bind_eq_error_iff {x : Except ε α} {f : α → Except ε β} {e : ε} :
    (x >>= f) = .error e ↔ x = .error e ∨ ∃ a, x = .ok a ∧ f a = .error e := by
  constructor
  · intro h
    cases x with
    | error e' => cases h; exact .inl rfl
    | ok a => exact .inr ⟨a, rfl, h⟩
  · rintro (rfl | ⟨a, rfl, h⟩)
    · rfl
    · exact h

@[simp] theorem bind_ok (a : α) (f : α → Except ε β) : ((.ok a : Except ε α) >>= f) = f a := rfl

@[simp] theorem bind_error (e : ε) (f : α → Except ε β) :
    ((.error e : Except ε α) >>= f) = .error e := rfl

/-! ## Computations that succeed under a condition -/

/-- `x.Gives c a`: the computation returns `a` where `c` holds, and fails where it does not. -/
def Gives (x : Except ε α) (c : Prop) (a : α) : Prop :=
  (c → x = .ok a) ∧ (¬ c → ∃ e, x = .error e)

namespace Gives

variable {x : Except ε α} {c d : Prop} {a : α} {b : β}

theorem ok (a : α) : (.ok a : Except ε α).Gives True a := ⟨fun _ ↦ rfl, fun h ↦ absurd trivial h⟩

theorem error (e : ε) (a : α) : (.error e : Except ε α).Gives False a :=
  ⟨fun h ↦ h.elim, fun _ ↦ ⟨e, rfl⟩⟩

/-- The condition may be replaced by an equivalent one. -/
theorem congr (h : x.Gives c a) (hcd : c ↔ d) : x.Gives d a := propext hcd ▸ h

/-- A chain gives the last result where all conditions hold. -/
theorem bind {f : α → Except ε β} (hx : x.Gives c a) (hf : c → (f a).Gives d b) :
    (x >>= f).Gives (c ∧ d) b := by
  constructor
  · rintro ⟨hc, hd⟩
    rw [hx.1 hc]
    exact (hf hc).1 hd
  · intro h
    by_cases hc : c
    · rw [hx.1 hc]
      exact (hf hc).2 fun hd ↦ h ⟨hc, hd⟩
    · obtain ⟨e, he⟩ := hx.2 hc
      exact ⟨e, by rw [he]; rfl⟩

/-- A chain that ends in a value. -/
theorem map (hx : x.Gives c a) (f : α → β) : (x >>= fun a ↦ .ok (f a)).Gives c (f a) :=
  (hx.bind fun _ ↦ ok (f a)).congr (iff_of_eq (and_true c))

/-- A computation that succeeds does so under its condition, with its result. -/
theorem of_ok (hx : x.Gives c a) {a' : α} (h : x = .ok a') : c ∧ a' = a := by
  by_cases hc : c
  · rw [hx.1 hc] at h
    cases h
    exact ⟨hc, rfl⟩
  · obtain ⟨e, he⟩ := hx.2 hc
    rw [he] at h
    cases h

end Gives

/-! ## Computations that run in step -/

section Coupled

variable {δ : Type u} {α' β' : Type v} {bail : ε → Prop}

/-- `Coupled bail R x y`: the two computations fail together or return results related by `R`, except
that `x` may give up with an error in `bail`, whatever `y` does. -/
def Coupled (bail : ε → Prop) (R : α → α' → Prop) : Except ε α → Except δ α' → Prop
  | .ok a, .ok a' => R a a'
  | .ok _, .error _ => False
  | .error e, .ok _ => bail e
  | .error _, .error _ => True

namespace Coupled

variable {R : α → α' → Prop} {S : β → β' → Prop} {x : Except ε α} {y : Except δ α'}

theorem ok {a : α} {a' : α'} (h : R a a') :
    Coupled bail R (.ok a : Except ε α) (.ok a' : Except δ α') := h

theorem error (e : ε) (e' : δ) : Coupled bail R (.error e : Except ε α) (.error e' : Except δ α') :=
  trivial

theorem of_bail {e : ε} (h : bail e) (y : Except δ α') :
    Coupled bail R (.error e : Except ε α) y := by
  cases y with
  | ok a => exact h
  | error e' => trivial

/-- Chains run in step if their links do. -/
theorem bind {f : α → Except ε β} {g : α' → Except δ β'} (hxy : Coupled bail R x y)
    (hfg : ∀ a a', R a a' → Coupled bail S (f a) (g a')) : Coupled bail S (x >>= f) (y >>= g) := by
  cases x with
  | ok a =>
      cases y with
      | ok a' => exact hfg a a' hxy
      | error e => exact hxy.elim
  | error e =>
      cases y with
      | ok a' => exact of_bail (show bail e from hxy) (g a')
      | error e' => exact trivial

theorem mono {R' : α → α' → Prop} (h : Coupled bail R x y) (hR : ∀ a a', R a a' → R' a a') :
    Coupled bail R' x y := by
  cases x with
  | ok a =>
      cases y with
      | ok a' => exact hR a a' h
      | error e => exact h
  | error e => cases y <;> exact h

/-- The first computation may wrap its result. -/
theorem map_left {T : β → α' → Prop} (h : Coupled bail R x y) (f : α → β)
    (hf : ∀ a a', R a a' → T (f a) a') : Coupled bail T (x >>= fun a ↦ .ok (f a)) y := by
  cases x with
  | ok a =>
      cases y with
      | ok a' => exact hf a a' h
      | error e => exact h
  | error e => cases y <;> exact h

/-- The second computation may wrap its result. -/
theorem map_right {T : α → β' → Prop} (h : Coupled bail R x y) (g : α' → β')
    (hg : ∀ a a', R a a' → T a (g a')) : Coupled bail T x (y >>= fun a' ↦ .ok (g a')) := by
  cases x with
  | ok a =>
      cases y with
      | ok a' => exact hg a a' h
      | error e => exact h
  | error e => cases y <;> exact h

/-- The second computation may know more about its result. -/
theorem and_right (h : Coupled bail R x y) {P : α' → Prop} (hP : ∀ a', y = .ok a' → P a') :
    Coupled bail (fun a a' ↦ R a a' ∧ P a') x y := by
  cases x with
  | ok a =>
      cases y with
      | ok a' => exact ⟨h, hP a' rfl⟩
      | error e => exact h
  | error e => cases y <;> exact h

end Coupled

end Coupled

end Except
