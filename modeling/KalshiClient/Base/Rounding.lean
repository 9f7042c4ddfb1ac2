import Mathlib

/-!
# Rounding to nearest, ties to even

A number with `p` significant bits is `m * 2 ^ e` with `|m| < 2 ^ p`, for any exponent `e`; overflow and underflow are
left out.  A rounding takes every real number to the nearest of these numbers.  If there are two, it takes the even one,
which is the one that needs a bit less.

A rounding is monotone and leaves the numbers it rounds to as they are, so that a bound by one of them survives it.
Going from `a` to `b` by adding the difference, rounded twice, ends exactly at `b` if `b` is a half-integer of moderate
size (`Rounding.add_sub`).  There is a rounding (`Rounding.nearestEven`).
-/

/-- A number with `p` significant bits. -/
def IsFloat (p : ℕ) (x : ℝ) : Prop := ∃ m e : ℤ, |m| < 2 ^ p ∧ x = m * 2 ^ e

/-- A rounding to `p` significant bits, to nearest, ties to even. -/
structure Rounding (p : ℕ) where
  /-- What a number is rounded to. -/
  toFun : ℝ → ℝ
  isFloat (x : ℝ) : IsFloat p (toFun x)
  nearest (x : ℝ) {y : ℝ} (hy : IsFloat p y) : |toFun x - x| ≤ |y - x|
  even {x y : ℝ} (hy : IsFloat (p - 1) y) (hnearest : ∀ z, IsFloat p z → |y - x| ≤ |z - x|) : toFun x = y

instance (p : ℕ) : CoeFun (Rounding p) fun _ ↦ ℝ → ℝ := ⟨Rounding.toFun⟩

/-! ## Numbers with so many bits -/

namespace IsFloat

variable {p : ℕ} {x : ℝ}

theorem zero (p : ℕ) : IsFloat p 0 := ⟨0, 0, by positivity, by simp⟩

theorem neg (h : IsFloat p x) : IsFloat p (-x) := by
  obtain ⟨m, e, hm, rfl⟩ := h
  exact ⟨-m, e, by rwa [abs_neg], by push_cast; ring⟩

/-- With the mantissa `2 ^ p` it is one with the mantissa `2 ^ (p - 1)`. -/
theorem of_le (hp : 1 ≤ p) {m : ℤ} (hm : |m| ≤ 2 ^ p) (e : ℤ) : IsFloat p (m * 2 ^ e) := by
  rcases hm.lt_or_eq with hlt | heq
  · exact ⟨m, e, hlt, rfl⟩
  · obtain ⟨q, rfl⟩ : ∃ q, p = q + 1 := ⟨p - 1, by omega⟩
    have htop : IsFloat (q + 1) ((2 : ℝ) ^ (q + 1) * 2 ^ e) := by
      refine ⟨2 ^ q, e + 1, ?_, ?_⟩
      · rw [abs_of_pos (by positivity)]
        exact pow_lt_pow_right₀ one_lt_two (Nat.lt_succ_self q)
      · rw [zpow_add_one₀ two_ne_zero]
        push_cast
        ring
    rcases abs_choice m with hpos | hneg
    · rw [hpos] at heq
      rw [heq]
      exact_mod_cast htop
    · rw [hneg] at heq
      have hm' : (m : ℝ) = -2 ^ (q + 1) := by
        have : ((-m : ℤ) : ℝ) = ((2 ^ (q + 1) : ℤ) : ℝ) := congrArg _ heq
        push_cast at this
        linarith
      rw [hm', neg_mul]
      exact htop.neg

theorem intCast {k : ℤ} (h : |k| < 2 ^ p) : IsFloat p k := ⟨k, 0, h, by simp⟩

theorem half {k : ℤ} (h : |k| < 2 ^ p) : IsFloat p (k / 2) := ⟨k, -1, h, by rw [zpow_neg_one]; ring⟩

/-- A number beyond `2 ^ (p - 1 + e)` is a multiple of `2 ^ e`. -/
theorem exists_mul (h : IsFloat p x) {e : ℤ} (hx : (2 : ℝ) ^ (p - 1 + e) < |x|) : ∃ k : ℤ, x = k * 2 ^ e := by
  obtain ⟨m, f, hm, rfl⟩ := h
  have hlt : |(m * 2 ^ f : ℝ)| < 2 ^ (p + f) := by
    rw [abs_mul, abs_of_pos (zpow_pos (two_pos : (0 : ℝ) < 2) f), zpow_add₀ two_ne_zero, zpow_natCast]
    refine mul_lt_mul_of_pos_right ?_ (zpow_pos two_pos f)
    exact_mod_cast hm
  have hexp : (p : ℤ) - 1 + e < p + f := (zpow_lt_zpow_iff_right₀ one_lt_two).mp (hx.trans hlt)
  obtain ⟨n, hn⟩ : ∃ n : ℕ, f = e + n := ⟨(f - e).toNat, by omega⟩
  refine ⟨m * 2 ^ n, ?_⟩
  rw [hn, zpow_add₀ two_ne_zero, zpow_natCast]
  push_cast
  ring

end IsFloat

/-- Multiples of a positive number are apart. -/
theorem le_abs_sub_of_ne {g : ℝ} (hg : 0 < g) {k l : ℤ} (h : (k * g : ℝ) ≠ l * g) : g ≤ |k * g - l * g| := by
  have hne : k ≠ l := fun heq ↦ h (by rw [heq])
  have hone : (1 : ℝ) ≤ |(k - l : ℤ)| := by exact_mod_cast Int.one_le_abs (sub_ne_zero.mpr hne)
  rw [← sub_mul, abs_mul, abs_of_pos hg]
  push_cast at hone
  exact le_mul_of_one_le_left hg.le hone

/-! ## Rounding -/

namespace Rounding

variable {p : ℕ} (r : Rounding p)

theorem eq_self {x : ℝ} (h : IsFloat p x) : r x = x := by
  have hdist := r.nearest x h
  rw [sub_self, abs_zero] at hdist
  exact sub_eq_zero.mp (abs_nonpos_iff.mp hdist)

theorem map_zero : r 0 = 0 := r.eq_self (.zero p)

theorem mono : Monotone r := by
  intro x y hxy
  by_contra hlt
  rw [not_le] at hlt
  -- The middle of the two results is above `y` and below `x`.
  have hx := r.nearest x (r.isFloat y)
  have hy := r.nearest y (r.isFloat x)
  rw [← sq_le_sq] at hx hy
  have hstrict : x < y := lt_of_le_of_ne hxy fun heq ↦ by rw [heq] at hlt; exact lt_irrefl _ hlt
  nlinarith

/-- A lower bound that is not changed by rounding. -/
theorem le_of_le {x y : ℝ} (hx : IsFloat p x) (h : x ≤ y) : x ≤ r y := (r.eq_self hx).ge.trans (r.mono h)

/-- An upper bound that is not changed by rounding. -/
theorem ge_of_ge {x y : ℝ} (hy : IsFloat p y) (h : x ≤ y) : r x ≤ y := (r.mono h).trans (r.eq_self hy).le

/-- The error is half a unit in the last place at most. -/
theorem abs_error_le (hp : 1 ≤ p) {x : ℝ} {e : ℤ} (h : |x| ≤ 2 ^ (p + e)) : |r x - x| ≤ 2 ^ e / 2 := by
  have hpos : (0 : ℝ) < 2 ^ e := zpow_pos two_pos e
  have hscaled : |x / 2 ^ e| ≤ 2 ^ p := by
    rw [abs_div, abs_of_pos hpos, div_le_iff₀ hpos, ← zpow_natCast, ← zpow_add₀ two_ne_zero]
    exact h
  have hdist := abs_sub_round (x / 2 ^ e)
  have hround : |round (x / 2 ^ e)| ≤ 2 ^ p := by
    have hlt : (|round (x / 2 ^ e)| : ℝ) < 2 ^ p + 1 := by
      have := abs_sub_abs_le_abs_sub (round (x / 2 ^ e) : ℝ) (x / 2 ^ e)
      rw [abs_sub_comm] at this
      linarith
    exact Int.lt_add_one_iff.mp (by exact_mod_cast hlt)
  have hfloat := IsFloat.of_le hp hround e
  refine (r.nearest x hfloat).trans ?_
  have heq : round (x / 2 ^ e) * 2 ^ e - x = -(x / 2 ^ e - round (x / 2 ^ e)) * 2 ^ e := by
    field_simp
    ring
  rw [heq, abs_mul, abs_neg, abs_of_pos hpos]
  nlinarith

/-- The exponent of the last place of a positive number, a power of two counting as the end of its range. -/
theorem exists_exponent (p : ℕ) {x : ℝ} (h : 0 < x) : ∃ e : ℤ, (2 : ℝ) ^ (p - 1 + e) < x ∧ x ≤ 2 ^ (p + e) := by
  refine ⟨Int.clog 2 x - p, ?_, ?_⟩
  · have hlt := Int.zpow_pred_clog_lt_self (R := ℝ) one_lt_two h
    rw [show (p : ℤ) - 1 + (Int.clog 2 x - p) = Int.clog 2 x - 1 by ring]
    exact_mod_cast hlt
  · have hle := Int.self_le_zpow_clog (R := ℝ) one_lt_two x
    rw [show (p : ℤ) + (Int.clog 2 x - p) = Int.clog 2 x by ring]
    exact_mod_cast hle

/-- Another number of so many bits is at least a unit in the last place away. -/
theorem le_abs_sub (hp : 1 ≤ p) {x z : ℝ} (hx : IsFloat p x) (hz : IsFloat p z) (hne : z ≠ x) {e : ℤ}
    (hlt : (2 : ℝ) ^ (p - 1 + e) < x) : (2 : ℝ) ^ e ≤ |z - x| := by
  have hpos : (0 : ℝ) < 2 ^ e := zpow_pos two_pos e
  have habove : (0 : ℝ) < 2 ^ (p - 1 + e) := zpow_pos two_pos _
  obtain ⟨k, hk⟩ := hx.exists_mul (e := e) (hlt.trans_le (le_abs_self x))
  by_cases hbelow : z ≤ 2 ^ ((p : ℤ) - 1 + e)
  · -- The bound is itself a multiple of the unit.
    have hmul : (2 : ℝ) ^ ((p : ℤ) - 1 + e) = (2 ^ (p - 1) : ℤ) * 2 ^ e := by
      rw [zpow_add₀ two_ne_zero, show (p : ℤ) - 1 = ((p - 1 : ℕ) : ℤ) by omega, zpow_natCast]
      push_cast
      rfl
    have hapart := le_abs_sub_of_ne hpos (k := k) (l := 2 ^ (p - 1)) (by rw [← hk, ← hmul]; exact hlt.ne')
    rw [← hk, ← hmul, abs_of_pos (sub_pos.mpr hlt)] at hapart
    rw [abs_sub_comm, abs_of_pos (by linarith)]
    linarith
  · obtain ⟨l, hl⟩ := hz.exists_mul (e := e) ((not_le.mp hbelow).trans_le (le_abs_self z))
    rw [hk, hl]
    exact le_abs_sub_of_ne hpos (by rwa [← hk, ← hl])

/-- **Adding the difference.**  From `a` to a half-integer `b` by the difference of the two: although both operations
round, the result is `b`. -/
theorem add_sub (hp : 2 ≤ p) {a : ℝ} (ha : IsFloat p a) (hnonneg : 0 ≤ a) (hle : a ≤ 2 ^ ((p : ℤ) - 2)) {k : ℤ}
    (hk : 0 < k) (hlt : k < 2 ^ (p - 1)) : r (a + r (k / 2 - a)) = k / 2 := by
  have hfloat' : IsFloat (p - 1) (k / 2) := .half (by rwa [abs_of_pos hk])
  have hfloat : IsFloat p (k / 2) := by
    refine .half ?_
    rw [abs_of_pos hk]
    exact hlt.trans_le (pow_le_pow_right₀ one_le_two (by omega))
  have hbpos : (0 : ℝ) < k / 2 := by positivity
  rcases le_or_gt a (k / 2) with hab | hba
  · -- The difference is at most `b`, so its error is at most half a unit in the last place of `b`.
    obtain ⟨e, hlow, hhigh⟩ := exists_exponent p hbpos
    have herror := r.abs_error_le (by omega) (x := k / 2 - a) (e := e) (by rw [abs_of_nonneg (by linarith)]; linarith)
    refine r.even hfloat' fun z hz ↦ ?_
    by_cases hne : z = k / 2
    · rw [hne]
    · have hapart := le_abs_sub (by omega) hfloat hz hne hlow
      have htri := abs_sub_abs_le_abs_sub (z - k / 2) (a + r (k / 2 - a) - k / 2)
      have hsame : (k / 2 : ℝ) - (a + r (k / 2 - a)) = -(r (k / 2 - a) - (k / 2 - a)) := by ring
      have hsame' : a + r (k / 2 - a) - (k / 2 : ℝ) = r (k / 2 - a) - (k / 2 - a) := by ring
      have hdiff : z - k / 2 - (a + r (k / 2 - a) - k / 2) = z - (a + r (k / 2 - a)) := by ring
      rw [hdiff, hsame'] at htri
      rw [hsame, abs_neg]
      linarith
  · -- The difference is exact.
    have hapos := hbpos.trans hba
    obtain ⟨e, hlow, hhigh⟩ := exists_exponent p hapos
    have hexp : (p : ℤ) - 1 + e < p - 2 := (zpow_lt_zpow_iff_right₀ one_lt_two).mp (hlow.trans_le hle)
    obtain ⟨m, hm⟩ := ha.exists_mul (e := e) (hlow.trans_le (le_abs_self a))
    obtain ⟨n, hn⟩ : ∃ n : ℕ, (-1 : ℤ) = e + n := ⟨(-1 - e).toNat, by omega⟩
    have hb : (k / 2 : ℝ) = (k * 2 ^ n : ℤ) * 2 ^ e := by
      have hhalf : (1 / 2 : ℝ) = 2 ^ e * 2 ^ n := by
        rw [← zpow_natCast, ← zpow_add₀ two_ne_zero, ← hn, zpow_neg_one]
        norm_num
      rw [div_eq_mul_one_div, hhalf]
      push_cast
      ring
    have hexact : IsFloat p (k / 2 - a) := by
      have hdiff : (k / 2 : ℝ) - a = (k * 2 ^ n - m : ℤ) * 2 ^ e := by
        rw [hb, hm]
        push_cast
        ring
      rw [hdiff]
      refine .of_le (by omega) ?_ e
      have hbound : |(k / 2 : ℝ) - a| ≤ 2 ^ (p + e) := by
        rw [abs_of_neg (by linarith)]
        linarith
      rw [hdiff, abs_mul, abs_of_pos (zpow_pos (two_pos : (0 : ℝ) < 2) e), zpow_add₀ two_ne_zero, zpow_natCast] at hbound
      exact_mod_cast le_of_mul_le_mul_right hbound (zpow_pos (two_pos : (0 : ℝ) < 2) e)
    rw [r.eq_self hexact, add_sub_cancel, r.eq_self hfloat]

/-! ## There is one -/

/-- The nearest integer, of two the even one. -/
noncomputable def roundEven (x : ℝ) : ℤ :=
  if Int.fract x < 1 / 2 ∨ Int.fract x = 1 / 2 ∧ Even ⌊x⌋ then ⌊x⌋ else ⌊x⌋ + 1

theorem roundEven_spec (x : ℝ) :
    |(roundEven x : ℝ) - x| ≤ 1 / 2 ∧ (|(roundEven x : ℝ) - x| = 1 / 2 → Even (roundEven x)) := by
  have hfloor : (⌊x⌋ : ℝ) - x = -Int.fract x := by rw [Int.fract]; ring
  have hnonneg := Int.fract_nonneg x
  have hlt := Int.fract_lt_one x
  rw [roundEven]
  split_ifs with hdown
  · rw [hfloor, abs_neg, abs_of_nonneg hnonneg]
    rcases hdown with hless | ⟨hhalf, heven⟩
    · exact ⟨hless.le, fun heq ↦ absurd heq hless.ne⟩
    · exact ⟨hhalf.le, fun _ ↦ heven⟩
  · rw [not_or, not_lt, not_and] at hdown
    have hup : ((⌊x⌋ + 1 : ℤ) : ℝ) - x = 1 - Int.fract x := by
      push_cast
      linarith
    rw [hup, abs_of_nonneg (by linarith)]
    refine ⟨by linarith, fun heq ↦ ?_⟩
    have hodd : ¬ Even ⌊x⌋ := hdown.2 (by linarith)
    exact Int.even_add_one.mpr hodd

theorem roundEven_zero : roundEven 0 = 0 := by simp [roundEven]

/-- No integer is nearer. -/
theorem abs_roundEven_sub_le (x : ℝ) (k : ℤ) : |(roundEven x : ℝ) - x| ≤ |(k : ℝ) - x| := by
  by_cases heq : k = roundEven x
  · rw [heq]
  · have hapart : (1 : ℝ) ≤ |(k : ℝ) - roundEven x| := by exact_mod_cast Int.one_le_abs (sub_ne_zero.mpr heq)
    have htri := abs_sub_le (k : ℝ) x (roundEven x)
    rw [abs_sub_comm x] at htri
    have hhalf := (roundEven_spec x).1
    linarith

/-- An integer that is as near is odd. -/
theorem odd_of_abs_sub_le {x : ℝ} {k : ℤ} (hne : k ≠ roundEven x) (h : |(k : ℝ) - x| ≤ |(roundEven x : ℝ) - x|) :
    Odd k := by
  obtain ⟨hhalf, heven⟩ := roundEven_spec x
  have hapart : (1 : ℝ) ≤ |(k : ℝ) - roundEven x| := by exact_mod_cast Int.one_le_abs (sub_ne_zero.mpr hne)
  have htri := abs_sub_le (k : ℝ) x (roundEven x)
  rw [abs_sub_comm x] at htri
  have hone : |k - roundEven x| = 1 := by
    have hle : (|(k - roundEven x : ℤ)| : ℝ) ≤ 1 := by
      push_cast
      linarith
    have hge : (1 : ℤ) ≤ |k - roundEven x| := Int.one_le_abs (sub_ne_zero.mpr hne)
    exact le_antisymm (by exact_mod_cast hle) hge
  have hodd : Odd (k - roundEven x) := by
    rcases (abs_eq one_pos.le).mp hone with hpos | hneg
    · rw [hpos]
      exact odd_one
    · rw [hneg]
      exact odd_one.neg
  have heven' := heven (by linarith)
  have hsum := hodd.add_even heven'
  rwa [sub_add_cancel] at hsum

/-- The exponent of the last place, a power of two counting as the beginning of its range. -/
noncomputable def lastPlace (p : ℕ) (x : ℝ) : ℤ := Int.log 2 |x| - (p - 1)

theorem lastPlace_spec (p : ℕ) {x : ℝ} (h : x ≠ 0) :
    (2 : ℝ) ^ (p - 1 + lastPlace p x) ≤ |x| ∧ |x| < 2 ^ (p + lastPlace p x) := by
  have hpos := abs_pos.mpr h
  constructor
  · have hle := Int.zpow_log_le_self (R := ℝ) one_lt_two hpos
    rw [lastPlace, show (p : ℤ) - 1 + (Int.log 2 |x| - (p - 1)) = Int.log 2 |x| by ring]
    exact_mod_cast hle
  · have hlt := Int.lt_zpow_succ_log_self (R := ℝ) one_lt_two |x|
    rw [lastPlace, show (p : ℤ) + (Int.log 2 |x| - (p - 1)) = Int.log 2 |x| + 1 by ring]
    exact_mod_cast hlt

/-- The rounding of a number, in units of the last place. -/
theorem isFloat_roundEven {p : ℕ} (hp : 1 ≤ p) {x : ℝ} {e : ℤ} (h : |x| < 2 ^ (p + e)) :
    IsFloat p (roundEven (x / 2 ^ e) * 2 ^ e) := by
  have hpos : (0 : ℝ) < 2 ^ e := zpow_pos two_pos e
  refine .of_le hp ?_ e
  have hscaled : |x / 2 ^ e| < 2 ^ p := by
    rw [abs_div, abs_of_pos hpos, div_lt_iff₀ hpos, ← zpow_natCast, ← zpow_add₀ two_ne_zero]
    exact h
  have hlt : (|roundEven (x / 2 ^ e)| : ℝ) < 2 ^ p + 1 := by
    have htri := abs_sub_abs_le_abs_sub (roundEven (x / 2 ^ e) : ℝ) (x / 2 ^ e)
    have hhalf := (roundEven_spec (x / 2 ^ e)).1
    linarith
  exact Int.lt_add_one_iff.mp (by exact_mod_cast hlt)

/-- A distance in units of the last place. -/
theorem abs_mul_sub (k : ℤ) (x : ℝ) (e : ℤ) : |(k : ℝ) * 2 ^ e - x| = |(k : ℝ) - x / 2 ^ e| * 2 ^ e := by
  have hpos : (0 : ℝ) < 2 ^ e := zpow_pos two_pos e
  have heq : (k : ℝ) * 2 ^ e - x = (k - x / 2 ^ e) * 2 ^ e := by
    field_simp
  rw [heq, abs_mul, abs_of_pos hpos]

/-- No number with so many bits is nearer. -/
theorem abs_roundEven_mul_sub_le {p : ℕ} (hp : 1 ≤ p) {x : ℝ} {e : ℤ} (hx : (2 : ℝ) ^ (p - 1 + e) ≤ |x|) {z : ℝ}
    (hz : IsFloat p z) : |(roundEven (x / 2 ^ e) : ℝ) * 2 ^ e - x| ≤ |z - x| := by
  have hpos : (0 : ℝ) < 2 ^ e := zpow_pos two_pos e
  have hmul (k : ℤ) : |(roundEven (x / 2 ^ e) : ℝ) * 2 ^ e - x| ≤ |(k : ℝ) * 2 ^ e - x| := by
    rw [abs_mul_sub, abs_mul_sub]
    exact mul_le_mul_of_nonneg_right (abs_roundEven_sub_le _ k) hpos.le
  by_cases hbelow : |z| ≤ 2 ^ ((p : ℤ) - 1 + e)
  · -- Nearer to zero than the power of two below `x`.
    have hpow : (2 : ℝ) ^ ((p : ℤ) - 1 + e) = 2 ^ (p - 1) * 2 ^ e := by
      rw [zpow_add₀ two_ne_zero, show (p : ℤ) - 1 = ((p - 1 : ℕ) : ℤ) by omega, zpow_natCast]
    have hpowpos : (0 : ℝ) < 2 ^ ((p : ℤ) - 1 + e) := zpow_pos two_pos _
    have htri := abs_sub_abs_le_abs_sub x z
    rw [abs_sub_comm] at htri
    rcases abs_cases x with ⟨habs, hsign⟩ | ⟨habs, hsign⟩
    · have hk := hmul (2 ^ (p - 1))
      push_cast at hk
      rw [← hpow, abs_sub_comm (2 ^ ((p : ℤ) - 1 + e)) x,
        abs_of_nonneg (by linarith : (0 : ℝ) ≤ x - 2 ^ ((p : ℤ) - 1 + e))] at hk
      linarith
    · have hk := hmul (-2 ^ (p - 1))
      push_cast at hk
      rw [neg_mul, ← hpow, abs_of_nonneg (by linarith : (0 : ℝ) ≤ -2 ^ ((p : ℤ) - 1 + e) - x)] at hk
      linarith
  · obtain ⟨k, rfl⟩ := hz.exists_mul (not_le.mp hbelow)
    exact hmul k

/-- A nearest number with a bit less is the one. -/
theorem roundEven_mul_eq {p : ℕ} (hp : 2 ≤ p) {x : ℝ} {e : ℤ} (hx : (2 : ℝ) ^ (p - 1 + e) ≤ |x|) {y : ℝ}
    (hy : IsFloat (p - 1) y) (hnearest : |y - x| ≤ |(roundEven (x / 2 ^ e) : ℝ) * 2 ^ e - x|) :
    roundEven (x / 2 ^ e) * 2 ^ e = y := by
  have hpos : (0 : ℝ) < 2 ^ e := zpow_pos two_pos e
  have hpow : (2 : ℝ) ^ ((p : ℤ) - 1 + e) = 2 ^ (p - 1) * 2 ^ e := by
    rw [zpow_add₀ two_ne_zero, show (p : ℤ) - 1 = ((p - 1 : ℕ) : ℤ) by omega, zpow_natCast]
  have hhalf := (roundEven_spec (x / 2 ^ e)).1
  obtain ⟨m, f, hm, rfl⟩ := hy
  rw [abs_mul_sub _ x e] at hnearest
  rcases lt_or_ge f e with hfe | hef
  · -- Too small to be nearest.
    have hsmall : |(m * 2 ^ f : ℝ)| ≤ 2 ^ (p - 1) * (2 ^ e / 2) := by
      have hpowf : (2 : ℝ) ^ f ≤ 2 ^ e / 2 := by
        rw [div_eq_mul_inv, ← zpow_sub_one₀ (two_ne_zero : (2 : ℝ) ≠ 0)]
        exact zpow_le_zpow_right₀ one_le_two (by omega)
      rw [abs_mul, abs_of_pos (zpow_pos (two_pos : (0 : ℝ) < 2) f)]
      refine mul_le_mul ?_ hpowf (zpow_pos two_pos f).le (by positivity)
      exact_mod_cast hm.le
    have htwo : (2 : ℝ) ≤ 2 ^ (p - 1) := by
      calc (2 : ℝ) = 2 ^ 1 := (pow_one 2).symm
        _ ≤ 2 ^ (p - 1) := pow_le_pow_right₀ one_le_two (by omega)
    have htri := abs_sub_abs_le_abs_sub x (m * 2 ^ f : ℝ)
    rw [abs_sub_comm] at htri
    rw [hpow] at hx
    nlinarith
  · obtain ⟨n, hn⟩ : ∃ n : ℕ, f = e + n := ⟨(f - e).toNat, by omega⟩
    have hk : (m * 2 ^ f : ℝ) = (m * 2 ^ n : ℤ) * 2 ^ e := by
      rw [hn, zpow_add₀ two_ne_zero, zpow_natCast]
      push_cast
      ring
    rw [hk, abs_mul_sub] at hnearest
    rw [hk]
    have hnear := le_of_mul_le_mul_right hnearest hpos
    by_contra hne
    have hne' : m * 2 ^ n ≠ roundEven (x / 2 ^ e) := fun heq ↦ hne (by rw [heq])
    have hodd := odd_of_abs_sub_le hne' hnear
    -- An odd multiple of the last place needs all the bits.
    have hzero : n = 0 := by
      by_contra hpositive
      exact (Int.not_even_iff_odd.mpr hodd) (Even.mul_left ((even_two).pow_of_ne_zero hpositive) m)
    rw [hzero, pow_zero, mul_one] at hnear hne'
    have hlarge : (2 : ℝ) ^ (p - 1) ≤ |x / 2 ^ e| := by
      rw [abs_div, abs_of_pos hpos, le_div_iff₀ hpos, ← hpow]
      exact hx
    have hge : (2 : ℝ) ^ (p - 1) - 1 < |(m : ℝ)| := by
      have htri := abs_sub_abs_le_abs_sub (x / 2 ^ e) (m : ℝ)
      rw [abs_sub_comm] at htri
      linarith
    have hge' : (2 : ℤ) ^ (p - 1) - 1 < |m| := by exact_mod_cast hge
    omega

/-- Rounding to nearest, ties to even. -/
noncomputable def nearestEven (p : ℕ) (hp : 2 ≤ p) : Rounding p where
  toFun x := roundEven (x / 2 ^ lastPlace p x) * 2 ^ lastPlace p x
  isFloat x := by
    by_cases hx : x = 0
    · rw [hx, zero_div, roundEven_zero, Int.cast_zero, zero_mul]
      exact .zero p
    · exact isFloat_roundEven (by omega) (lastPlace_spec p hx).2
  nearest x z hz := by
    by_cases hx : x = 0
    · rw [hx, zero_div, roundEven_zero, Int.cast_zero, zero_mul, sub_zero, abs_zero]
      exact abs_nonneg _
    · exact abs_roundEven_mul_sub_le (by omega) (lastPlace_spec p hx).1 hz
  even {x y} hy hnearest := by
    by_cases hx : x = 0
    · have hdist := hnearest 0 (.zero p)
      rw [hx, sub_zero, sub_zero, abs_zero] at hdist
      rw [hx, zero_div, roundEven_zero, Int.cast_zero, zero_mul]
      exact (abs_nonpos_iff.mp hdist).symm
    · refine roundEven_mul_eq hp (lastPlace_spec p hx).1 hy (hnearest _ ?_)
      exact isFloat_roundEven (by omega) (lastPlace_spec p hx).2

end Rounding
