import KalshiClient.Base.Checked
import KalshiClient.Base.Decimal
import KalshiClient.Trading.FixedPoint

/-!
# `parse_fixed` is exact

`parse_fixed` accepts the decimal numbers whose digits beyond the scale are zero and whose magnitude at the scale is
representable, and returns the number at that scale.

The loop keeps a number made of the digits read so far.  Its test for overflow is exact, and further digits only make
the number larger, so a run over digits fails exactly if the number it would end with is too large.

No intermediate result leaves its type: `parseFixedChecked` is the same function with every arithmetic operation
checked.
-/

namespace KalshiClient.Trading

open Bytes

/-! ## Runs over digits -/

theorem hexVal_of_isDigit {c : UInt8} (h : isDigit c = true) : hexVal c = c.toNat - '0'.toNat ∧ hexVal c ≤ 9 := by
  have hdigit : ∀ c : UInt8, isDigit c = true → hexVal c = c.toNat - '0'.toNat ∧ hexVal c ≤ 9 := by
    refine Bytes.forall_byte ?_
    decide
  exact hdigit c h

theorem ne_point_of_isDigit {c : UInt8} (h : isDigit c = true) : c ≠ '.'.toUInt8 := by
  rintro rfl
  exact absurd h (by decide)

namespace FixedState

/-- The state after digits that are kept. -/
def keep (st : FixedState) (ds : Bytes) : FixedState where
  value := digitsFrom 10 st.value ds
  digits := st.digits + ds.length
  fracDigits := if st.seenPoint then st.fracDigits + ds.length else st.fracDigits
  seenPoint := st.seenPoint

/-- The state after digits beyond the scale. -/
def skip (st : FixedState) (ds : Bytes) : FixedState := { st with digits := st.digits + ds.length }

theorem keep_nil (st : FixedState) : st.keep [] = st := by
  obtain ⟨value, digits, fracDigits, seenPoint⟩ := st
  cases seenPoint <;> rfl

theorem keep_cons (st : FixedState) (c : UInt8) (ds : Bytes) : (st.keep [c]).keep ds = st.keep (c :: ds) := by
  obtain ⟨value, digits, fracDigits, seenPoint⟩ := st
  cases seenPoint <;> simp [keep, digitsFrom, Nat.add_assoc, Nat.add_comm 1]

theorem skip_cons (st : FixedState) (c : UInt8) (ds : Bytes) : (st.skip [c]).skip ds = st.skip (c :: ds) := by
  simp [skip, Nat.add_assoc, Nat.add_comm 1]

end FixedState

section Runs

variable {scale : Nat} {st : FixedState}

/-- A digit that is kept. -/
theorem fixedStep_keep {c : UInt8} (hc : isDigit c = true) (hkeep : st.seenPoint = true → st.fracDigits ≠ scale) :
    fixedStep scale st c = if (st.keep [c]).value ≤ I64.max then some (st.keep [c]) else none := by
  obtain ⟨hval, hle⟩ := hexVal_of_isDigit hc
  have hfull : ¬ (st.seenPoint && decide (st.fracDigits = scale)) = true := by
    rw [Bool.and_eq_true, decide_eq_true_eq, not_and]
    exact hkeep
  have hvalue : (st.keep [c]).value = st.value * 10 + hexVal c := rfl
  have hguard : st.value > (I64.max - hexVal c) / 10 ↔ ¬ st.value * 10 + hexVal c ≤ I64.max := by
    rw [I64.max]
    omega
  rw [fixedStep, if_neg (ne_point_of_isDigit hc), hc, if_neg (by decide), if_neg hfull, hvalue]
  dsimp only
  rw [← hval]
  by_cases hover : st.value * 10 + hexVal c ≤ I64.max
  · rw [if_neg (mt hguard.mp (not_not.mpr hover)), if_pos hover]
    rfl
  · rw [if_pos (hguard.mpr hover), if_neg hover]

/-- A digit beyond the scale. -/
theorem fixedStep_skip {c : UInt8} (hc : isDigit c = true) (hpoint : st.seenPoint = true)
    (hfull : st.fracDigits = scale) : fixedStep scale st c = if c = '0'.toUInt8 then some (st.skip [c]) else none := by
  have hbeyond : (st.seenPoint && decide (st.fracDigits = scale)) = true := by
    rw [hpoint, decide_eq_true hfull]
    rfl
  rw [fixedStep, if_neg (ne_point_of_isDigit hc), hc, if_neg (by decide), if_pos hbeyond, ite_not]
  rfl

/-- Digits that are kept. -/
theorem foldlM_keep {ds : Bytes} (hds : ∀ c ∈ ds, isDigit c = true) (hst : st.value ≤ I64.max)
    (hkeep : st.seenPoint = true → st.fracDigits + ds.length ≤ scale) :
    ds.foldlM (fixedStep scale) st = if (st.keep ds).value ≤ I64.max then some (st.keep ds) else none := by
  induction ds generalizing st with
  | nil =>
      rw [List.foldlM_nil, st.keep_nil, if_pos hst]
      rfl
  | cons c ds ih =>
      have hroom : st.seenPoint = true → st.fracDigits ≠ scale := by
        intro hpoint
        have hlength := hkeep hpoint
        rw [List.length_cons] at hlength
        omega
      rw [List.foldlM_cons, fixedStep_keep (hds c List.mem_cons_self) hroom, ← st.keep_cons c ds]
      by_cases hover : (st.keep [c]).value ≤ I64.max
      · have hkeep' : (st.keep [c]).seenPoint = true → (st.keep [c]).fracDigits + ds.length ≤ scale := by
          intro hpoint
          have hlength := hkeep hpoint
          have hfrac : (st.keep [c]).fracDigits = st.fracDigits + 1 := if_pos hpoint
          rw [List.length_cons] at hlength
          omega
        rw [if_pos hover]
        exact ih (fun c hc ↦ hds c (List.mem_cons_of_mem _ hc)) hover hkeep'
      · have hmore : (st.keep [c]).value ≤ ((st.keep [c]).keep ds).value := le_digitsFrom (by decide) _ ds
        rw [if_neg hover, if_neg (by omega)]
        rfl

/-- Digits beyond the scale. -/
theorem foldlM_skip {ds : Bytes} (hds : ∀ c ∈ ds, isDigit c = true) (hpoint : st.seenPoint = true)
    (hfull : st.fracDigits = scale) :
    ds.foldlM (fixedStep scale) st = if ∀ c ∈ ds, c = '0'.toUInt8 then some (st.skip ds) else none := by
  induction ds generalizing st with
  | nil =>
      rw [List.foldlM_nil, if_pos (List.forall_mem_nil _)]
      rfl
  | cons c ds ih =>
      rw [List.foldlM_cons, fixedStep_skip (hds c List.mem_cons_self) hpoint hfull, ← st.skip_cons c ds]
      by_cases hc : c = '0'.toUInt8
      · have hpoint' : (st.skip [c]).seenPoint = true := hpoint
        have hfull' : (st.skip [c]).fracDigits = scale := hfull
        rw [if_pos hc]
        refine (ih (fun c hc ↦ hds c (List.mem_cons_of_mem _ hc)) hpoint' hfull').trans ?_
        simp only [List.forall_mem_cons, hc, true_and]
      · rw [if_neg hc, if_neg fun hall ↦ hc (hall c List.mem_cons_self)]
        rfl

/-- The digits after the point. -/
theorem foldlM_frac {ds : Bytes} (hds : ∀ c ∈ ds, isDigit c = true) (hst : st.value ≤ I64.max)
    (hpoint : st.seenPoint = true) (hfrac : st.fracDigits = 0) :
    ds.foldlM (fixedStep scale) st =
      if (st.keep (ds.take scale)).value ≤ I64.max ∧ ∀ c ∈ ds.drop scale, c = '0'.toUInt8 then
        some ((st.keep (ds.take scale)).skip (ds.drop scale))
      else none := by
  have htake : ∀ c ∈ ds.take scale, isDigit c = true := fun c hc ↦ hds c (List.mem_of_mem_take hc)
  have hdrop : ∀ c ∈ ds.drop scale, isDigit c = true := fun c hc ↦ hds c (List.mem_of_mem_drop hc)
  have hroom : st.seenPoint = true → st.fracDigits + (ds.take scale).length ≤ scale := by
    intro _
    rw [hfrac, Nat.zero_add, List.length_take]
    exact Nat.min_le_left _ _
  have hfull : (st.keep (ds.take scale)).fracDigits = min scale ds.length := by
    change (if st.seenPoint then st.fracDigits + (ds.take scale).length else st.fracDigits) = _
    rw [if_pos hpoint, hfrac, Nat.zero_add, List.length_take]
  calc ds.foldlM (fixedStep scale) st
    _ = (ds.take scale ++ ds.drop scale).foldlM (fixedStep scale) st := by rw [List.take_append_drop]
    _ = _ := by
      rw [List.foldlM_append, foldlM_keep htake hst hroom]
      by_cases hover : (st.keep (ds.take scale)).value ≤ I64.max
      · simp only [hover, if_true, true_and]
        rcases Nat.lt_or_ge scale ds.length with hlong | hshort
        · rw [Nat.min_eq_left hlong.le] at hfull
          exact foldlM_skip hdrop hpoint hfull
        · rw [List.drop_eq_nil_of_le hshort, if_pos (List.forall_mem_nil _)]
          rfl
      · rw [if_neg hover, if_neg fun h ↦ hover h.1]
        rfl

theorem scaleUp_eq {value : Nat} (hvalue : value ≤ I64.max) (n : Nat) :
    scaleUp value n = if value * 10 ^ n ≤ I64.max then some (value * 10 ^ n) else none := by
  induction n generalizing value with
  | zero => rw [scaleUp, Nat.pow_zero, Nat.mul_one, if_pos hvalue]
  | succ n ih =>
      have hguard : value > I64.max / 10 ↔ ¬ value * 10 ≤ I64.max := by
        rw [I64.max]
        omega
      have hpow : value * 10 ^ (n + 1) = value * 10 * 10 ^ n := by rw [Nat.pow_succ', Nat.mul_assoc]
      rw [scaleUp, hpow]
      by_cases hover : value * 10 ≤ I64.max
      · rw [if_neg (mt hguard.mp (not_not.mpr hover)), ih hover]
      · have hmore := Nat.le_mul_of_pos_right (value * 10) (Nat.pow_pos (n := n) (by decide : 0 < 10))
        rw [if_pos (hguard.mpr hover), if_neg (by omega)]

end Runs

/-! ## What is accepted -/

instance (n : Decimal) (scale : Nat) : Decidable (n.Exact scale) := inferInstanceAs (Decidable (∀ c ∈ _, _))

/-- The loop on a decimal number. -/
theorem foldlM_unsigned (n : Decimal) (scale : Nat) :
    n.unsigned.foldlM (fixedStep scale) {} =
      if ofDigits 10 (n.whole ++ n.frac.take scale) ≤ I64.max ∧ n.Exact scale then
        some ⟨ofDigits 10 (n.whole ++ n.frac.take scale), (n.whole ++ n.frac).length, (n.frac.take scale).length,
          n.point.isSome⟩
      else none := by
  obtain ⟨negative, whole, point, hwhole, hpoint, hne⟩ := n
  have hstart : whole.foldlM (fixedStep scale) {} =
      if ofDigits 10 whole ≤ I64.max then some ⟨ofDigits 10 whole, 0 + whole.length, 0, false⟩ else none :=
    foldlM_keep hwhole (Nat.zero_le _) nofun
  cases point with
  | none =>
      have hexact : Decimal.Exact ⟨negative, whole, none, hwhole, hpoint, hne⟩ scale := by
        intro c hc
        rw [Decimal.frac, Option.getD_none, List.drop_nil] at hc
        cases hc
      simp only [hexact, and_true, Decimal.unsigned, Decimal.frac, Option.elim_none, Option.getD_none, List.append_nil,
        List.take_nil, hstart, Nat.zero_add]
      rfl
  | some frac =>
      have hunsigned : Decimal.unsigned ⟨negative, whole, some frac, hwhole, hpoint, hne⟩ =
          whole ++ '.'.toUInt8 :: frac := rfl
      have hfrac : Decimal.frac ⟨negative, whole, some frac, hwhole, hpoint, hne⟩ = frac := rfl
      rw [hunsigned, hfrac, List.foldlM_append, hstart, ofDigits_append]
      by_cases hover : ofDigits 10 whole ≤ I64.max
      · have hdot : fixedStep scale ⟨ofDigits 10 whole, 0 + whole.length, 0, false⟩ '.'.toUInt8 =
            some ⟨ofDigits 10 whole, 0 + whole.length, 0, true⟩ := rfl
        have hdigits : ∀ c ∈ frac, isDigit c = true := hpoint
        have hlength : whole.length + (frac.take scale).length + (frac.drop scale).length = (whole ++ frac).length := by
          rw [List.length_append, List.length_take, List.length_drop]
          omega
        have hend : ((⟨ofDigits 10 whole, 0 + whole.length, 0, true⟩ : FixedState).keep (frac.take scale)).skip
            (frac.drop scale) = ⟨digitsFrom 10 (ofDigits 10 whole) (frac.take scale), (whole ++ frac).length,
              (frac.take scale).length, true⟩ := by
          simp only [FixedState.keep, FixedState.skip, hlength, if_true, Nat.zero_add]
        rw [if_pos hover, Option.bind_eq_bind, Option.bind_some, List.foldlM_cons, hdot, Option.bind_eq_bind,
          Option.bind_some, foldlM_frac hdigits hover rfl rfl, hend]
        rfl
      · have hmore := le_digitsFrom (by decide : 0 < 10) (ofDigits 10 whole) (frac.take scale)
        rw [if_neg hover, if_neg fun h ↦ hover (Nat.le_trans hmore h.1)]
        rfl

/-- `parse_fixed` on a decimal number without its sign. -/
theorem parseMagnitude_unsigned (n : Decimal) (scale : Nat) :
    parseMagnitude scale n.unsigned =
      if n.Exact scale ∧ n.scaled scale ≤ I64.max then some (n.scaled scale) else none := by
  have hscaled : n.scaled scale = ofDigits 10 (n.whole ++ n.frac.take scale) * 10 ^ (scale - n.frac.length) := rfl
  have hle := Nat.le_mul_of_pos_right (ofDigits 10 (n.whole ++ n.frac.take scale))
    (Nat.pow_pos (n := scale - n.frac.length) (by decide : 0 < 10))
  rw [← hscaled] at hle
  rw [parseMagnitude, foldlM_unsigned]
  by_cases hover : ofDigits 10 (n.whole ++ n.frac.take scale) ≤ I64.max ∧ n.Exact scale
  · have hdigits : (n.whole ++ n.frac).length ≠ 0 := fun h ↦ n.ne (List.length_eq_zero_iff.mp h)
    have hplaces : scale - (n.frac.take scale).length = scale - n.frac.length := by
      rw [List.length_take]
      omega
    rw [if_pos hover, Option.bind_eq_bind, Option.bind_some]
    dsimp only
    rw [if_neg hdigits, hplaces, scaleUp_eq hover.1, ← hscaled]
    simp only [hover.2, true_and]
  · rw [if_neg hover, if_neg fun h ↦ hover ⟨Nat.le_trans hle h.2, h.1⟩]
    rfl

section Inversion

variable {scale : Nat} {st st' : FixedState} {c : UInt8}

/-- What a round of the loop can do. -/
theorem fixedStep_cases (h : fixedStep scale st c = some st') :
    (c = '.'.toUInt8 ∧ st.seenPoint = false ∧ st' = { st with seenPoint := true }) ∨
      (isDigit c = true ∧ st'.seenPoint = st.seenPoint ∧ st'.digits = st.digits + 1) := by
  rw [fixedStep] at h
  dsimp only at h
  by_cases hdot : c = '.'.toUInt8
  · rw [if_pos hdot] at h
    split_ifs at h with hpoint
    cases h
    exact .inl ⟨hdot, eq_false_of_ne_true hpoint, rfl⟩
  · rw [if_neg hdot] at h
    refine .inr ?_
    split_ifs at h with hdigit <;> cases h <;> exact ⟨by simpa using hdigit, rfl, rfl⟩

/-- After the point there are only digits. -/
theorem digits_of_foldlM {s : Bytes} (h : s.foldlM (fixedStep scale) st = some st') (hpoint : st.seenPoint = true) :
    (∀ c ∈ s, isDigit c = true) ∧ st'.digits = st.digits + s.length := by
  induction s generalizing st with
  | nil =>
      cases h
      exact ⟨List.forall_mem_nil _, rfl⟩
  | cons c s ih =>
      rw [List.foldlM_cons] at h
      obtain ⟨st₁, hstep, h⟩ := Option.bind_eq_some_iff.mp h
      rcases fixedStep_cases hstep with ⟨-, hnot, -⟩ | ⟨hc, hpoint₁, hdigits₁⟩
      · rw [hpoint] at hnot
        cases hnot
      · obtain ⟨hs, hdigits⟩ := ih h (hpoint₁.trans hpoint)
        refine ⟨List.forall_mem_cons.mpr ⟨hc, hs⟩, ?_⟩
        rw [hdigits, hdigits₁, List.length_cons]
        omega

/-- Before it there may be one. -/
theorem exists_point_of_foldlM {s : Bytes} (h : s.foldlM (fixedStep scale) st = some st')
    (hpoint : st.seenPoint = false) :
    ∃ whole point, s = whole ++ Option.elim point [] ('.'.toUInt8 :: ·) ∧ (∀ c ∈ whole, isDigit c = true) ∧
      (∀ c ∈ point.getD [], isDigit c = true) ∧ st'.digits = st.digits + (whole ++ point.getD []).length := by
  induction s generalizing st with
  | nil =>
      cases h
      exact ⟨[], none, rfl, List.forall_mem_nil _, List.forall_mem_nil _, rfl⟩
  | cons c s ih =>
      rw [List.foldlM_cons] at h
      obtain ⟨st₁, hstep, h⟩ := Option.bind_eq_some_iff.mp h
      rcases fixedStep_cases hstep with ⟨rfl, -, rfl⟩ | ⟨hc, hpoint₁, hdigits₁⟩
      · obtain ⟨hs, hdigits⟩ := digits_of_foldlM h rfl
        exact ⟨[], some s, rfl, List.forall_mem_nil _, hs, hdigits⟩
      · obtain ⟨whole, point, rfl, hwhole, hfrac, hdigits⟩ := ih h (hpoint₁.trans hpoint)
        refine ⟨c :: whole, point, rfl, List.forall_mem_cons.mpr ⟨hc, hwhole⟩, hfrac, ?_⟩
        rw [hdigits, hdigits₁, List.cons_append, List.length_cons]
        omega

/-- Whatever is accepted is a decimal number. -/
theorem exists_unsigned {s : Bytes} {v : Nat} (h : parseMagnitude scale s = some v) (negative : Bool) :
    ∃ n : Decimal, n.negative = negative ∧ n.unsigned = s := by
  obtain ⟨st, hfold, h⟩ := Option.bind_eq_some_iff.mp h
  obtain ⟨whole, point, hs, hwhole, hfrac, hdigits⟩ := exists_point_of_foldlM hfold rfl
  have hne : whole ++ point.getD [] ≠ [] := by
    intro hnil
    rw [hnil] at hdigits
    have hzero : st.digits = 0 := hdigits
    rw [if_pos hzero] at h
    cases h
  exact ⟨⟨negative, whole, point, hwhole, hfrac, hne⟩, rfl, hs.symm⟩

end Inversion

/-- The first character of a number without its sign is not a sign. -/
theorem unsigned_eq_cons (n : Decimal) : ∃ c t, n.unsigned = c :: t ∧ c ≠ '-'.toUInt8 := by
  obtain ⟨negative, whole, point, hwhole, hfrac, hne⟩ := n
  cases whole with
  | nil =>
      cases point with
      | none => exact absurd rfl hne
      | some frac => exact ⟨_, frac, rfl, by decide⟩
  | cons c whole =>
      refine ⟨c, _, rfl, ?_⟩
      rintro rfl
      exact absurd (hwhole _ List.mem_cons_self) (by decide)

/-- `parse_fixed` on a decimal number. -/
theorem parseFixed_text (n : Decimal) (scale : Nat) :
    parseFixed scale n.text =
      if n.Exact scale ∧ n.scaled scale ≤ I64.max then
        some (if n.negative then -(n.scaled scale : Int) else n.scaled scale)
      else none := by
  obtain ⟨c, t, hunsigned, hc⟩ := unsigned_eq_cons n
  have hsign : parseFixed scale n.text = (parseMagnitude scale n.unsigned).map fun value : Nat ↦
      if n.negative then -(value : Int) else value := by
    rw [Decimal.text]
    cases n.negative with
    | true => rfl
    | false =>
        rw [if_neg Bool.false_ne_true, hunsigned, parseFixed, if_neg hc]
        rfl
  rw [hsign, parseMagnitude_unsigned]
  by_cases hok : n.Exact scale ∧ n.scaled scale ≤ I64.max
  · rw [if_pos hok, if_pos hok, Option.map_some]
  · rw [if_neg hok, if_neg hok, Option.map_none]

/-- Whatever is accepted is a decimal number. -/
theorem exists_text {scale : Nat} {s : Bytes} {x : Int} (h : parseFixed scale s = some x) : ∃ n : Decimal, n.text = s := by
  cases s with
  | nil => cases h
  | cons c t =>
      rw [parseFixed] at h
      split_ifs at h with hc
      · obtain ⟨v, hv, -⟩ := Option.map_eq_some_iff.mp h
        obtain ⟨n, hnegative, hunsigned⟩ := exists_unsigned hv true
        exact ⟨n, by rw [Decimal.text, hnegative, if_pos rfl, hunsigned, hc]⟩
      · obtain ⟨v, hv, -⟩ := Option.map_eq_some_iff.mp h
        obtain ⟨n, hnegative, hunsigned⟩ := exists_unsigned hv false
        exact ⟨n, by rw [Decimal.text, hnegative, if_neg Bool.false_ne_true, hunsigned]⟩

/-- The string is a decimal number, and `x` is that number at the scale. -/
def Denotes (scale : Nat) (s : Bytes) (x : Int) : Prop :=
  ∃ n : Decimal, n.text = s ∧ n.Exact scale ∧ (x : ℚ) = n.value * 10 ^ scale

theorem Decimal.denotes_iff {n : Decimal} {scale : Nat} (h : n.Exact scale) {x : Int} :
    (x : ℚ) = n.value * 10 ^ scale ↔ x = if n.negative then -(n.scaled scale : Int) else n.scaled scale := by
  rw [Decimal.value_mul h, Rat.intCast_inj]

/-- `parse_fixed` returns what the string denotes, if it is representable. -/
theorem parseFixed_eq_some_iff {scale : Nat} {s : Bytes} {x : Int} :
    parseFixed scale s = some x ↔ Denotes scale s x ∧ |x| ≤ I64.max := by
  have habs (n : Decimal) : |if n.negative then -(n.scaled scale : Int) else n.scaled scale| = n.scaled scale := by
    cases n.negative with
    | true => exact (abs_neg _).trans (abs_of_nonneg (Int.natCast_nonneg _))
    | false => exact abs_of_nonneg (Int.natCast_nonneg _)
  constructor
  · intro h
    obtain ⟨n, rfl⟩ := exists_text h
    rw [parseFixed_text, Option.ite_none_right_eq_some, Option.some_inj] at h
    obtain ⟨hok, rfl⟩ := h
    refine ⟨⟨n, rfl, hok.1, (Decimal.denotes_iff hok.1).mpr rfl⟩, ?_⟩
    rw [habs]
    exact Int.ofNat_le.mpr hok.2
  · rintro ⟨⟨n, rfl, hexact, hx⟩, hle⟩
    obtain rfl := (Decimal.denotes_iff hexact).mp hx
    rw [habs] at hle
    rw [parseFixed_text, if_pos ⟨hexact, Int.ofNat_le.mp hle⟩]

/-- A string denotes one number. -/
theorem Denotes.eq_of_parseFixed {scale : Nat} {s : Bytes} {x y : Int} (h : Denotes scale s x)
    (hy : parseFixed scale s = some y) : x = y := by
  obtain ⟨n, rfl, hexact, hx⟩ := h
  rw [parseFixed_text, Option.ite_none_right_eq_some, Option.some_inj] at hy
  rw [(Decimal.denotes_iff hexact).mp hx]
  exact hy.2

/-! ## The arithmetic of the source

Each operation on an `int` or an `int64_t`, with its bound. -/

/-- `INT_MAX`. -/
def intMax : Nat := 2 ^ 31 - 1

/-- One round of the loop over the characters. -/
def fixedStepChecked (scale : Nat) (st : FixedState) (c : UInt8) : Checked Unit FixedState :=
  if c = '.'.toUInt8 then
    if st.seenPoint then .fail () else return { st with seenPoint := true }
  else if !isDigit c then .fail ()
  else do
    let digits ← .within intMax (st.digits + 1)
    if st.seenPoint && st.fracDigits = scale then
      if c ≠ '0'.toUInt8 then .fail () else return { st with digits := digits }
    else
      let digit := c.toNat - '0'.toNat
      let room ← .minus I64.max digit
      if st.value > room / 10 then .fail ()
      else
        let shifted ← .within I64.max (st.value * 10)
        let value ← .within I64.max (shifted + digit)
        let fracDigits ← if st.seenPoint then .within intMax (st.fracDigits + 1) else pure st.fracDigits
        return { st with value := value, digits := digits, fracDigits := fracDigits }

/-- The loop that makes up for missing fractional digits. -/
def scaleUpChecked (fracDigits value : Nat) : Nat → Checked Unit Nat
  | 0 => return value
  | n + 1 =>
    if value > I64.max / 10 then .fail ()
    else do
      let value ← .within I64.max (value * 10)
      let fracDigits ← .within intMax (fracDigits + 1)
      scaleUpChecked fracDigits value n

/-- `parse_fixed` without the sign. -/
def parseMagnitudeChecked (scale : Nat) (s : Bytes) : Checked Unit Nat := do
  let st ← s.foldlM (fixedStepChecked scale) {}
  if st.digits = 0 then .fail () else scaleUpChecked st.fracDigits st.value (scale - st.fracDigits)

/-- `parse_fixed<Scale>` with its arithmetic. -/
def parseFixedChecked (scale : Nat) (s : Bytes) : Checked Unit Int :=
  match s with
  | [] => .fail ()
  | c :: t =>
    if c = '-'.toUInt8 then do
      let value ← parseMagnitudeChecked scale t
      .partially (if I64.InRange (-value) then some (-value : Int) else none)
    else do
      let value ← parseMagnitudeChecked scale (c :: t)
      return (value : Int)

section Arithmetic

variable {scale : Nat} {st : FixedState}

/-- The state is within the bounds of its types for another `n` digits. -/
structure FixedState.Bounded (scale n : Nat) (st : FixedState) : Prop where
  digits : st.digits + n ≤ intMax
  fracDigits : st.fracDigits ≤ scale

theorem fixedStep_bounded {n : Nat} {st' : FixedState} {c : UInt8} (h : fixedStep scale st c = some st')
    (hst : st.Bounded scale (n + 1)) : st'.Bounded scale n := by
  obtain ⟨hdigits, hfrac⟩ := hst
  rw [fixedStep] at h
  dsimp only at h
  split_ifs at h with hdot hpoint hdigit hbeyond hzero hover hpoint <;> cases h
  · exact ⟨by dsimp only; omega, hfrac⟩
  · exact ⟨by dsimp only; omega, hfrac⟩
  · have hne : st.fracDigits ≠ scale := by simpa [hpoint] using hbeyond
    exact ⟨by dsimp only; omega, by dsimp only; omega⟩
  · exact ⟨by dsimp only; omega, hfrac⟩

/-- No operation of a round overflows. -/
theorem fixedStepChecked_eq {n : Nat} (c : UInt8) (hscale : scale ≤ 9) (hst : st.Bounded scale (n + 1)) :
    fixedStepChecked scale st c = Checked.defined (Checked.orFail (fixedStep scale st c)) := by
  obtain ⟨hdigits, hfrac⟩ := hst
  rw [fixedStepChecked, fixedStep]
  by_cases hdot : c = '.'.toUInt8
  · rw [if_pos hdot, if_pos hdot]
    split_ifs <;> rfl
  rw [if_neg hdot, if_neg hdot]
  by_cases hdigit : (!isDigit c) = true
  · rw [if_pos hdigit, if_pos hdigit]
    rfl
  rw [if_neg hdigit, if_neg hdigit, Checked.within_eq (by omega), Checked.defined_ok_bind]
  by_cases hbeyond : (st.seenPoint && decide (st.fracDigits = scale)) = true
  · rw [if_pos hbeyond, if_pos hbeyond]
    split_ifs <;> rfl
  have hmax : I64.max = 9223372036854775807 := rfl
  have hint : intMax = 2147483647 := rfl
  have hnine : c.toNat - '0'.toNat ≤ 9 := by
    obtain ⟨hval, hle⟩ := hexVal_of_isDigit (by simpa using hdigit)
    rwa [← hval]
  rw [if_neg hbeyond, if_neg hbeyond]
  dsimp only
  rw [Checked.minus_eq (by omega), Checked.defined_ok_bind]
  by_cases hover : st.value > (I64.max - (c.toNat - '0'.toNat)) / 10
  · rw [if_pos hover, if_pos hover]
    rfl
  rw [if_neg hover, if_neg hover, Checked.within_eq (by omega), Checked.defined_ok_bind, Checked.within_eq (by omega),
    Checked.defined_ok_bind]
  by_cases hpoint : st.seenPoint = true
  · rw [if_pos hpoint, if_pos hpoint, Checked.within_eq (by omega), Checked.defined_ok_bind]
    rfl
  · rw [if_neg hpoint, if_neg hpoint]
    rfl

/-- No operation of the loop overflows. -/
theorem foldlM_fixedStepChecked_eq {s : Bytes} (hscale : scale ≤ 9) (hst : st.Bounded scale s.length) :
    s.foldlM (fixedStepChecked scale) st = Checked.defined (Checked.orFail (s.foldlM (fixedStep scale) st)) ∧
      ∀ st', s.foldlM (fixedStep scale) st = some st' → st'.Bounded scale 0 := by
  induction s generalizing st with
  | nil =>
      refine ⟨rfl, fun st' h ↦ ?_⟩
      cases h
      exact hst
  | cons c s ih =>
      rw [List.foldlM_cons, List.foldlM_cons, fixedStepChecked_eq c hscale hst, Checked.orFail_bind]
      constructor
      · refine Checked.bind_defined fun st₁ hst₁ ↦ ?_
        exact (ih (fixedStep_bounded (Checked.orFail_eq_ok.mp hst₁) hst)).1
      · intro st' h
        obtain ⟨st₁, hstep, h⟩ := Option.bind_eq_some_iff.mp h
        exact (ih (fixedStep_bounded hstep hst)).2 st' h

theorem scaleUpChecked_eq {fracDigits n : Nat} (hfrac : fracDigits + n ≤ intMax) (value : Nat) :
    scaleUpChecked fracDigits value n = Checked.defined (Checked.orFail (scaleUp value n)) := by
  induction n generalizing fracDigits value with
  | zero => rfl
  | succ n ih =>
      rw [scaleUpChecked, scaleUp]
      by_cases hover : value > I64.max / 10
      · rw [if_pos hover, if_pos hover]
        rfl
      · rw [if_neg hover, if_neg hover, Checked.within_eq (by omega), Checked.defined_ok_bind,
          Checked.within_eq (by omega), Checked.defined_ok_bind]
        exact ih (by omega) (value * 10)

end Arithmetic

theorem parseMagnitudeChecked_eq {scale : Nat} {s : Bytes} (hscale : scale ≤ 9) (hs : s.length ≤ intMax) :
    parseMagnitudeChecked scale s = Checked.defined (Checked.orFail (parseMagnitude scale s)) := by
  have hstart : ({} : FixedState).Bounded scale s.length := ⟨by rwa [Nat.zero_add], Nat.zero_le _⟩
  obtain ⟨hloop, hbounded⟩ := foldlM_fixedStepChecked_eq hscale hstart
  rw [parseMagnitudeChecked, parseMagnitude, hloop, Checked.orFail_bind]
  refine Checked.bind_defined fun st hst ↦ ?_
  have hfrac := (hbounded st (Checked.orFail_eq_ok.mp hst)).fracDigits
  by_cases hdigits : st.digits = 0
  · rw [if_pos hdigits, if_pos hdigits]
    rfl
  · have hint : intMax = 2147483647 := rfl
    rw [if_neg hdigits, if_neg hdigits]
    exact scaleUpChecked_eq (by omega) st.value

/-- No operation of `parse_fixed` overflows. -/
theorem parseFixedChecked_eq {scale : Nat} {s : Bytes} (hscale : scale ≤ 9) (hs : s.length ≤ intMax) :
    parseFixedChecked scale s = Checked.defined (Checked.orFail (parseFixed scale s)) := by
  cases s with
  | nil => rfl
  | cons c t =>
      have ht : t.length ≤ intMax := Nat.le_trans (Nat.le_succ _) hs
      rw [parseFixedChecked, parseFixed]
      by_cases hc : c = '-'.toUInt8
      · rw [if_pos hc, if_pos hc, parseMagnitudeChecked_eq hscale ht]
        cases hvalue : parseMagnitude scale t with
        | none => rfl
        | some value =>
            have hrange : I64.InRange (-(value : Int)) := by
              have hle := parseMagnitude_le hvalue
              have hmax : I64.max = 9223372036854775807 := rfl
              constructor <;> omega
            exact Checked.partially_some (if_pos hrange)
      · rw [if_neg hc, if_neg hc, parseMagnitudeChecked_eq hscale hs]
        cases parseMagnitude scale (c :: t) <;> rfl

/-- `parse_fixed` accepts the decimal numbers whose digits beyond the scale are zero and whose magnitude at the scale
is representable, and returns exactly the number at the scale, without an overflow on the way. -/
theorem parseFixed_exact (scale : Nat) (hscale : scale ≤ 9) (s : Bytes) (hs : s.length < 2 ^ 31) :
    (∀ x : Int, parseFixed scale s = some x ↔
      ∃ n : Decimal, n.text = s ∧ n.Exact scale ∧ |n.value| * 10 ^ scale ≤ I64.max ∧
        (x : ℚ) = n.value * 10 ^ scale) ∧
    parseFixedChecked scale s = Checked.defined (Checked.orFail (parseFixed scale s)) := by
  refine ⟨fun x ↦ ?_, parseFixedChecked_eq hscale (Nat.le_of_lt_succ hs)⟩
  have hbound {n : Decimal} (hx : (x : ℚ) = n.value * 10 ^ scale) : |n.value| * 10 ^ scale ≤ I64.max ↔ |x| ≤ I64.max := by
    have hpow : |(10 : ℚ) ^ scale| = 10 ^ scale := abs_of_nonneg (pow_nonneg (by norm_num) _)
    rw [← hpow, ← abs_mul, ← hx]
    exact_mod_cast Iff.rfl
  rw [parseFixed_eq_some_iff]
  constructor
  · rintro ⟨⟨n, htext, hexact, hx⟩, hle⟩
    exact ⟨n, htext, hexact, (hbound hx).mpr hle, hx⟩
  · rintro ⟨n, htext, hexact, hle, hx⟩
    exact ⟨⟨n, htext, hexact, hx⟩, (hbound hx).mp hle⟩

/-- `-5.00` at the scale of cents. -/
theorem parseFixed_exact_minusFive :
    ∃ n : Decimal, n.text = ascii "-5.00" ∧ n.Exact 2 ∧ |n.value| * 10 ^ 2 ≤ I64.max ∧
      ((-500 : Int) : ℚ) = n.value * 10 ^ 2 :=
  ((parseFixed_exact 2 (by decide) (ascii "-5.00") (by decide)).1 (-500)).mp (by decide)

end KalshiClient.Trading
