import KalshiClient.Trading.Book
import KalshiClient.Trading.FixedPointExact

/-!
# What the book accepts

`apply_snapshot` and `apply_delta` against what the texts of a message denote: which messages are refused, what a
refused message leaves as it was, and what the others change.  The numbers in a message are decimal numbers as they
are written (`Denotes`), so a price may be listed several times in different forms, and the last one counts.
-/

namespace KalshiClient.Trading

open Bytes Protocol

/-! ## Numbers -/

/-- A decimal number strictly between $0 and $1, at a resolution of $0.001. -/
def ValidPrice (s : Bytes) : Prop := ∃ n : Decimal, n.text = s ∧ n.Exact kPriceDecimals ∧ 0 < n.value ∧ n.value < 1

/-- A decimal number with two decimals, representable in hundredths. -/
def ValidQuantity (s : Bytes) : Prop := ∃ qty, Denotes 2 s qty ∧ |qty| ≤ I64.max

theorem parseQuantity_eq_ok_iff {s : Bytes} {qty : Quantity} :
    parseQuantity s = .ok qty ↔ Denotes 2 s qty ∧ |qty| ≤ I64.max := by
  rw [← parseFixed_eq_some_iff, parseQuantity]
  cases parseFixed 2 s with
  | none => exact iff_of_false Except.error_ne_ok (Option.some_ne_none _).symm
  | some x => exact ⟨fun h ↦ congrArg some (Except.ok.inj h), fun h ↦ congrArg Except.ok (Option.some.inj h)⟩

theorem parsePrice_eq_ok_iff_parseFixed {s : Bytes} {price : BookPrice} :
    parsePrice s = .ok price ↔ parseFixed kPriceDecimals s = some (price.val : Int) := by
  obtain ⟨p, hp⟩ := price
  rw [parsePrice]
  cases parseFixed kPriceDecimals s with
  | none => exact iff_of_false Except.error_ne_ok (Option.some_ne_none _).symm
  | some x =>
      dsimp only
      split_ifs with hx
      · constructor
        · intro h
          have hval : x.toNat = p := congrArg Subtype.val (Except.ok.inj h)
          rw [← hval, Int.toNat_of_nonneg (by omega)]
        · intro h
          cases h
          rfl
      · refine iff_of_false Except.error_ne_ok fun h ↦ hx ?_
        cases h
        exact ⟨Int.ofNat_le.mpr hp.1, Int.ofNat_lt.mpr hp.2⟩

theorem parsePrice_eq_ok_iff {s : Bytes} {price : BookPrice} :
    parsePrice s = .ok price ↔ Denotes kPriceDecimals s price.val := by
  obtain ⟨p, hp⟩ := price
  have hmax : |(p : Int)| ≤ I64.max := by
    have hlt : p < 1000 := hp.2
    rw [Nat.abs_cast, I64.max]
    omega
  rw [parsePrice_eq_ok_iff_parseFixed, parseFixed_eq_some_iff, and_iff_left hmax]

theorem validPrice_iff {s : Bytes} : ValidPrice s ↔ ∃ price, parsePrice s = .ok price := by
  have hpow : (0 : ℚ) < 10 ^ kPriceDecimals := by norm_num
  constructor
  · rintro ⟨n, htext, hexact, hpos, hlt⟩
    obtain ⟨x, hx⟩ : ∃ x : Int, (x : ℚ) = n.value * 10 ^ kPriceDecimals := ⟨_, (Decimal.denotes_iff hexact).mpr rfl⟩
    have hx₀ : (0 : ℚ) < x := hx ▸ mul_pos hpos hpow
    have hx₁ : (x : ℚ) < (10 ^ kPriceDecimals : Int) := by
      rw [hx]
      push_cast
      exact mul_lt_of_lt_one_left hpow hlt
    have hrange : 1 ≤ x.toNat ∧ x.toNat < kMaxPrice := by
      have hpos : 0 < x := Int.cast_pos.mp hx₀
      have hlt : x < 10 ^ 3 := Int.cast_lt.mp hx₁
      rw [kMaxPrice]
      omega
    refine ⟨⟨x.toNat, hrange⟩, parsePrice_eq_ok_iff.mpr ⟨n, htext, hexact, ?_⟩⟩
    rw [Int.toNat_of_nonneg (by omega), hx]
  · rintro ⟨⟨p, hp⟩, h⟩
    obtain ⟨n, htext, hexact, hvalue⟩ := parsePrice_eq_ok_iff.mp h
    refine ⟨n, htext, hexact, ?_, ?_⟩
    · refine pos_of_mul_pos_left ?_ hpow.le
      rw [← hvalue]
      exact_mod_cast hp.1
    · refine lt_of_mul_lt_mul_right ?_ hpow.le
      rw [← hvalue, one_mul]
      exact_mod_cast hp.2

theorem validQuantity_iff {s : Bytes} : ValidQuantity s ↔ ∃ qty, parseQuantity s = .ok qty :=
  exists_congr fun _ ↦ parseQuantity_eq_ok_iff.symm

/-! ## Snapshots -/

/-- The loop over the levels gets through exactly if every price and every quantity is valid. -/
theorem exists_parseLevels_iff (entries : List PriceLevel) (levels : Levels) :
    (∃ levels', parseLevels entries levels = .ok levels') ↔
      ∀ entry ∈ entries, ValidPrice entry.1 ∧ ValidQuantity entry.2 := by
  induction entries generalizing levels with
  | nil => exact iff_of_true ⟨levels, rfl⟩ (List.forall_mem_nil _)
  | cons entry entries ih =>
      rw [List.forall_mem_cons, validPrice_iff, validQuantity_iff]
      constructor
      · rintro ⟨levels', h⟩
        obtain ⟨price, hprice, h⟩ := Except.bind_eq_ok_iff.mp h
        obtain ⟨qty, hqty, h⟩ := Except.bind_eq_ok_iff.mp h
        exact ⟨⟨⟨price, hprice⟩, ⟨qty, hqty⟩⟩, (ih _).mp ⟨levels', h⟩⟩
      · rintro ⟨⟨⟨price, hprice⟩, ⟨qty, hqty⟩⟩, hrest⟩
        obtain ⟨levels', h⟩ := (ih (Function.update levels price.val qty)).mpr hrest
        refine ⟨levels', ?_⟩
        rw [parseLevels, hprice, Except.bind_ok, hqty, Except.bind_ok, h]

/-- Without a listing, a level stays as it is. -/
theorem parseLevels_of_not_lists {entries : List PriceLevel} {levels levels' : Levels}
    (h : parseLevels entries levels = .ok levels') {p : Nat} (hp : ¬ Lists entries p) : levels' p = levels p := by
  induction entries generalizing levels with
  | nil =>
      cases h
      rfl
  | cons entry entries ih =>
      obtain ⟨price, hprice, h⟩ := Except.bind_eq_ok_iff.mp h
      obtain ⟨qty, -, h⟩ := Except.bind_eq_ok_iff.mp h
      rw [lists_cons hprice, not_or] at hp
      rw [ih h hp.2, Function.update_of_ne hp.1]

/-- After its last listing, a level holds the quantity listed there. -/
theorem parseLevels_of_last {before after : List PriceLevel} {entry : PriceLevel} {levels levels' : Levels}
    (h : parseLevels (before ++ entry :: after) levels = .ok levels') {price : BookPrice} {qty : Quantity}
    (hprice : parsePrice entry.1 = .ok price) (hqty : parseQuantity entry.2 = .ok qty)
    (hlast : ¬ Lists after price.val) : levels' price.val = qty := by
  induction before generalizing levels with
  | nil =>
      rw [List.nil_append, parseLevels, hprice, Except.bind_ok, hqty, Except.bind_ok] at h
      rw [parseLevels_of_not_lists h hlast, Function.update_self]
  | cons first before ih =>
      obtain ⟨_, -, h⟩ := Except.bind_eq_ok_iff.mp h
      obtain ⟨_, -, h⟩ := Except.bind_eq_ok_iff.mp h
      exact ih h

/-- A price that no listed text denotes is not listed. -/
theorem not_lists {entries : List PriceLevel} {p : Nat} (h : ∀ entry ∈ entries, ¬ Denotes kPriceDecimals entry.1 p) :
    ¬ Lists entries p := by
  rintro ⟨entry, hmem, price, hprice, rfl⟩
  exact h entry hmem (parsePrice_eq_ok_iff.mp hprice)

/-- A price holds what its last listing denotes. -/
theorem parseLevels_of_denotes {before after : List PriceLevel} {entry : PriceLevel} {levels levels' : Levels}
    (h : parseLevels (before ++ entry :: after) levels = .ok levels') {p : Nat} {qty : Quantity}
    (hprice : Denotes kPriceDecimals entry.1 p) (hqty : Denotes 2 entry.2 qty)
    (hlast : ∀ later ∈ after, ¬ Denotes kPriceDecimals later.1 p) : levels' p = qty := by
  have hvalid := (exists_parseLevels_iff _ _).mp ⟨levels', h⟩ entry (List.mem_append_right _ List.mem_cons_self)
  rw [validPrice_iff, validQuantity_iff] at hvalid
  obtain ⟨⟨price, hprice'⟩, ⟨qty', hqty'⟩⟩ := hvalid
  obtain rfl : p = price.val :=
    Int.ofNat_inj.mp (hprice.eq_of_parseFixed (parsePrice_eq_ok_iff_parseFixed.mp hprice'))
  obtain rfl : qty = qty' :=
    hqty.eq_of_parseFixed (parseFixed_eq_some_iff.mpr (parseQuantity_eq_ok_iff.mp hqty'))
  exact parseLevels_of_last h hprice' hqty' (not_lists hlast)

namespace MarketState

variable {m : MarketState} {s : OrderBookSnapshot}

theorem readable_iff : Readable s ↔ ∀ b, ∀ entry ∈ listed s b, ValidPrice entry.1 ∧ ValidQuantity entry.2 :=
  forall_congr' fun b ↦ exists_parseLevels_iff (listed s b) fun _ ↦ 0

end MarketState

/-! ## Deltas -/

/-- What a delta says: the side, the price and the quantity. -/
structure Addresses (d : OrderBookDelta) (isYes : Bool) (price : Nat) (qty : Quantity) : Prop where
  side_eq : d.side = if isYes then ascii "yes" else ascii "no"
  price_range : 1 ≤ price ∧ price < kMaxPrice
  price_text : Denotes kPriceDecimals d.priceDollars price
  qty_range : |qty| ≤ I64.max
  qty_text : Denotes 2 d.deltaFp qty

/-- The books differ at most in one level, and in the best price on its side. -/
structure Frame (isYes : Bool) (price : Nat) (m m' : MarketState) : Prop where
  ticker : m'.marketTicker = m.marketTicker
  other : m'.side (!isYes) = m.side (!isYes)
  levels : ∀ p, p ≠ price → m'.level isYes p = m.level isYes p

namespace MarketState

variable {m : MarketState} {d : OrderBookDelta}

theorem parseDeltaArgs_of_side {isYes : Bool} (h : d.side = if isYes then ascii "yes" else ascii "no") :
    parseDeltaArgs d = parsePrice d.priceDollars >>= fun price ↦
      parseQuantity d.deltaFp >>= fun qty ↦ .ok (isYes, price, qty) := by
  rw [parseDeltaArgs, h]
  cases isYes with
  | true => rfl
  | false => rfl

/-- The arguments of `apply_delta` are what the delta says. -/
theorem parseDeltaArgs_eq_ok_iff {isYes : Bool} {price : BookPrice} {qty : Quantity} :
    parseDeltaArgs d = .ok (isYes, price, qty) ↔ Addresses d isYes price.val qty := by
  constructor
  · intro h
    have hside : ∃ b : Bool, d.side = if b then ascii "yes" else ascii "no" := by
      rw [parseDeltaArgs] at h
      split_ifs at h with hside
      · cases h
      · rw [Bool.and_eq_true, not_and, Bool.not_eq_true', decide_eq_false_iff_not, decide_eq_true_eq, not_not] at hside
        by_cases hyes : d.side = ascii "yes"
        · exact ⟨true, hyes⟩
        · exact ⟨false, hside hyes⟩
    obtain ⟨b, hside⟩ := hside
    rw [parseDeltaArgs_of_side hside] at h
    obtain ⟨price', hprice, h⟩ := Except.bind_eq_ok_iff.mp h
    obtain ⟨qty', hqty, h⟩ := Except.bind_eq_ok_iff.mp h
    cases h
    obtain ⟨hqty, hbound⟩ := parseQuantity_eq_ok_iff.mp hqty
    exact ⟨hside, price.property, parsePrice_eq_ok_iff.mp hprice, hbound, hqty⟩
  · intro h
    rw [parseDeltaArgs_of_side h.side_eq, parsePrice_eq_ok_iff.mpr h.price_text, Except.bind_ok,
      parseQuantity_eq_ok_iff.mpr ⟨h.qty_text, h.qty_range⟩, Except.bind_ok]

/-- A delta whose arguments are refused is malformed. -/
theorem parseDeltaArgs_malformed {e : BookError} (h : parseDeltaArgs d = .error e) : e.kind = .malformed := by
  have hprice {s : Bytes} {e : BookError} (h : parsePrice s = .error e) : e.kind = .malformed := by
    rw [parsePrice] at h
    split at h
    · split_ifs at h
      cases h
      rfl
    · cases h
      rfl
  have hquantity {s : Bytes} {e : BookError} (h : parseQuantity s = .error e) : e.kind = .malformed := by
    rw [parseQuantity] at h
    split at h
    · cases h
    · cases h
      rfl
  rw [parseDeltaArgs] at h
  split_ifs at h
  · cases h
    rfl
  · rcases Except.bind_eq_error_iff.mp h with h | ⟨price, -, h⟩
    · exact hprice h
    · rcases Except.bind_eq_error_iff.mp h with h | ⟨qty, -, h⟩
      · exact hquantity h
      · cases h

/-- A delta whose arguments are accepted changes at most the level it addresses. -/
theorem applyDelta_frame {isYes : Bool} {price : BookPrice} {qty : Quantity}
    (h : parseDeltaArgs d = .ok (isYes, price, qty)) : Frame isYes price.val m (m.applyDelta d).1 := by
  refine ⟨m.applyDelta_ticker d, ?_, fun p hp ↦ ?_⟩
  · rw [applyDelta, h]
    cases isYes with
    | true => rfl
    | false => rfl
  · rw [applyDelta_level h, if_neg fun haddressed ↦ hp haddressed.2]

/-- It is out of sync exactly if the sum is negative. -/
theorem applyDelta_outOfSync {isYes : Bool} {price : BookPrice} {qty : Quantity}
    (h : parseDeltaArgs d = .ok (isYes, price, qty)) (hrange : I64.InRange (m.level isYes price.val + qty)) :
    (0 ≤ m.level isYes price.val + qty ∧ (m.applyDelta d).2 = .ok ()) ∨
      m.level isYes price.val + qty < 0 ∧ (∃ message, (m.applyDelta d).2 = .error ⟨.outOfSync, message⟩) ∧
        (m.applyDelta d).1.level isYes price.val = 0 := by
  rcases lt_or_ge (m.level isYes price.val + qty) 0 with hneg | hnonneg
  · refine .inr ⟨hneg, ?_, ?_⟩
    · rw [applyDelta_result h, I64.wrap_eq_self hrange, decide_eq_true hneg]
      exact ⟨_, rfl⟩
    · rw [applyDelta_level h, if_pos ⟨rfl, rfl⟩, I64.wrap_eq_self hrange]
      exact max_eq_left hneg.le
  · refine .inl ⟨hnonneg, (applyDelta_eq_ok h).mpr ?_⟩
    rw [I64.wrap_eq_self hrange]
    exact hnonneg

end MarketState

namespace Addresses

variable {d : OrderBookDelta} {isYes isYes' : Bool} {price price' : Nat} {qty qty' : Quantity}

theorem parseDeltaArgs_eq (h : Addresses d isYes price qty) :
    MarketState.parseDeltaArgs d = .ok (isYes, ⟨price, h.price_range⟩, qty) :=
  MarketState.parseDeltaArgs_eq_ok_iff.mpr h

/-- A delta says one thing. -/
theorem unique (h : Addresses d isYes price qty) (h' : Addresses d isYes' price' qty') :
    isYes = isYes' ∧ price = price' ∧ qty = qty' := by
  have hargs := h.parseDeltaArgs_eq.symm.trans h'.parseDeltaArgs_eq
  cases hargs
  exact ⟨rfl, rfl, rfl⟩

end Addresses

/-! ## Both operations -/

/-- What becomes of a snapshot. -/
theorem applySnapshot_errors (m : MarketState) (s : OrderBookSnapshot) :
    ((∃ e, (m.applySnapshot s).2 = .error e) ↔
      ∃ b, ∃ entry ∈ listed s b, ¬ ValidPrice entry.1 ∨ ¬ ValidQuantity entry.2) ∧
    ((∃ e, (m.applySnapshot s).2 = .error e) → (m.applySnapshot s).1 = m) ∧
    ((m.applySnapshot s).2 = .ok () →
      (∀ b before entry after (p : Nat) qty, listed s b = before ++ entry :: after →
        Denotes kPriceDecimals entry.1 p → Denotes 2 entry.2 qty →
        (∀ later ∈ after, ¬ Denotes kPriceDecimals later.1 p) → (m.applySnapshot s).1.level b p = qty) ∧
      ∀ b (p : Nat), (∀ entry ∈ listed s b, ¬ Denotes kPriceDecimals entry.1 p) →
        (m.applySnapshot s).1.level b p = 0) := by
  have hrefused : ¬ Readable s ↔ ∃ b, ∃ entry ∈ listed s b, ¬ ValidPrice entry.1 ∨ ¬ ValidQuantity entry.2 := by
    simp only [MarketState.readable_iff, not_forall, not_and_or, exists_prop]
  rw [← hrefused]
  rcases m.applySnapshot_level s with ⟨hnot, e, hcall⟩ | ⟨hok, hlevels⟩
  · rw [hcall]
    exact ⟨iff_of_true ⟨e, rfl⟩ hnot, fun _ ↦ rfl, fun h ↦ by cases h⟩
  · have hreadable : Readable s := fun b ↦ ⟨_, hlevels b⟩
    have hfine : ¬ ∃ e, (m.applySnapshot s).2 = .error e := by
      rintro ⟨e, he⟩
      rw [hok] at he
      cases he
    refine ⟨iff_of_false hfine (not_not.mpr hreadable), fun h ↦ absurd h hfine, fun _ ↦ ⟨?_, ?_⟩⟩
    · intro b before entry after p qty hlisted hprice hqty hlast
      have hparse := hlevels b
      rw [hlisted] at hparse
      exact parseLevels_of_denotes hparse hprice hqty hlast
    · intro b p hunlisted
      exact parseLevels_of_not_lists (hlevels b) (not_lists hunlisted)

/-- What becomes of a delta whose sum is in range. -/
theorem applyDelta_errors (m : MarketState) (d : OrderBookDelta)
    (hexact : ∀ isYes price qty, Addresses d isYes price qty → I64.InRange (m.level isYes price + qty)) :
    (∀ message, (m.applyDelta d).2 = .error ⟨.malformed, message⟩ → (m.applyDelta d).1 = m) ∧
    ((∀ message, (m.applyDelta d).2 ≠ .error ⟨.malformed, message⟩) →
      ∃ isYes price qty, Addresses d isYes price qty ∧ Frame isYes price m (m.applyDelta d).1) ∧
    ((∃ message, (m.applyDelta d).2 = .error ⟨.outOfSync, message⟩) ↔
      ∃ isYes price qty, Addresses d isYes price qty ∧ m.level isYes price + qty < 0) ∧
    ∀ isYes price qty, Addresses d isYes price qty → m.level isYes price + qty < 0 →
      (m.applyDelta d).1.level isYes price = 0 := by
  cases hparse : MarketState.parseDeltaArgs d with
  | error e =>
      have hnot {isYes : Bool} {price : Nat} {qty : Quantity} (h : Addresses d isYes price qty) : False := by
        rw [h.parseDeltaArgs_eq] at hparse
        cases hparse
      have hkind := MarketState.parseDeltaArgs_malformed hparse
      rw [MarketState.applyDelta_error hparse]
      refine ⟨fun _ _ ↦ rfl, fun h ↦ absurd ?_ (h e.message), iff_of_false ?_ ?_, fun _ _ _ h ↦ (hnot h).elim⟩
      · rw [← hkind]
      · rintro ⟨message, h⟩
        cases h
        cases hkind
      · rintro ⟨isYes, price, qty, h, -⟩
        exact hnot h
  | ok args =>
      obtain ⟨isYes, price, qty⟩ := args
      have haddresses : Addresses d isYes price.val qty := MarketState.parseDeltaArgs_eq_ok_iff.mp hparse
      have hrange := hexact _ _ _ haddresses
      have hsum {isYes' : Bool} {price' : Nat} {qty' : Quantity} (h : Addresses d isYes' price' qty') :
          m.level isYes' price' + qty' = m.level isYes price.val + qty := by
        obtain ⟨rfl, rfl, rfl⟩ := h.unique haddresses
        rfl
      have hframe := MarketState.applyDelta_frame (m := m) hparse
      rcases MarketState.applyDelta_outOfSync hparse hrange with ⟨hnonneg, hok⟩ | ⟨hneg, ⟨message, herror⟩, hzero⟩
      · rw [hok]
        refine ⟨fun _ h ↦ (by cases h), fun _ ↦ ⟨_, _, _, haddresses, hframe⟩, iff_of_false ?_ ?_, ?_⟩
        · rintro ⟨message, h⟩
          cases h
        · rintro ⟨isYes', price', qty', h, hneg⟩
          rw [hsum h] at hneg
          exact absurd hneg hnonneg.not_gt
        · intro isYes' price' qty' h hneg
          rw [hsum h] at hneg
          exact absurd hneg hnonneg.not_gt
      · rw [herror]
        refine ⟨fun _ h ↦ (by cases h), fun _ ↦ ⟨_, _, _, haddresses, hframe⟩,
          iff_of_true ⟨message, rfl⟩ ⟨_, _, _, haddresses, hneg⟩, ?_⟩
        intro isYes' price' qty' h _
        obtain ⟨rfl, rfl, rfl⟩ := h.unique haddresses
        exact hzero

/-- A snapshot is refused exactly if one of its numbers is invalid, and then leaves the book as it was; otherwise each
price holds the quantity of its last listing, or nothing if it is not listed.  A malformed delta leaves the book as it
was; any other delta changes at most the level it addresses and the best price on that side, and is out of sync exactly
if the sum is negative, in which case the level becomes zero. -/
theorem book_errors (m : MarketState) :
    (∀ s : OrderBookSnapshot,
      ((∃ e, (m.applySnapshot s).2 = .error e) ↔
        ∃ b, ∃ entry ∈ listed s b, ¬ ValidPrice entry.1 ∨ ¬ ValidQuantity entry.2) ∧
      ((∃ e, (m.applySnapshot s).2 = .error e) → (m.applySnapshot s).1 = m) ∧
      ((m.applySnapshot s).2 = .ok () →
        (∀ b before entry after (p : Nat) qty, listed s b = before ++ entry :: after →
          Denotes kPriceDecimals entry.1 p → Denotes 2 entry.2 qty →
          (∀ later ∈ after, ¬ Denotes kPriceDecimals later.1 p) → (m.applySnapshot s).1.level b p = qty) ∧
        ∀ b (p : Nat), (∀ entry ∈ listed s b, ¬ Denotes kPriceDecimals entry.1 p) →
          (m.applySnapshot s).1.level b p = 0)) ∧
    ∀ d : OrderBookDelta,
      (∀ isYes price qty, Addresses d isYes price qty → I64.InRange (m.level isYes price + qty)) →
      (∀ message, (m.applyDelta d).2 = .error ⟨.malformed, message⟩ → (m.applyDelta d).1 = m) ∧
      ((∀ message, (m.applyDelta d).2 ≠ .error ⟨.malformed, message⟩) →
        ∃ isYes price qty, Addresses d isYes price qty ∧ Frame isYes price m (m.applyDelta d).1) ∧
      ((∃ message, (m.applyDelta d).2 = .error ⟨.outOfSync, message⟩) ↔
        ∃ isYes price qty, Addresses d isYes price qty ∧ m.level isYes price + qty < 0) ∧
      ∀ isYes price qty, Addresses d isYes price qty → m.level isYes price + qty < 0 →
        (m.applyDelta d).1.level isYes price = 0 :=
  ⟨applySnapshot_errors m, applyDelta_errors m⟩

end KalshiClient.Trading
