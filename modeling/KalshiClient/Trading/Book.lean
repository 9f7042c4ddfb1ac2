import KalshiClient.Trading.MarketState

/-!
# What the book adds up to

The levels of the book over whole sequences of messages.  `apply_delta` adds to one level, and everything here follows
from how a single level changes (`applyDelta_level`, `applySnapshot_level`).

* As long as no delta is refused and nothing overflows, a level is what it was plus the deltas for it, and since the
  best prices are determined by the levels (`BookSide.Wf.best_eq_scan`) the order of the deltas does not matter.
* `apply_delta` brings a negative level back to zero, `apply_snapshot` writes what the snapshot lists: the levels stay
  non-negative exactly if no snapshot leaves a negative quantity.
* The addition itself is not guarded.  It stays in range if the quantities that are added do.
-/

namespace KalshiClient.Trading

open Bytes Protocol

/-! ## One level -/

theorem BookSide.add_levels (side : BookSide) (price p : Nat) (qty : Quantity) :
    (side.add price qty).1.levels p =
      if p = price then max 0 (I64.wrap (side.levels price + qty)) else side.levels p := by
  have hclamp (sum : Int) : (if sum < 0 then 0 else sum) = max 0 sum := by omega
  simp only [add, hclamp, Function.update_apply]

namespace MarketState

/-- The side a delta names. -/
def side (m : MarketState) (isYes : Bool) : BookSide := if isYes then m.yes else m.no

/-- The quantity at a price. -/
def level (m : MarketState) (isYes : Bool) (p : Nat) : Quantity := (m.side isYes).levels p

variable {m : MarketState} {d : OrderBookDelta} {s : OrderBookSnapshot} {isYes : Bool} {price : BookPrice}
  {qty : Quantity}

theorem applyDelta_error {e : BookError} (h : parseDeltaArgs d = .error e) : m.applyDelta d = (m, .error e) := by
  rw [applyDelta, h]

/-- A delta changes one level: to the sum, or to zero if that is negative. -/
theorem applyDelta_level (h : parseDeltaArgs d = .ok (isYes, price, qty)) (b : Bool) (p : Nat) :
    (m.applyDelta d).1.level b p =
      if b = isYes ∧ p = price.val then max 0 (I64.wrap (m.level isYes price.val + qty)) else m.level b p := by
  rw [applyDelta, h]
  cases isYes with
  | true =>
      cases b with
      | true =>
          simp only [true_and]
          exact BookSide.add_levels m.yes price.val p qty
      | false => rfl
  | false =>
      cases b with
      | true => rfl
      | false =>
          simp only [true_and]
          exact BookSide.add_levels m.no price.val p qty

theorem applyDelta_result (h : parseDeltaArgs d = .ok (isYes, price, qty)) :
    (m.applyDelta d).2 = deltaResult d price.val (decide (I64.wrap (m.level isYes price.val + qty) < 0)) := by
  rw [applyDelta, h]
  cases isYes <;> rfl

/-- It is accepted if the sum is not negative. -/
theorem applyDelta_eq_ok (h : parseDeltaArgs d = .ok (isYes, price, qty)) :
    (m.applyDelta d).2 = .ok () ↔ 0 ≤ I64.wrap (m.level isYes price.val + qty) := by
  rw [applyDelta_result h, deltaResult]
  by_cases hneg : I64.wrap (m.level isYes price.val + qty) < 0
  · rw [decide_eq_true hneg]
    exact iff_of_false (fun h ↦ by cases h) (not_le.mpr hneg)
  · rw [decide_eq_false hneg]
    exact iff_of_true rfl (not_lt.mp hneg)

theorem applyDelta_ticker (m : MarketState) (d : OrderBookDelta) : (m.applyDelta d).1.marketTicker = m.marketTicker := by
  rcases m.applyDelta_cases d with ⟨e, -, h⟩ | ⟨price, qty, -, h⟩ | ⟨price, qty, -, h⟩
  · rw [h]
  · rw [h]
  · rw [h]

end MarketState

/-! ## Sequences of deltas -/

namespace MarketState

/-- The book after some deltas. -/
def applyDeltas (m : MarketState) (ds : List OrderBookDelta) : MarketState :=
  ds.foldl (fun m d ↦ (m.applyDelta d).1) m

/-- A delta is added without overflow. -/
def AddsExactly (m : MarketState) (d : OrderBookDelta) : Prop :=
  ∀ isYes price qty, parseDeltaArgs d = .ok (isYes, price, qty) → I64.InRange (m.level isYes price.val + qty)

/-- All of the deltas are accepted, and added without overflow. -/
def Accepts (m : MarketState) : List OrderBookDelta → Prop
  | [] => True
  | d :: ds => (m.applyDelta d).2 = .ok () ∧ m.AddsExactly d ∧ Accepts (m.applyDelta d).1 ds

/-- What a delta adds to a level. -/
def addsTo (isYes : Bool) (p : Nat) (d : OrderBookDelta) : Quantity :=
  match parseDeltaArgs d with
  | .error _ => 0
  | .ok (b, price, qty) => if isYes = b ∧ p = price.val then qty else 0

variable {m : MarketState}

/-- A delta that is accepted adds its quantity. -/
theorem level_applyDelta {d : OrderBookDelta} (hok : (m.applyDelta d).2 = .ok ()) (hexact : m.AddsExactly d) (b : Bool)
    (p : Nat) : (m.applyDelta d).1.level b p = m.level b p + addsTo b p d := by
  cases hargs : parseDeltaArgs d with
  | error e =>
      rw [applyDelta_error hargs] at hok
      cases hok
  | ok args =>
      obtain ⟨isYes, price, qty⟩ := args
      rw [applyDelta_eq_ok hargs, I64.wrap_eq_self (hexact _ _ _ hargs)] at hok
      rw [applyDelta_level hargs, I64.wrap_eq_self (hexact _ _ _ hargs), addsTo, hargs]
      dsimp only
      split_ifs with haddressed
      · obtain ⟨rfl, rfl⟩ := haddressed
        exact max_eq_right hok
      · exact (Int.add_zero _).symm

/-- Deltas that are accepted add up. -/
theorem level_applyDeltas {ds : List OrderBookDelta} (h : m.Accepts ds) (b : Bool) (p : Nat) :
    (m.applyDeltas ds).level b p = m.level b p + (ds.map (addsTo b p)).sum := by
  induction ds generalizing m with
  | nil => exact (Int.add_zero _).symm
  | cons d ds ih =>
      obtain ⟨hok, hexact, hrest⟩ := h
      rw [applyDeltas, List.foldl_cons, List.map_cons, List.sum_cons, ← Int.add_assoc, ← level_applyDelta hok hexact]
      exact ih hrest

theorem applyDeltas_ticker (m : MarketState) (ds : List OrderBookDelta) :
    (m.applyDeltas ds).marketTicker = m.marketTicker := by
  induction ds generalizing m with
  | nil => rfl
  | cons d ds ih =>
      rw [applyDeltas, List.foldl_cons, ← m.applyDelta_ticker d]
      exact ih (m.applyDelta d).1

theorem Wf.applyDeltas (h : m.Wf) (ds : List OrderBookDelta) : (m.applyDeltas ds).Wf := by
  induction ds generalizing m with
  | nil => exact h
  | cons d ds ih => exact ih (h.call (.delta d))

/-- A book is determined by its ticker and its levels. -/
theorem Wf.ext {m₁ m₂ : MarketState} (h₁ : m₁.Wf) (h₂ : m₂.Wf) (hticker : m₁.marketTicker = m₂.marketTicker)
    (hlevel : ∀ b p, m₁.level b p = m₂.level b p) : m₁ = m₂ := by
  have hside {s₁ s₂ : BookSide} (hs₁ : s₁.Wf) (hs₂ : s₂.Wf) (h : ∀ p, s₁.levels p = s₂.levels p) : s₁ = s₂ := by
    obtain ⟨levels₁, best₁⟩ := s₁
    obtain ⟨levels₂, best₂⟩ := s₂
    obtain rfl : levels₁ = levels₂ := funext h
    have hbest : best₁ = best₂ := hs₁.best_eq_scan.trans hs₂.best_eq_scan.symm
    rw [hbest]
  obtain ⟨ticker₁, yes₁, no₁⟩ := m₁
  obtain ⟨ticker₂, yes₂, no₂⟩ := m₂
  obtain rfl : ticker₁ = ticker₂ := hticker
  obtain rfl : yes₁ = yes₂ := hside h₁.yes h₂.yes (hlevel true)
  obtain rfl : no₁ = no₂ := hside h₁.no h₂.no (hlevel false)
  rfl

end MarketState

/-- From any reachable book, deltas that are all accepted add up at every level, and in another order, if they are all
accepted in that order too, they lead to the same book: the same ticker, levels and best prices. -/
theorem applyDeltas_run (calls : List BookCall) (ds : List OrderBookDelta)
    (h : (MarketState.run calls).Accepts ds) :
    (∀ b p, ((MarketState.run calls).applyDeltas ds).level b p =
      (MarketState.run calls).level b p + (ds.map (MarketState.addsTo b p)).sum) ∧
    ∀ ds', ds'.Perm ds → (MarketState.run calls).Accepts ds' →
      (MarketState.run calls).applyDeltas ds' = (MarketState.run calls).applyDeltas ds := by
  have hwf := MarketState.wf_run calls
  refine ⟨fun b p ↦ MarketState.level_applyDeltas h b p, fun ds' hperm h' ↦ ?_⟩
  refine (hwf.applyDeltas ds').ext (hwf.applyDeltas ds) ?_ fun b p ↦ ?_
  · rw [MarketState.applyDeltas_ticker, MarketState.applyDeltas_ticker]
  · rw [MarketState.level_applyDeltas h', MarketState.level_applyDeltas h, (hperm.map _).sum_eq]

/-! ## Two deltas on the empty book -/

/-- A delta of the given quantity. -/
def bookDelta (side price qty : String) : OrderBookDelta := ⟨[], [], ascii price, ascii qty, ascii side, [], 0⟩

theorem MarketState.addsExactly_of_args {m : MarketState} {d : OrderBookDelta} {isYes : Bool} {price : BookPrice}
    {qty : Quantity} (hargs : parseDeltaArgs d = .ok (isYes, price, qty))
    (h : I64.InRange (m.level isYes price.val + qty)) : m.AddsExactly d := by
  intro isYes' price' qty' hargs'
  rw [hargs] at hargs'
  cases hargs'
  exact h

theorem parseDeltaArgs_yes : MarketState.parseDeltaArgs (bookDelta "yes" "0.5" "1") = .ok (true, ⟨500, by decide⟩, 100) := by
  decide

theorem parseDeltaArgs_no : MarketState.parseDeltaArgs (bookDelta "no" "0.4" "2") = .ok (false, ⟨400, by decide⟩, 200) := by
  decide

theorem accepts_yes_no : (MarketState.run []).Accepts [bookDelta "yes" "0.5" "1", bookDelta "no" "0.4" "2"] :=
  ⟨(MarketState.applyDelta_eq_ok parseDeltaArgs_yes).mpr (by decide),
    MarketState.addsExactly_of_args parseDeltaArgs_yes (by decide),
    (MarketState.applyDelta_eq_ok parseDeltaArgs_no).mpr (by decide),
    MarketState.addsExactly_of_args parseDeltaArgs_no (by decide), trivial⟩

theorem accepts_no_yes : (MarketState.run []).Accepts [bookDelta "no" "0.4" "2", bookDelta "yes" "0.5" "1"] :=
  ⟨(MarketState.applyDelta_eq_ok parseDeltaArgs_no).mpr (by decide),
    MarketState.addsExactly_of_args parseDeltaArgs_no (by decide),
    (MarketState.applyDelta_eq_ok parseDeltaArgs_yes).mpr (by decide),
    MarketState.addsExactly_of_args parseDeltaArgs_yes (by decide), trivial⟩

/-- A YES bid and a NO bid, in either order. -/
theorem applyDeltas_run_bids :
    (∀ b p, ((MarketState.run []).applyDeltas [bookDelta "yes" "0.5" "1", bookDelta "no" "0.4" "2"]).level b p =
      (MarketState.run []).level b p +
        ([bookDelta "yes" "0.5" "1", bookDelta "no" "0.4" "2"].map (MarketState.addsTo b p)).sum) ∧
      (MarketState.run []).applyDeltas [bookDelta "no" "0.4" "2", bookDelta "yes" "0.5" "1"] =
        (MarketState.run []).applyDeltas [bookDelta "yes" "0.5" "1", bookDelta "no" "0.4" "2"] := by
  obtain ⟨hlevels, hperm⟩ := applyDeltas_run [] _ accepts_yes_no
  exact ⟨hlevels, hperm _ (.swap _ _ _) accepts_no_yes⟩

/-! ## Negative quantities -/

/-- The side of a snapshot. -/
def listed (s : OrderBookSnapshot) (isYes : Bool) : List PriceLevel := if isYes then s.yesDollarsFp else s.noDollarsFp

/-- A snapshot that `apply_snapshot` accepts. -/
def Readable (s : OrderBookSnapshot) : Prop := ∀ isYes, ∃ levels, parseLevels (listed s isYes) (fun _ ↦ 0) = .ok levels

/-- A price is listed. -/
def Lists (entries : List PriceLevel) (p : Nat) : Prop :=
  ∃ entry ∈ entries, ∃ price : BookPrice, parsePrice entry.1 = .ok price ∧ price.val = p

/-- No price is listed with a negative quantity, unless it is listed again later. -/
def LeavesNoNegative : List PriceLevel → Prop
  | [] => True
  | (priceStr, qtyStr) :: rest =>
    (∀ price qty, parsePrice priceStr = .ok price → parseQuantity qtyStr = .ok qty → 0 ≤ qty ∨ Lists rest price.val) ∧
      LeavesNoNegative rest

theorem lists_cons {priceStr qtyStr : Bytes} {price : BookPrice} (h : parsePrice priceStr = .ok price)
    (entries : List PriceLevel) (p : Nat) : Lists ((priceStr, qtyStr) :: entries) p ↔ p = price.val ∨ Lists entries p := by
  constructor
  · rintro ⟨entry, hmem, price', hprice', rfl⟩
    rcases List.mem_cons.mp hmem with rfl | hmem
    · rw [h] at hprice'
      cases hprice'
      exact .inl rfl
    · exact .inr ⟨entry, hmem, price', hprice', rfl⟩
  · rintro (rfl | ⟨entry, hmem, hprice⟩)
    · exact ⟨_, List.mem_cons_self, price, h, rfl⟩
    · exact ⟨entry, List.mem_cons_of_mem _ hmem, hprice⟩

/-- The levels read from a list are non-negative if the list leaves no negative quantity and they were non-negative
where nothing is listed. -/
theorem parseLevels_nonneg {entries : List PriceLevel} {levels levels' : Levels}
    (h : parseLevels entries levels = .ok levels') :
    (∀ p, 0 ≤ levels' p) ↔ LeavesNoNegative entries ∧ ∀ p, 0 ≤ levels p ∨ Lists entries p := by
  induction entries generalizing levels with
  | nil =>
      cases h
      constructor
      · exact fun hnonneg ↦ ⟨trivial, fun p ↦ .inl (hnonneg p)⟩
      · rintro ⟨-, hnonneg⟩ p
        exact (hnonneg p).resolve_right fun ⟨_, hmem, _⟩ ↦ nomatch hmem
  | cons entry entries ih =>
      obtain ⟨priceStr, qtyStr⟩ := entry
      obtain ⟨price, hprice, h⟩ := Except.bind_eq_ok_iff.mp h
      obtain ⟨qty, hqty, h⟩ := Except.bind_eq_ok_iff.mp h
      rw [ih h]
      constructor
      · rintro ⟨hrest, hall⟩
        refine ⟨⟨fun price' qty' hprice' hqty' ↦ ?_, hrest⟩, fun p ↦ ?_⟩
        · rw [hprice] at hprice'
          rw [hqty] at hqty'
          cases hprice'
          cases hqty'
          have hself := hall price.val
          rwa [Function.update_self] at hself
        · rw [lists_cons hprice]
          by_cases hp : p = price.val
          · exact .inr (.inl hp)
          · have hother := hall p
            rw [Function.update_of_ne hp] at hother
            exact hother.imp id .inr
      · rintro ⟨⟨hself, hrest⟩, hall⟩
        refine ⟨hrest, fun p ↦ ?_⟩
        by_cases hp : p = price.val
        · rw [hp, Function.update_self]
          exact hself price qty hprice hqty
        · have hother := hall p
          rw [lists_cons hprice] at hother
          rw [Function.update_of_ne hp]
          exact hother.imp id fun h ↦ h.resolve_left hp

namespace MarketState

/-- A snapshot replaces every level, or none. -/
theorem applySnapshot_level (m : MarketState) (s : OrderBookSnapshot) :
    (¬ Readable s ∧ ∃ e, m.applySnapshot s = (m, .error e)) ∨
      (m.applySnapshot s).2 = .ok () ∧
        ∀ b, parseLevels (listed s b) (fun _ ↦ 0) = .ok ((m.applySnapshot s).1.side b).levels := by
  rcases m.applySnapshot_cases s with ⟨e, hcall⟩ | ⟨yes, no, hyes, hno, hcall⟩
  · refine .inl ⟨fun hreadable ↦ ?_, e, hcall⟩
    obtain ⟨yes, hyes⟩ := hreadable true
    obtain ⟨no, hno⟩ := hreadable false
    have hyes' : parseLevels s.yesDollarsFp (fun _ ↦ 0) = .ok yes := hyes
    have hno' : parseLevels s.noDollarsFp (fun _ ↦ 0) = .ok no := hno
    rw [applySnapshot, hyes', hno'] at hcall
    cases hcall
  · rw [hcall]
    refine .inr ⟨rfl, fun b ↦ ?_⟩
    cases b with
    | true => exact hyes
    | false => exact hno

/-- All levels are non-negative. -/
def NonNeg (m : MarketState) : Prop := ∀ b p, 0 ≤ m.level b p

/-- What a call does to non-negative levels. -/
theorem NonNeg.call {m : MarketState} (h : m.NonNeg) {c : BookCall}
    (hsnapshot : ∀ s, c = .snapshot s → Readable s → ∀ b, LeavesNoNegative (listed s b)) : (m.call c).NonNeg := by
  cases c with
  | snapshot s =>
      rcases m.applySnapshot_level s with ⟨-, e, hcall⟩ | ⟨-, hlevels⟩
      · rw [MarketState.call, hcall]
        exact h
      · intro b
        refine (parseLevels_nonneg (hlevels b)).mpr ⟨?_, fun p ↦ .inl le_rfl⟩
        exact hsnapshot s rfl (fun b ↦ ⟨_, hlevels b⟩) b
  | delta d =>
      intro b p
      rw [MarketState.call]
      cases hargs : parseDeltaArgs d with
      | error e =>
          rw [applyDelta_error hargs]
          exact h b p
      | ok args =>
          obtain ⟨isYes, price, qty⟩ := args
          rw [applyDelta_level hargs]
          split_ifs
          · exact le_max_left _ _
          · exact h b p

theorem run_append (calls : List BookCall) (c : BookCall) : run (calls ++ [c]) = (run calls).call c := by
  rw [run, List.foldl_append]
  rfl

theorem nonNeg_run {calls : List BookCall}
    (h : ∀ s, .snapshot s ∈ calls → Readable s → ∀ b, LeavesNoNegative (listed s b)) : (run calls).NonNeg := by
  induction calls using List.reverseRecOn with
  | nil => exact fun b p ↦ by cases b <;> exact le_rfl
  | append_singleton calls c ih =>
      rw [run_append]
      refine (ih fun s hs ↦ h s (List.mem_append_left _ hs)).call fun s hc ↦ h s ?_
      rw [hc]
      exact List.mem_append_right _ List.mem_cons_self

end MarketState

/-- All levels are non-negative in every state of a run exactly if no snapshot that is accepted leaves a negative
quantity. -/
theorem nonNeg_run_iff (calls : List BookCall) :
    (∀ part, part <+: calls → ∀ b p, 0 ≤ (MarketState.run part).level b p) ↔
      ∀ s, .snapshot s ∈ calls → Readable s → ∀ b, LeavesNoNegative (listed s b) := by
  constructor
  · intro h s hs hreadable b
    obtain ⟨before, after, rfl⟩ := List.append_of_mem hs
    have hpart : before ++ [.snapshot s] <+: before ++ .snapshot s :: after :=
      ⟨after, by rw [List.append_assoc, List.singleton_append]⟩
    have hnonneg := h _ hpart b
    rw [MarketState.run_append] at hnonneg
    rcases (MarketState.run before).applySnapshot_level s with ⟨hnot, -⟩ | ⟨-, hlevels⟩
    · exact absurd hreadable hnot
    · exact ((parseLevels_nonneg (hlevels b)).mp hnonneg).1
  · intro h part hpart
    exact MarketState.nonNeg_run fun s hs ↦ h s (hpart.subset hs)

/-- A snapshot with one YES bid at $0.5. -/
def yesSnapshot (qty : String) : OrderBookSnapshot := ⟨[], [], [(ascii "0.5", ascii qty)], []⟩

/-- A negative quantity is accepted, and the level is negative. -/
theorem level_negative :
    (({} : MarketState).applySnapshot (yesSnapshot "-1")).2 = .ok () ∧
      (MarketState.run [.snapshot (yesSnapshot "-1")]).level true 500 = -100 := by
  decide

/-! ## Overflow -/

namespace MarketState

/-- The quantity a price has had at most, from what the messages say: what the latest accepted snapshot lists, and
everything added since. -/
def countIn (b : Bool) (p : Nat) (total : Quantity) : BookCall → Quantity
  | .snapshot s =>
    match ({} : MarketState).applySnapshot s with
    | (m, .ok _) => m.level b p
    | (_, .error _) => total
  | .delta d => total + max 0 (addsTo b p d)

/-- The same over a sequence of calls. -/
def volume (calls : List BookCall) (b : Bool) (p : Nat) : Quantity := calls.foldl (countIn b p) 0

theorem volume_append (calls : List BookCall) (c : BookCall) (b : Bool) (p : Nat) :
    volume (calls ++ [c]) b p = countIn b p (volume calls b p) c := by
  rw [volume, List.foldl_append]
  rfl

theorem parseDeltaArgs_range {d : OrderBookDelta} {isYes : Bool} {price : BookPrice} {qty : Quantity}
    (h : parseDeltaArgs d = .ok (isYes, price, qty)) : -(I64.max : Int) ≤ qty := by
  rw [parseDeltaArgs] at h
  split_ifs at h
  · cases h
  · obtain ⟨price', -, h⟩ := Except.bind_eq_ok_iff.mp h
    obtain ⟨qty', hqty, h⟩ := Except.bind_eq_ok_iff.mp h
    cases h
    rw [parseQuantity] at hqty
    split at hqty
    · next hfixed =>
        cases hqty
        exact (parseFixed_range hfixed).1
    · cases hqty

theorem inRange_add {level qty total : Int} (hnonneg : 0 ≤ level) (hle : level ≤ total) (hqty : -(I64.max : Int) ≤ qty)
    (htotal : total + max 0 qty ≤ I64.max) : I64.InRange (level + qty) := by
  rw [I64.max] at hqty htotal
  constructor
  · omega
  · omega

theorem clamped_add_le {level qty total : Int} (hnonneg : 0 ≤ level) (hle : level ≤ total) :
    max 0 (level + qty) ≤ total + max 0 qty := by
  omega

section Volume

variable {m : MarketState} {total : Bool → Nat → Quantity} (hnonneg : m.NonNeg) (hle : ∀ b p, m.level b p ≤ total b p)
include hnonneg hle

/-- While the volume is in range, a delta does not overflow a level that is at most the volume. -/
theorem addsExactly_of_volume {d : OrderBookDelta} (hvolume : ∀ b p, countIn b p (total b p) (.delta d) ≤ I64.max) :
    m.AddsExactly d := by
  intro isYes price qty hargs
  have hadds : addsTo isYes price.val d = qty := by
    rw [addsTo, hargs]
    exact if_pos ⟨rfl, rfl⟩
  have htotal := hvolume isYes price.val
  rw [countIn, hadds] at htotal
  exact inRange_add (hnonneg _ _) (hle _ _) (parseDeltaArgs_range hargs) htotal

/-- A call keeps the levels below the volume. -/
theorem level_call_le {c : BookCall} (hvolume : ∀ b p, countIn b p (total b p) c ≤ I64.max) (b : Bool) (p : Nat) :
    (m.call c).level b p ≤ countIn b p (total b p) c := by
  cases c with
  | snapshot s =>
      rw [call, countIn, applySnapshot, applySnapshot]
      cases parseLevels s.yesDollarsFp fun _ ↦ 0 with
      | error e => exact hle b p
      | ok yes =>
          cases parseLevels s.noDollarsFp fun _ ↦ 0 with
          | error e => exact hle b p
          | ok no => exact le_rfl
  | delta d =>
      have hexact := addsExactly_of_volume hnonneg hle hvolume
      rw [call, countIn, addsTo]
      cases hargs : parseDeltaArgs d with
      | error e =>
          rw [applyDelta_error hargs]
          exact (hle b p).trans (Int.le_add_of_nonneg_right (le_max_left 0 0))
      | ok args =>
          obtain ⟨isYes, price, qty⟩ := args
          rw [applyDelta_level hargs, I64.wrap_eq_self (hexact _ _ _ hargs)]
          dsimp only
          split_ifs with haddressed
          · obtain ⟨rfl, rfl⟩ := haddressed
            exact clamped_add_le (hnonneg b _) (hle b _)
          · exact (hle b p).trans (Int.le_add_of_nonneg_right (le_max_left 0 0))

end Volume

/-- The levels of a run are at most the volume. -/
theorem level_run_le {calls : List BookCall}
    (hsnapshot : ∀ s, .snapshot s ∈ calls → Readable s → ∀ b, LeavesNoNegative (listed s b))
    (hvolume : ∀ part, part <+: calls → ∀ b p, volume part b p ≤ I64.max) (b : Bool) (p : Nat) :
    (run calls).level b p ≤ volume calls b p := by
  induction calls using List.reverseRecOn generalizing b p with
  | nil => cases b <;> exact le_rfl
  | append_singleton calls c ih =>
      have hbefore := fun s hs ↦ hsnapshot s (List.mem_append_left [c] hs)
      rw [run_append, volume_append]
      refine level_call_le (nonNeg_run hbefore) (ih hbefore fun part hpart ↦ ?_) (fun b p ↦ ?_) b p
      · exact hvolume part (hpart.trans (List.prefix_append _ _))
      · rw [← volume_append]
        exact hvolume _ List.prefix_rfl b p

end MarketState

/-- In every run in which no accepted snapshot leaves a negative quantity, and what is listed and added at a price never
exceeds the range, no delta overflows the level it is for. -/
theorem addsExactly_run (calls : List BookCall)
    (hsnapshot : ∀ s, .snapshot s ∈ calls → Readable s → ∀ b, LeavesNoNegative (listed s b))
    (hvolume : ∀ part, part <+: calls → ∀ b p, MarketState.volume part b p ≤ I64.max) :
    ∀ before d, before ++ [.delta d] <+: calls → ∀ isYes price qty,
      MarketState.parseDeltaArgs d = .ok (isYes, price, qty) →
        I64.InRange ((MarketState.run before).level isYes price.val + qty) := by
  intro before d hpart
  have hbefore : before <+: calls := (List.prefix_append _ _).trans hpart
  have hsnapshot' := fun s hs ↦ hsnapshot s (hbefore.subset hs)
  have hvolume' := fun part (hp : part <+: before) ↦ hvolume part (hp.trans hbefore)
  refine MarketState.addsExactly_of_volume (MarketState.nonNeg_run hsnapshot')
    (MarketState.level_run_le hsnapshot' hvolume') fun b p ↦ ?_
  rw [← MarketState.volume_append]
  exact hvolume _ hpart b p

/-! ## A bid that grows -/

theorem leavesNoNegative_yesSnapshot (b : Bool) : LeavesNoNegative (listed (yesSnapshot "1") b) := by
  cases b with
  | true =>
      refine ⟨fun price qty _ hqty ↦ .inl ?_, trivial⟩
      have hone : parseQuantity (ascii "1") = .ok 100 := by decide
      rw [hone] at hqty
      cases hqty
      decide
  | false => trivial

theorem volume_yesSnapshot_le (b : Bool) (p : Nat) : MarketState.volume [.snapshot (yesSnapshot "1")] b p ≤ 100 := by
  cases b with
  | true =>
      have hlevel : MarketState.volume [.snapshot (yesSnapshot "1")] true p =
        (Function.update (fun _ ↦ 0) 500 100 : Levels) p := rfl
      rw [hlevel, Function.update_apply]
      split_ifs
      · decide
      · decide
  | false => exact (by decide : (0 : Int) ≤ 100)

theorem addsTo_yes_le (b : Bool) (p : Nat) : MarketState.addsTo b p (bookDelta "yes" "0.5" "1") ≤ 100 := by
  rw [MarketState.addsTo, parseDeltaArgs_yes]
  dsimp only
  split_ifs
  · decide
  · decide

theorem volume_yesDelta_le (b : Bool) (p : Nat) :
    MarketState.volume [.snapshot (yesSnapshot "1"), .delta (bookDelta "yes" "0.5" "1")] b p ≤ 200 :=
  Int.add_le_add (volume_yesSnapshot_le b p) (max_le (by decide) (addsTo_yes_le b p))

/-- One contract, and another one. -/
theorem addsExactly_run_growing :
    I64.InRange ((MarketState.run [.snapshot (yesSnapshot "1")]).level true 500 + 100) := by
  refine addsExactly_run [.snapshot (yesSnapshot "1"), .delta (bookDelta "yes" "0.5" "1")] ?_ ?_
    [.snapshot (yesSnapshot "1")] (bookDelta "yes" "0.5" "1") List.prefix_rfl _ _ _ parseDeltaArgs_yes
  · intro s hs _ b
    rcases List.mem_cons.mp hs with hs | hs
    · cases hs
      exact leavesNoNegative_yesSnapshot b
    · cases List.mem_singleton.mp hs
  · intro part hpart b p
    rcases List.prefix_cons_iff.mp hpart with rfl | ⟨rest, rfl, hrest⟩
    · exact (by decide : (0 : Int) ≤ I64.max)
    · rcases List.prefix_cons_iff.mp hrest with rfl | ⟨rest, rfl, hnil⟩
      · exact (volume_yesSnapshot_le b p).trans (by decide)
      · rw [List.prefix_nil.mp hnil]
        exact (volume_yesDelta_le b p).trans (by decide)

/-- A snapshot fills a level to the largest quantity there is, and the smallest delta overflows it. -/
theorem level_overflows :
    MarketState.parseDeltaArgs (bookDelta "yes" "0.5" "0.01") = .ok (true, ⟨500, by decide⟩, 1) ∧
      (MarketState.run [.snapshot (yesSnapshot "92233720368547758.07")]).level true 500 = I64.max ∧
      ¬ I64.InRange ((MarketState.run [.snapshot (yesSnapshot "92233720368547758.07")]).level true 500 + 1) := by
  decide

end KalshiClient.Trading
