import KalshiClient.Json.Raw
import KalshiClient.Protocol.Messages

/-!
# The body of an order

`serialize_order_request` puts the strings of an order between quotes as they are: what the exchange reads is the order
exactly if there was nothing to escape in them.  Tickers come from the command line, where nothing checks them.
-/

namespace KalshiClient.Protocol

open Bytes Json

/-- The members of the body of an order, as they are written. -/
def orderMembers (order : OrderRequest) : List RawMember :=
  [(ascii "side", .quote order.side.toBytes), (ascii "count", .quote order.count),
    (ascii "price", .quote order.price), (ascii "time_in_force", .quote order.timeInForce.toBytes),
    (ascii "self_trade_prevention_type", .quote order.selfTradePrevention.toBytes),
    (ascii "post_only", .bool order.postOnly), (ascii "client_order_id", .quote order.clientOrderId)]

theorem serializeOrderRequest_eq (order : OrderRequest) :
    serializeOrderRequest order = rawObject (ascii "ticker", .quote order.ticker) (orderMembers order) := by
  delta serializeOrderRequest
  simp only [rawObject, rawMembers, orderMembers, RawMember.text, RawValue.text, quoted]
  simp only [List.append_assoc, List.cons_append, List.nil_append]
  rfl

/-- The object an order should be: eight members, in the order of their keys. -/
def orderJson (order : OrderRequest) : JsonValue :=
  .object [(ascii "client_order_id", .string order.clientOrderId), (ascii "count", .string order.count),
    (ascii "post_only", .bool order.postOnly), (ascii "price", .string order.price),
    (ascii "self_trade_prevention_type", .string order.selfTradePrevention.toBytes),
    (ascii "side", .string order.side.toBytes), (ascii "ticker", .string order.ticker),
    (ascii "time_in_force", .string order.timeInForce.toBytes)]

theorem emplaceAll_orderMembers (order : OrderRequest) :
    JsonValue.object (FlatMap.emplaceAll [] (rawDenote ((ascii "ticker", .quote order.ticker) :: orderMembers order))) =
      orderJson order := by
  rfl

theorem plain_orderMembers_iff (order : OrderRequest) :
    (∀ x ∈ (ascii "ticker", RawValue.quote order.ticker) :: orderMembers order, x.2.Plain) ↔
      ∀ c ∈ order.ticker ++ order.count ++ order.price ++ order.clientOrderId, isPlain c = true := by
  have hside : RawValue.Plain (.quote order.side.toBytes) := by
    cases order.side <;> exact forall_mem_of_all (by decide)
  have htime : RawValue.Plain (.quote order.timeInForce.toBytes) := by
    cases order.timeInForce <;> exact forall_mem_of_all (by decide)
  have hprevention : RawValue.Plain (.quote order.selfTradePrevention.toBytes) := by
    cases order.selfTradePrevention <;> exact forall_mem_of_all (by decide)
  have hbool : RawValue.Plain (.bool order.postOnly) := trivial
  simp only [orderMembers, List.forall_mem_cons, List.forall_mem_append, hside, htime, hprevention, hbool, true_and,
    List.not_mem_nil, IsEmpty.forall_iff, implies_true, and_true]
  rw [and_assoc, and_assoc]
  rfl

/-- The body of an order is read back as the order, with exactly its eight members, if and only if the strings of the
order have no quote, no backslash and no control byte in them. -/
theorem serializeOrderRequest_iff (order : OrderRequest) :
    parseJson (serializeOrderRequest order) = .ok (orderJson order) ↔
      ∀ c ∈ order.ticker ++ order.count ++ order.price ++ order.clientOrderId,
        0x20 ≤ c ∧ c ≠ '"'.toUInt8 ∧ c ≠ '\\'.toUInt8 := by
  have hkeys : ∀ x ∈ (ascii "ticker", RawValue.quote order.ticker) :: orderMembers order,
      ∀ c ∈ x.1, isPlain c = true := by
    simp only [orderMembers, List.forall_mem_cons]
    refine ⟨?_, ?_, ?_, ?_, ?_, ?_, ?_, ?_, List.forall_mem_nil _⟩ <;> exact forall_mem_of_all (by decide)
  have hnodup : (List.map Prod.fst ((ascii "ticker", RawValue.quote order.ticker) :: orderMembers order)).Nodup := by
    simp only [orderMembers, List.map_cons, List.map_nil]
    decide
  have h := parseJson_rawObject_iff hkeys hnodup
  rw [← serializeOrderRequest_eq, emplaceAll_orderMembers, plain_orderMembers_iff] at h
  simpa only [isPlain, Bool.and_eq_true, decide_eq_true_eq, and_assoc] using h

/-- An order with a ticker that closes its own quotes. -/
def injected : OrderRequest :=
  ⟨ascii "T\",\"count\":\"9", .bid, ascii "1.00", ascii "0.500", .immediateOrCancel, .takerAtCross, ascii "id", false⟩

/-- What the ticker of `injected` makes of its body. -/
def injectedMembers : List RawMember :=
  (ascii "count", .quote (ascii "9")) :: orderMembers injected

/-- It is read as an order in another market and for nine contracts instead of one. -/
theorem serializeOrderRequest_injected :
    parseJson (serializeOrderRequest injected) =
        .ok (orderJson { injected with ticker := ascii "T", count := ascii "9" }) ∧
      parseJson (serializeOrderRequest injected) ≠ .ok (orderJson injected) := by
  have hsplit : RawMember.text (ascii "ticker", .quote injected.ticker) =
      RawMember.text (ascii "ticker", .quote (ascii "T")) ++
        ','.toUInt8 :: RawMember.text (ascii "count", .quote (ascii "9")) := by
    decide
  have htext : serializeOrderRequest injected = rawObject (ascii "ticker", .quote (ascii "T")) injectedMembers := by
    rw [serializeOrderRequest_eq, rawObject, rawObject, rawMembers_split hsplit, injectedMembers]
  have hparse : parseJson (serializeOrderRequest injected) =
      .ok (orderJson { injected with ticker := ascii "T", count := ascii "9" }) := by
    rw [htext]
    refine parseJson_rawObject ?_ ?_
    · simp only [injectedMembers, orderMembers, List.forall_mem_cons]
      refine ⟨?_, ?_, ?_, ?_, ?_, ?_, ?_, ?_, ?_, List.forall_mem_nil _⟩ <;> exact forall_mem_of_all (by decide)
    · simp only [injectedMembers, orderMembers, List.forall_mem_cons]
      refine ⟨?_, ?_, ?_, ?_, ?_, ?_, ?_, trivial, ?_, List.forall_mem_nil _⟩ <;> exact forall_mem_of_all (by decide)
  refine ⟨hparse, ?_⟩
  rw [hparse]
  intro heq
  have hcount := congrArg (fun v ↦ (asObject v).bind fun o ↦ getString o (ascii "count")) (Except.ok.inj heq)
  exact absurd hcount (by decide)

end KalshiClient.Protocol
