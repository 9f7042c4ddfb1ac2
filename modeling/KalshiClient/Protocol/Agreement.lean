import KalshiClient.Protocol.Walk

/-!
# The decoder agrees with the tree

What `build` makes of the fields of a root object is what `parse_kalshi_message` makes of the object.
With the decoder walking in step with the parser this gives the agreement of `decode_kalshi_message`
with the tree-based path on every payload.
-/

namespace KalshiClient.Protocol

open Bytes Json

/-! ## Levels -/

namespace Decoder

theorem Pair.foldl_record_count (entries : JsonArray) (p : Pair) :
    (entries.foldl Pair.record p).count = p.count + entries.length := by
  induction entries generalizing p with
  | nil => rfl
  | cons v entries ih =>
      have hrecord : (p.record v).count = p.count + 1 := by
        rw [Pair.record]
        cases asString v <;> rfl
      rw [List.foldl_cons, ih, hrecord, List.length_cons]
      omega

/-- A level that is no pair makes the field invalid. -/
theorem LevelsField.close_of_length_ne (field : LevelsField) {entries : JsonArray}
    (h : entries.length ≠ 2) :
    LevelsField.close field (.of entries) = { field with valid := false } := by
  have hcount : (Pair.of entries).count ≠ 2 := by
    rw [Pair.of, Pair.foldl_record_count, Nat.zero_add]
    exact h
  exact if_neg fun hpair ↦ hcount hpair.1

end Decoder

namespace LevelsField

/-- A level is recorded if it is a pair of strings, and makes the field invalid if it is not. -/
theorem record_eq (field : LevelsField) (v : JsonValue) :
    field.record v =
      match parsePriceLevel v with
      | .ok level => { field with levels := field.levels ++ [level] }
      | .error _ => { field with valid := false } := by
  rw [record, parsePriceLevel]
  cases asArray v with
  | none => rfl
  | some entries =>
      rcases entries with _ | ⟨a, _ | ⟨b, _ | ⟨c, entries⟩⟩⟩
      · exact Decoder.LevelsField.close_of_length_ne field (by simp)
      · exact Decoder.LevelsField.close_of_length_ne field (by simp)
      · simp only [Decoder.LevelsField.close, Decoder.Pair.of, List.foldl_cons, List.foldl_nil,
          Decoder.Pair.record, Decoder.Pair.push]
        cases asString a <;> cases asString b <;> rfl
      · exact Decoder.LevelsField.close_of_length_ne field (by simp)

theorem foldl_record_valid (array : JsonArray) {field : LevelsField} (h : field.valid = false) :
    (array.foldl record field).valid = false := by
  induction array generalizing field with
  | nil => exact h
  | cons v array ih =>
      refine ih ?_
      rw [record_eq]
      cases parsePriceLevel v with
      | ok level => exact h
      | error e => rfl

/-- The levels recorded for an array are those parsed from it, if they can be parsed. -/
theorem foldl_record (array : JsonArray) (field : LevelsField) :
    match parsePriceLevels array with
    | .ok levels => array.foldl record field = { field with levels := field.levels ++ levels }
    | .error _ => (array.foldl record field).valid = false := by
  induction array generalizing field with
  | nil =>
      change field = { field with levels := field.levels ++ [] }
      rw [List.append_nil]
  | cons v array ih =>
      have hrecord := record_eq field v
      simp only [parsePriceLevels, List.mapM_cons, List.foldl_cons]
      cases hv : parsePriceLevel v with
      | error e =>
          rw [hv] at hrecord
          refine foldl_record_valid array ?_
          rw [hrecord]
      | ok level =>
          rw [hv] at hrecord
          have ih := ih (field.record v)
          simp only [parsePriceLevels] at ih
          cases hm : array.mapM parsePriceLevel with
          | error e =>
              rw [hm] at ih
              exact ih
          | ok levels =>
              rw [hm] at ih
              simp only [hrecord] at ih
              simp only [hrecord]
              rw [ih, List.append_assoc]
              rfl

/-- One side of a snapshot: what `build` reads off the field is what the tree has. -/
theorem of_spec (msg : JsonObject) (key : Bytes) :
    let field := of (FlatMap.find key msg)
    match parseSide msg key with
    | .ok levels => ¬ (field.present = true ∧ field.valid = false) ∧
        (if field.present then field.levels else []) = levels
    | .error _ => field.present = true ∧ field.valid = false := by
  rw [parseSide, getArray]
  cases hfind : FlatMap.find key msg with
  | none => exact ⟨fun h ↦ Bool.noConfusion h.1, rfl⟩
  | some v =>
      obtain harray | ⟨array, harray⟩ := Option.eq_none_or_eq_some (asArray v)
      · simp only [Option.bind_some, of, harray]
        exact ⟨fun h ↦ Bool.noConfusion h.1, rfl⟩
      · simp only [Option.bind_some, of, harray]
        have hfold := foldl_record array { seen := true, present := true }
        have hpresent := (foldl_record_seen_present array { seen := true, present := true }).2
        cases hparse : parsePriceLevels array with
        | error e =>
            rw [hparse] at hfold
            exact ⟨hpresent, hfold⟩
        | ok levels =>
            rw [hparse] at hfold
            simp only at hfold
            rw [hfold]
            exact ⟨fun h ↦ Bool.noConfusion h.2, rfl⟩

end LevelsField

/-! ## Messages -/

theorem Scalar.of_value (x : Option JsonValue) : (Scalar.of x).value = x.bind asString := by
  cases x <;> rfl

namespace Fields

variable (o : JsonObject)

theorem of_root_value (n : RootField) : ((Fields.of o).root n).value = getString o n.key := by
  have hroot : (Fields.of o).root n = .of (FlatMap.find n.key o) := by
    rw [Fields.of]
    cases getObject o (ascii "msg") <;> rfl
  rw [hroot, Scalar.of_value, getString]

theorem of_msgIsObject : (Fields.of o).msgIsObject = (getObject o (ascii "msg")).isSome := by
  rw [Fields.of]
  cases getObject o (ascii "msg") <;> rfl

variable {o} {msg : JsonObject} (h : getObject o (ascii "msg") = some msg)
include h

theorem of_msg_value (n : MsgField) : ((Fields.of o).msg n).value = getString msg n.key := by
  simp only [Fields.of, h, Fields.withMsg, Scalar.of_value, getString]

theorem of_levels (n : LevelsName) : (Fields.of o).levels n = .of (FlatMap.find n.key msg) := by
  simp only [Fields.of, h, Fields.withMsg]

end Fields

section

variable {o msg : JsonObject} (hmsg : getObject o (ascii "msg") = some msg) {type : Bytes}
  (htype : getString o (ascii "type") = some type) (m : Message)
include hmsg htype

theorem build_of_delta (hdelta : type = ascii "orderbook_delta") :
    build (Fields.of o) = .ok m ↔ parseKalshiMessage (.object o) = .ok m := by
  subst hdelta
  have hsub : ascii "orderbook_delta" ≠ ascii "subscribed" := by decide
  simp only [build, parseKalshiMessage, asObject, Fields.of_root_value, RootField.key, getUint64, htype,
    hsub, if_false, Fields.of_msgIsObject, hmsg, Option.isSome_some, Bool.true_eq_false, if_true,
    Fields.of_msg_value hmsg, MsgField.key, parseDelta]
  -- a missing field is an error on both sides; the fields in the order in which both read them
  obtain _ | ticker := getString msg (ascii "market_ticker")
  · exact Except.error_eq_ok_iff_error_eq_ok
  obtain _ | marketId := getString msg (ascii "market_id")
  · exact Except.error_eq_ok_iff_error_eq_ok
  obtain _ | priceDollars := getString msg (ascii "price_dollars")
  · exact Except.error_eq_ok_iff_error_eq_ok
  obtain _ | deltaFp := getString msg (ascii "delta_fp")
  · exact Except.error_eq_ok_iff_error_eq_ok
  obtain _ | side := getString msg (ascii "side")
  · exact Except.error_eq_ok_iff_error_eq_ok
  obtain _ | ts := getString msg (ascii "ts")
  · exact Except.error_eq_ok_iff_error_eq_ok
  obtain _ | tsMs := (getString msg (ascii "ts_ms")).bind parseU64
  · exact Except.error_eq_ok_iff_error_eq_ok
  · exact Iff.rfl

theorem build_of_snapshot (hsnapshot : type = ascii "orderbook_snapshot") :
    build (Fields.of o) = .ok m ↔ parseKalshiMessage (.object o) = .ok m := by
  subst hsnapshot
  have hsub : ascii "orderbook_snapshot" ≠ ascii "subscribed" := by decide
  have hdelta : ascii "orderbook_snapshot" ≠ ascii "orderbook_delta" := by decide
  simp only [build, parseKalshiMessage, asObject, Fields.of_root_value, RootField.key, getUint64, htype,
    hsub, hdelta, if_false, Fields.of_msgIsObject, hmsg, Option.isSome_some, Bool.true_eq_false,
    if_true, Fields.of_msg_value hmsg, Fields.of_levels hmsg, LevelsName.key, MsgField.key,
    parseSnapshot]
  obtain _ | ticker := getString msg (ascii "market_ticker")
  · exact Except.error_eq_ok_iff_error_eq_ok
  obtain _ | marketId := getString msg (ascii "market_id")
  · exact Except.error_eq_ok_iff_error_eq_ok
  have hyes := LevelsField.of_spec msg (ascii "yes_dollars_fp")
  have hno := LevelsField.of_spec msg (ascii "no_dollars_fp")
  dsimp only
  cases hy : parseSide msg (ascii "yes_dollars_fp") with
  | error e =>
      rw [hy] at hyes
      rw [if_pos (.inl hyes)]
      exact Except.error_eq_ok_iff_error_eq_ok
  | ok yes =>
      cases hn : parseSide msg (ascii "no_dollars_fp") with
      | error e =>
          rw [hn] at hno
          rw [if_pos (.inr hno)]
          exact Except.error_eq_ok_iff_error_eq_ok
      | ok no =>
          rw [hy] at hyes
          rw [hn] at hno
          rw [if_neg (not_or_intro hyes.1 hno.1), hyes.2, hno.2]
          rfl

theorem build_of_fill (hfill : type = ascii "fill") :
    build (Fields.of o) = .ok m ↔ parseKalshiMessage (.object o) = .ok m := by
  subst hfill
  have hsub : ascii "fill" ≠ ascii "subscribed" := by decide
  have hdelta : ascii "fill" ≠ ascii "orderbook_delta" := by decide
  have hsnapshot : ascii "fill" ≠ ascii "orderbook_snapshot" := by decide
  simp only [build, parseKalshiMessage, asObject, Fields.of_root_value, RootField.key, getUint64, htype,
    hsub, hdelta, hsnapshot, if_false, Fields.of_msgIsObject, hmsg, Option.isSome_some,
    Bool.true_eq_false, if_true, Fields.of_msg_value hmsg, MsgField.key, parseFill]
  cases getString msg (ascii "action") with
  | none => exact Except.error_eq_ok_iff_error_eq_ok
  | some text =>
      simp only
      cases parseAction text with
      | error e => exact Except.error_eq_ok_iff_error_eq_ok
      | ok action =>
          obtain _ | orderId := getString msg (ascii "order_id")
          · exact Except.error_eq_ok_iff_error_eq_ok
          obtain _ | ticker := getString msg (ascii "market_ticker")
          · exact Except.error_eq_ok_iff_error_eq_ok
          obtain _ | countFp := getString msg (ascii "count_fp")
          · exact Except.error_eq_ok_iff_error_eq_ok
          · exact Iff.rfl

end

/-- `build` on the fields of a root object accepts what `parse_kalshi_message` accepts on the object,
with the same message. -/
theorem build_of (o : JsonObject) (m : Message) :
    build (Fields.of o) = .ok m ↔ parseKalshiMessage (.object o) = .ok m := by
  cases htype : getString o (ascii "type") with
  | none =>
      simp only [build, parseKalshiMessage, asObject, Fields.of_root_value, RootField.key, htype]
  | some type =>
      cases hmsg : getObject o (ascii "msg") with
      | none =>
          simp only [build, parseKalshiMessage, asObject, Fields.of_root_value, RootField.key, htype,
            Fields.of_msgIsObject, hmsg, getUint64]
          split
          · rfl
          · exact Except.error_eq_ok_iff_error_eq_ok
      | some msg =>
          by_cases hdelta : type = ascii "orderbook_delta"
          · exact build_of_delta hmsg htype m hdelta
          by_cases hsnapshot : type = ascii "orderbook_snapshot"
          · exact build_of_snapshot hmsg htype m hsnapshot
          by_cases hfill : type = ascii "fill"
          · exact build_of_fill hmsg htype m hfill
          simp only [build, parseKalshiMessage, asObject, Fields.of_root_value, RootField.key, htype,
            Fields.of_msgIsObject, hmsg, getUint64, hdelta, hsnapshot, hfill, if_false,
            Option.isSome_some, Bool.true_eq_false]

/-! ## Payloads -/

theorem parseTree_eq_ok_iff {b : Bytes} {m : Message} :
    parseTree b = .ok m ↔ ∃ v, parseJson b = .ok v ∧ parseKalshiMessage v = .ok m := by
  rw [parseTree]
  cases parseJson b with
  | error e => exact iff_of_false Except.error_ne_ok fun ⟨_, hv, _⟩ ↦ Except.error_ne_ok hv
  | ok v => exact ⟨fun h ↦ ⟨v, rfl, h⟩, fun ⟨_, hv, h⟩ ↦ Except.ok.inj hv ▸ h⟩

/-- The root object is where a message comes from. -/
theorem parseTree_eq_ok_iff_parseRoot {b : Bytes} {m : Message} :
    parseTree b = .ok m ↔
      ∃ o, Decoder.parseRoot (.ofBytes b) = .ok o ∧ parseKalshiMessage (.object o) = .ok m := by
  rw [parseTree_eq_ok_iff]
  constructor
  · rintro ⟨v, hv, hm⟩
    rw [parseJson_eq_ok_iff] at hv
    cases v with
    | object o => exact ⟨o, by rw [Decoder.parseRoot, hv]; rfl, hm⟩
    | null | bool | string | array => cases hm
  · rintro ⟨o, ho, hm⟩
    obtain ⟨v, hv, hroot⟩ := Except.bind_eq_ok_iff.mp ho
    cases v with
    | object o' =>
        cases hroot
        exact ⟨_, parseJson_eq_ok_iff.mpr hv, hm⟩
    | null | bool | string | array => cases hroot

/-- Where the decoder gives up, the tree-based path is taken; where it does not, it has the fields the tree has. -/
theorem decodeKalshiMessage_eq_ok_iff_parseTree {b : Bytes} {m : Message} :
    decodeKalshiMessage b = .ok m ↔ parseTree b = .ok m := by
  have hcoupled := Decoder.decode_coupled (.ofBytes b)
  rw [decodeKalshiMessage]
  cases hdecode : Decoder.decode (.ofBytes b) with
  | error stop =>
      simp only
      by_cases hfallback : stop.needsFallback = false
      · -- The parser has failed as well, or there was no root object.
        rw [if_pos hfallback, parseTree_eq_ok_iff_parseRoot]
        refine iff_of_false Except.error_ne_ok ?_
        rintro ⟨o, ho, -⟩
        rw [hdecode, ho] at hcoupled
        have hbail : stop.needsFallback = true := hcoupled
        rw [hfallback] at hbail
        cases hbail
      · rw [if_neg hfallback]
  | ok f =>
      simp only
      rw [parseTree_eq_ok_iff_parseRoot]
      cases hroot : Decoder.parseRoot (.ofBytes b) with
      | error e =>
          rw [hdecode, hroot] at hcoupled
          exact hcoupled.elim
      | ok o =>
          rw [hdecode, hroot] at hcoupled
          obtain rfl : f = Fields.of o := hcoupled
          rw [build_of]
          exact ⟨fun h ↦ ⟨o, rfl, h⟩, fun ⟨_, ho, h⟩ ↦ Except.ok.inj ho ▸ h⟩

/-- **The decoder agrees with the tree**: on every payload `decode_kalshi_message` succeeds exactly when
`parse_json` does and `parse_kalshi_message` does on its result, and then with the same message. -/
theorem decodeKalshiMessage_eq_ok_iff (b : Bytes) (m : Message) :
    decodeKalshiMessage b = .ok m ↔
      ∃ v, parseJson b = .ok v ∧ parseKalshiMessage v = .ok m := by
  rw [decodeKalshiMessage_eq_ok_iff_parseTree, parseTree_eq_ok_iff]

end KalshiClient.Protocol
