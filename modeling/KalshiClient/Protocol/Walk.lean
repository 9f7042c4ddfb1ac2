import KalshiClient.Protocol.Decoder

/-!
# The decoder walks in step with the parser

The one-pass decoder is run in step with the parser.  At every token the two are at the same place of
the input, and what the decoder has recorded is a function of the tree built so far: a scalar field is
`Scalar.of` what the object built so far has under its key, a list of levels is `LevelsField.of` it, and
all fields together are `Fields.of` the root object.  The only way out of step is a string with an
escape, where the decoder gives up and the tree-based path takes over from the start.
-/

namespace KalshiClient.Protocol

open Bytes Json

/-! ## What the fields say about a tree -/

/-- The scalar recorded for what an object has under a key. -/
def Scalar.of : Option JsonValue → Scalar
  | none => {}
  | some v => ⟨true, asString v⟩

namespace Decoder

/-- What one entry of a level does to the pair. -/
def Pair.record (p : Pair) (v : JsonValue) : Pair :=
  match asString v with
  | some text => p.push text
  | none => { p with allText := false, count := p.count + 1 }

/-- The pair recorded for the entries of a level. -/
def Pair.of (entries : JsonArray) : Pair := entries.foldl Pair.record {}

theorem Pair.of_append (entries : JsonArray) (v : JsonValue) :
    Pair.of (entries ++ [v]) = (Pair.of entries).record v := List.foldl_append

end Decoder

namespace LevelsField

/-- What one level does to the field. -/
def record (field : LevelsField) (v : JsonValue) : LevelsField :=
  match asArray v with
  | some entries => Decoder.LevelsField.close field (.of entries)
  | none => { field with valid := false }

/-- The field recorded for what an object has under a key. -/
def of : Option JsonValue → LevelsField
  | none => {}
  | some v =>
    match asArray v with
    | some array => array.foldl record { seen := true, present := true }
    | none => { seen := true }

theorem record_seen_present (field : LevelsField) (v : JsonValue) :
    (field.record v).seen = field.seen ∧ (field.record v).present = field.present := by
  rw [record]
  cases asArray v with
  | none => exact ⟨rfl, rfl⟩
  | some entries =>
      simp only [Decoder.LevelsField.close]
      split <;> exact ⟨rfl, rfl⟩

theorem foldl_record_seen_present (array : JsonArray) (field : LevelsField) :
    (array.foldl record field).seen = field.seen ∧
      (array.foldl record field).present = field.present := by
  induction array generalizing field with
  | nil => exact ⟨rfl, rfl⟩
  | cons v array ih =>
      obtain ⟨hseen, hpresent⟩ := record_seen_present field v
      rw [List.foldl_cons, ← hseen, ← hpresent]
      exact ih (field.record v)

theorem of_some_seen (v : JsonValue) : (of (some v)).seen = true := by
  simp only [of]
  split
  · exact (foldl_record_seen_present _ _).1
  · rfl

theorem with_seen {field : LevelsField} (h : field.seen = true) :
    { field with seen := true } = field := by
  rw [← h]

end LevelsField

/-- The key a root field is looked up under. -/
def RootField.key : RootField → Bytes
  | .type => ascii "type"
  | .sid => ascii "sid"
  | .seq => ascii "seq"

/-- The key a field of `msg` is looked up under. -/
def MsgField.key : MsgField → Bytes
  | .marketTicker => ascii "market_ticker"
  | .marketId => ascii "market_id"
  | .priceDollars => ascii "price_dollars"
  | .deltaFp => ascii "delta_fp"
  | .side => ascii "side"
  | .ts => ascii "ts"
  | .tsMs => ascii "ts_ms"
  | .orderId => ascii "order_id"
  | .countFp => ascii "count_fp"
  | .action => ascii "action"

/-- The key a list of levels is looked up under. -/
def LevelsName.key : LevelsName → Bytes
  | .yes => ascii "yes_dollars_fp"
  | .no => ascii "no_dollars_fp"

theorem rootField?_key (n : RootField) : rootField? n.key = some n := by
  cases n <;> decide

theorem msgField?_key (n : MsgField) : msgField? n.key = some n := by
  cases n <;> decide

theorem levelsName?_key (n : LevelsName) : levelsName? n.key = some n := by
  cases n <;> decide

theorem RootField.key_injective : Function.Injective RootField.key := by
  intro n m h
  have hn := rootField?_key n
  rw [h, rootField?_key] at hn
  exact (Option.some.inj hn).symm

theorem MsgField.key_injective : Function.Injective MsgField.key := by
  intro n m h
  have hn := msgField?_key n
  rw [h, msgField?_key] at hn
  exact (Option.some.inj hn).symm

theorem LevelsName.key_injective : Function.Injective LevelsName.key := by
  intro n m h
  have hn := levelsName?_key n
  rw [h, levelsName?_key] at hn
  exact (Option.some.inj hn).symm

theorem msgField?_levelsName (m : LevelsName) : msgField? m.key = none := by
  cases m <;> decide

theorem rootField?_msg : rootField? (ascii "msg") = none := by decide

theorem MsgField.key_ne (n : MsgField) (m : LevelsName) : n.key ≠ m.key := by
  intro h
  have hn := msgField?_key n
  rw [h, msgField?_levelsName] at hn
  cases hn

theorem RootField.key_ne (n : RootField) : n.key ≠ ascii "msg" := by
  intro h
  have hn := rootField?_key n
  rw [h, rootField?_msg] at hn
  cases hn

namespace Fields

/-- The fields after the members of `msg`, which so far has been read as `msg`. -/
def withMsg (f : Fields) (msg : JsonObject) : Fields :=
  { f with
    msg := fun n ↦ .of (FlatMap.find n.key msg)
    levels := fun n ↦ .of (FlatMap.find n.key msg) }

/-- The fields recorded for a root object. -/
def of (root : JsonObject) : Fields :=
  let f : Fields :=
    { root := fun n ↦ .of (FlatMap.find n.key root)
      msgSeen := (FlatMap.find (ascii "msg") root).isSome
      msgIsObject := (getObject root (ascii "msg")).isSome }
  match getObject root (ascii "msg") with
  | some msg => f.withMsg msg
  | none => f

end Fields

/-! ## The keys -/

/-- One comparison of a key. -/
theorem eq_or_eq_some_of_ite {α : Type} {key k : Bytes} {x y : α} {rest : Option α}
    (h : (if key = k then some x else rest) = some y) : (key = k ∧ x = y) ∨ rest = some y := by
  by_cases hkey : key = k
  · rw [if_pos hkey] at h
    exact .inl ⟨hkey, Option.some.inj h⟩
  · rw [if_neg hkey] at h
    exact .inr h

theorem rootField?_eq_some_iff (key : Bytes) (n : RootField) :
    rootField? key = some n ↔ key = n.key := by
  constructor
  · intro h
    rw [rootField?] at h
    iterate 3
      obtain ⟨hkey, rfl⟩ | h := eq_or_eq_some_of_ite h
      · exact hkey
    cases h
  · rintro rfl
    exact rootField?_key n

theorem msgField?_eq_some_iff (key : Bytes) (n : MsgField) : msgField? key = some n ↔ key = n.key := by
  constructor
  · intro h
    rw [msgField?] at h
    iterate 10
      obtain ⟨hkey, rfl⟩ | h := eq_or_eq_some_of_ite h
      · exact hkey
    cases h
  · rintro rfl
    exact msgField?_key n

theorem levelsName?_eq_some_iff (key : Bytes) (n : LevelsName) :
    levelsName? key = some n ↔ key = n.key := by
  constructor
  · intro h
    rw [levelsName?] at h
    iterate 2
      obtain ⟨hkey, rfl⟩ | h := eq_or_eq_some_of_ite h
      · exact hkey
    cases h
  · rintro rfl
    exact levelsName?_key n

/-! ## Walking in step -/

/-- The decoder's walk `x` and the parser's `y` end at the same place with related results, or both
fail, unless the decoder has asked for the fallback. -/
def InStep {σ τ : Type} (S : σ → τ → Prop) :
    Except Stop (σ × JsonLexer) → Except JsonError (τ × JsonLexer) → Prop :=
  Except.Coupled (fun stop ↦ stop.needsFallback = true) fun p q ↦ p.2 = q.2 ∧ S p.1 q.1

/-- A token the decoder hands out: not a string with an escape. -/
def Plain (token : Token) : Prop := token.type = .string → token.hasEscapes = false

theorem stringValue_plain {token : Token} (h : Plain token) (hstring : token.type = .string)
    (l : JsonLexer) : stringValue l token = .ok token.text := by
  rw [stringValue, h hstring]
  rfl

namespace Decoder

theorem next_coupled (l : JsonLexer) :
    Except.Coupled (fun stop : Stop ↦ stop.needsFallback = true) (fun p q ↦ p = q ∧ Plain p.1)
      (next l) l.next := by
  rw [next]
  cases hnext : l.next with
  | error e => exact .error _ _
  | ok p =>
      obtain ⟨token, l'⟩ := p
      by_cases h : token.type = .string ∧ token.hasEscapes = true
      · simp only [if_pos h]
        exact (rfl : true = true)
      · simp only [if_neg h]
        refine .ok ⟨rfl, fun hstring ↦ ?_⟩
        exact Bool.eq_false_iff.mpr fun hescapes ↦ h ⟨hstring, hescapes⟩

section

variable {σ : Type} {value : Token → JsonLexer → Except JsonError (JsonValue × JsonLexer)}
  {n : Nat} {token : Token} {s : σ} {l : JsonLexer}

theorem memberLoop_inStep {f : Bytes → Token → σ → JsonLexer → Except Stop (σ × JsonLexer)}
    {S : σ → JsonObject → Prop} {object : JsonObject}
    (hf : ∀ key token s object l, Plain token → S s object →
      InStep (fun s v ↦ S s (FlatMap.emplace key v object)) (f key token s l) (value token l))
    (hplain : Plain token) (hs : S s object) :
    InStep S (memberLoop f n token s l) (parseMembers value n token object l) := by
  induction n generalizing token s object l with
  | zero => exact .error _ _
  | succ n ih =>
      rw [memberLoop, parseMembers]
      by_cases hstring : token.type ≠ .string
      · simp only [if_pos hstring]
        exact .error _ _
      simp only [if_neg hstring, stringValue_plain hplain (not_not.mp hstring), Except.bind_ok]
      refine (next_coupled l).bind ?_
      rintro ⟨colon, l₁⟩ _ ⟨rfl, -⟩
      by_cases hcolon : colon.type ≠ .colon
      · simp only [if_pos hcolon]
        exact .error _ _
      simp only [if_neg hcolon]
      refine (next_coupled l₁).bind ?_
      rintro ⟨valueToken, l₂⟩ _ ⟨rfl, hvalue⟩
      refine (hf token.text valueToken s object l₂ hvalue hs).bind ?_
      rintro ⟨s', l₃⟩ ⟨v, _⟩ ⟨rfl, hs'⟩
      refine (next_coupled l₃).bind ?_
      rintro ⟨sep, l₄⟩ _ ⟨rfl, -⟩
      by_cases hclose : sep.type = .rightBrace
      · simp only [if_pos hclose]
        exact .ok ⟨rfl, hs'⟩
      by_cases hcomma : sep.type ≠ .comma
      · simp only [if_neg hclose, if_pos hcomma]
        exact .error _ _
      simp only [if_neg hclose, if_neg hcomma]
      refine (next_coupled l₄).bind ?_
      rintro ⟨token', l₅⟩ _ ⟨rfl, hplain'⟩
      exact ih hplain' hs'

/-- An object is walked in step with its parse. -/
theorem forEachMember_inStep {f : Bytes → Token → σ → JsonLexer → Except Stop (σ × JsonLexer)}
    {S : σ → JsonObject → Prop}
    (hf : ∀ key token s object l, Plain token → S s object →
      InStep (fun s v ↦ S s (FlatMap.emplace key v object)) (f key token s l) (value token l))
    (hs : S s []) : InStep S (forEachMember f s l) (parseObject value l) := by
  rw [forEachMember, parseObject]
  refine (next_coupled l).bind ?_
  rintro ⟨token, l₁⟩ _ ⟨rfl, hplain⟩
  by_cases hclose : token.type = .rightBrace
  · simp only [if_pos hclose]
    exact .ok ⟨rfl, hs⟩
  · simp only [if_neg hclose]
    exact memberLoop_inStep hf hplain hs

theorem elementLoop_inStep {f : Token → σ → JsonLexer → Except Stop (σ × JsonLexer)}
    {S : σ → JsonArray → Prop} {array : JsonArray}
    (hf : ∀ token s array l, Plain token → S s array →
      InStep (fun s v ↦ S s (array ++ [v])) (f token s l) (value token l))
    (hplain : Plain token) (hs : S s array) :
    InStep S (elementLoop f n token s l) (parseElements value n token array l) := by
  induction n generalizing token s array l with
  | zero => exact .error _ _
  | succ n ih =>
      rw [elementLoop, parseElements]
      refine (hf token s array l hplain hs).bind ?_
      rintro ⟨s', l₁⟩ ⟨v, _⟩ ⟨rfl, hs'⟩
      refine (next_coupled l₁).bind ?_
      rintro ⟨sep, l₂⟩ _ ⟨rfl, -⟩
      by_cases hclose : sep.type = .rightBracket
      · simp only [if_pos hclose]
        exact .ok ⟨rfl, hs'⟩
      by_cases hcomma : sep.type ≠ .comma
      · simp only [if_neg hclose, if_pos hcomma]
        exact .error _ _
      simp only [if_neg hclose, if_neg hcomma]
      refine (next_coupled l₂).bind ?_
      rintro ⟨token', l₃⟩ _ ⟨rfl, hplain'⟩
      exact ih hplain' hs'

/-- An array is walked in step with its parse. -/
theorem forEachElement_inStep {f : Token → σ → JsonLexer → Except Stop (σ × JsonLexer)}
    {S : σ → JsonArray → Prop}
    (hf : ∀ token s array l, Plain token → S s array →
      InStep (fun s v ↦ S s (array ++ [v])) (f token s l) (value token l))
    (hs : S s []) : InStep S (forEachElement f s l) (parseArray value l) := by
  rw [forEachElement, parseArray]
  refine (next_coupled l).bind ?_
  rintro ⟨token, l₁⟩ _ ⟨rfl, hplain⟩
  by_cases hclose : token.type = .rightBracket
  · simp only [if_pos hclose]
    exact .ok ⟨rfl, hs⟩
  · simp only [if_neg hclose]
    exact elementLoop_inStep hf hplain hs

end

/-- A value that is skipped is validated as the parser would. -/
theorem skipValue_inStep {σ : Type} (room : Nat) {token : Token} (hplain : Plain token) (s : σ)
    (l : JsonLexer) :
    InStep (fun s' _ ↦ s' = s) (skipValue room token s l) (parseValue room token l) := by
  induction room using Nat.strong_induction_on generalizing token l with
  | _ room ih =>
      rw [skipValue.eq_def, parseValue.eq_def]
      cases htype : token.type with
      | string =>
          rw [stringValue_plain hplain htype]
          exact .ok ⟨rfl, rfl⟩
      | number | true | false | null => exact .ok ⟨rfl, rfl⟩
      | leftBrace =>
          cases room with
          | zero => exact .error _ _
          | succ room =>
              refine Except.Coupled.map_right (forEachMember_inStep (S := fun s' _ ↦ s' = s) ?_ rfl)
                (fun p ↦ (JsonValue.object p.1, p.2)) fun _ _ h ↦ h
              rintro key token s' object l hplain rfl
              exact ih room (Nat.lt_succ_self room) hplain l
      | leftBracket =>
          cases room with
          | zero => exact .error _ _
          | succ room =>
              refine Except.Coupled.map_right (forEachElement_inStep (S := fun s' _ ↦ s' = s) ?_ rfl)
                (fun p ↦ (JsonValue.array p.1, p.2)) fun _ _ h ↦ h
              rintro token s' array l hplain rfl
              exact ih room (Nat.lt_succ_self room) hplain l
      | _ => exact .error _ _

/-! ## The kind of a value -/

section

variable {room : Nat} {token : Token} {l : JsonLexer} {p : JsonValue × JsonLexer}

/-- What the parser returns for a token, by the kind of token. -/
theorem parseValue_cases (hplain : Plain token) (h : parseValue room token l = .ok p) :
    isText token.type = true ∧ p = (.string token.text, l) ∨
    token.type = .leftBrace ∧ (∃ o, p.1 = .object o) ∨
    token.type = .leftBracket ∧ (∃ a, p.1 = .array a) ∨
    isText token.type = false ∧ token.type ≠ .leftBrace ∧ token.type ≠ .leftBracket ∧
      (p.1 = .null ∨ ∃ b, p.1 = .bool b) := by
  rw [parseValue.eq_def] at h
  cases htype : token.type with
  | string =>
      rw [htype] at h
      simp only [stringValue_plain hplain htype] at h
      cases h
      exact .inl ⟨rfl, rfl⟩
  | number =>
      rw [htype] at h
      cases h
      exact .inl ⟨rfl, rfl⟩
  | leftBrace =>
      rw [htype] at h
      cases room with
      | zero => cases h
      | succ room =>
          obtain ⟨q, -, hok⟩ := Except.bind_eq_ok_iff.mp h
          cases hok
          exact .inr (.inl ⟨rfl, _, rfl⟩)
  | leftBracket =>
      rw [htype] at h
      cases room with
      | zero => cases h
      | succ room =>
          obtain ⟨q, -, hok⟩ := Except.bind_eq_ok_iff.mp h
          cases hok
          exact .inr (.inr (.inl ⟨rfl, _, rfl⟩))
  | true | false =>
      rw [htype] at h
      cases h
      exact .inr (.inr (.inr ⟨rfl, by decide, by decide, .inr ⟨_, rfl⟩⟩))
  | null =>
      rw [htype] at h
      cases h
      exact .inr (.inr (.inr ⟨rfl, by decide, by decide, .inl rfl⟩))
  | endOfInput | rightBrace | rightBracket | colon | comma =>
      rw [htype] at h
      cases h

theorem asString_parseValue (hplain : Plain token) (htext : ¬ isText token.type = true)
    (h : parseValue room token l = .ok p) : asString p.1 = none := by
  rcases parseValue_cases hplain h with ⟨h, -⟩ | ⟨-, o, h⟩ | ⟨-, a, h⟩ | ⟨-, -, -, h | ⟨b, h⟩⟩
  · exact absurd h htext
  all_goals rw [h]; rfl

theorem asArray_parseValue (hplain : Plain token) (hbracket : token.type ≠ .leftBracket)
    (h : parseValue room token l = .ok p) : asArray p.1 = none := by
  rcases parseValue_cases hplain h with ⟨-, h⟩ | ⟨-, o, h⟩ | ⟨h, -⟩ | ⟨-, -, -, h | ⟨b, h⟩⟩
  · rw [h]; rfl
  · rw [h]; rfl
  · exact absurd h hbracket
  all_goals rw [h]; rfl

theorem asObject_parseValue (hplain : Plain token) (hbrace : token.type ≠ .leftBrace)
    (h : parseValue room token l = .ok p) : asObject p.1 = none := by
  rcases parseValue_cases hplain h with ⟨-, h⟩ | ⟨h, -⟩ | ⟨-, a, h⟩ | ⟨-, -, -, h | ⟨b, h⟩⟩
  · rw [h]; rfl
  · exact absurd h hbrace
  all_goals rw [h]; rfl

/-- A string or number is its text. -/
theorem parseValue_text (hplain : Plain token) (htext : isText token.type = true) :
    parseValue room token l = .ok (.string token.text, l) := by
  simp only [isText, Bool.or_eq_true, decide_eq_true_eq] at htext
  rcases htext with h | h
  · rw [parseValue_string room l h, stringValue_plain hplain h]
    rfl
  · exact parseValue_number room l h

end

/-! ## The fields -/

section

variable (room : Nat) {token : Token} (hplain : Plain token) (l : JsonLexer)
include hplain

/-- `scalar` records the first value of its key. -/
theorem scalar_inStep (x : Option JsonValue) :
    InStep (fun field v ↦ field = .of (some (x.getD v))) (scalar room token (.of x) l)
      (parseValue room token l) := by
  cases x with
  | some u =>
      refine (skipValue_inStep room hplain (Scalar.of (some u)) l).mono ?_
      rintro p q ⟨hl, hs⟩
      exact ⟨hl, hs⟩
  | none =>
      have hseen : (Scalar.of none).seen = false := rfl
      rw [scalar, if_pos hseen]
      by_cases htext : isText token.type = true
      · rw [if_pos htext, parseValue_text hplain htext]
        exact .ok ⟨rfl, rfl⟩
      · rw [if_neg htext]
        refine ((skipValue_inStep room hplain { Scalar.of none with seen := true } l).and_right
          fun q hq ↦ asString_parseValue hplain htext hq).mono ?_
        rintro p q ⟨⟨hl, hs⟩, hnone⟩
        refine ⟨hl, hs.trans ?_⟩
        simp only [Option.getD_none, Scalar.of, hnone]

theorem levelEntry_inStep (p : Pair) :
    InStep (fun p' v ↦ p' = p.record v) (levelEntry room token p l) (parseValue room token l) := by
  rw [levelEntry]
  by_cases htext : isText token.type = true
  · rw [if_pos htext, parseValue_text hplain htext]
    exact .ok ⟨rfl, rfl⟩
  · rw [if_neg htext]
    refine ((skipValue_inStep room hplain { p with allText := false, count := p.count + 1 }
      l).and_right fun q hq ↦ asString_parseValue hplain htext hq).mono ?_
    rintro _ q ⟨⟨hl, hs⟩, hnone⟩
    exact ⟨hl, by simp only [hs, Pair.record, hnone]⟩

theorem level_inStep (field : LevelsField) :
    InStep (fun field' v ↦ field' = field.record v) (level room token field l)
      (parseValue room token l) := by
  rw [level.eq_def]
  by_cases hbracket : token.type ≠ .leftBracket
  · rw [if_pos hbracket]
    refine ((skipValue_inStep room hplain { field with valid := false } l).and_right
      fun q hq ↦ asArray_parseValue hplain hbracket hq).mono ?_
    rintro _ q ⟨⟨hl, hs⟩, hnone⟩
    exact ⟨hl, by simp only [hs, LevelsField.record, hnone]⟩
  · rw [if_neg hbracket]
    have htype := not_not.mp hbracket
    cases room with
    | zero =>
        rw [parseValue_zero l (.inl htype)]
        exact .error _ _
    | succ room =>
        rw [parseValue_leftBracket room l htype]
        -- The pair after some entries is the fold of `record` over them.
        refine Except.Coupled.bind (forEachElement_inStep (S := fun p a ↦ p = Pair.of a) ?_ rfl) ?_
        · rintro token _ array l hplain rfl
          refine (levelEntry_inStep room hplain l (.of array)).mono ?_
          rintro _ q ⟨hl, hp⟩
          exact ⟨hl, hp.trans (Pair.of_append array q.1).symm⟩
        · rintro ⟨p, l'⟩ ⟨a, l''⟩ ⟨hl, hp⟩
          obtain rfl : p = Pair.of a := hp
          exact .ok ⟨hl, rfl⟩

/-- `levels` records the first value of its key. -/
theorem levels_inStep (x : Option JsonValue) :
    InStep (fun field v ↦ field = .of (some (x.getD v))) (levels room token (.of x) l)
      (parseValue room token l) := by
  cases x with
  | some u =>
      have hseen : (LevelsField.of (some u)).seen = true := LevelsField.of_some_seen u
      rw [levels.eq_def, if_pos (.inl hseen)]
      refine (skipValue_inStep room hplain _ l).mono ?_
      rintro p q ⟨hl, hs⟩
      refine ⟨hl, hs.trans ?_⟩
      exact LevelsField.with_seen hseen
  | none =>
      have hseen : (LevelsField.of none).seen ≠ true := nofun
      by_cases hbracket : token.type ≠ .leftBracket
      · rw [levels.eq_def, if_pos (.inr hbracket)]
        refine ((skipValue_inStep room hplain { LevelsField.of none with seen := true } l).and_right
          fun q hq ↦ asArray_parseValue hplain hbracket hq).mono ?_
        rintro p q ⟨⟨hl, hs⟩, hnone⟩
        refine ⟨hl, hs.trans ?_⟩
        simp only [Option.getD_none, LevelsField.of, hnone]
      · rw [levels.eq_def, if_neg (not_or_intro hseen hbracket)]
        have htype := not_not.mp hbracket
        cases room with
        | zero =>
            rw [parseValue_zero l (.inl htype)]
            exact .error _ _
        | succ room =>
            rw [parseValue_leftBracket room l htype]
            refine Except.Coupled.map_right (forEachElement_inStep
              (S := fun field a ↦ field = .of (some (.array a))) ?_ rfl)
              (fun p ↦ (JsonValue.array p.1, p.2)) fun _ _ h ↦ h
            rintro token _ array l hplain rfl
            refine (level_inStep room hplain l _).mono ?_
            rintro _ q ⟨hl, hp⟩
            refine ⟨hl, hp.trans ?_⟩
            simp only [LevelsField.of, asArray, List.foldl_append, List.foldl_cons, List.foldl_nil]

end

theorem update_of {ι : Type} [DecidableEq ι] {α : Type} {key : ι → Bytes}
    (hkey : Function.Injective key) (of : Option JsonValue → α) (n : ι) (v : JsonValue)
    {o : JsonObject} (ho : FlatMap.Sorted o) :
    Function.update (fun n ↦ of (FlatMap.find (key n) o)) n
        (of (some ((FlatMap.find (key n) o).getD v))) =
      fun m ↦ of (FlatMap.find (key m) (FlatMap.emplace (key n) v o)) := by
  funext m
  by_cases hm : m = n
  · subst hm
    rw [Function.update_self, FlatMap.find_emplace_self ho]
  · rw [Function.update_of_ne hm, FlatMap.find_emplace_of_ne fun h ↦ hm (hkey h)]

/-- `msg_member` keeps the fields those of the object read so far. -/
theorem msgMember_inStep (room : Nat) (f : Fields) (key : Bytes) {token : Token}
    (hplain : Plain token) {o : JsonObject} (ho : FlatMap.Sorted o) (l : JsonLexer) :
    InStep (fun f' v ↦ f' = f.withMsg (FlatMap.emplace key v o))
      (msgMember room key token (f.withMsg o) l) (parseValue room token l) := by
  rw [msgMember]
  cases hmsg : msgField? key with
  | some n =>
      obtain rfl := (msgField?_eq_some_iff key n).mp hmsg
      refine Except.Coupled.map_left (scalar_inStep room hplain l (FlatMap.find n.key o))
        (fun p ↦ ({ f.withMsg o with msg := Function.update (f.withMsg o).msg n p.1 }, p.2)) ?_
      rintro ⟨field, l'⟩ ⟨v, l''⟩ ⟨hl, hfield⟩
      obtain rfl : field = _ := hfield
      have hlevels (m : LevelsName) := FlatMap.find_emplace_of_ne (n.key_ne m).symm (x := v) (m := o)
      refine ⟨hl, ?_⟩
      simp only [Fields.withMsg, hlevels, update_of MsgField.key_injective Scalar.of n v ho]
  | none =>
      cases hlevels : levelsName? key with
      | some n =>
          obtain rfl := (levelsName?_eq_some_iff key n).mp hlevels
          refine Except.Coupled.map_left (levels_inStep room hplain l (FlatMap.find n.key o))
            (fun p ↦ ({ f.withMsg o with levels := Function.update (f.withMsg o).levels n p.1 },
              p.2)) ?_
          rintro ⟨field, l'⟩ ⟨v, l''⟩ ⟨hl, hfield⟩
          obtain rfl : field = _ := hfield
          have hmsg (m : MsgField) := FlatMap.find_emplace_of_ne (m.key_ne n) (x := v) (m := o)
          refine ⟨hl, ?_⟩
          simp only [Fields.withMsg, hmsg, update_of LevelsName.key_injective LevelsField.of n v ho]
      | none =>
          refine (skipValue_inStep room hplain (f.withMsg o) l).mono ?_
          rintro ⟨f', l'⟩ ⟨v, l''⟩ ⟨hl, hf⟩
          have hmsg' (m : MsgField) : m.key ≠ key := fun h ↦ by
            rw [(msgField?_eq_some_iff key m).mpr h.symm] at hmsg
            cases hmsg
          have hlevels' (m : LevelsName) : m.key ≠ key := fun h ↦ by
            rw [(levelsName?_eq_some_iff key m).mpr h.symm] at hlevels
            cases hlevels
          refine ⟨hl, hf.trans ?_⟩
          simp only [Fields.withMsg, FlatMap.find_emplace_of_ne (hmsg' _),
            FlatMap.find_emplace_of_ne (hlevels' _)]

/-- The fields depend on the root object only through the keys looked up. -/
theorem Fields.of_congr {o o' : JsonObject}
    (hroot : ∀ n : RootField, FlatMap.find n.key o' = FlatMap.find n.key o)
    (hmsg : FlatMap.find (ascii "msg") o' = FlatMap.find (ascii "msg") o) :
    Fields.of o' = Fields.of o := by
  simp only [Fields.of, getObject, hroot, hmsg]

/-- A root object that has no `msg` yet leaves the fields of `msg` untouched. -/
theorem Fields.of_of_find_none {o : JsonObject} (h : FlatMap.find (ascii "msg") o = none) :
    Fields.of o = { root := fun n ↦ .of (FlatMap.find n.key o) } := by
  simp only [Fields.of, getObject, h]
  rfl

/-- Looking up a root field or `msg` is not affected by another key. -/
theorem Fields.of_emplace_of_ne {o : JsonObject} {key : Bytes} (v : JsonValue)
    (hroot : ∀ n : RootField, n.key ≠ key) (hmsg : ascii "msg" ≠ key) :
    Fields.of (FlatMap.emplace key v o) = Fields.of o :=
  Fields.of_congr (fun n ↦ FlatMap.find_emplace_of_ne (hroot n)) (FlatMap.find_emplace_of_ne hmsg)

theorem Fields.of_emplace_root {o : JsonObject} (n : RootField) (v : JsonValue)
    (ho : FlatMap.Sorted o) :
    Fields.of (FlatMap.emplace n.key v o) = { Fields.of o with
      root := Function.update (Fields.of o).root n
        (.of (some ((FlatMap.find n.key o).getD v))) } := by
  have hmsg : FlatMap.find (ascii "msg") (FlatMap.emplace n.key v o) =
      FlatMap.find (ascii "msg") o := FlatMap.find_emplace_of_ne n.key_ne.symm
  simp only [Fields.of, getObject, hmsg]
  cases (FlatMap.find (ascii "msg") o).bind asObject with
  | none => simp only [update_of RootField.key_injective Scalar.of n v ho]
  | some msg => simp only [Fields.withMsg, update_of RootField.key_injective Scalar.of n v ho]

/-- The first `msg` member is an object: its fields are those recorded. -/
theorem Fields.of_emplace_object {o msg : JsonObject} (ho : FlatMap.Sorted o)
    (hnone : FlatMap.find (ascii "msg") o = none) :
    Fields.of (FlatMap.emplace (ascii "msg") (.object msg) o) =
      { Fields.of o with msgSeen := true, msgIsObject := true }.withMsg msg := by
  have hroot (n : RootField) :
      FlatMap.find n.key (FlatMap.emplace (ascii "msg") (.object msg) o) = FlatMap.find n.key o :=
    FlatMap.find_emplace_of_ne n.key_ne
  rw [Fields.of_of_find_none hnone]
  simp only [Fields.of, getObject, FlatMap.find_emplace_self ho, hroot, hnone]
  rfl

/-- The first `msg` member is something else. -/
theorem Fields.of_emplace_not_object {o : JsonObject} {v : JsonValue} (ho : FlatMap.Sorted o)
    (hnone : FlatMap.find (ascii "msg") o = none) (hv : asObject v = none) :
    Fields.of (FlatMap.emplace (ascii "msg") v o) = { Fields.of o with msgSeen := true } := by
  have hroot (n : RootField) :
      FlatMap.find n.key (FlatMap.emplace (ascii "msg") v o) = FlatMap.find n.key o :=
    FlatMap.find_emplace_of_ne n.key_ne
  rw [Fields.of_of_find_none hnone]
  simp only [Fields.of, getObject, FlatMap.find_emplace_self ho, hroot, hnone, Option.getD_none,
    Option.bind_some, hv]
  rfl

/-- A later `msg` member changes nothing. -/
theorem Fields.of_emplace_msg_again {o : JsonObject} {u : JsonValue} (v : JsonValue)
    (ho : FlatMap.Sorted o) (hu : FlatMap.find (ascii "msg") o = some u) :
    Fields.of (FlatMap.emplace (ascii "msg") v o) = Fields.of o := by
  refine Fields.of_congr (fun n ↦ FlatMap.find_emplace_of_ne n.key_ne) ?_
  rw [FlatMap.find_emplace_self ho, hu, Option.getD_some]

theorem Fields.of_msgSeen (o : JsonObject) :
    (Fields.of o).msgSeen = (FlatMap.find (ascii "msg") o).isSome := by
  rw [Fields.of]
  cases getObject o (ascii "msg") <;> rfl

/-- `msg` is walked into the fields of its own. -/
theorem forEachMember_msg_inStep (room : Nat) {o : JsonObject} (l : JsonLexer)
    (hnone : FlatMap.find (ascii "msg") o = none) :
    InStep (fun f msg ↦ f = { Fields.of o with msgSeen := true, msgIsObject := true }.withMsg msg ∧
        FlatMap.Sorted msg)
      (forEachMember (msgMember room) { Fields.of o with msgSeen := true, msgIsObject := true } l)
      (parseObject (parseValue room) l) := by
  refine forEachMember_inStep ?_ ⟨?_, List.Pairwise.nil⟩
  · rintro key token _ msg l hplain ⟨rfl, hmsg⟩
    refine (msgMember_inStep room _ key hplain hmsg l).mono ?_
    rintro p q ⟨hl, hf⟩
    exact ⟨hl, hf, FlatMap.sorted_emplace hmsg⟩
  · rw [Fields.of_of_find_none hnone]
    rfl

/-- The first `msg` member, whatever it is. -/
theorem rootMember_msg_inStep (room : Nat) {token : Token} (hplain : Plain token) {o : JsonObject}
    (ho : FlatMap.Sorted o) (hnone : FlatMap.find (ascii "msg") o = none) (l : JsonLexer) :
    InStep (fun f v ↦ f = Fields.of (FlatMap.emplace (ascii "msg") v o))
      (rootMember room (ascii "msg") token (.of o) l) (parseValue room token l) := by
  have hseen : (Fields.of o).msgSeen = false := by
    rw [Fields.of_msgSeen, hnone]
    rfl
  rw [rootMember.eq_def]
  simp only [rootField?_msg, hseen, and_self, if_true]
  by_cases hbrace : token.type = .leftBrace
  · simp only [if_pos hbrace]
    cases room with
    | zero =>
        rw [parseValue_zero l (.inr hbrace)]
        exact .error _ _
    | succ room =>
        rw [parseValue_leftBrace room l hbrace]
        refine Except.Coupled.map_right (forEachMember_msg_inStep room l hnone) _ ?_
        rintro p q ⟨hl, hf, -⟩
        exact ⟨hl, hf.trans (Fields.of_emplace_object ho hnone).symm⟩
  · simp only [if_neg hbrace]
    refine ((skipValue_inStep room hplain { Fields.of o with msgSeen := true } l).and_right
      fun q hq ↦ asObject_parseValue hplain hbrace hq).mono ?_
    rintro p q ⟨⟨hl, hf⟩, hv⟩
    exact ⟨hl, hf.trans (Fields.of_emplace_not_object ho hnone hv).symm⟩

/-- `root_member` keeps the fields those of the object read so far. -/
theorem rootMember_inStep (room : Nat) (key : Bytes) {token : Token} (hplain : Plain token)
    {o : JsonObject} (ho : FlatMap.Sorted o) (l : JsonLexer) :
    InStep (fun f v ↦ f = Fields.of (FlatMap.emplace key v o))
      (rootMember room key token (.of o) l) (parseValue room token l) := by
  cases hroot : rootField? key with
  | some n =>
      obtain rfl := (rootField?_eq_some_iff key n).mp hroot
      have hfield : (Fields.of o).root n = .of (FlatMap.find n.key o) := by
        rw [Fields.of]
        cases getObject o (ascii "msg") <;> rfl
      rw [rootMember.eq_def]
      simp only [hroot, hfield]
      refine Except.Coupled.map_left (scalar_inStep room hplain l (FlatMap.find n.key o))
        (fun p ↦ ({ Fields.of o with root := Function.update (Fields.of o).root n p.1 }, p.2)) ?_
      rintro ⟨field, l'⟩ ⟨v, l''⟩ ⟨hl, hfield⟩
      obtain rfl : field = _ := hfield
      exact ⟨hl, (Fields.of_emplace_root n v ho).symm⟩
  | none =>
      have hne (n : RootField) : n.key ≠ key := fun h ↦ by
        rw [(rootField?_eq_some_iff key n).mpr h.symm] at hroot
        cases hroot
      by_cases hmsg : key = ascii "msg" ∧ (Fields.of o).msgSeen = false
      · obtain ⟨rfl, hseen⟩ := hmsg
        rw [Fields.of_msgSeen] at hseen
        exact rootMember_msg_inStep room hplain ho (Option.isNone_iff_eq_none.mp (by simpa using hseen)) l
      · rw [rootMember.eq_def]
        simp only [hroot, if_neg hmsg]
        refine (skipValue_inStep room hplain (Fields.of o) l).mono ?_
        rintro ⟨f, l'⟩ ⟨v, l''⟩ ⟨hl, hf⟩
        refine ⟨hl, hf.trans (Eq.symm ?_)⟩
        by_cases hkey : key = ascii "msg"
        · subst hkey
          rw [Fields.of_msgSeen] at hmsg
          obtain ⟨u, hu⟩ := Option.ne_none_iff_exists'.mp (by simpa using hmsg)
          exact Fields.of_emplace_msg_again v ho hu
        · exact Fields.of_emplace_of_ne v hne (Ne.symm hkey)

/-! ## The whole payload -/

/-- The root object of a payload, as the tree-based path finds it. -/
def parseRoot (l : JsonLexer) : Except JsonError JsonObject :=
  parse l >>= fun v ↦
    match asObject v with
    | some o => .ok o
    | none => Json.fail l "Root JSON is not an object"

/-- `decode` fails where there is no root object, and otherwise returns its fields. -/
theorem decode_coupled (l : JsonLexer) :
    Except.Coupled (fun stop : Stop ↦ stop.needsFallback = true) (fun f o ↦ f = Fields.of o)
      (decode l) (parseRoot l) := by
  rw [decode, parseRoot, parse]
  simp only [bind_assoc]
  refine (next_coupled l).bind ?_
  rintro ⟨first, l₁⟩ _ ⟨rfl, hplain⟩
  by_cases hbrace : first.type ≠ .leftBrace
  · simp only [if_pos hbrace]
    refine ((skipValue_inStep kMaxJsonDepth hplain () l₁).and_right
      fun q hq ↦ asObject_parseValue hplain hbrace hq).bind ?_
    rintro ⟨_, l₂⟩ ⟨v, _⟩ ⟨⟨rfl, -⟩, hv⟩
    refine (next_coupled l₂).bind ?_
    rintro ⟨last, l₃⟩ _ ⟨rfl, -⟩
    by_cases hlast : last.type ≠ .endOfInput
    · simp only [if_pos hlast]
      exact .error _ _
    · simp only [if_neg hlast, Except.bind_ok, hv]
      exact .error _ _
  · simp only [if_neg hbrace]
    have hobject : parseValue kMaxJsonDepth first l₁ =
        parseObject (parseValue (kMaxJsonDepth - 1)) l₁ >>= fun p ↦ .ok (.object p.1, p.2) :=
      parseValue_leftBrace (kMaxJsonDepth - 1) l₁ (not_not.mp hbrace)
    simp only [hobject, bind_assoc, Except.bind_ok]
    refine Except.Coupled.bind (forEachMember_inStep
      (S := fun f o ↦ f = Fields.of o ∧ FlatMap.Sorted o) ?_ ⟨rfl, List.Pairwise.nil⟩) ?_
    · rintro key token _ o l hplain ⟨rfl, ho⟩
      refine (rootMember_inStep _ key hplain ho l).mono ?_
      rintro p q ⟨hl, hf⟩
      exact ⟨hl, hf, FlatMap.sorted_emplace ho⟩
    · rintro ⟨f, l₂⟩ ⟨o, _⟩ ⟨rfl, hf, -⟩
      obtain rfl : f = Fields.of o := hf
      refine (next_coupled l₂).bind ?_
      rintro ⟨last, l₃⟩ _ ⟨rfl, -⟩
      by_cases hlast : last.type ≠ .endOfInput
      · simp only [if_pos hlast]
        exact .error _ _
      · simp only [if_neg hlast]
        exact .ok rfl

end Decoder

end KalshiClient.Protocol
