import KalshiClient.Json.Parser

/-!
# What the parser accepts

`parse_json` accepts the texts of `Syn .value`, with whitespace around them, whose containers nest at
most `kMaxJsonDepth` deep and whose surrogates are paired, and returns what the text denotes.

One direction is by induction on the syntax tree: on the text of a tree the parser returns its
denotation where the two conditions hold and fails where they do not (`Syn.parses`).  The other follows
the parser: whatever it has read is the text of some tree (`parseValue_sound`).  Together they leave
nothing open, since a text that was read is one the first direction speaks about.
-/

namespace KalshiClient.Json

open Bytes

/-! ## Strings -/

theorem StrBody.of_hasEscapes_eq_false {s : StrBody} (h : s.hasEscapes = false) :
    s.paired = true ∧ s.unescape = s.text := by
  induction s with
  | nil => exact ⟨rfl, rfl⟩
  | cons c s ih =>
      simp only [StrBody.hasEscapes, List.any_cons, Bool.or_eq_false_iff] at h
      obtain ⟨hpaired, hunescape⟩ := ih h.2
      cases c with
      | plain c hc =>
          refine ⟨by rw [← hpaired]; rfl, ?_⟩
          rw [StrBody.unescape, hunescape]
          · rfl
          · rintro q r s' ⟨⟩
      | short e he => cases h.1
      | unicode q => cases h.1

/-- The value of a string token is its unescaped content, if its surrogates are paired. -/
theorem stringValue_text (l : JsonLexer) (s : StrBody) :
    (stringValue l (Lexeme.string s).token).Gives (s.paired = true) s.unescape := by
  cases hescapes : s.hasEscapes with
  | false =>
      obtain ⟨hpaired, hunescape⟩ := StrBody.of_hasEscapes_eq_false hescapes
      refine ⟨fun _ ↦ ?_, fun h ↦ absurd hpaired h⟩
      rw [stringValue, Lexeme.token, hescapes, hunescape]
      rfl
  | true =>
      obtain ⟨hok, herror⟩ := decodeJsonString_text s
      rw [stringValue, Lexeme.token, hescapes, if_pos rfl]
      refine ⟨fun h ↦ by rw [hok h], fun h ↦ ?_⟩
      obtain ⟨e, he⟩ := herror h
      exact ⟨_, by rw [he]; rfl⟩

/-! ## The first token of a value -/

namespace Syn

/-- The lexeme a value starts with. -/
def first : Syn .value → Lexeme
  | .null => .null
  | .true => .true
  | .false => .false
  | .number n => .number n
  | .string s => .string s
  | .emptyArray _ | .array _ => .leftBracket
  | .emptyObject _ | .object _ => .leftBrace

/-- What follows the first lexeme of a value. -/
def tail : Syn .value → Bytes
  | .null | .true | .false | .number _ | .string _ => []
  | .emptyArray w => w.val ++ [']'.toUInt8]
  | .array es => es.text ++ [']'.toUInt8]
  | .emptyObject w => w.val ++ ['}'.toUInt8]
  | .object ms => ms.text ++ ['}'.toUInt8]

theorem text_eq (v : Syn .value) : v.text = v.first.text ++ v.tail := by
  cases v with
  | null | true | false | number | string => exact (List.append_nil _).symm
  | emptyArray | array | emptyObject | object => rfl

theorem first_ends (v : Syn .value) {r : Bytes} (hr : NumberEnds r) : v.first.Ends (v.tail ++ r) := by
  cases v with
  | number n => exact hr
  | _ => trivial

/-- No value starts with a closing bracket. -/
theorem first_type (v : Syn .value) :
    v.first.token.type ≠ .rightBracket ∧ v.first.token.type ≠ .rightBrace := by
  cases v with
  | _ => exact ⟨nofun, nofun⟩

end Syn

theorem not_continuesNumber_of_isWs : ∀ c : UInt8, isWs c = true → continuesNumber c = false := by
  refine Bytes.forall_byte ?_
  decide

/-- A number ends where whitespace or something else that cannot continue it follows. -/
theorem numberEnds_ws (w : Ws) {c : UInt8} (hc : continuesNumber c = false) (r : Bytes) :
    NumberEnds (w.val ++ c :: r) := by
  obtain ⟨w, hw⟩ := w
  cases w with
  | nil => exact numberEnds_cons hc r
  | cons d w => exact numberEnds_cons (not_continuesNumber_of_isWs d (hw d List.mem_cons_self)) _

/-- The lexer reads the first token of a value that something follows. -/
theorem next_first (size : Nat) (w : Ws) (v : Syn .value) {r : Bytes} (hr : NumberEnds r) :
    JsonLexer.next ⟨size, w.val ++ (v.text ++ r)⟩ = .ok (v.first.token, ⟨size, v.tail ++ r⟩) := by
  refine JsonLexer.next_lexeme w ?_ (v.first_ends hr)
  rw [v.text_eq, List.append_assoc]

/-! ## Rounds of the loops -/

section

variable {value : Token → JsonLexer → Except JsonError (JsonValue × JsonLexer)} {n size : Nat}
  {token : Token} {l : JsonLexer} {v : JsonValue} {r : Bytes} {c d : Prop}

theorem parseElements_last {array : JsonArray} (w : Ws)
    (hv : (value token l).Gives c (v, ⟨size, w.val ++ ']'.toUInt8 :: r⟩)) :
    (parseElements value (n + 1) token array l).Gives c (array ++ [v], ⟨size, r⟩) := by
  have hsep : JsonLexer.next ⟨size, w.val ++ ']'.toUInt8 :: r⟩ =
      .ok (Lexeme.rightBracket.token, ⟨size, r⟩) := JsonLexer.next_lexeme w rfl trivial
  rw [parseElements]
  refine (hv.bind (d := True) fun _ ↦ ?_).congr (and_iff_left trivial)
  simp only [hsep]
  exact .ok _

theorem parseElements_more {array : JsonArray} {b : JsonArray × JsonLexer} (w : Ws)
    (hv : (value token l).Gives c (v, ⟨size, w.val ++ ','.toUInt8 :: r⟩))
    (hrest : (JsonLexer.next ⟨size, r⟩ >>= fun p ↦
      parseElements value n p.1 (array ++ [v]) p.2).Gives d b) :
    (parseElements value (n + 1) token array l).Gives (c ∧ d) b := by
  have hsep : JsonLexer.next ⟨size, w.val ++ ','.toUInt8 :: r⟩ =
      .ok (Lexeme.comma.token, ⟨size, r⟩) := JsonLexer.next_lexeme w rfl trivial
  rw [parseElements]
  refine hv.bind fun _ ↦ ?_
  simp only [hsep]
  exact hrest

theorem parseMembers_last {object : JsonObject} {key : StrBody} {s : Bytes} (w₂ w₄ : Ws)
    (hnext : JsonLexer.next ⟨size, s⟩ = .ok (token, l))
    (hv : (value token l).Gives c (v, ⟨size, w₄.val ++ '}'.toUInt8 :: r⟩)) :
    (parseMembers value (n + 1) (Lexeme.string key).token object
      ⟨size, w₂.val ++ ':'.toUInt8 :: s⟩).Gives (key.paired = true ∧ c)
      (FlatMap.emplace key.unescape v object, ⟨size, r⟩) := by
  have hcolon : JsonLexer.next ⟨size, w₂.val ++ ':'.toUInt8 :: s⟩ =
      .ok (Lexeme.colon.token, ⟨size, s⟩) := JsonLexer.next_lexeme w₂ rfl trivial
  have hsep : JsonLexer.next ⟨size, w₄.val ++ '}'.toUInt8 :: r⟩ =
      .ok (Lexeme.rightBrace.token, ⟨size, r⟩) := JsonLexer.next_lexeme w₄ rfl trivial
  have hstring : ¬ (Lexeme.string key).token.type ≠ .string := not_not.mpr rfl
  rw [parseMembers, if_neg hstring]
  refine (stringValue_text _ key).bind fun _ ↦ ?_
  simp only [hcolon, hnext, Except.bind_ok]
  refine (hv.bind (d := True) fun _ ↦ ?_).congr (and_iff_left trivial)
  simp only [hsep]
  exact .ok _

theorem parseMembers_more {object : JsonObject} {key : StrBody} {s : Bytes}
    {b : JsonObject × JsonLexer} (w₂ w₄ : Ws)
    (hnext : JsonLexer.next ⟨size, s⟩ = .ok (token, l))
    (hv : (value token l).Gives c (v, ⟨size, w₄.val ++ ','.toUInt8 :: r⟩))
    (hrest : (JsonLexer.next ⟨size, r⟩ >>= fun p ↦
      parseMembers value n p.1 (FlatMap.emplace key.unescape v object) p.2).Gives d b) :
    (parseMembers value (n + 1) (Lexeme.string key).token object
      ⟨size, w₂.val ++ ':'.toUInt8 :: s⟩).Gives (key.paired = true ∧ c ∧ d) b := by
  have hcolon : JsonLexer.next ⟨size, w₂.val ++ ':'.toUInt8 :: s⟩ =
      .ok (Lexeme.colon.token, ⟨size, s⟩) := JsonLexer.next_lexeme w₂ rfl trivial
  have hsep : JsonLexer.next ⟨size, w₄.val ++ ','.toUInt8 :: r⟩ =
      .ok (Lexeme.comma.token, ⟨size, r⟩) := JsonLexer.next_lexeme w₄ rfl trivial
  have hstring : ¬ (Lexeme.string key).token.type ≠ .string := not_not.mpr rfl
  rw [parseMembers, if_neg hstring]
  refine (stringValue_text _ key).bind fun _ ↦ ?_
  simp only [hcolon, hnext, Except.bind_ok]
  refine hv.bind fun _ ↦ ?_
  simp only [hsep]
  exact hrest

end

/-! ## Every text of the grammar -/

namespace Syn

/-- On the text of the tree, the parser returns what it denotes if its surrogates are paired and its
containers fit, and fails otherwise. -/
def Parses : ∀ {i : Part}, Syn i → Prop
  | .value, v => ∀ (room size : Nat) (r : Bytes),
      (parseValue room v.first.token ⟨size, v.tail ++ r⟩).Gives
        (v.paired = Bool.true ∧ v.depth ≤ room) (v.denote, ⟨size, r⟩)
  | .elements, es => ∀ (room size n : Nat) (array : JsonArray) (r : Bytes), es.text.length ≤ n →
      (JsonLexer.next ⟨size, es.text ++ ']'.toUInt8 :: r⟩ >>= fun p ↦
        parseElements (parseValue room) n p.1 array p.2).Gives
        (es.paired = Bool.true ∧ es.depth ≤ room) (array ++ es.denote, ⟨size, r⟩)
  | .members, ms => ∀ (room size n : Nat) (object : JsonObject) (r : Bytes), ms.text.length ≤ n →
      (JsonLexer.next ⟨size, ms.text ++ '}'.toUInt8 :: r⟩ >>= fun p ↦
        parseMembers (parseValue room) n p.1 object p.2).Gives
        (ms.paired = Bool.true ∧ ms.depth ≤ room)
        (FlatMap.emplaceAll object ms.denote, ⟨size, r⟩)

/-- A scalar parses at any depth. -/
theorem parses_scalar {v : Syn .value} (hpaired : v.paired = Bool.true) (hdepth : v.depth = 0)
    (htail : v.tail = []) (h : ∀ room l, parseValue room v.first.token l = .ok (v.denote, l)) :
    v.Parses := by
  intro room size r
  rw [htail, List.nil_append, h]
  refine (Except.Gives.ok _).congr (iff_of_true trivial ⟨hpaired, ?_⟩)
  rw [hdepth]
  exact Nat.zero_le room

theorem parses_string (s : StrBody) : (Syn.string s).Parses := by
  intro room size r
  have hs := (stringValue_text ⟨size, r⟩ s).map fun s ↦ (JsonValue.string s, JsonLexer.mk size r)
  rw [first, parseValue_string room _ rfl]
  exact hs.congr (and_iff_left (Nat.zero_le room)).symm

/-- A container does not parse where there is no room for it. -/
theorem gives_too_deep {token : Token} {l : JsonLexer} {b : Bool} {depth : Nat}
    {a : JsonValue × JsonLexer} (h : token.type = .leftBracket ∨ token.type = .leftBrace) :
    (parseValue 0 token l).Gives (b = Bool.true ∧ depth + 1 ≤ 0) a := by
  rw [parseValue_zero l h]
  exact (Except.Gives.error _ _).congr (iff_of_false id fun h ↦ Nat.not_succ_le_zero _ h.2)

section

variable (w₁ w₂ w₃ w₄ : Ws) (k : StrBody) (v : Syn .value) (es : Syn .elements) (ms : Syn .members)
  (r : Bytes)

attribute [local simp] text

theorem text_lastElement_append :
    (Syn.lastElement w₁ v w₂).text ++ r = w₁.val ++ (v.text ++ (w₂.val ++ r)) := by
  simp

theorem text_element_append :
    (Syn.element w₁ v w₂ es).text ++ r =
      w₁.val ++ (v.text ++ (w₂.val ++ ','.toUInt8 :: (es.text ++ r))) := by
  simp

theorem text_lastMember_append :
    (Syn.lastMember w₁ k w₂ w₃ v w₄).text ++ r =
      w₁.val ++ ((Lexeme.string k).text ++
        (w₂.val ++ ':'.toUInt8 :: (w₃.val ++ (v.text ++ (w₄.val ++ r))))) := by
  simp [Lexeme.text]

theorem text_member_append :
    (Syn.member w₁ k w₂ w₃ v w₄ ms).text ++ r =
      w₁.val ++ ((Lexeme.string k).text ++ (w₂.val ++ ':'.toUInt8 ::
        (w₃.val ++ (v.text ++ (w₄.val ++ ','.toUInt8 :: (ms.text ++ r)))))) := by
  simp [Lexeme.text]

end

/-- The elements of an array start with a token that does not close it. -/
theorem next_elements (es : Syn .elements) (size : Nat) (r : Bytes) :
    ∃ token l, JsonLexer.next ⟨size, es.text ++ ']'.toUInt8 :: r⟩ = .ok (token, l) ∧
      token.type ≠ .rightBracket := by
  cases es with
  | lastElement w₁ v w₂ =>
      rw [text_lastElement_append]
      exact ⟨_, _, next_first size w₁ v (numberEnds_ws w₂ rfl r), v.first_type.1⟩
  | element w₁ v w₂ es =>
      rw [text_element_append]
      exact ⟨_, _, next_first size w₁ v (numberEnds_ws w₂ rfl _), v.first_type.1⟩

/-- The members of an object start with a token that does not close it. -/
theorem next_members (ms : Syn .members) (size : Nat) (r : Bytes) :
    ∃ token l, JsonLexer.next ⟨size, ms.text ++ '}'.toUInt8 :: r⟩ = .ok (token, l) ∧
      token.type ≠ .rightBrace := by
  cases ms with
  | lastMember w₁ k w₂ w₃ v w₄ =>
      rw [text_lastMember_append]
      exact ⟨(Lexeme.string k).token, _, JsonLexer.next_lexeme w₁ rfl trivial, nofun⟩
  | member w₁ k w₂ w₃ v w₄ ms =>
      rw [text_member_append]
      exact ⟨(Lexeme.string k).token, _, JsonLexer.next_lexeme w₁ rfl trivial, nofun⟩

theorem parses_array {es : Syn .elements} (ih : es.Parses) : (Syn.array es).Parses := by
  intro room size r
  cases room with
  | zero => exact gives_too_deep (.inl rfl)
  | succ room =>
      have hes := ih room size (es.text ++ ']'.toUInt8 :: r).length [] r (by simp)
      obtain ⟨token, l, hnext, htype⟩ := es.next_elements size r
      rw [hnext] at hes
      have harray : (parseArray (parseValue room) ⟨size, es.text ++ ']'.toUInt8 :: r⟩).Gives
          (es.paired = Bool.true ∧ es.depth ≤ room) (es.denote, ⟨size, r⟩) := by
        simp only [parseArray, hnext, Except.bind_ok, if_neg htype]
        exact hes
      rw [first, parseValue_leftBracket _ _ rfl, tail, List.append_assoc]
      exact (harray.map _).congr (and_congr_right' Nat.succ_le_succ_iff.symm)

theorem parses_object {ms : Syn .members} (ih : ms.Parses) : (Syn.object ms).Parses := by
  intro room size r
  cases room with
  | zero => exact gives_too_deep (.inr rfl)
  | succ room =>
      have hms := ih room size (ms.text ++ '}'.toUInt8 :: r).length [] r (by simp)
      obtain ⟨token, l, hnext, htype⟩ := ms.next_members size r
      rw [hnext] at hms
      have hobject : (parseObject (parseValue room) ⟨size, ms.text ++ '}'.toUInt8 :: r⟩).Gives
          (ms.paired = Bool.true ∧ ms.depth ≤ room)
          (FlatMap.emplaceAll [] ms.denote, ⟨size, r⟩) := by
        simp only [parseObject, hnext, Except.bind_ok, if_neg htype]
        exact hms
      rw [first, parseValue_leftBrace _ _ rfl, tail, List.append_assoc]
      exact (hobject.map _).congr (and_congr_right' Nat.succ_le_succ_iff.symm)

theorem parses_emptyArray (w : Ws) : (Syn.emptyArray w).Parses := by
  intro room size r
  cases room with
  | zero => exact gives_too_deep (.inl rfl)
  | succ room =>
      have hnext : JsonLexer.next ⟨size, w.val ++ ']'.toUInt8 :: r⟩ =
          .ok (Lexeme.rightBracket.token, ⟨size, r⟩) := JsonLexer.next_lexeme w rfl trivial
      rw [first, parseValue_leftBracket _ _ rfl, tail, List.append_assoc, List.singleton_append,
        parseArray]
      simp only [hnext]
      exact (Except.Gives.ok _).congr (iff_of_true trivial ⟨rfl, Nat.succ_le_succ (Nat.zero_le _)⟩)

theorem parses_emptyObject (w : Ws) : (Syn.emptyObject w).Parses := by
  intro room size r
  cases room with
  | zero => exact gives_too_deep (.inr rfl)
  | succ room =>
      have hnext : JsonLexer.next ⟨size, w.val ++ '}'.toUInt8 :: r⟩ =
          .ok (Lexeme.rightBrace.token, ⟨size, r⟩) := JsonLexer.next_lexeme w rfl trivial
      rw [first, parseValue_leftBrace _ _ rfl, tail, List.append_assoc, List.singleton_append,
        parseObject]
      simp only [hnext]
      exact (Except.Gives.ok _).congr (iff_of_true trivial ⟨rfl, Nat.succ_le_succ (Nat.zero_le _)⟩)

/-- Nothing of the grammar is empty. -/
theorem text_pos {i : Part} (d : Syn i) : 0 < d.text.length := by
  have value_pos (v : Syn .value) : 0 < v.text.length := by
    rw [v.text_eq, List.length_append]
    exact Nat.add_pos_left (List.length_pos_of_ne_nil (v.first.text_head []).1) _
  cases d with
  | lastElement w₁ v w₂ | element w₁ v w₂ es =>
      have := value_pos v
      simp only [text, List.length_append]
      omega
  | lastMember w₁ k w₂ w₃ v w₄ | member w₁ k w₂ w₃ v w₄ ms =>
      have := value_pos v
      simp only [text, List.length_append]
      omega
  | _ => exact value_pos _

theorem parses_lastElement (w₁ : Ws) {v : Syn .value} (w₂ : Ws) (ih : v.Parses) :
    (Syn.lastElement w₁ v w₂).Parses := by
  intro room size n array r hn
  obtain ⟨n, rfl⟩ := Nat.exists_eq_add_one.mpr (lt_of_lt_of_le (text_pos _) hn)
  rw [text_lastElement_append, next_first size w₁ v (numberEnds_ws w₂ rfl r)]
  exact parseElements_last w₂ (ih room size _)

theorem parses_element (w₁ : Ws) {v : Syn .value} (w₂ : Ws) {es : Syn .elements} (ih : v.Parses)
    (ihes : es.Parses) : (Syn.element w₁ v w₂ es).Parses := by
  intro room size n array r hn
  obtain ⟨n, rfl⟩ := Nat.exists_eq_add_one.mpr (lt_of_lt_of_le (text_pos _) hn)
  have hlen : es.text.length ≤ n := by
    simp only [text, List.length_append, List.length_cons] at hn
    omega
  have hes := ihes room size n (array ++ [v.denote]) r hlen
  rw [List.append_assoc, List.singleton_append] at hes
  rw [text_element_append, next_first size w₁ v (numberEnds_ws w₂ rfl _)]
  refine (parseElements_more w₂ (ih room size _) hes).congr ?_
  simp only [paired, depth, Bool.and_eq_true, max_le_iff]
  exact and_and_and_comm

theorem parses_lastMember (w₁ : Ws) (k : StrBody) (w₂ w₃ : Ws) {v : Syn .value} (w₄ : Ws)
    (ih : v.Parses) : (Syn.lastMember w₁ k w₂ w₃ v w₄).Parses := by
  intro room size n object r hn
  obtain ⟨n, rfl⟩ := Nat.exists_eq_add_one.mpr (lt_of_lt_of_le (text_pos _) hn)
  rw [text_lastMember_append, JsonLexer.next_lexeme (x := .string k) w₁ rfl trivial]
  refine (parseMembers_last w₂ w₄ (next_first size w₃ v (numberEnds_ws w₄ rfl r))
    (ih room size _)).congr ?_
  simp only [paired, depth, Bool.and_eq_true]
  exact and_assoc.symm

theorem parses_member (w₁ : Ws) (k : StrBody) (w₂ w₃ : Ws) {v : Syn .value} (w₄ : Ws)
    {ms : Syn .members} (ih : v.Parses) (ihms : ms.Parses) :
    (Syn.member w₁ k w₂ w₃ v w₄ ms).Parses := by
  intro room size n object r hn
  obtain ⟨n, rfl⟩ := Nat.exists_eq_add_one.mpr (lt_of_lt_of_le (text_pos _) hn)
  have hlen : ms.text.length ≤ n := by
    simp only [text, List.length_append, List.length_cons] at hn
    omega
  have hms := ihms room size n (FlatMap.emplace k.unescape v.denote object) r hlen
  rw [text_member_append, JsonLexer.next_lexeme (x := .string k) w₁ rfl trivial]
  refine (parseMembers_more w₂ w₄ (next_first size w₃ v (numberEnds_ws w₄ rfl _))
    (ih room size _) hms).congr ?_
  simp only [paired, depth, Bool.and_eq_true, max_le_iff]
  tauto

/-- Every text of the grammar is parsed, or rejected for its surrogates or its depth. -/
theorem parses {i : Part} (d : Syn i) : d.Parses := by
  induction d with
  | null | true | false =>
      exact parses_scalar rfl rfl rfl fun room l ↦ by rw [parseValue.eq_def]; rfl
  | number n => exact parses_scalar rfl rfl rfl fun room l ↦ parseValue_number room l rfl
  | string s => exact parses_string s
  | emptyArray w => exact parses_emptyArray w
  | array es ih => exact parses_array ih
  | emptyObject w => exact parses_emptyObject w
  | object ms ih => exact parses_object ih
  | lastElement w₁ v w₂ ih => exact parses_lastElement w₁ w₂ ih
  | element w₁ v w₂ es ih ihes => exact parses_element w₁ w₂ ih ihes
  | lastMember w₁ k w₂ w₃ v w₄ ih => exact parses_lastMember w₁ k w₂ w₃ w₄ ih
  | member w₁ k w₂ w₃ v w₄ ms ih ihms => exact parses_member w₁ k w₂ w₃ w₄ ih ihms

end Syn

/-- The whole of `parse`, on a value with whitespace around it. -/
theorem parse_text (w₁ : Ws) (d : Syn .value) (w₂ : Ws) :
    (parse (.ofBytes (w₁.val ++ d.text ++ w₂.val))).Gives
      (d.paired = true ∧ d.depth ≤ kMaxJsonDepth) d.denote := by
  have hr : NumberEnds w₂.val := by
    obtain ⟨w, hw⟩ := w₂
    cases w with
    | nil => exact numberEnds_nil
    | cons c w => exact numberEnds_cons (not_continuesNumber_of_isWs c (hw c List.mem_cons_self)) w
  have hfirst := next_first (w₁.val ++ d.text ++ w₂.val).length w₁ d hr
  rw [← List.append_assoc] at hfirst
  have hlast := JsonLexer.next_end (l := ⟨(w₁.val ++ d.text ++ w₂.val).length, w₂.val⟩) w₂.property
  rw [parse, JsonLexer.ofBytes, hfirst]
  refine ((d.parses kMaxJsonDepth _ w₂.val).bind (d := True) fun _ ↦ ?_).congr (and_iff_left trivial)
  simp only [hlast]
  exact .ok _

/-! ## Nothing but texts of the grammar -/

section

variable {l l' : JsonLexer} {token : Token}

theorem Lexeme.eq_of_type {x y : Lexeme} (h : y.token.type = x.token.type)
    (hstring : x.token.type ≠ .string) (hnumber : x.token.type ≠ .number) : y = x := by
  cases x with
  | string s => exact absurd rfl hstring
  | number n => exact absurd rfl hnumber
  | _ => cases y <;> first | rfl | cases h

/-- A token that the parser recognises by its type alone. -/
theorem next_of_type (x : Lexeme) (h : l.next = .ok (token, l')) (htype : token.type = x.token.type)
    (hstring : x.token.type ≠ .string) (hnumber : x.token.type ≠ .number) :
    ∃ w : Ws, l.rest = w.val ++ (x.text ++ l'.rest) := by
  rcases JsonLexer.next_sound h with ⟨-, rfl, -⟩ | ⟨w, y, rfl, hrest, -⟩
  · cases x <;> cases htype
  · obtain rfl := Lexeme.eq_of_type htype hstring hnumber
    exact ⟨w, hrest⟩

theorem next_string (h : l.next = .ok (token, l')) (htype : token.type = .string) :
    ∃ (w : Ws) (s : StrBody), l.rest = w.val ++ (quoted s.text ++ l'.rest) := by
  rcases JsonLexer.next_sound h with ⟨-, rfl, -⟩ | ⟨w, x, rfl, hrest, -⟩
  · cases htype
  · cases x with
    | string s => exact ⟨w, s, hrest⟩
    | _ => cases htype

/-- What `value` has read, from the whitespace before its first token on, is the text of a value. -/
def Reads (value : Token → JsonLexer → Except JsonError (JsonValue × JsonLexer)) : Prop :=
  ∀ {l₀ l l' : JsonLexer} {token : Token} {v : JsonValue}, l₀.next = .ok (token, l) →
    value token l = .ok (v, l') →
    ∃ (w : Ws) (d : Syn .value), l₀.rest = w.val ++ (d.text ++ l'.rest)

variable {value : Token → JsonLexer → Except JsonError (JsonValue × JsonLexer)} {n : Nat}
  {l₀ : JsonLexer}

theorem parseElements_sound (hvalue : Reads value) {array array' : JsonArray}
    (hnext : l₀.next = .ok (token, l))
    (h : parseElements value n token array l = .ok (array', l')) :
    ∃ es : Syn .elements, l₀.rest = es.text ++ ']'.toUInt8 :: l'.rest := by
  induction n generalizing l₀ token array l with
  | zero => cases h
  | succ n ih =>
      rw [parseElements] at h
      obtain ⟨⟨v, l₁⟩, hv, h⟩ := Except.bind_eq_ok_iff.mp h
      obtain ⟨⟨sep, l₂⟩, hsep, h⟩ := Except.bind_eq_ok_iff.mp h
      obtain ⟨w₁, d, hd⟩ := hvalue hnext hv
      simp only at h
      split_ifs at h with hclose hcomma
      · cases h
        obtain ⟨w₂, hw₂⟩ := next_of_type .rightBracket hsep hclose nofun nofun
        refine ⟨.lastElement w₁ d w₂, ?_⟩
        rw [Syn.text_lastElement_append, hd, hw₂]
        rfl
      · cases h
      · obtain ⟨⟨token', l₃⟩, hnext', h⟩ := Except.bind_eq_ok_iff.mp h
        obtain ⟨w₂, hw₂⟩ := next_of_type .comma hsep (not_not.mp hcomma) nofun nofun
        obtain ⟨es, hes⟩ := ih hnext' h
        refine ⟨.element w₁ d w₂ es, ?_⟩
        rw [Syn.text_element_append, hd, hw₂, hes]
        rfl

theorem parseMembers_sound (hvalue : Reads value) {object object' : JsonObject}
    (hnext : l₀.next = .ok (token, l))
    (h : parseMembers value n token object l = .ok (object', l')) :
    ∃ ms : Syn .members, l₀.rest = ms.text ++ '}'.toUInt8 :: l'.rest := by
  induction n generalizing l₀ token object l with
  | zero => cases h
  | succ n ih =>
      rw [parseMembers] at h
      by_cases hstring : token.type ≠ .string
      · rw [if_pos hstring] at h
        cases h
      rw [if_neg hstring] at h
      obtain ⟨key, -, h⟩ := Except.bind_eq_ok_iff.mp h
      obtain ⟨⟨colon, l₁⟩, hcolon, h⟩ := Except.bind_eq_ok_iff.mp h
      simp only at h
      by_cases htype : colon.type ≠ .colon
      · rw [if_pos htype] at h
        cases h
      rw [if_neg htype] at h
      obtain ⟨⟨valueToken, l₂⟩, hnextv, h⟩ := Except.bind_eq_ok_iff.mp h
      obtain ⟨⟨v, l₃⟩, hv, h⟩ := Except.bind_eq_ok_iff.mp h
      obtain ⟨⟨sep, l₄⟩, hsep, h⟩ := Except.bind_eq_ok_iff.mp h
      obtain ⟨w₁, k, hk⟩ := next_string hnext (not_not.mp hstring)
      obtain ⟨w₂, hw₂⟩ := next_of_type .colon hcolon (not_not.mp htype) nofun nofun
      obtain ⟨w₃, d, hd⟩ := hvalue hnextv hv
      simp only at h
      split_ifs at h with hclose hcomma
      · cases h
        obtain ⟨w₄, hw₄⟩ := next_of_type .rightBrace hsep hclose nofun nofun
        refine ⟨.lastMember w₁ k w₂ w₃ d w₄, ?_⟩
        rw [Syn.text_lastMember_append, hk, hw₂, hd, hw₄]
        rfl
      · cases h
      · obtain ⟨⟨token', l₅⟩, hnext', h⟩ := Except.bind_eq_ok_iff.mp h
        obtain ⟨w₄, hw₄⟩ := next_of_type .comma hsep (not_not.mp hcomma) nofun nofun
        obtain ⟨ms, hms⟩ := ih hnext' h
        refine ⟨.member w₁ k w₂ w₃ d w₄ ms, ?_⟩
        rw [Syn.text_member_append, hk, hw₂, hd, hw₄, hms]
        rfl

theorem parseArray_sound (hvalue : Reads value) {array : JsonArray}
    (h : parseArray value l = .ok (array, l')) :
    ∃ d : Syn .value, '['.toUInt8 :: l.rest = d.text ++ l'.rest := by
  rw [parseArray] at h
  obtain ⟨⟨token, l₁⟩, hnext, h⟩ := Except.bind_eq_ok_iff.mp h
  simp only at h
  split_ifs at h with hclose
  · cases h
    obtain ⟨w, hw⟩ := next_of_type .rightBracket hnext hclose nofun nofun
    exact ⟨.emptyArray w, by simp [Syn.text, hw, Lexeme.text]⟩
  · obtain ⟨es, hes⟩ := parseElements_sound hvalue hnext h
    exact ⟨.array es, by simp [Syn.text, hes]⟩

theorem parseObject_sound (hvalue : Reads value) {object : JsonObject}
    (h : parseObject value l = .ok (object, l')) :
    ∃ d : Syn .value, '{'.toUInt8 :: l.rest = d.text ++ l'.rest := by
  rw [parseObject] at h
  obtain ⟨⟨token, l₁⟩, hnext, h⟩ := Except.bind_eq_ok_iff.mp h
  simp only at h
  split_ifs at h with hclose
  · cases h
    obtain ⟨w, hw⟩ := next_of_type .rightBrace hnext hclose nofun nofun
    exact ⟨.emptyObject w, by simp [Syn.text, hw, Lexeme.text]⟩
  · obtain ⟨ms, hms⟩ := parseMembers_sound hvalue hnext h
    exact ⟨.object ms, by simp [Syn.text, hms]⟩

/-- What follows the first token of a value completes it, if what is inside containers does. -/
theorem parseValue_sound_lexeme {room : Nat} {x : Lexeme} {v : JsonValue}
    (ih : ∀ m, room = m + 1 → Reads (parseValue m)) (h : parseValue room x.token l = .ok (v, l')) :
    ∃ d : Syn .value, x.text ++ l.rest = d.text ++ l'.rest := by
  cases x with
  | leftBrace =>
      cases room with
      | zero =>
          rw [parseValue_zero l (.inr rfl)] at h
          cases h
      | succ room =>
          rw [parseValue_leftBrace room l rfl] at h
          obtain ⟨⟨object, l₁⟩, hobject, hok⟩ := Except.bind_eq_ok_iff.mp h
          cases hok
          exact parseObject_sound (ih room rfl) hobject
  | leftBracket =>
      cases room with
      | zero =>
          rw [parseValue_zero l (.inl rfl)] at h
          cases h
      | succ room =>
          rw [parseValue_leftBracket room l rfl] at h
          obtain ⟨⟨array, l₁⟩, harray, hok⟩ := Except.bind_eq_ok_iff.mp h
          cases hok
          exact parseArray_sound (ih room rfl) harray
  | string s =>
      rw [parseValue_string room l rfl] at h
      obtain ⟨t, -, hok⟩ := Except.bind_eq_ok_iff.mp h
      cases hok
      exact ⟨.string s, rfl⟩
  | number n =>
      rw [parseValue_number room l rfl] at h
      cases h
      exact ⟨.number n, rfl⟩
  | true =>
      rw [parseValue.eq_def] at h
      cases h
      exact ⟨.true, rfl⟩
  | false =>
      rw [parseValue.eq_def] at h
      cases h
      exact ⟨.false, rfl⟩
  | null =>
      rw [parseValue.eq_def] at h
      cases h
      exact ⟨.null, rfl⟩
  | rightBrace | rightBracket | colon | comma =>
      rw [parseValue.eq_def] at h
      cases h

/-- Whatever `parse_value` has read is the text of a value. -/
theorem parseValue_sound (room : Nat) : Reads (parseValue room) := by
  -- By induction on the room: the values inside a container are parsed with less of it.
  induction room with
  | zero =>
      intro l₀ l l' token v hnext h
      rcases JsonLexer.next_sound hnext with ⟨-, rfl, -⟩ | ⟨w, x, rfl, hrest, -⟩
      · rw [parseValue.eq_def] at h
        cases h
      · obtain ⟨d, hd⟩ := parseValue_sound_lexeme (fun m hm ↦ absurd hm.symm (Nat.succ_ne_zero m)) h
        exact ⟨w, d, by rw [hrest, hd]⟩
  | succ room ih =>
      intro l₀ l l' token v hnext h
      rcases JsonLexer.next_sound hnext with ⟨-, rfl, -⟩ | ⟨w, x, rfl, hrest, -⟩
      · rw [parseValue.eq_def] at h
        cases h
      · obtain ⟨d, hd⟩ := parseValue_sound_lexeme (fun m hm ↦ Nat.succ.inj hm ▸ ih) h
        exact ⟨w, d, by rw [hrest, hd]⟩

/-- Whatever `parse` accepts is one value with whitespace around it. -/
theorem parse_sound {s : Bytes} {v : JsonValue} (h : parse (.ofBytes s) = .ok v) :
    ∃ (w₁ : Ws) (d : Syn .value) (w₂ : Ws), s = w₁.val ++ d.text ++ w₂.val := by
  rw [parse] at h
  obtain ⟨⟨first, l₁⟩, hfirst, h⟩ := Except.bind_eq_ok_iff.mp h
  obtain ⟨⟨v, l₂⟩, hv, h⟩ := Except.bind_eq_ok_iff.mp h
  obtain ⟨⟨last, l₃⟩, hlast, h⟩ := Except.bind_eq_ok_iff.mp h
  obtain ⟨w, d, hd⟩ := parseValue_sound kMaxJsonDepth hfirst hv
  simp only at h
  split_ifs at h with htype
  · cases h
  · rcases JsonLexer.next_sound hlast with ⟨hws, -, -⟩ | ⟨-, x, rfl, -, -⟩
    · exact ⟨w, d, ⟨l₂.rest, hws⟩, by rw [List.append_assoc]; exact hd⟩
    · cases x <;> exact absurd nofun htype

end

/-! ## The language of the parser -/

theorem parseJson_eq_ok_iff {s : Bytes} {v : JsonValue} :
    parseJson s = .ok v ↔ parse (.ofBytes s) = .ok v := by
  rw [parseJson]
  cases parse (.ofBytes s) with
  | ok v' => exact Iff.of_eq (by rw [Except.ok.injEq, Except.ok.injEq])
  | error e => exact iff_of_false Except.error_ne_ok Except.error_ne_ok

/-- A text that is a value with whitespace around it parses, if its surrogates are paired and its
containers nest at most `kMaxJsonDepth` deep, to what it denotes; and it is rejected otherwise. -/
theorem parseJson_text (w₁ : Ws) (d : Syn .value) (w₂ : Ws) :
    (parseJson (w₁.val ++ d.text ++ w₂.val)).Gives (d.paired = true ∧ d.depth ≤ kMaxJsonDepth)
      d.denote := by
  obtain ⟨hok, herror⟩ := parse_text w₁ d w₂
  constructor
  · exact fun h ↦ parseJson_eq_ok_iff.mpr (hok h)
  · intro h
    obtain ⟨e, he⟩ := herror h
    exact ⟨e.message, by rw [parseJson, he]⟩

/-- The object a list of members denotes: ordered by key, each key with its first value. -/
theorem Syn.denote_object (ms : Syn .members) :
    ∃ o : JsonObject, (Syn.object ms).denote = JsonValue.object o ∧ FlatMap.Sorted o ∧
      ∀ k, FlatMap.find k o = FlatMap.find k ms.denote := by
  refine ⟨_, rfl, FlatMap.sorted_emplaceAll List.Pairwise.nil, fun k ↦ ?_⟩
  rw [FlatMap.find_emplaceAll List.Pairwise.nil, FlatMap.find_nil, Option.none_or]

/-- `parse_json` accepts exactly the texts that are one value with whitespace around it, with paired
surrogates and containers at most `kMaxJsonDepth` deep, and returns the value denoted; the object a
text denotes has, for each key of the text, the value of the first member with that key. -/
theorem parseJson_eq_ok_iff_denotes :
    (∀ (s : Bytes) (v : JsonValue), parseJson s = .ok v ↔
      ∃ (w₁ : Ws) (d : Syn .value) (w₂ : Ws), s = w₁.val ++ d.text ++ w₂.val ∧
        d.depth ≤ kMaxJsonDepth ∧ d.paired = true ∧ d.denote = v) ∧
    ∀ ms : Syn .members, ∃ o : JsonObject, (Syn.object ms).denote = JsonValue.object o ∧
      FlatMap.Sorted o ∧ ∀ k, FlatMap.find k o = FlatMap.find k ms.denote := by
  refine ⟨fun s v ↦ ⟨fun h ↦ ?_, ?_⟩, Syn.denote_object⟩
  · obtain ⟨w₁, d, w₂, rfl⟩ := parse_sound (parseJson_eq_ok_iff.mp h)
    obtain ⟨⟨hpaired, hdepth⟩, rfl⟩ := (parseJson_text w₁ d w₂).of_ok h
    exact ⟨w₁, d, w₂, rfl, hdepth, hpaired, rfl⟩
  · rintro ⟨w₁, d, w₂, rfl, hdepth, hpaired, rfl⟩
    exact (parseJson_text w₁ d w₂).1 ⟨hpaired, hdepth⟩

end KalshiClient.Json
