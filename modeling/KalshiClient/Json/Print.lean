import KalshiClient.Json.ParserSpec
import KalshiClient.Json.Unicode

/-!
# Printing JSON

`json_quote` and `to_json_string` of `src/protocol/kalshi_messages.cpp`, and the round trip through
`parse_json`.  What the printer writes is the text of a syntax tree without whitespace that denotes the
value printed (`exists_syn_value`), so the round trip is a case of what the parser accepts.
-/

namespace KalshiClient.Json

open Bytes

/-! ## The printer -/

/-- `std::format("{:04x}", n)`. -/
def formatHex4 (n : Nat) : Bytes :=
  let digits := (Nat.toDigits 16 n).map Char.toUInt8
  List.replicate (4 - digits.length) '0'.toUInt8 ++ digits

/-- What `json_quote` writes for one byte. -/
def jsonEscape (c : UInt8) : Bytes :=
  if c = '"'.toUInt8 then ascii "\\\""
  else if c = '\\'.toUInt8 then ascii "\\\\"
  else if c = '\n'.toUInt8 then ascii "\\n"
  else if c = '\r'.toUInt8 then ascii "\\r"
  else if c = '\t'.toUInt8 then ascii "\\t"
  else if c < 0x20 then ascii "\\u" ++ formatHex4 c.toNat
  else [c]

/-- `json_quote`. -/
def jsonQuote (s : Bytes) : Bytes := '"'.toUInt8 :: s.flatMap jsonEscape ++ ['"'.toUInt8]

/-- What is written before the entry with index `i` of a container. -/
def separator (i : Nat) : Bytes := if i ≠ 0 then ascii "," else []

mutual

/-- `to_json_string`. -/
def toJsonString : JsonValue → Bytes
  | .null => ascii "null"
  | .bool b => if b then ascii "true" else ascii "false"
  | .string s => jsonQuote s
  | .array vs => ['['.toUInt8] ++ elementsToString 0 vs ++ [']'.toUInt8]
  | .object ms => ['{'.toUInt8] ++ membersToString 0 ms ++ ['}'.toUInt8]

/-- The loop over the elements of an array, from index `i` on. -/
def elementsToString (i : Nat) : List JsonValue → Bytes
  | [] => []
  | v :: vs => separator i ++ toJsonString v ++ elementsToString (i + 1) vs

/-- The loop over the members of an object, from index `i` on. -/
def membersToString (i : Nat) : List (Bytes × JsonValue) → Bytes
  | [] => []
  | m :: ms =>
    separator i ++ jsonQuote m.1 ++ ascii ":" ++ toJsonString m.2 ++ membersToString (i + 1) ms

end

/-! ## Strings -/

/-- The last hexadecimal digit of a byte. -/
def hexLast (c : UInt8) : UInt8 := (Nat.digitChar (c.toNat % 16)).toUInt8

/-- The first hexadecimal digit of a byte. -/
def hexFirst (c : UInt8) : UInt8 := (Nat.digitChar (c.toNat / 16)).toUInt8

theorem isHex_format : ∀ c : UInt8,
    (isHex '0'.toUInt8 && isHex '0'.toUInt8 && isHex (hexFirst c) && isHex (hexLast c)) = true := by
  refine Bytes.forall_byte ?_
  decide

/-- The four digits `json_quote` writes for a control character. -/
def controlQuad (c : UInt8) : HexQuad :=
  ⟨'0'.toUInt8, '0'.toUInt8, hexFirst c, hexLast c, isHex_format c⟩

theorem controlQuad_spec : ∀ c : UInt8, c < 0x20 →
    formatHex4 c.toNat = (controlQuad c).text ∧ (controlQuad c).unit = c.toNat ∧
      utf8 c.toNat = [c] := by
  refine Bytes.forall_byte ?_
  decide

/-- What is written for a byte is a character of a JSON string that stands for that byte and is no
surrogate. -/
theorem exists_strChar (c : UInt8) : ∃ x : StrChar, x.text = jsonEscape c ∧ x.bytes = [c] ∧
    ∀ q, x = .unicode q → q.isHigh = false ∧ q.isLow = false := by
  rw [jsonEscape]
  split_ifs with h₁ h₂ h₃ h₄ h₅ h₆
  · exact ⟨.short '"'.toUInt8 (by decide), rfl, by rw [h₁]; rfl, by rintro _ ⟨⟩⟩
  · exact ⟨.short '\\'.toUInt8 (by decide), rfl, by rw [h₂]; rfl, by rintro _ ⟨⟩⟩
  · exact ⟨.short 'n'.toUInt8 (by decide), rfl, by rw [h₃]; rfl, by rintro _ ⟨⟩⟩
  · exact ⟨.short 'r'.toUInt8 (by decide), rfl, by rw [h₄]; rfl, by rintro _ ⟨⟩⟩
  · exact ⟨.short 't'.toUInt8 (by decide), rfl, by rw [h₅]; rfl, by rintro _ ⟨⟩⟩
  · obtain ⟨htext, hunit, hutf8⟩ := controlQuad_spec c h₆
    refine ⟨.unicode (controlQuad c), ?_, ?_, ?_⟩
    · rw [htext]
      rfl
    · rw [StrChar.bytes, hunit, hutf8]
    · rintro _ ⟨⟩
      have hc : c.toNat < 0x20 := h₆
      rw [HexQuad.isHigh, HexQuad.isLow, hunit]
      constructor <;> simp <;> omega
  · have hplain : isPlain c = true := by simp [isPlain, h₁, h₂, not_lt.mp h₆]
    exact ⟨.plain c hplain, rfl, rfl, by rintro _ ⟨⟩⟩

/-- What `json_quote` writes is a string literal of the string quoted. -/
theorem exists_strBody (s : Bytes) :
    ∃ b : StrBody, quoted b.text = jsonQuote s ∧ b.paired = true ∧ b.unescape = s := by
  suffices h : ∃ b : StrBody, b.text = s.flatMap jsonEscape ∧ b.paired = true ∧ b.unescape = s by
    obtain ⟨b, htext, hb⟩ := h
    exact ⟨b, by rw [htext]; rfl, hb⟩
  induction s with
  | nil => exact ⟨[], rfl, rfl, rfl⟩
  | cons c s ih =>
      obtain ⟨b, htext, hpaired, hunescape⟩ := ih
      obtain ⟨x, hx, hbytes, hplain⟩ := exists_strChar c
      obtain ⟨hun, hpa⟩ := StrBody.unescape_cons (s := b) hplain
      refine ⟨x :: b, ?_, by rw [hpa, hpaired], by rw [hun, hbytes, hunescape]; rfl⟩
      rw [List.flatMap_cons, ← hx, ← htext]
      rfl

/-! ## Values -/

/-- The tree `d` is what is printed for `v`. -/
structure Printed (v : JsonValue) (d : Syn .value) : Prop where
  text : d.text = toJsonString v
  paired : d.paired = true
  depth : d.depth = v.depth
  denote : d.denote = v

/-- No whitespace. -/
def Ws.none : Ws := ⟨[], fun _ h ↦ absurd h List.not_mem_nil⟩

theorem exists_syn_elements {v : JsonValue} {vs : List JsonValue}
    (h : ∀ u ∈ v :: vs, ∃ d, Printed u d) :
    ∃ es : Syn .elements, (∀ i, elementsToString i (v :: vs) = separator i ++ es.text) ∧
      es.paired = true ∧ es.depth = JsonValue.depthElements (v :: vs) ∧ es.denote = v :: vs := by
  induction vs generalizing v with
  | nil =>
      obtain ⟨d, hd⟩ := h v List.mem_cons_self
      refine ⟨.lastElement .none d .none, fun i ↦ ?_, hd.paired, ?_, by rw [Syn.denote, hd.denote]⟩
      · simp [elementsToString, Syn.text, Ws.none, hd.text]
      · simp [Syn.depth, hd.depth, JsonValue.depthElements]
  | cons u vs ih =>
      obtain ⟨d, hd⟩ := h v List.mem_cons_self
      obtain ⟨es, htext, hpaired, hdepth, hdenote⟩ := ih fun t ht ↦ h t (List.mem_cons_of_mem v ht)
      refine ⟨.element .none d .none es, fun i ↦ ?_, ?_, ?_, by rw [Syn.denote, hd.denote, hdenote]⟩
      · rw [elementsToString, htext]
        simp [Syn.text, Ws.none, hd.text, separator, ascii]
      · rw [Syn.paired, hd.paired, hpaired]
        rfl
      · rw [Syn.depth, hd.depth, hdepth]
        exact (JsonValue.depthElements.eq_2 v (u :: vs)).symm

theorem exists_syn_members {m : Bytes × JsonValue} {ms : List (Bytes × JsonValue)}
    (h : ∀ u ∈ m :: ms, ∃ d, Printed u.2 d) :
    ∃ d : Syn .members, (∀ i, membersToString i (m :: ms) = separator i ++ d.text) ∧
      d.paired = true ∧ d.depth = JsonValue.depthMembers (m :: ms) ∧ d.denote = m :: ms := by
  induction ms generalizing m with
  | nil =>
      obtain ⟨d, hd⟩ := h m List.mem_cons_self
      obtain ⟨k, hk, hkpaired, hkey⟩ := exists_strBody m.1
      refine ⟨.lastMember .none k .none .none d .none, fun i ↦ ?_, ?_, ?_, ?_⟩
      · simp [membersToString, Syn.text, Ws.none, hd.text, hk, ascii]
      · rw [Syn.paired, hkpaired, hd.paired]
        rfl
      · simp [Syn.depth, hd.depth, JsonValue.depthMembers]
      · rw [Syn.denote, hd.denote, hkey]
  | cons m' ms ih =>
      obtain ⟨d, hd⟩ := h m List.mem_cons_self
      obtain ⟨k, hk, hkpaired, hkey⟩ := exists_strBody m.1
      obtain ⟨e, htext, hpaired, hdepth, hdenote⟩ := ih fun t ht ↦ h t (List.mem_cons_of_mem m ht)
      refine ⟨.member .none k .none .none d .none e, fun i ↦ ?_, ?_, ?_, ?_⟩
      · rw [membersToString, htext]
        simp [Syn.text, Ws.none, hd.text, hk, separator, ascii]
      · rw [Syn.paired, hkpaired, hd.paired, hpaired]
        rfl
      · rw [Syn.depth, hd.depth, hdepth]
        exact (JsonValue.depthMembers.eq_2 m (m' :: ms)).symm
      · rw [Syn.denote, hd.denote, hkey, hdenote]

/-- What is printed for a value is a text of the grammar that denotes it. -/
theorem exists_syn_value (v : JsonValue) (hsorted : v.Sorted) : ∃ d, Printed v d := by
  induction v with
  | null => exact ⟨.null, rfl, rfl, rfl, rfl⟩
  | bool b =>
      cases b with
      | false => exact ⟨.false, rfl, rfl, rfl, rfl⟩
      | true => exact ⟨.true, rfl, rfl, rfl, rfl⟩
  | string s =>
      obtain ⟨b, htext, hpaired, hunescape⟩ := exists_strBody s
      exact ⟨.string b, htext, hpaired, rfl, by rw [Syn.denote, hunescape]⟩
  | array vs ih =>
      rw [JsonValue.Sorted, JsonValue.sortedElements_iff] at hsorted
      cases vs with
      | nil => exact ⟨.emptyArray .none, rfl, rfl, rfl, rfl⟩
      | cons v vs =>
          obtain ⟨es, htext, hpaired, hdepth, hdenote⟩ :=
            exists_syn_elements fun u hu ↦ ih u hu (hsorted u hu)
          refine ⟨.array es, ?_, hpaired, ?_, by rw [Syn.denote, hdenote]⟩
          · rw [toJsonString, htext]
            rfl
          · rw [Syn.depth, hdepth, JsonValue.depth]
  | object ms ih =>
      rw [JsonValue.Sorted, JsonValue.sortedMembers_iff] at hsorted
      cases ms with
      | nil => exact ⟨.emptyObject .none, rfl, rfl, rfl, rfl⟩
      | cons m ms =>
          obtain ⟨e, htext, hpaired, hdepth, hdenote⟩ :=
            exists_syn_members fun u hu ↦ ih u hu (hsorted.2 u hu)
          refine ⟨.object e, ?_, hpaired, ?_, ?_⟩
          · rw [toJsonString, htext]
            rfl
          · rw [Syn.depth, hdepth, JsonValue.depth]
          · -- The members come in the order of their keys, so emplacing them keeps all of them.
            rw [Syn.denote, hdenote, FlatMap.emplaceAll_eq_append (m := []) hsorted.1, List.nil_append]

/-! ## The round trip -/

/-- Printing a value and parsing the text gives the value back, if it is not nested too deeply. -/
theorem parseJson_toJsonString {v : JsonValue} (hsorted : v.Sorted) :
    (parseJson (toJsonString v)).Gives (v.depth ≤ kMaxJsonDepth) v := by
  obtain ⟨d, hd⟩ := exists_syn_value v hsorted
  have h := parseJson_text .none d .none
  rw [hd.text, hd.depth, hd.denote] at h
  simpa [Ws.none, hd.paired] using h

/-- The maps inside what a text denotes are in order, and nothing in it nests deeper than the text. -/
def Syn.Bounded : ∀ {i : Part}, Syn i → Prop
  | .value, d => d.denote.Sorted ∧ d.denote.depth ≤ d.depth
  | .elements, es => ∀ v ∈ es.denote, v.Sorted ∧ v.depth ≤ es.depth
  | .members, ms => ∀ m ∈ ms.denote, m.2.Sorted ∧ m.2.depth ≤ ms.depth

theorem Syn.bounded {i : Part} (d : Syn i) : d.Bounded := by
  induction d with
  | null | true | false | number | string => exact ⟨trivial, Nat.le_refl _⟩
  | emptyArray w => exact ⟨trivial, Nat.le_refl _⟩
  | emptyObject w => exact ⟨⟨List.Pairwise.nil, trivial⟩, Nat.le_refl _⟩
  | array es ih =>
      exact ⟨JsonValue.sortedElements_iff.mpr fun v hv ↦ (ih v hv).1,
        Nat.succ_le_succ (JsonValue.depthElements_le_iff.mpr fun v hv ↦ (ih v hv).2)⟩
  | object ms ih =>
      have hmem : ∀ m ∈ FlatMap.emplaceAll [] ms.denote, m ∈ ms.denote := fun m hm ↦
        (FlatMap.mem_emplaceAll hm).resolve_left List.not_mem_nil
      refine ⟨⟨FlatMap.sorted_emplaceAll List.Pairwise.nil, ?_⟩, Nat.succ_le_succ ?_⟩
      · exact JsonValue.sortedMembers_iff.mpr fun m hm ↦ (ih m (hmem m hm)).1
      · exact JsonValue.depthMembers_le_iff.mpr fun m hm ↦ (ih m (hmem m hm)).2
  | lastElement w₁ v w₂ ih =>
      intro u hu
      rw [List.mem_singleton.mp hu]
      exact ih
  | element w₁ v w₂ es ih ihes =>
      intro u hu
      rcases List.mem_cons.mp hu with rfl | hu
      · exact ⟨ih.1, ih.2.trans (Nat.le_max_left _ _)⟩
      · exact ⟨(ihes u hu).1, (ihes u hu).2.trans (Nat.le_max_right _ _)⟩
  | lastMember w₁ k w₂ w₃ v w₄ ih =>
      intro m hm
      rw [List.mem_singleton.mp hm]
      exact ih
  | member w₁ k w₂ w₃ v w₄ ms ih ihms =>
      intro m hm
      rcases List.mem_cons.mp hm with rfl | hm
      · exact ⟨ih.1, ih.2.trans (Nat.le_max_left _ _)⟩
      · exact ⟨(ihms m hm).1, (ihms m hm).2.trans (Nat.le_max_right _ _)⟩

/-- What the parser returns keeps the invariant of the maps and the bound on nesting. -/
theorem parseJson_bounded {t : Bytes} {v : JsonValue} (h : parseJson t = .ok v) :
    v.Sorted ∧ v.depth ≤ kMaxJsonDepth := by
  obtain ⟨w₁, d, w₂, rfl⟩ := parse_sound (parseJson_eq_ok_iff.mp h)
  obtain ⟨⟨-, hdepth⟩, rfl⟩ := (parseJson_text w₁ d w₂).of_ok h
  exact ⟨d.bounded.1, d.bounded.2.trans hdepth⟩

/-- **Print then parse is the identity** on the values whose containers nest at most `kMaxJsonDepth`
deep, and fails on the others; so a text that was accepted is, printed again, a text that is accepted
with the same result and the same printed form. -/
theorem parseJson_toJsonString_roundtrip :
    (∀ v : JsonValue, v.Sorted →
      (v.depth ≤ kMaxJsonDepth → parseJson (toJsonString v) = .ok v) ∧
      (kMaxJsonDepth < v.depth → ∃ e, parseJson (toJsonString v) = .error e)) ∧
    ∀ (t : Bytes) (v : JsonValue), parseJson t = .ok v →
      ∃ v', parseJson (toJsonString v) = .ok v' ∧ v' = v ∧ toJsonString v' = toJsonString v := by
  refine ⟨fun v hv ↦ ?_, fun t v h ↦ ?_⟩
  · obtain ⟨hok, herror⟩ := parseJson_toJsonString hv
    exact ⟨hok, fun h ↦ herror (Nat.not_le_of_gt h)⟩
  · obtain ⟨hsorted, hdepth⟩ := parseJson_bounded h
    exact ⟨v, (parseJson_toJsonString hsorted).1 hdepth, rfl, rfl⟩

/-- An object with an escaped key and an array of arbitrary bytes inside comes back, and so does what
was read from `[]`. -/
theorem parseJson_toJsonString_roundtrip_nested :
    parseJson (toJsonString (.object [(ascii "a\n", .array [.null, .string [0x00, 0xFF]])])) =
        .ok (.object [(ascii "a\n", .array [.null, .string [0x00, 0xFF]])]) ∧
      ∃ v', parseJson (toJsonString (.array [])) = .ok v' ∧ v' = .array [] ∧
        toJsonString v' = toJsonString (.array []) := by
  have hread := (parseJson_text .none (.emptyArray .none) .none).1 ⟨rfl, by decide⟩
  refine ⟨(parseJson_toJsonString_roundtrip.1 _ ?_).1 (by decide),
    parseJson_toJsonString_roundtrip.2 _ _ hread⟩
  exact ⟨List.pairwise_singleton _ _, ⟨trivial, trivial, trivial⟩, trivial⟩

end KalshiClient.Json
