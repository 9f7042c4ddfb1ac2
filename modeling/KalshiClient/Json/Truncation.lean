import KalshiClient.Json.ParserSpec

/-!
# Texts that are cut short

A value other than a number ends where it ends, whatever follows it (`parse_append`).  So of an array or an object no
beginning is taken for a value, unless nothing but whitespace is missing (`parseJson_cut`).
-/

namespace KalshiClient.Json

open Bytes

/-- An array or an object. -/
def JsonValue.isContainer : JsonValue → Bool
  | .array _ | .object _ => true
  | .null | .bool _ | .string _ => false

/-- A lexeme that ends where it ends. -/
def Lexeme.isClosed : Lexeme → Bool
  | .number _ => Bool.false
  | _ => Bool.true

theorem Lexeme.ends_of_isClosed {x : Lexeme} (h : x.isClosed = Bool.true) (r : Bytes) : x.Ends r := by
  cases x with
  | number n => cases h
  | _ => trivial

/-- The parser stops where a value ends that does not start with a number: what follows can only be whitespace. -/
theorem parse_append {w : Ws} {d : Syn .value} (hclosed : d.first.isClosed = true) {r : Bytes} {v : JsonValue}
    (h : parse (.ofBytes (w.val ++ d.text ++ r)) = .ok v) : v = d.denote ∧ ∀ c ∈ r, isWs c = true := by
  have hfirst : (JsonLexer.ofBytes (w.val ++ d.text ++ r)).next =
      .ok (d.first.token, ⟨(w.val ++ d.text ++ r).length, d.tail ++ r⟩) := by
    refine JsonLexer.next_lexeme w ?_ (Lexeme.ends_of_isClosed hclosed _)
    rw [JsonLexer.ofBytes, d.text_eq, List.append_assoc, List.append_assoc]
  rw [parse, hfirst, Except.bind_ok] at h
  obtain ⟨⟨v', l⟩, hvalue, h⟩ := Except.bind_eq_ok_iff.mp h
  obtain ⟨-, hv⟩ := (d.parses kMaxJsonDepth _ r).of_ok hvalue
  obtain ⟨rfl, rfl⟩ := Prod.mk.inj hv
  obtain ⟨⟨last, l'⟩, hlast, h⟩ := Except.bind_eq_ok_iff.mp h
  dsimp only at h
  split_ifs at h with htype
  · cases h
  · refine ⟨(Except.ok.inj h).symm, ?_⟩
    rcases JsonLexer.next_sound hlast with ⟨hws, -, -⟩ | ⟨-, x, rfl, -, -⟩
    · exact hws
    · cases x <;> exact absurd (fun hend ↦ by cases hend) htype

/-- The byte an array or an object starts with. -/
theorem Syn.head_of_isContainer {d : Syn .value} (h : d.denote.isContainer = Bool.true) :
    ∃ c t, d.text = c :: t ∧ (c = '['.toUInt8 ∨ c = '{'.toUInt8) := by
  cases d with
  | null | true | false | number n | string s => cases h
  | emptyArray w | array es => exact ⟨_, _, rfl, .inl rfl⟩
  | emptyObject w | object ms => exact ⟨_, _, rfl, .inr rfl⟩

/-- A value that starts with a bracket does not start with a number. -/
theorem Syn.isClosed_of_head {d : Syn .value} {c : UInt8} {t : Bytes} (htext : d.text = c :: t)
    (hc : c = '['.toUInt8 ∨ c = '{'.toUInt8) : d.first.isClosed = Bool.true := by
  cases d with
  | number n =>
      obtain ⟨c', t', hhead, hdigit⟩ := n.head []
      rw [List.append_nil] at hhead
      obtain ⟨rfl, -⟩ := List.cons.inj (hhead.symm.trans htext)
      rcases hc with rfl | rfl <;> exact absurd hdigit (by decide)
  | _ => rfl

/-- **What is missing of an array or an object is missed.**  If a text and a beginning of it are both accepted, and the
text is an array or an object, then only whitespace is missing, and the value is the same. -/
theorem parseJson_cut {s t : Bytes} {v v' : JsonValue} (hwhole : parseJson (s ++ t) = .ok v)
    (hcontainer : v.isContainer = true) (hcut : parseJson s = .ok v') : v' = v ∧ ∀ c ∈ t, isWs c = true := by
  have hparse := parseJson_eq_ok_iff.mp hwhole
  obtain ⟨w, d, w₂, rfl⟩ := parse_sound (parseJson_eq_ok_iff.mp hcut)
  obtain ⟨-, rfl⟩ := (parseJson_text w d w₂).of_ok hcut
  -- Both texts start with the same byte after the same whitespace.
  have hclosed : d.first.isClosed = true := by
    obtain ⟨w', d', w₂', htext⟩ := parse_sound hparse
    rw [htext] at hwhole
    obtain ⟨-, rfl⟩ := (parseJson_text w' d' w₂').of_ok hwhole
    obtain ⟨c, rest, hhead, hc⟩ := Syn.head_of_isContainer hcontainer
    have hdrop (w : Ws) (d : Syn .value) (r : Bytes) : (w.val ++ d.text ++ r).dropWhile isWs = d.text ++ r := by
      rw [List.append_assoc, d.text_eq, List.append_assoc]
      exact (span_append w.property (d.first.text_head _).2).2
    have hsame := congrArg (List.dropWhile isWs) htext
    rw [List.append_assoc, hdrop, hdrop, hhead] at hsame
    cases hd : d.text with
    | nil =>
        rw [d.text_eq] at hd
        exact absurd (List.append_eq_nil_iff.mp hd).1 (d.first.text_head []).1
    | cons c' rest' =>
        rw [hd] at hsame
        obtain ⟨rfl, -⟩ := List.cons.inj hsame
        exact Syn.isClosed_of_head hd hc
  rw [List.append_assoc] at hparse
  obtain ⟨hv, hws⟩ := parse_append hclosed hparse
  exact ⟨hv.symm, fun c hc ↦ hws c (List.mem_append_right _ hc)⟩

end KalshiClient.Json
