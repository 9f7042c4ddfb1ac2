import KalshiClient.Json.Print
import KalshiClient.Json.Unicode

/-!
# Objects written by hand

Some JSON texts are not printed from a value: a template puts strings between quotes as they are.  Such a text is read
as it was meant exactly if there was nothing to escape in the strings (`parseJson_rawObject_iff`).  One direction is a
matter of writing down the syntax tree.  For the other, the text is taken apart member by member: where a string is read
as itself, it has nothing in it that needs an escape (`plain_of_decoded`), and the next member stands where it was put.
-/

namespace KalshiClient.Json

open Bytes

/-! ## A string between quotes as it is -/

namespace Piece

theorem length_bytes_le (p : Piece) :
    p.bytes.length ≤ p.text.length ∧ (p.bytes.length = p.text.length → ∃ c h, p = .plain c h) := by
  have hutf8 (cp : Nat) : (utf8 cp).length ≤ 4 := by
    rw [utf8, String.length_utf8EncodeChar]
    exact Char.utf8Size_le_four _
  cases p with
  | plain c h => exact ⟨le_refl _, fun _ ↦ ⟨c, h, rfl⟩⟩
  | short e h => exact ⟨Nat.le_succ 1, fun heq ↦ absurd heq (Nat.succ_ne_self 1).symm⟩
  | unit q hhigh hlow =>
      have hlength : (unit q hhigh hlow).text.length = 6 := rfl
      have hbytes : (unit q hhigh hlow).bytes.length ≤ 4 := hutf8 _
      exact ⟨by omega, fun heq ↦ absurd heq (by omega)⟩
  | pair q r hq hr =>
      have hlength : (pair q r hq hr).text.length = 12 := rfl
      have hbytes : (pair q r hq hr).bytes.length ≤ 4 := hutf8 _
      exact ⟨by omega, fun heq ↦ absurd heq (by omega)⟩

/-- Decoding makes a string shorter, unless there is nothing to decode. -/
theorem length_flatMap_bytes_le (ps : List Piece) :
    (ps.flatMap bytes).length ≤ (ps.flatMap text).length ∧
      ((ps.flatMap bytes).length = (ps.flatMap text).length → ∀ c ∈ ps.flatMap text, isPlain c = true) := by
  induction ps with
  | nil => exact ⟨le_refl _, fun _ ↦ List.forall_mem_nil _⟩
  | cons p ps ih =>
      obtain ⟨hle, hplain⟩ := p.length_bytes_le
      rw [List.flatMap_cons, List.flatMap_cons, List.length_append, List.length_append, List.forall_mem_append]
      refine ⟨Nat.add_le_add hle ih.1, fun heq ↦ ⟨?_, ih.2 (by omega)⟩⟩
      obtain ⟨c, h, rfl⟩ := hplain (by omega)
      intro x hx
      rw [List.mem_singleton.mp hx]
      exact h

/-- The only piece with a quote in it is an escaped quote. -/
theorem text_eq_append_quote {p : Piece} {a u : Bytes} (h : p.text = a ++ '"'.toUInt8 :: u) :
    a = ['\\'.toUInt8] ∧ u = [] ∧ ∃ h, p = .short '"'.toUInt8 h := by
  have hmem : '"'.toUInt8 ∈ p.text := by
    rw [h]
    exact List.mem_append_right a List.mem_cons_self
  have hnot : isUnitByte '"'.toUInt8 = false := by decide
  cases p with
  | plain c hc =>
      rw [← List.mem_singleton.mp hmem] at hc
      cases hc
  | short e he =>
      have htext : (short e he).text = ['\\'.toUInt8, e] := rfl
      rw [htext] at h
      rcases a with _ | ⟨x, _ | ⟨y, a⟩⟩
      · obtain ⟨hx, -⟩ := List.cons.inj h
        exact absurd hx (by decide)
      · obtain ⟨hx, h⟩ := List.cons.inj h
        obtain ⟨rfl, rfl⟩ := List.cons.inj h
        exact ⟨by rw [hx], rfl, he, rfl⟩
      · have hlength := congrArg List.length h
        simp only [List.length_append, List.length_cons, List.length_nil] at hlength
        omega
  | unit q hhigh hlow =>
      rw [isUnitByte_unit hhigh hlow _ hmem] at hnot
      cases hnot
  | pair q r hq hr =>
      rw [isUnitByte_pair hq hr _ hmem] at hnot
      cases hnot

/-- A quote within a string is escaped. -/
theorem exists_of_quote {ps : List Piece} {a u : Bytes} (h : ps.flatMap text = a ++ '"'.toUInt8 :: u) :
    ∃ qs p rest, ps = qs ++ p :: rest ∧ a = qs.flatMap text ++ ['\\'.toUInt8] ∧ rest.flatMap text = u := by
  induction ps generalizing a with
  | nil =>
      cases a <;> cases h
  | cons p ps ih =>
      rw [List.flatMap_cons] at h
      rcases List.append_eq_append_iff.mp h with ⟨a', rfl, hrest⟩ | ⟨c, hp, hrest⟩
      · obtain ⟨qs, p', rest, rfl, rfl, hu⟩ := ih hrest
        refine ⟨p :: qs, p', rest, rfl, ?_, hu⟩
        rw [List.flatMap_cons, List.append_assoc]
      · cases c with
        | nil =>
            rw [List.append_nil] at hp
            obtain ⟨qs, p', rest, rfl, hqs, hu⟩ := ih (a := []) hrest.symm
            exact absurd hqs.symm (by simp)
        | cons x c =>
            obtain ⟨rfl, hu⟩ := List.cons.inj hrest
            obtain ⟨rfl, rfl, -⟩ := text_eq_append_quote hp
            exact ⟨[], p, ps, rfl, rfl, hu.symm⟩

/-- What has no escape in it stands for itself. -/
theorem flatMap_bytes_of_plain {ps : List Piece} (h : ∀ c ∈ ps.flatMap text, isPlain c = true) :
    ps.flatMap bytes = ps.flatMap text := by
  induction ps with
  | nil => rfl
  | cons p ps ih =>
      rw [List.flatMap_cons, List.forall_mem_append] at h
      have hp : p.bytes = p.text := by
        cases p with
        | plain c hc => rfl
        | short e he => cases h.1 '\\'.toUInt8 List.mem_cons_self
        | unit q hhigh hlow => cases h.1 '\\'.toUInt8 List.mem_cons_self
        | pair q r hq hr => cases h.1 '\\'.toUInt8 List.mem_cons_self
      rw [List.flatMap_cons, List.flatMap_cons, hp, ih h.2]

end Piece

theorem StrBody.exists_of_plain {a : Bytes} (ha : ∀ c ∈ a, isPlain c = true) :
    ∃ b : StrBody, b.text = a ∧ b.paired = true ∧ b.unescape = a ∧ b.hasEscapes = false := by
  have hescapes := StrBody.hasEscapes_ofPlain ha
  obtain ⟨hpaired, hunescape⟩ := StrBody.of_hasEscapes_eq_false hescapes
  rw [StrBody.text_ofPlain] at hunescape
  exact ⟨StrBody.ofPlain a ha, StrBody.text_ofPlain ha, hpaired, hunescape, hescapes⟩

/-- A string with nothing to escape in it is read up to the first quote. -/
theorem decoded_of_plain {b : StrBody} {a r t : Bytes} (ha : ∀ c ∈ a, isPlain c = true)
    (htext : b.text ++ '"'.toUInt8 :: r = a ++ '"'.toUInt8 :: t) : b.unescape = a ∧ r = t := by
  obtain ⟨b', hb', -, -, hescapes'⟩ := StrBody.exists_of_plain ha
  have hb := scanString_text 0 0 b r
  have hscan := scanString_text 0 0 b' t
  rw [hb', hescapes'] at hscan
  rw [htext, hscan] at hb
  obtain ⟨hbody, hrest⟩ := Prod.mk.inj (Except.ok.inj hb)
  obtain ⟨hescapes, hrest⟩ := Prod.mk.inj hrest
  exact ⟨(StrBody.of_hasEscapes_eq_false hescapes.symm).2.trans hbody.symm, hrest.symm⟩

/-- A string between quotes that is read as itself has nothing in it to escape, and is read up to the quote that was
put at its end.  What comes after that quote is the next key, or has no quote in it. -/
theorem plain_of_decoded {b : StrBody} {a r t : Bytes} (hpaired : b.paired = true)
    (htext : b.text ++ '"'.toUInt8 :: r = a ++ '"'.toUInt8 :: t) (hval : b.unescape = a)
    (ht : (∃ t', t = ','.toUInt8 :: '"'.toUInt8 :: t') ∨ '"'.toUInt8 ∉ t) :
    (∀ c ∈ a, isPlain c = true) ∧ r = t := by
  obtain ⟨ps, rfl, hbytes⟩ := StrBody.exists_pieces hpaired
  rw [Piece.text_flatMap] at htext
  rw [hval] at hbytes
  obtain ⟨hle, hplain⟩ := Piece.length_flatMap_bytes_le ps
  rw [hbytes] at hle hplain
  rcases List.append_eq_append_iff.mp htext with ⟨a', ha, hrest⟩ | ⟨_ | ⟨x, c⟩, ha, hrest⟩
  · have hnil : a' = [] := by
      rw [ha, List.length_append] at hle
      exact List.length_eq_zero_iff.mp (by omega)
    subst hnil
    rw [List.append_nil] at ha
    rw [ha]
    exact ⟨hplain (congrArg List.length ha), (List.cons.inj hrest).2⟩
  · rw [List.append_nil] at ha
    rw [← ha]
    exact ⟨hplain (congrArg List.length ha).symm, (List.cons.inj hrest).2.symm⟩
  · -- The quote at the end of the string is taken for an escaped one, so the string ends in a backslash.
    obtain ⟨rfl, rfl⟩ := List.cons.inj hrest
    obtain ⟨qs, p, rest, rfl, hqs, hu⟩ := Piece.exists_of_quote ha
    rcases ht with ⟨t', ht⟩ | ht
    · rcases c with _ | ⟨y, _ | ⟨z, c⟩⟩
      · cases ht
      · -- What is read goes on to the comma, where a backslash should be.
        obtain ⟨rfl, -⟩ := List.cons.inj ht
        have hcomma : rest.flatMap Piece.bytes = [','.toUInt8] := by
          rw [← hu]
          refine Piece.flatMap_bytes_of_plain ?_
          rw [hu, List.forall_mem_singleton]
          rfl
        rw [List.flatMap_append, List.flatMap_cons, hcomma, hqs, ← List.append_assoc] at hbytes
        cases List.append_inj_right' hbytes rfl
      · -- A second quote would have to be escaped, but it comes after the comma.
        obtain ⟨rfl, hnext⟩ := List.cons.inj ht
        obtain ⟨rfl, -⟩ := List.cons.inj hnext
        obtain ⟨qs', -, -, -, hqs', -⟩ := Piece.exists_of_quote (a := [','.toUInt8]) hu
        have hlast : [] ++ [','.toUInt8] = qs'.flatMap Piece.text ++ ['\\'.toUInt8] := hqs'
        cases List.append_inj_right' hlast rfl
    · exact absurd (List.mem_append_right c List.mem_cons_self) ht

/-! ## Members written by hand -/

/-- A value as it is written by hand: a string between quotes as it is, or a Boolean. -/
inductive RawValue where
  | quote (s : Bytes)
  | bool (b : Bool)

namespace RawValue

/-- The bytes written. -/
def text : RawValue → Bytes
  | .quote s => quoted s
  | .bool b => if b then ascii "true" else ascii "false"

/-- The value meant. -/
def value : RawValue → JsonValue
  | .quote s => .string s
  | .bool b => .bool b

/-- There is nothing in the value that should have been escaped. -/
def Plain : RawValue → Prop
  | .quote s => ∀ c ∈ s, isPlain c = true
  | .bool _ => True

end RawValue

/-- A key and the value written for it. -/
abbrev RawMember := Bytes × RawValue

/-- The bytes written for a member. -/
def RawMember.text (m : RawMember) : Bytes := quoted m.1 ++ ':'.toUInt8 :: m.2.text

/-- The bytes written for a member and those after it. -/
def rawMembers (m : RawMember) : List RawMember → Bytes
  | [] => m.text
  | m' :: ms => m.text ++ ','.toUInt8 :: rawMembers m' ms

/-- A member that is written like two is as good as two. -/
theorem rawMembers_split {m m₁ m₂ : RawMember} (h : m.text = m₁.text ++ ','.toUInt8 :: m₂.text) (ms : List RawMember) :
    rawMembers m ms = rawMembers m₁ (m₂ :: ms) := by
  cases ms with
  | nil => exact h
  | cons m' ms =>
      rw [rawMembers, rawMembers, rawMembers, h, List.append_assoc]
      rfl

/-- Whitespace before a byte that is none. -/
theorem Ws.of_append_eq {w : Ws} {s t : Bytes} {c : UInt8} (hc : isWs c = false) (h : w.val ++ s = c :: t) :
    w.val = [] ∧ s = c :: t := by
  obtain ⟨w, hw⟩ := w
  cases w with
  | nil => exact ⟨rfl, h⟩
  | cons d w =>
      obtain ⟨rfl, -⟩ := List.cons.inj h
      rw [hw d List.mem_cons_self] at hc
      cases hc

theorem quoted_append (s t : Bytes) : quoted s ++ t = '"'.toUInt8 :: (s ++ '"'.toUInt8 :: t) := by
  rw [quoted, List.append_assoc, List.singleton_append, List.cons_append]

/-- What may follow a value written by hand: the next key, or the end of the object. -/
def FollowsRaw (t : Bytes) : Prop :=
  (∃ t', t = ','.toUInt8 :: '"'.toUInt8 :: t') ∨ t = ['}'.toUInt8]

/-- A value that is read as it was meant has nothing in it to escape, and is read to its end. -/
theorem RawValue.plain_of_denote {x : RawValue} {v : Syn .value} {w : Ws} {r t : Bytes}
    (hpaired : v.paired = true) (hdenote : v.denote = x.value) (htext : w.val ++ (v.text ++ r) = x.text ++ t)
    (ht : FollowsRaw t) : x.Plain ∧ r = t := by
  cases x with
  | quote s =>
      rw [text, quoted_append] at htext
      obtain ⟨-, htext⟩ := Ws.of_append_eq rfl htext
      cases v with
      | number n =>
          obtain ⟨c, u, hn, hc⟩ := n.head r
          rw [Syn.text, hn] at htext
          obtain ⟨rfl, -⟩ := List.cons.inj htext
          cases hc
      | string b =>
          rw [Syn.text, quoted_append] at htext
          refine plain_of_decoded hpaired (List.cons.inj htext).2 (JsonValue.string.inj hdenote) (ht.imp_right ?_)
          rintro rfl
          decide
      | _ => cases hdenote
  | bool b =>
      refine ⟨trivial, ?_⟩
      cases b with
      | false =>
          obtain ⟨-, htext⟩ := Ws.of_append_eq (c := 'f'.toUInt8) rfl htext
          cases v <;> cases hdenote
          exact List.append_cancel_left htext
      | true =>
          obtain ⟨-, htext⟩ := Ws.of_append_eq (c := 't'.toUInt8) rfl htext
          cases v <;> cases hdenote
          exact List.append_cancel_left htext

/-- A member with a key that needs no escape is read under this key, and so is its value. -/
theorem RawMember.plain_of_denote {m : RawMember} {k : StrBody} {v : Syn .value} {w₁ w₂ w₃ : Ws} {r t : Bytes}
    (hkey : ∀ c ∈ m.1, isPlain c = true) (hpaired : v.paired = true)
    (hdenote : k.unescape = m.1 → v.denote = m.2.value)
    (htext : w₁.val ++ ((Lexeme.string k).text ++ (w₂.val ++ ':'.toUInt8 :: (w₃.val ++ (v.text ++ r)))) = m.text ++ t)
    (ht : FollowsRaw t) : k.unescape = m.1 ∧ m.2.Plain ∧ r = t := by
  rw [text, List.append_assoc, quoted_append] at htext
  obtain ⟨-, htext⟩ := Ws.of_append_eq rfl htext
  rw [Lexeme.text, quoted_append] at htext
  obtain ⟨hk, htext⟩ := decoded_of_plain hkey (List.cons.inj htext).2
  obtain ⟨-, htext⟩ := Ws.of_append_eq rfl htext
  exact ⟨hk, RawValue.plain_of_denote hpaired (hdenote hk) (List.cons.inj htext).2 ht⟩

theorem followsRaw_rawMembers (m : RawMember) (ms : List RawMember) (t : Bytes) :
    FollowsRaw (','.toUInt8 :: (rawMembers m ms ++ t)) := by
  cases ms <;> exact .inl ⟨_, rfl⟩

/-- Members that are all found in what is read have nothing in them to escape. -/
theorem plain_of_find {m : RawMember} {ms : List RawMember} {d : Syn .members} {w : Bytes}
    (hkeys : ∀ x ∈ m :: ms, ∀ c ∈ x.1, isPlain c = true) (hnodup : (List.map Prod.fst (m :: ms)).Nodup)
    (hpaired : d.paired = true) (htext : d.text ++ '}'.toUInt8 :: w = rawMembers m ms ++ ['}'.toUInt8])
    (hfind : ∀ x ∈ m :: ms, FlatMap.find x.1 d.denote = some x.2.value) : ∀ x ∈ m :: ms, x.2.Plain := by
  have hfirst {m : RawMember} {k : StrBody} {v : JsonValue} {d : List (Bytes × JsonValue)}
      (h : FlatMap.find m.1 ((k.unescape, v) :: d) = some m.2.value) (hk : k.unescape = m.1) : v = m.2.value := by
    rw [FlatMap.find_cons, if_pos hk] at h
    exact Option.some.inj h
  induction ms generalizing m d with
  | nil =>
      have hkey := hkeys m List.mem_cons_self
      have hm := hfind m List.mem_cons_self
      rw [List.forall_mem_singleton]
      cases d with
      | lastMember w₁ k w₂ w₃ v w₄ =>
          obtain ⟨-, hv⟩ := Bool.and_eq_true_iff.mp hpaired
          rw [Syn.text_lastMember_append] at htext
          exact (RawMember.plain_of_denote hkey hv (hfirst hm) htext (.inr rfl)).2.1
      | member w₁ k w₂ w₃ v w₄ d =>
          obtain ⟨hv, -⟩ := Bool.and_eq_true_iff.mp hpaired
          obtain ⟨-, hv⟩ := Bool.and_eq_true_iff.mp hv
          rw [Syn.text_member_append] at htext
          exact (RawMember.plain_of_denote hkey hv (hfirst hm) htext (.inr rfl)).2.1
  | cons m' ms ih =>
      have hkey := hkeys m List.mem_cons_self
      have hm := hfind m List.mem_cons_self
      have hfollows := followsRaw_rawMembers m' ms ['}'.toUInt8]
      rw [rawMembers, List.append_assoc, List.cons_append] at htext
      cases d with
      | lastMember w₁ k w₂ w₃ v w₄ =>
          obtain ⟨-, hv⟩ := Bool.and_eq_true_iff.mp hpaired
          rw [Syn.text_lastMember_append] at htext
          obtain ⟨-, -, hrest⟩ := RawMember.plain_of_denote hkey hv (hfirst hm) htext hfollows
          obtain ⟨-, hrest⟩ := Ws.of_append_eq rfl hrest
          cases (List.cons.inj hrest).1
      | member w₁ k w₂ w₃ v w₄ d =>
          obtain ⟨hv, hd⟩ := Bool.and_eq_true_iff.mp hpaired
          obtain ⟨-, hv⟩ := Bool.and_eq_true_iff.mp hv
          rw [Syn.text_member_append] at htext
          obtain ⟨hk, hplain, hrest⟩ := RawMember.plain_of_denote hkey hv (hfirst hm) htext hfollows
          obtain ⟨-, hrest⟩ := Ws.of_append_eq rfl hrest
          obtain ⟨hnotMem, hnodup⟩ := List.nodup_cons.mp hnodup
          refine List.forall_mem_cons.mpr ⟨hplain, ih (fun x hx ↦ hkeys x (List.mem_cons_of_mem m hx)) hnodup hd
            (List.cons.inj hrest).2 fun x hx ↦ ?_⟩
          -- The first member has another key, so the others are found among the rest.
          have hne : k.unescape ≠ x.1 := by
            rintro heq
            exact hnotMem (List.mem_map.mpr ⟨x, hx, heq.symm.trans hk⟩)
          rw [← hfind x (List.mem_cons_of_mem m hx), Syn.denote, FlatMap.find_cons, if_neg hne]

/-- A value with nothing in it to escape is a text of the grammar. -/
theorem RawValue.exists_syn {x : RawValue} (h : x.Plain) :
    ∃ v : Syn .value, v.text = x.text ∧ v.paired = true ∧ v.depth = 0 ∧ v.denote = x.value := by
  cases x with
  | quote s =>
      obtain ⟨b, htext, hpaired, hunescape, -⟩ := StrBody.exists_of_plain h
      exact ⟨.string b, by rw [Syn.text, htext]; rfl, hpaired, rfl, by rw [Syn.denote, hunescape]; rfl⟩
  | bool b =>
      cases b with
      | false => exact ⟨.false, rfl, rfl, rfl, rfl⟩
      | true => exact ⟨.true, rfl, rfl, rfl, rfl⟩

/-- What the members written mean. -/
def rawDenote (ms : List RawMember) : List (Bytes × JsonValue) := ms.map fun x ↦ (x.1, x.2.value)

theorem exists_syn_rawMembers {m : RawMember} {ms : List RawMember}
    (hkeys : ∀ x ∈ m :: ms, ∀ c ∈ x.1, isPlain c = true) (hplain : ∀ x ∈ m :: ms, x.2.Plain) :
    ∃ d : Syn .members, d.text = rawMembers m ms ∧ d.paired = true ∧ d.depth = 0 ∧
      d.denote = rawDenote (m :: ms) := by
  obtain ⟨k, hk, hkpaired, hkey, -⟩ := StrBody.exists_of_plain (hkeys m List.mem_cons_self)
  obtain ⟨v, hv, hvpaired, hvdepth, hvalue⟩ := RawValue.exists_syn (hplain m List.mem_cons_self)
  induction ms generalizing m k v with
  | nil =>
      refine ⟨.lastMember .none k .none .none v .none, ?_, ?_, hvdepth, ?_⟩
      · simp [Syn.text, Ws.none, hk, hv, rawMembers, RawMember.text]
      · rw [Syn.paired, hkpaired, hvpaired]
        rfl
      · rw [Syn.denote, hkey, hvalue]
        rfl
  | cons m' ms ih =>
      have hkeys' := (List.forall_mem_cons.mp hkeys).2
      have hplain' := (List.forall_mem_cons.mp hplain).2
      obtain ⟨k', hk', hkpaired', hkey', -⟩ := StrBody.exists_of_plain (hkeys' m' List.mem_cons_self)
      obtain ⟨v', hv', hvpaired', hvdepth', hvalue'⟩ := RawValue.exists_syn (hplain' m' List.mem_cons_self)
      obtain ⟨d, htext, hpaired, hdepth, hdenote⟩ :=
        ih hkeys' hplain' k' hk' hkpaired' hkey' v' hv' hvpaired' hvdepth' hvalue'
      refine ⟨.member .none k .none .none v .none d, ?_, ?_, ?_, ?_⟩
      · simp [Syn.text, Ws.none, hk, hv, htext, rawMembers, RawMember.text]
      · rw [Syn.paired, hkpaired, hvpaired, hpaired]
        rfl
      · rw [Syn.depth, hvdepth, hdepth]
        rfl
      · rw [Syn.denote, hkey, hvalue, hdenote]
        rfl

/-- The text of an object written by hand. -/
def rawObject (m : RawMember) (ms : List RawMember) : Bytes := '{'.toUInt8 :: rawMembers m ms ++ ['}'.toUInt8]

theorem parseJson_rawObject {m : RawMember} {ms : List RawMember}
    (hkeys : ∀ x ∈ m :: ms, ∀ c ∈ x.1, isPlain c = true) (hplain : ∀ x ∈ m :: ms, x.2.Plain) :
    parseJson (rawObject m ms) = .ok (.object (FlatMap.emplaceAll [] (rawDenote (m :: ms)))) := by
  obtain ⟨d, htext, hpaired, hdepth, hdenote⟩ := exists_syn_rawMembers hkeys hplain
  have hle : (Syn.object d).depth ≤ kMaxJsonDepth := by
    rw [Syn.depth, hdepth]
    decide
  have h := (parseJson_text .none (.object d) .none).1 ⟨hpaired, hle⟩
  rw [Syn.denote, hdenote, Syn.text, htext, Ws.none, List.nil_append, List.append_nil] at h
  exact h

/-- **Nothing is escaped**: an object written by hand, with keys that need no escape and differ from one another, is
read as it was meant exactly if no string in it needs an escape. -/
theorem parseJson_rawObject_iff {m : RawMember} {ms : List RawMember}
    (hkeys : ∀ x ∈ m :: ms, ∀ c ∈ x.1, isPlain c = true) (hnodup : (List.map Prod.fst (m :: ms)).Nodup) :
    parseJson (rawObject m ms) = .ok (.object (FlatMap.emplaceAll [] (rawDenote (m :: ms)))) ↔
      ∀ x ∈ m :: ms, x.2.Plain := by
  refine ⟨fun h ↦ ?_, parseJson_rawObject hkeys⟩
  obtain ⟨w₁, d, w₂, htext⟩ := parse_sound (parseJson_eq_ok_iff.mp h)
  rw [htext] at h
  obtain ⟨⟨hpaired, -⟩, hdenote⟩ := (parseJson_text w₁ d w₂).of_ok h
  rw [rawObject, List.cons_append, List.append_assoc] at htext
  obtain ⟨-, htext⟩ := Ws.of_append_eq rfl htext.symm
  -- Each member is found, since no key comes twice.
  have hnodup' : (List.map Prod.fst (rawDenote (m :: ms))).Nodup := by
    rw [rawDenote, List.map_map]
    exact hnodup
  have hfound (x : RawMember) (hx : x ∈ m :: ms) :
      FlatMap.find x.1 (FlatMap.emplaceAll [] (rawDenote (m :: ms))) = some x.2.value := by
    rw [FlatMap.find_emplaceAll List.Pairwise.nil, FlatMap.find_nil, Option.none_or,
      FlatMap.find_eq_some_iff (FlatMap.unique_of_nodup hnodup' x.1)]
    exact List.mem_map_of_mem hx
  cases d with
  | object d =>
      rw [Syn.text, List.cons_append, List.cons_append, List.append_assoc] at htext
      refine plain_of_find hkeys hnodup hpaired (List.cons.inj htext).2 fun x hx ↦ ?_
      rw [← hfound x hx, JsonValue.object.inj hdenote, FlatMap.find_emplaceAll List.Pairwise.nil, FlatMap.find_nil,
        Option.none_or]
  | emptyObject w =>
      have hm := hfound m List.mem_cons_self
      rw [JsonValue.object.inj hdenote] at hm
      cases hm
  | _ => cases hdenote

end KalshiClient.Json
