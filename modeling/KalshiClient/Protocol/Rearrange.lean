import KalshiClient.Json.Unicode
import KalshiClient.Protocol.Agreement

/-!
# The order of members, and members nobody looks for

The decoder records the fields of a message in whatever order they come, before it knows what kind of message it reads.
What it ends up with is `Fields.of` the root object, and this depends only on what is found under the keys it compares
with: neither on the order of the members, as long as no key comes twice, nor on members with other keys.
-/

namespace KalshiClient.Json

open Bytes

/-! ## Members as they are written -/

/-- A key and the value written after it. -/
abbrev Member := StrBody × Syn .value

namespace Member

/-- The decoded key. -/
def key (m : Member) : Bytes := m.1.unescape

/-- What a member denotes. -/
def entry (m : Member) : Bytes × JsonValue := (m.key, m.2.denote)

end Member

namespace Syn

/-- The members listed in a part of a text, in the order in which they come. -/
def entries : ∀ {i : Part}, Syn i → List Member
  | _, .lastMember _ k _ _ v _ => [(k, v)]
  | _, .member _ k _ _ v _ ms => (k, v) :: ms.entries
  | _, _ => []

theorem denote_members (ms : Syn .members) : ms.denote = ms.entries.map Member.entry := by
  cases ms with
  | lastMember w₁ k w₂ w₃ v w₄ => rfl
  | member w₁ k w₂ w₃ v w₄ ms =>
      rw [denote, denote_members ms]
      rfl

/-- The members of a text that is an object. -/
def objectMembers : Syn .value → Option (List Member)
  | .emptyObject _ => some []
  | .object ms => some ms.entries
  | _ => none

theorem denote_of_objectMembers {d : Syn .value} {l : List Member} (h : d.objectMembers = some l) :
    d.denote = .object (FlatMap.emplaceAll [] (l.map Member.entry)) := by
  cases d with
  | emptyObject w =>
      cases h
      rfl
  | object ms =>
      cases h
      rw [denote, denote_members]
  | _ => cases h

/-- Members written one after the other, without whitespace. -/
def ofEntries (m : Member) : List Member → Syn .members
  | [] => .lastMember .none m.1 .none .none m.2 .none
  | m' :: ms => .member .none m.1 .none .none m.2 .none (ofEntries m' ms)

/-- Any members can be written, in any order. -/
theorem entries_ofEntries (m : Member) (ms : List Member) : (ofEntries m ms).entries = m :: ms := by
  induction ms generalizing m with
  | nil => rfl
  | cons m' ms ih =>
      rw [ofEntries, entries, ih]

end Syn

/-- What is found in the object with the members `l`. -/
theorem find_object (l : List Member) (k : Bytes) :
    FlatMap.find k (FlatMap.emplaceAll [] (l.map Member.entry)) = FlatMap.find k (l.map Member.entry) := by
  rw [FlatMap.find_emplaceAll List.Pairwise.nil, FlatMap.find_nil, Option.none_or]

/-- `l'` has the members of `l` in some order, and others among them, whose keys are `unknown`. -/
def Extends (unknown : Bytes → Prop) (l l' : List Member) : Prop :=
  ∃ extra : List Member, l'.Perm (l ++ extra) ∧ ∀ m ∈ extra, unknown m.key

theorem unique_entry {l : List Member} (h : (l.map Member.key).Nodup) (k : Bytes) :
    ∀ y z, (k, y) ∈ l.map Member.entry → (k, z) ∈ l.map Member.entry → y = z := by
  refine FlatMap.unique_of_nodup ?_ k
  rw [List.map_map]
  exact h

theorem Extends.find_eq {unknown : Bytes → Prop} {l l' : List Member} (h : Extends unknown l l')
    (hdistinct : (l.map Member.key).Nodup) {k : Bytes} (hk : ¬ unknown k) :
    FlatMap.find k (l'.map Member.entry) = FlatMap.find k (l.map Member.entry) := by
  obtain ⟨extra, hperm, hextra⟩ := h
  refine FlatMap.find_congr (unique_entry hdistinct k) fun x ↦ ?_
  have hnot : (k, x) ∉ extra.map Member.entry := by
    intro hmem
    obtain ⟨m, hm, heq⟩ := List.mem_map.mp hmem
    have hkey : m.key = k := congrArg Prod.fst heq
    exact hk (hkey ▸ hextra m hm)
  rw [(hperm.map Member.entry).mem_iff, List.map_append, List.mem_append, or_iff_left hnot]

/-- The payload `b` is the text `d`, up to whitespace around it, and `parse_json` accepts it. -/
def Accepted (b : Bytes) (d : Syn .value) : Prop :=
  (∃ w₁ w₂ : Ws, b = w₁.val ++ d.text ++ w₂.val) ∧ ∃ v, parseJson b = .ok v

theorem Accepted.parseJson_eq {b : Bytes} {d : Syn .value} (h : Accepted b d) : parseJson b = .ok d.denote := by
  obtain ⟨⟨w₁, w₂, rfl⟩, v, hv⟩ := h
  obtain ⟨-, rfl⟩ := (parseJson_text w₁ d w₂).of_ok hv
  exact hv

theorem accepted_text {d : Syn .value} (hpaired : d.paired = true) (hdepth : d.depth ≤ kMaxJsonDepth) :
    Accepted d.text d := by
  have htext : d.text = Ws.none.val ++ d.text ++ Ws.none.val := by
    rw [Ws.none, List.nil_append, List.append_nil]
  refine ⟨⟨.none, .none, htext⟩, d.denote, ?_⟩
  rw [htext]
  exact (parseJson_text .none d .none).1 ⟨hpaired, hdepth⟩

end KalshiClient.Json

namespace KalshiClient.Protocol

open Bytes Json

/-! ## Messages -/

/-- A key that `root_member` compares with none of its own. -/
def UnknownRoot (k : Bytes) : Prop := rootField? k = none ∧ k ≠ ascii "msg"

/-- A key that `msg_member` compares with none of its own. -/
def UnknownMsg (k : Bytes) : Prop := msgField? k = none ∧ levelsName? k = none

theorem RootField.not_unknown (n : RootField) : ¬ UnknownRoot n.key := by
  rintro ⟨h, -⟩
  rw [rootField?_key] at h
  cases h

theorem MsgField.not_unknown (n : MsgField) : ¬ UnknownMsg n.key := by
  rintro ⟨h, -⟩
  rw [msgField?_key] at h
  cases h

theorem LevelsName.not_unknown (n : LevelsName) : ¬ UnknownMsg n.key := by
  rintro ⟨-, h⟩
  rw [levelsName?_key] at h
  cases h

/-- A member of the root object stays as it is, unless it is `msg` and an object: then its own members may come in
another order, with others among them. -/
inductive MsgExtended : Member → Member → Prop
  | same (m : Member) : MsgExtended m m
  | msg {k : StrBody} {v v' : Syn .value} {l l' : List Member} (hk : k.unescape = ascii "msg")
      (hv : v.objectMembers = some l) (hv' : v'.objectMembers = some l') (hext : Extends UnknownMsg l l') :
      MsgExtended (k, v) (k, v')

/-- The object `d'` is `d` with the members of the root and of `msg` in another order and further members that are
looked for in neither place. -/
def Rearranged (d d' : Syn .value) : Prop :=
  ∃ l l₁ l' : List Member, d.objectMembers = some l ∧ d'.objectMembers = some l' ∧
    List.Forall₂ MsgExtended l l₁ ∧ Extends UnknownRoot l₁ l'

/-- The keys of the root object differ from one another, and so do those of `msg`, if it is an object. -/
def DistinctKeys (d : Syn .value) : Prop :=
  ∀ l, d.objectMembers = some l → (l.map Member.key).Nodup ∧
    ∀ m ∈ l, m.key = ascii "msg" → ∀ ms, m.2.objectMembers = some ms → (ms.map Member.key).Nodup

/-- The fields of a message have the same values in two objects. -/
def SameMsg (o o' : JsonObject) : Prop :=
  (∀ n : MsgField, FlatMap.find n.key o' = FlatMap.find n.key o) ∧
    ∀ n : LevelsName, FlatMap.find n.key o' = FlatMap.find n.key o

/-- What a rearrangement may do to the value of a key. -/
def SameValue (k : Bytes) (x y : JsonValue) : Prop :=
  y = x ∨ k = ascii "msg" ∧ ∃ o o', x = .object o ∧ y = .object o' ∧ SameMsg o o'

theorem SameValue.eq_of_rel {k : Bytes} (hk : k ≠ ascii "msg") {x y : Option JsonValue}
    (h : Option.Rel (SameValue k) x y) : y = x := by
  cases h with
  | none => rfl
  | some hvalue =>
      obtain rfl | ⟨hmsg, -⟩ := hvalue
      · rfl
      · exact absurd hmsg hk

theorem MsgExtended.entry_rel {m m' : Member} (h : MsgExtended m m')
    (hdistinct : m.key = ascii "msg" → ∀ ms, m.2.objectMembers = some ms → (ms.map Member.key).Nodup) :
    m.entry.1 = m'.entry.1 ∧ SameValue m.entry.1 m.entry.2 m'.entry.2 := by
  cases h with
  | same => exact ⟨rfl, .inl rfl⟩
  | msg hk hv hv' hext =>
      refine ⟨rfl, .inr ⟨hk, _, _, Syn.denote_of_objectMembers hv, Syn.denote_of_objectMembers hv', ?_, ?_⟩⟩
      · intro n
        rw [find_object, find_object, hext.find_eq (hdistinct hk _ hv) n.not_unknown]
      · intro n
        rw [find_object, find_object, hext.find_eq (hdistinct hk _ hv) n.not_unknown]

theorem MsgExtended.forall₂_entry {l l₁ : List Member} (h : List.Forall₂ MsgExtended l l₁)
    (hdistinct : ∀ m ∈ l, m.key = ascii "msg" → ∀ ms, m.2.objectMembers = some ms → (ms.map Member.key).Nodup) :
    List.Forall₂ (fun p q ↦ p.1 = q.1 ∧ SameValue p.1 p.2 q.2) (l.map Member.entry) (l₁.map Member.entry) ∧
      l₁.map Member.key = l.map Member.key := by
  induction h with
  | nil => exact ⟨.nil, rfl⟩
  | @cons m m' l l₁ hm _ ih =>
      obtain ⟨hfirst, hrest⟩ := List.forall_mem_cons.mp hdistinct
      obtain ⟨hentries, hkeys⟩ := ih hrest
      obtain ⟨hkey, hvalue⟩ := hm.entry_rel hfirst
      refine ⟨.cons ⟨hkey, hvalue⟩ hentries, ?_⟩
      rw [List.map_cons, List.map_cons, hkeys]
      exact congrArg (· :: l.map Member.key) hkey.symm

/-- The fields of a message depend on nothing else. -/
theorem Fields.of_eq_of_rel {o o' : JsonObject}
    (hroot : ∀ n : RootField, FlatMap.find n.key o' = FlatMap.find n.key o)
    (hmsg : Option.Rel (SameValue (ascii "msg")) (FlatMap.find (ascii "msg") o) (FlatMap.find (ascii "msg") o')) :
    Fields.of o' = Fields.of o := by
  generalize hx : FlatMap.find (ascii "msg") o = x at hmsg
  generalize hy : FlatMap.find (ascii "msg") o' = y at hmsg
  cases hmsg with
  | none => exact Decoder.Fields.of_congr hroot (hy.trans hx.symm)
  | some hvalue =>
      obtain rfl | ⟨-, msg, msg', rfl, rfl, hscalars, hlevels⟩ := hvalue
      · exact Decoder.Fields.of_congr hroot (hy.trans hx.symm)
      · have hof : getObject o (ascii "msg") = some msg := by
          rw [getObject, hx]
          rfl
        have hof' : getObject o' (ascii "msg") = some msg' := by
          rw [getObject, hy]
          rfl
        simp only [Fields.of, hof, hof', hx, hy, Fields.withMsg, hroot, hscalars, hlevels, Option.isSome_some]

/-- **Order does not matter, and what is not looked for does not**: a payload with the members of its root object and of
`msg` in another order, and with further members under keys that are not looked up there, is decoded to the same
message, or fails if the original does. -/
theorem decodeKalshiMessage_rearranged {b b' : Bytes} {d d' : Syn .value} (hb : Accepted b d) (hb' : Accepted b' d')
    (hdistinct : DistinctKeys d) (h : Rearranged d d') (m : Message) :
    decodeKalshiMessage b' = .ok m ↔ decodeKalshiMessage b = .ok m := by
  obtain ⟨l, l₁, l', hl, hl', hmsg, hext⟩ := h
  obtain ⟨hroot, hmsgs⟩ := hdistinct l hl
  obtain ⟨hrel, hkeys⟩ := MsgExtended.forall₂_entry hmsg hmsgs
  have hfind {k : Bytes} (hk : ¬ UnknownRoot k) :
      FlatMap.find k (l'.map Member.entry) = FlatMap.find k (l₁.map Member.entry) :=
    hext.find_eq (hkeys ▸ hroot) hk
  have hfields : Fields.of (FlatMap.emplaceAll [] (l'.map Member.entry)) =
      Fields.of (FlatMap.emplaceAll [] (l.map Member.entry)) := by
    refine Fields.of_eq_of_rel (fun n ↦ ?_) ?_
    · rw [find_object, find_object, hfind n.not_unknown]
      exact SameValue.eq_of_rel n.key_ne (FlatMap.find_rel hrel n.key)
    · rw [find_object, find_object, hfind fun hk ↦ hk.2 rfl]
      exact FlatMap.find_rel hrel _
  have hdenote := hb.parseJson_eq
  have hdenote' := hb'.parseJson_eq
  rw [Syn.denote_of_objectMembers hl] at hdenote
  rw [Syn.denote_of_objectMembers hl'] at hdenote'
  rw [decodeKalshiMessage_eq_ok_iff_parseTree, decodeKalshiMessage_eq_ok_iff_parseTree, parseTree, parseTree, hdenote,
    hdenote']
  calc parseKalshiMessage (.object (FlatMap.emplaceAll [] (l'.map Member.entry))) = .ok m
    _ ↔ build (Fields.of (FlatMap.emplaceAll [] (l'.map Member.entry))) = .ok m := (build_of _ m).symm
    _ ↔ build (Fields.of (FlatMap.emplaceAll [] (l.map Member.entry))) = .ok m := by rw [hfields]
    _ ↔ parseKalshiMessage (.object (FlatMap.emplaceAll [] (l.map Member.entry))) = .ok m := build_of _ m

/-- A string written as it is. -/
def word (s : Bytes) (h : s.all isPlain = true) : StrBody := .ofPlain s (List.all_eq_true.mp h)

/-- The members of the `msg` of a fill. -/
def fillMembers : List Member :=
  [(word (ascii "order_id") rfl, .string (word (ascii "1") rfl)),
    (word (ascii "market_ticker") rfl, .string (word (ascii "T") rfl)),
    (word (ascii "count_fp") rfl, .string (word (ascii "2") rfl))]

/-- The action of a fill. -/
def actionMember : Member := (word (ascii "action") rfl, .string (word (ascii "buy") rfl))

/-- A member that is looked for nowhere. -/
def unknownMember : Member := (word (ascii "x") rfl, .null)

/-- The type of a fill. -/
def typeMember : Member := (word (ascii "type") rfl, .string (word (ascii "fill") rfl))

/-- The `msg` with the given members. -/
def msgWith (m : Member) (ms : List Member) : Member := (word (ascii "msg") rfl, .object (.ofEntries m ms))

/-- A fill, with its members in the order in which the exchange sends them. -/
def fillText : Syn .value := .object (.ofEntries typeMember [msgWith actionMember fillMembers])

/-- The same fill with all members the other way round and an unknown one in both places. -/
def rearrangedText : Syn .value :=
  .object (.ofEntries unknownMember
    [msgWith unknownMember (fillMembers.reverse ++ [actionMember]), typeMember])

theorem rearranged_fillText : Rearranged fillText rearrangedText := by
  refine ⟨_, [typeMember, msgWith unknownMember (fillMembers.reverse ++ [actionMember])], _, rfl, rfl,
    .cons (.same _) (.cons ?_ .nil), [unknownMember], ?_, ?_⟩
  · refine .msg rfl rfl rfl ⟨[unknownMember], List.reverse_perm (actionMember :: fillMembers ++ [unknownMember]), ?_⟩
    rw [List.forall_mem_singleton]
    exact ⟨rfl, rfl⟩
  · rw [Syn.entries_ofEntries]
    exact List.reverse_perm
      ([typeMember, msgWith unknownMember (fillMembers.reverse ++ [actionMember])] ++ [unknownMember])
  · rw [List.forall_mem_singleton]
    exact ⟨rfl, by decide⟩

theorem distinctKeys_fillText : DistinctKeys fillText := by
  rintro l ⟨⟩
  refine ⟨by decide, ?_⟩
  simp only [Syn.entries_ofEntries, List.forall_mem_cons]
  refine ⟨fun h ↦ absurd h (by decide), ?_, List.forall_mem_nil _⟩
  rintro - ms ⟨⟩
  decide

theorem decodeKalshiMessage_rearranged_fill :
    decodeKalshiMessage rearrangedText.text =
        .ok ⟨ascii "fill", 0, 0, .fill ⟨ascii "1", ascii "T", ascii "2", .buy⟩⟩ ↔
      decodeKalshiMessage fillText.text =
        .ok ⟨ascii "fill", 0, 0, .fill ⟨ascii "1", ascii "T", ascii "2", .buy⟩⟩ :=
  decodeKalshiMessage_rearranged (accepted_text (by decide) (by decide)) (accepted_text (by decide) (by decide))
    distinctKeys_fillText rearranged_fillText _

end KalshiClient.Protocol
