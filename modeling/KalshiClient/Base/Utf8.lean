import Mathlib

/-!
# Byte strings that are UTF-8

A byte string is valid if it is the encoding of some characters, in the sense of the standard library.  What reads such
a string byte by byte, as a lexer does that only looks for ASCII characters, sees either an ASCII byte, after which the
string is still valid, or a group of bytes that are all above ASCII (`Valid.cons_cases`).
-/

namespace Utf8

/-- The bytes are the encoding of some characters. -/
def Valid (s : List UInt8) : Prop := s.toByteArray.IsValidUTF8

theorem valid_iff {s : List UInt8} : Valid s ↔ ∃ m : List Char, s = m.flatMap String.utf8EncodeChar := by
  constructor
  · rintro ⟨m, hm⟩
    exact ⟨m, List.toByteArray_inj.mp hm⟩
  · rintro ⟨m, rfl⟩
    exact ⟨m, rfl⟩

theorem valid_nil : Valid [] := valid_iff.mpr ⟨[], rfl⟩

theorem Valid.append {s t : List UInt8} (hs : Valid s) (ht : Valid t) : Valid (s ++ t) := by
  rw [Valid, List.toByteArray_append]
  exact ByteArray.IsValidUTF8.append hs ht

theorem valid_encode (c : Char) : Valid (String.utf8EncodeChar c) := Char.isValidUTF8_toByteArray_utf8EncodeChar

/-- The encoding of an ASCII character is its byte. -/
theorem encode_of_ascii {c : Char} (h : c.toNat < 0x80) : String.utf8EncodeChar c = [UInt8.ofNat c.toNat] := by
  have hle : c.val.toNat ≤ 127 := Nat.le_of_lt_succ h
  rw [String.utf8EncodeChar, if_pos hle]
  rfl

/-- The encoding of any other character is bytes above ASCII. -/
theorem encode_of_not_ascii {c : Char} (h : ¬ c.toNat < 0x80) : ∀ x ∈ String.utf8EncodeChar c, 0x80 ≤ x := by
  have hbyte (n m : Nat) (hm : 128 ≤ m) (hlt : n + m < 256) : 0x80 ≤ UInt8.ofNat (n + m) := by
    rw [UInt8.le_iff_toNat_le, UInt8.toNat_ofNat', Nat.mod_eq_of_lt hlt]
    exact Nat.le_trans hm (Nat.le_add_left m n)
  have hcont (n : Nat) : 0x80 ≤ UInt8.ofNat (n % 64 + 128) := hbyte _ _ (le_refl _) (by omega)
  have hnot : ¬ c.val.toNat ≤ 127 := fun hle ↦ h (Nat.lt_succ_of_le hle)
  rw [String.utf8EncodeChar, if_neg hnot]
  split_ifs
  · simp only [List.forall_mem_cons]
    exact ⟨hbyte _ _ (by decide) (by omega), hcont _, List.forall_mem_nil _⟩
  · simp only [List.forall_mem_cons]
    exact ⟨hbyte _ _ (by decide) (by omega), hcont _, hcont _, List.forall_mem_nil _⟩
  · simp only [List.forall_mem_cons]
    exact ⟨hbyte _ _ (by decide) (by omega), hcont _, hcont _, hcont _, List.forall_mem_nil _⟩

/-- An ASCII byte is valid. -/
theorem valid_singleton {c : UInt8} (h : c < 0x80) : Valid [c] := by
  have hlt : c.toNat < 0x80 := h
  have hval : (Char.ofNat c.toNat).toNat = c.toNat := by
    rw [Char.ofNat, dif_pos (Or.inl (Nat.lt_trans hlt (by decide)))]
    rfl
  have hencode := encode_of_ascii (c := Char.ofNat c.toNat) (by rwa [hval])
  rw [hval, UInt8.ofNat_toNat] at hencode
  rw [← hencode]
  exact valid_encode _

/-- A valid string starts with an ASCII byte or with a group of bytes above ASCII. -/
theorem Valid.cons_cases {c : UInt8} {s : List UInt8} (h : Valid (c :: s)) :
    (c < 0x80 ∧ Valid s) ∨
      ∃ u t, c :: s = u ++ t ∧ u ≠ [] ∧ (∀ x ∈ u, 0x80 ≤ x) ∧ Valid u ∧ Valid t := by
  obtain ⟨m, hm⟩ := valid_iff.mp h
  cases m with
  | nil => cases hm
  | cons d m =>
      rw [List.flatMap_cons] at hm
      by_cases hd : d.toNat < 0x80
      · rw [encode_of_ascii hd, List.singleton_append, List.cons.injEq] at hm
        obtain ⟨rfl, rfl⟩ := hm
        refine .inl ⟨?_, valid_iff.mpr ⟨m, rfl⟩⟩
        rw [UInt8.lt_iff_toNat_lt, UInt8.toNat_ofNat', Nat.mod_eq_of_lt (Nat.lt_trans hd (by decide))]
        exact hd
      · exact .inr ⟨_, _, hm, String.utf8EncodeChar_ne_nil, encode_of_not_ascii hd, valid_encode d, valid_iff.mpr ⟨m, rfl⟩⟩

/-- ASCII bytes at the start of a valid string can be taken away. -/
theorem Valid.of_append {u t : List UInt8} (h : Valid (u ++ t)) (hu : ∀ x ∈ u, x < 0x80) : Valid t := by
  induction u with
  | nil => exact h
  | cons c u ih =>
      obtain ⟨hc, hu⟩ := List.forall_mem_cons.mp hu
      rcases h.cons_cases with ⟨-, htail⟩ | ⟨v, w, hvw, hne, hhigh, -, -⟩
      · exact ih htail hu
      · cases v with
        | nil => exact absurd rfl hne
        | cons d v =>
            obtain ⟨rfl, -⟩ := List.cons.inj hvw
            exact absurd hc (UInt8.not_lt.mpr (hhigh _ List.mem_cons_self))

end Utf8
