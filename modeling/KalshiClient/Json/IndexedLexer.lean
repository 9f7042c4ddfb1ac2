import KalshiClient.Base.Cursor
import KalshiClient.Json.LexerSpec

/-!
# The JSON lexer with its index

`JsonLexer` as `src/encoding/json_lexer.cpp` writes it: `_input` is the whole input, `_pos` an index that every function
moves, and a function that fails leaves the index where it found the fault.  Every read of `_input` stands under the
test that guards it in the source.  `Json.Lexer` has the same functions over what is left of the input;
`next_agrees` says that they return the same tokens and the same errors, so that what is proved of the one
holds of the other.
-/

namespace KalshiClient.Json.Indexed

open Bytes Cursor

section Definitions

variable (input : Bytes)

/-- The whitespace loop of `next`. -/
def skipWs (pos : Nat) : Nat := skipWhile isWs input pos

/-- The lambda `peek` of `lex_number`: past the end it is a byte that no test of `lex_number` looks for. -/
def peek (pos : Nat) : UInt8 := if h : pos < input.length then input[pos] else 0

theorem lt_of_isDigit_peek {pos : Nat} (h : isDigit (peek input pos) = true) : pos < input.length := by
  by_contra hge
  rw [peek, dif_neg hge] at h
  cases h

/-- The loop of the lambda `digits`. -/
def skipDigits (pos : Nat) : Nat := if isDigit (peek input pos) then skipDigits (pos + 1) else pos
termination_by input.length - pos
decreasing_by
  have hlt := lt_of_isDigit_peek input ‹_›
  omega

/-- The lambda `digits` of `lex_number`: whether there was a digit, and the index after them. -/
def digits (before : Nat) : Bool × Nat := (before < skipDigits input before, skipDigits input before)

/-- The integer part. -/
def scanInt (pos : Nat) : Bool × Nat := if peek input pos = '0'.toUInt8 then (true, pos + 1) else digits input pos

/-- The optional fraction. -/
def scanFrac (pos : Nat) : Bool × Nat := if peek input pos = '.'.toUInt8 then digits input (pos + 1) else (true, pos)

/-- The optional exponent. -/
def scanExp (pos : Nat) : Bool × Nat :=
  if peek input pos = 'e'.toUInt8 || peek input pos = 'E'.toUInt8 then
    digits input (if isSign (peek input (pos + 1)) then pos + 1 + 1 else pos + 1)
  else (true, pos)

/-- `JsonLexer::lex_number`. -/
def lexNumber (start : Nat) : Except JsonError Token × Nat :=
  match scanInt input (if peek input start = '-'.toUInt8 then start + 1 else start) with
  | (false, pos) => (.error ⟨"Invalid number", start⟩, pos)
  | (true, pos) =>
    match scanFrac input pos with
    | (false, pos) => (.error ⟨"Invalid number: no digits after '.'", start⟩, pos)
    | (true, pos) =>
      match scanExp input pos with
      | (false, pos) => (.error ⟨"Invalid number: bad exponent", start⟩, pos)
      | (true, pos) => (.ok ⟨.number, substr input start (pos - start), false⟩, pos)

/-- The loop of `lex_string` over the `n` hexadecimal digits of an escape, with the index on the byte before them:
whether they are all there, and the index of the last one or of the byte that should have been one. -/
def scanHex : Nat → Nat → Bool × Nat
  | 0, pos => (true, pos)
  | n + 1, pos =>
    if h : pos + 1 < input.length then
      if isHex input[pos + 1] then scanHex n (pos + 1) else (false, pos + 1)
    else (false, pos + 1)

/-- The index is on the last digit. -/
theorem scanHex_eq_true {n pos pos' : Nat} (h : scanHex input n pos = (true, pos')) : pos' = pos + n := by
  induction n generalizing pos with
  | zero =>
      cases h
      rfl
  | succ n ih =>
      rw [scanHex] at h
      split_ifs at h
      · rw [ih h, Nat.add_assoc, Nat.add_comm 1 n]
      all_goals cases h

/-- The loop of `lex_string`. -/
def scanString (start : Nat) (hasEscapes : Bool) (pos : Nat) : Except JsonError Token × Nat :=
  if h : pos < input.length then
    let c := input[pos]
    if c = '"'.toUInt8 then (.ok ⟨.string, substr input start (pos - start), hasEscapes⟩, pos + 1)
    else if c < 0x20 then (.error ⟨"Unescaped control character in string", pos⟩, pos)
    else if c = '\\'.toUInt8 then
      if h' : pos + 1 < input.length then
        let e := input[pos + 1]
        if isShortEscape e then scanString start true (pos + 1 + 1)
        else if e = 'u'.toUInt8 then
          match hhex : scanHex input 4 (pos + 1) with
          | (false, pos') => (.error ⟨"Invalid \\u escape in string", pos'⟩, pos')
          | (true, pos') => scanString start true (pos' + 1)
        else (.error ⟨"Invalid escape in string", pos + 1⟩, pos + 1)
      else (.error ⟨"Unterminated string", start - 1⟩, pos + 1)
    else scanString start hasEscapes (pos + 1)
  else (.error ⟨"Unterminated string", start - 1⟩, pos)
termination_by input.length - pos
decreasing_by
  · omega
  · have hpos := scanHex_eq_true input hhex
    omega
  · omega

/-- `JsonLexer::lex_string`, with the index on the opening quote. -/
def lexString (pos : Nat) : Except JsonError Token × Nat := scanString input (pos + 1) false (pos + 1)

/-- The part of `next` after the whitespace. -/
def lexToken (pos : Nat) : Except JsonError Token × Nat :=
  if h : pos < input.length then
    let c := input[pos]
    match punctuation c with
    | some type => (.ok ⟨type, substr input pos 1, false⟩, pos + 1)
    | none =>
      if c = '"'.toUInt8 then lexString input pos
      else
        match literal (input.drop pos) with
        | some (word, type) => (.ok ⟨type, word, false⟩, pos + word.length)
        | none =>
          if c = '-'.toUInt8 || isDigit c then lexNumber input pos
          else (.error ⟨"Unexpected character", pos⟩, pos)
  else (.ok ⟨.endOfInput, [], false⟩, pos)

/-- `JsonLexer::next`. -/
def next (pos : Nat) : Except JsonError Token × Nat := lexToken input (skipWs input pos)

end Definitions

variable {input s t r : Bytes} {pos start : Nat} {c : UInt8}

/-! ## Numbers -/

theorem peek_nil (h : At input pos []) : peek input pos = 0 := by
  rw [peek, dif_neg h.not_lt]

theorem peek_cons (h : At input pos (c :: t)) : peek input pos = c := by
  rw [peek, dif_pos h.lt, h.getElem_eq]

/-- Looking past the end ends the loop as the end of the input does. -/
theorem skipDigits_eq (pos : Nat) : skipDigits input pos = skipWhile isDigit input pos := by
  fun_induction skipWhile isDigit input pos with
  | case1 pos hlt hdigit ih => rw [skipDigits, peek, dif_pos hlt, if_pos hdigit, ih]
  | case2 pos hlt hdigit => rw [skipDigits, peek, dif_pos hlt, if_neg hdigit]
  | case3 pos hge =>
      rw [skipDigits, peek, dif_neg hge]
      rfl

/-- A part of a number, read on the index and on what is left: both read up to the same place, or both find it out of
order, which is the error `e`. -/
def ScansAs (input : Bytes) (e : JsonError) (b : Bool × Nat) (y : Except JsonError (Bytes × Bytes)) : Prop :=
  (∃ pos x r, b = (true, pos) ∧ y = .ok (x, r) ∧ At input pos r) ∨
    ∃ pos r, b = (false, pos) ∧ y = .error e ∧ At input pos r

/-- What is left may be read into something larger. -/
theorem ScansAs.map {e : JsonError} {b : Bool × Nat} {y : Except JsonError (Bytes × Bytes)} (h : ScansAs input e b y)
    (f : Bytes → Bytes) : ScansAs input e b (y >>= fun (x, r) ↦ .ok (f x, r)) := by
  rcases h with ⟨pos, x, r, rfl, rfl, hr⟩ | ⟨pos, r, rfl, rfl, hr⟩
  · exact .inl ⟨pos, f x, r, rfl, rfl, hr⟩
  · exact .inr ⟨pos, r, rfl, rfl, hr⟩

/-- One optional byte. -/
theorem takeIf_at {p : UInt8 → Bool} (hp : p 0 = false) (h : At input pos s) :
    At input (if p (peek input pos) then pos + 1 else pos) (takeIf p s).2 := by
  cases s with
  | nil =>
      rw [peek_nil h, hp, if_neg Bool.false_ne_true]
      exact h
  | cons c t =>
      rw [peek_cons h, takeIf]
      cases hc : p c with
      | true => exact h.step
      | false => exact h

theorem digits_scansAs (e : JsonError) (h : At input pos s) : ScansAs input e (digits input pos) (lexDigits e s) := by
  have hafter : At input (skipDigits input pos) (s.dropWhile isDigit) := by
    rw [skipDigits_eq]
    exact h.skipWhile
  have hcount : skipDigits input pos = pos + (s.takeWhile isDigit).length := by
    have hwhole := h.length_eq
    rw [← hafter.length_eq, ← List.takeWhile_append_dropWhile (p := isDigit) (l := s), List.length_append] at hwhole
    simp only [List.takeWhile_append_dropWhile] at hwhole
    omega
  rw [digits, lexDigits]
  by_cases hnone : s.takeWhile isDigit = []
  · rw [hnone, List.length_nil, Nat.add_zero] at hcount
    rw [if_pos hnone, decide_eq_false (by rw [hcount]; exact lt_irrefl _)]
    exact .inr ⟨_, _, rfl, rfl, hafter⟩
  · have hlt : pos < skipDigits input pos := by
      rw [hcount]
      exact Nat.lt_add_of_pos_right (List.length_pos_iff.mpr hnone)
    rw [if_neg hnone, decide_eq_true hlt]
    exact .inl ⟨_, _, _, rfl, rfl, hafter⟩

theorem scanInt_scansAs (start : Nat) (h : At input pos s) :
    ScansAs input ⟨"Invalid number", start⟩ (scanInt input pos) (lexInt start s) := by
  rw [scanInt]
  cases s with
  | nil =>
      rw [peek_nil h, if_neg (by decide)]
      exact digits_scansAs _ h
  | cons c t =>
      rw [peek_cons h, lexInt]
      split
      · exact .inl ⟨_, _, _, rfl, rfl, h.step⟩
      · exact digits_scansAs _ h

theorem scanFrac_scansAs (start : Nat) (h : At input pos s) :
    ScansAs input ⟨"Invalid number: no digits after '.'", start⟩ (scanFrac input pos) (lexFrac start s) := by
  rw [scanFrac]
  cases s with
  | nil =>
      rw [peek_nil h, if_neg (by decide)]
      exact .inl ⟨_, _, _, rfl, rfl, h⟩
  | cons c t =>
      rw [peek_cons h, lexFrac]
      split
      · exact (digits_scansAs _ h.step).map (c :: ·)
      · exact .inl ⟨_, _, _, rfl, rfl, h⟩

theorem scanExp_scansAs (start : Nat) (h : At input pos s) :
    ScansAs input ⟨"Invalid number: bad exponent", start⟩ (scanExp input pos) (lexExp start s) := by
  rw [scanExp]
  cases s with
  | nil =>
      rw [peek_nil h, if_neg (by decide)]
      exact .inl ⟨_, _, _, rfl, rfl, h⟩
  | cons c t =>
      rw [peek_cons h, lexExp]
      split
      · have hsign := takeIf_at (p := isSign) (by decide) h.step
        exact (digits_scansAs _ hsign).map (c :: (takeIf isSign t).1 ++ ·)
      · exact .inl ⟨_, _, _, rfl, rfl, h⟩

/-! ## The two lexers -/

/-- The lexer over what is left of the input stands where the index does. -/
structure Stands (input : Bytes) (pos : Nat) (l : JsonLexer) : Prop where
  /-- It is a lexer of the same input. -/
  size_eq : l.size = input.length
  /-- It has the same left to read. -/
  at_rest : At input pos l.rest

namespace Stands

variable {l : JsonLexer}

theorem of_le (h : pos ≤ input.length) : Stands input pos ⟨input.length, input.drop pos⟩ := ⟨rfl, At.of_le h⟩

theorem position_eq (h : Stands input pos l) : l.position = pos := by
  rw [JsonLexer.position, h.size_eq]
  exact h.at_rest.pos_eq.symm

/-- Having read on, it stands where the index has moved to. -/
theorem move {pos' : Nat} (h : Stands input pos l) (h' : At input pos' r) : Stands input pos' { l with rest := r } :=
  ⟨h.size_eq, h'⟩

theorem skipWs (h : Stands input pos l) : Stands input (skipWs input pos) l.skipWs := h.move h.at_rest.skipWhile

end Stands

theorem lexNumber_agrees {l : JsonLexer} (h : Stands input pos l) :
    Agrees (Stands input) (lexNumber input pos) l.lexNumber := by
  have hsign := takeIf_at (p := fun c ↦ c = '-'.toUInt8) (by decide) h.at_rest
  simp only [decide_eq_true_eq] at hsign
  have hlex := JsonLexer.lexNumber.eq_def l
  rw [h.position_eq] at hlex
  rw [lexNumber]
  rcases scanInt_scansAs pos hsign with ⟨pos₁, int, s₁, hscan, hint, h₁⟩ | ⟨pos₁, s₁, hscan, hint, h₁⟩
  · rw [hscan]
    simp only [hint, Except.bind_ok] at hlex
    rcases scanFrac_scansAs pos h₁ with ⟨pos₂, frac, s₂, hscan, hfrac, h₂⟩ | ⟨pos₂, s₂, hscan, hfrac, h₂⟩
    · simp only [hscan]
      simp only [hfrac, Except.bind_ok] at hlex
      rcases scanExp_scansAs pos h₂ with ⟨pos₃, exp, s₃, hscan, hexp, h₃⟩ | ⟨pos₃, s₃, hscan, hexp, h₃⟩
      · simp only [hscan]
        simp only [hexp, Except.bind_ok] at hlex
        obtain ⟨n, htoken, hrest, -⟩ := lexNumber_sound hlex
        have htext : substr input pos (pos₃ - pos) = n.text := by
          have hat := h.at_rest
          rw [hrest] at hat
          exact hat.substr_sub_eq h₃
        rw [hlex, htoken, htext]
        exact .ok _ (h.move h₃)
      · simp only [hscan, hlex, hexp, Except.bind_error]
        exact .error _ (h.move h₃)
    · simp only [hscan, hlex, hfrac, Except.bind_error]
      exact .error _ (h.move h₂)
  · simp only [hscan, hlex, hint, Except.bind_error]
    exact .error _ (h.move h₁)

/-! ## Strings -/

/-- The digits of an escape are counted up to the first byte that is none. -/
theorem scanHex_eq {n : Nat} (h : At input (pos + 1) t) :
    scanHex input n pos =
      if ((t.take n).takeWhile isHex).length = n then (true, pos + n)
      else (false, pos + 1 + ((t.take n).takeWhile isHex).length) := by
  induction n generalizing pos t with
  | zero => rfl
  | succ n ih =>
      rw [scanHex]
      cases t with
      | nil =>
          rw [dif_neg h.not_lt, List.take_nil, List.takeWhile_nil,
            List.length_nil, if_neg (Nat.succ_ne_zero n).symm]
      | cons c t =>
          rw [dif_pos h.lt, h.getElem_eq, List.take_succ_cons]
          cases hc : isHex c with
          | true =>
              rw [if_pos rfl, ih h.step, List.takeWhile_cons_of_pos hc, List.length_cons]
              simp only [Nat.add_right_cancel_iff, Nat.add_assoc, Nat.add_comm 1]
          | false =>
              rw [if_neg Bool.false_ne_true, List.takeWhile_cons_of_neg (by rw [hc]; exact Bool.false_ne_true),
                List.length_nil, if_neg (Nat.succ_ne_zero n).symm]

section ScanString

variable {hasEscapes : Bool}

theorem scanString_nil (h : At input pos []) :
    scanString input start hasEscapes pos = (.error ⟨"Unterminated string", start - 1⟩, pos) := by
  rw [scanString, dif_neg h.not_lt]

theorem scanString_cons (h : At input pos (c :: t)) :
    scanString input start hasEscapes pos =
      if c = '"'.toUInt8 then (.ok ⟨.string, substr input start (pos - start), hasEscapes⟩, pos + 1)
      else if c < 0x20 then (.error ⟨"Unescaped control character in string", pos⟩, pos)
      else if c = '\\'.toUInt8 then
        match t with
        | [] => (.error ⟨"Unterminated string", start - 1⟩, pos + 1)
        | e :: t =>
          if isShortEscape e then scanString input start true (pos + 2)
          else if e = 'u'.toUInt8 then
            if ((t.take 4).takeWhile isHex).length = 4 then scanString input start true (pos + 6)
            else
              (.error ⟨"Invalid \\u escape in string", pos + 2 + ((t.take 4).takeWhile isHex).length⟩,
                pos + 2 + ((t.take 4).takeWhile isHex).length)
          else (.error ⟨"Invalid escape in string", pos + 1⟩, pos + 1)
      else scanString input start hasEscapes (pos + 1) := by
  rw [scanString, dif_pos h.lt]
  simp only [h.getElem_eq]
  cases t with
  | nil => rw [dif_neg h.step.not_lt]
  | cons e t =>
      rw [dif_pos h.step.lt]
      simp only [h.step.getElem_eq]
      have hhex : scanHex input 4 (pos + 1) = _ := scanHex_eq h.step.step
      -- Only the branch of `\u` is written otherwise.
      refine if_congr Iff.rfl rfl (if_congr Iff.rfl rfl (if_congr Iff.rfl (if_congr Iff.rfl rfl ?_) rfl))
      refine if_congr Iff.rfl ?_ rfl
      split
      · next pos' hbad =>
          rw [hhex] at hbad
          split_ifs at hbad with hall
          · cases hbad
          · cases hbad
            rw [if_neg hall]
      · next pos' hgood =>
          rw [hhex] at hgood
          split_ifs at hgood with hall
          · cases hgood
            rw [if_pos hall]
          · cases hgood

/-- What the loop returns on the index, from `pos` on and with `hasEscapes` so far, against what it returns on what is
left: the same text and escapes, with the index after the closing quote, or the same error. -/
def ReadsAs (input : Bytes) (start pos : Nat) (hasEscapes : Bool) (y : Except JsonError (Bytes × Bool × Bytes))
    (z : Except JsonError Token × Nat) : Prop :=
  (∃ text escapes rest, y = .ok (text, escapes, rest) ∧
    z = (.ok ⟨.string, substr input start (pos + text.length - start), hasEscapes || escapes⟩,
      pos + text.length + 1)) ∨
    ∃ e pos', y = .error e ∧ z = (.error e, pos') ∧ pos' ≤ input.length

/-- A round of the loop that reads `x`. -/
theorem ReadsAs.round {y : Except JsonError (Bytes × Bool × Bytes)} {z : Except JsonError Token × Nat}
    {hasEscapes' : Bool} {escapes' : Bool → Bool} (x : Bytes)
    (h : ReadsAs input start (pos + x.length) hasEscapes' y z)
    (hescapes : ∀ escapes, (hasEscapes' || escapes) = (hasEscapes || escapes' escapes)) :
    ReadsAs input start pos hasEscapes
      (y >>= fun (text, escapes, rest) ↦ .ok (x ++ text, escapes' escapes, rest)) z := by
  rcases h with ⟨text, escapes, rest, rfl, rfl⟩ | ⟨e, pos', rfl, rfl, hle⟩
  · refine .inl ⟨x ++ text, escapes' escapes, rest, rfl, ?_⟩
    rw [List.length_append, ← Nat.add_assoc, hescapes]
  · exact .inr ⟨e, pos', rfl, rfl, hle⟩

/-- A `\u` that is not followed by four digits. -/
theorem readsAs_badHex (start : Nat) (hasEscapes : Bool)
    (h : At input pos ('\\'.toUInt8 :: 'u'.toUInt8 :: t)) (hbad : ((t.take 4).takeWhile isHex).length ≠ 4) :
    ReadsAs input start pos hasEscapes
      (.error ⟨"Invalid \\u escape in string", input.length - t.length + ((t.take 4).takeWhile isHex).length⟩)
      (scanString input start hasEscapes pos) := by
  have hdigits := h.step.step
  have hle : ((t.take 4).takeWhile isHex).length ≤ t.length :=
    ((List.takeWhile_prefix isHex).length_le).trans ((List.take_prefix 4 t).length_le)
  refine .inr ⟨_, pos + 2 + ((t.take 4).takeWhile isHex).length, rfl, ?_, ?_⟩
  · rw [← hdigits.pos_eq, scanString_cons h]
    exact if_neg hbad
  · rw [← hdigits.length_eq]
    exact Nat.add_le_add_left hle _

/-- The two loops read the same text and find the same faults. -/
theorem scanString_readsAs (start : Nat) (h : At input pos s) (hasEscapes : Bool) :
    ReadsAs input start pos hasEscapes (Json.scanString input.length start s)
      (scanString input start hasEscapes pos) := by
  fun_induction Json.scanString input.length start s generalizing pos hasEscapes with
  | case1 => exact .inr ⟨_, _, rfl, scanString_nil h, h.within⟩
  | case2 t =>
      refine .inl ⟨_, _, _, rfl, ?_⟩
      rw [scanString_cons h, if_pos rfl, Bool.or_false]
      rfl
  | case3 c t hquote hctl =>
      refine .inr ⟨_, pos, rfl, ?_, h.within⟩
      rw [scanString_cons h, if_neg hquote, if_pos hctl, h.pos_eq]
      rfl
  | case4 hquote hctl =>
      refine .inr ⟨_, pos + 1, rfl, ?_, h.step.within⟩
      rw [scanString_cons h, if_neg hquote, if_neg hctl, if_pos rfl]
  | case5 e t he hquote hctl ih =>
      have hround : scanString input start hasEscapes pos = scanString input start true (pos + 2) := by
        rw [scanString_cons h, if_neg hquote, if_neg hctl, if_pos rfl]
        exact if_pos he
      rw [hround]
      exact (ih h.step.step true).round ['\\'.toUInt8, e] fun _ ↦ (Bool.or_true hasEscapes).symm
  | case6 h₁ h₂ h₃ h₄ t hhex hquote hctl hshort ih =>
      have hround : scanString input start hasEscapes pos = scanString input start true (pos + 6) := by
        rw [scanString_cons h, if_neg hquote, if_neg hctl, if_pos rfl]
        simp only [Bool.and_eq_true] at hhex
        obtain ⟨⟨⟨hh₁, hh₂⟩, hh₃⟩, hh₄⟩ := hhex
        simp [hshort, hh₁, hh₂, hh₃, hh₄]
      rw [hround]
      exact (ih (At.advance (x := ['\\'.toUInt8, 'u'.toUInt8, h₁, h₂, h₃, h₄]) h) true).round
        ['\\'.toUInt8, 'u'.toUInt8, h₁, h₂, h₃, h₄] fun _ ↦ (Bool.or_true hasEscapes).symm
  | case7 h₁ h₂ h₃ h₄ t hhex hquote hctl hshort =>
      refine readsAs_badHex start hasEscapes h fun hall ↦ hhex ?_
      have hself : [h₁, h₂, h₃, h₄].takeWhile isHex = [h₁, h₂, h₃, h₄] :=
        (List.takeWhile_prefix isHex).eq_of_length hall
      have hdigits := List.takeWhile_eq_self_iff.mp hself
      simp only [hdigits, List.mem_cons, true_or, or_true, Bool.and_self]
  | case8 t hfew hquote hctl hshort =>
      have hlt : t.length < 4 := by
        rcases t with _ | ⟨h₁, _ | ⟨h₂, _ | ⟨h₃, _ | ⟨h₄, t⟩⟩⟩⟩
        · simp
        · simp
        · simp
        · simp
        · exact (hfew h₁ h₂ h₃ h₄ t rfl).elim
      have hread := readsAs_badHex start hasEscapes h
      rw [List.take_of_length_le hlt.le] at hread
      exact hread (((List.takeWhile_prefix isHex).length_le.trans_lt hlt).ne)
  | case9 e t hshort hu hquote hctl =>
      refine .inr ⟨_, pos + 1, rfl, ?_, h.step.within⟩
      rw [scanString_cons h, if_neg hquote, if_neg hctl, if_pos rfl]
      simp only [if_neg hshort, if_neg hu, h.step.pos_eq]
      rfl
  | case10 c t hquote hctl hback ih =>
      have hround : scanString input start hasEscapes pos = scanString input start hasEscapes (pos + 1) := by
        rw [scanString_cons h, if_neg hquote, if_neg hctl, if_neg hback]
      rw [hround]
      exact (ih h.step hasEscapes).round [c] fun _ ↦ rfl

end ScanString

theorem lexString_agrees {l : JsonLexer} (h : Stands input pos l) (hrest : l.rest = '"'.toUInt8 :: t) :
    Agrees (Stands input) (lexString input pos) l.lexString := by
  have hat := h.at_rest
  rw [hrest] at hat
  have hstart : l.size - l.rest.tail.length = pos + 1 := by
    rw [hrest, List.tail_cons, h.size_eq]
    exact hat.step.pos_eq.symm
  rw [lexString, JsonLexer.lexString, hstart, h.size_eq, hrest, List.tail_cons]
  rcases scanString_readsAs (pos + 1) hat.step false with
    ⟨text, escapes, rest, hscan, hindex⟩ | ⟨e, pos', hscan, hindex, hle⟩
  · obtain ⟨b, rfl, -, rfl⟩ := scanString_sound _ _ hscan
    have htext := hat.step.substr_eq
    rw [hscan, hindex, Nat.add_sub_cancel_left, htext, Bool.false_or]
    exact .ok _ ⟨rfl, hat.step.advance.step⟩
  · rw [hscan, hindex]
    exact .error e (Stands.of_le hle)

/-! ## Tokens -/

theorem lexToken_agrees {l : JsonLexer} (h : Stands input pos l) :
    Agrees (Stands input) (lexToken input pos) l.lexToken := by
  have hat := h.at_rest
  rw [lexToken, JsonLexer.lexToken]
  cases hrest : l.rest with
  | nil =>
      rw [hrest] at hat
      rw [dif_neg hat.not_lt]
      exact .ok _ h
  | cons c t =>
      rw [hrest] at hat
      rw [dif_pos hat.lt]
      simp only [hat.getElem_eq, hat.drop_eq]
      cases hpunct : punctuation c with
      | some type =>
          have htext : substr input pos 1 = [c] := At.substr_eq (x := [c]) hat
          simp only [htext]
          exact .ok _ (h.move hat.step)
      | none =>
          by_cases hquote : c = '"'.toUInt8
          · simp only [if_pos hquote]
            exact lexString_agrees h (by rw [hrest, hquote])
          · simp only [if_neg hquote]
            cases hlit : literal (c :: t) with
            | some p =>
                obtain ⟨word, type⟩ := p
                obtain ⟨-, hdrop⟩ := literal_sound hlit
                rw [hdrop] at hat
                exact .ok _ (h.move hat.advance)
            | none =>
                by_cases hnumber : (c = '-'.toUInt8 || isDigit c) = true
                · simp only [if_pos hnumber]
                  exact lexNumber_agrees h
                · simp only [if_neg hnumber, h.position_eq]
                  exact .error _ h

/-- **The index and the rest of the input give the same lexer.**  From the same place, `next` returns the same token and
stands at the same place, or fails with the same error at the same offset; and then too the index is within the
input. -/
theorem next_agrees {l : JsonLexer} (h : Stands input pos l) : Agrees (Stands input) (next input pos) l.next :=
  lexToken_agrees h.skipWs

end KalshiClient.Json.Indexed
