import KalshiClient.Json.Syntax

/-!
# What the lexer reads

A `Lexeme` is a token of the grammar together with its bytes.  `next` returns the token of the lexeme
that the input continues with, after whitespace, and nothing else (`next_sound`), and it returns it
whenever the input does continue so (`next_lexeme`).  The one lexeme whose extent depends on what
follows is the number, by maximal munch: `NumberEnds` is what has to follow it.
-/

namespace KalshiClient.Json

open Bytes

/-- The tokens of the grammar. -/
inductive Lexeme where
  | leftBrace | rightBrace | leftBracket | rightBracket | colon | comma
  | true | false | null
  | string (s : StrBody)
  | number (n : Numeral)

namespace Lexeme

/-- The bytes of a lexeme. -/
def text : Lexeme → Bytes
  | .leftBrace => ['{'.toUInt8]
  | .rightBrace => ['}'.toUInt8]
  | .leftBracket => ['['.toUInt8]
  | .rightBracket => [']'.toUInt8]
  | .colon => [':'.toUInt8]
  | .comma => [','.toUInt8]
  | .true => ascii "true"
  | .false => ascii "false"
  | .null => ascii "null"
  | .string s => quoted s.text
  | .number n => n.text

/-- The token handed out for a lexeme. -/
def token : Lexeme → Token
  | .leftBrace => ⟨.leftBrace, ['{'.toUInt8], Bool.false⟩
  | .rightBrace => ⟨.rightBrace, ['}'.toUInt8], Bool.false⟩
  | .leftBracket => ⟨.leftBracket, ['['.toUInt8], Bool.false⟩
  | .rightBracket => ⟨.rightBracket, [']'.toUInt8], Bool.false⟩
  | .colon => ⟨.colon, [':'.toUInt8], Bool.false⟩
  | .comma => ⟨.comma, [','.toUInt8], Bool.false⟩
  | .true => ⟨.true, ascii "true", Bool.false⟩
  | .false => ⟨.false, ascii "false", Bool.false⟩
  | .null => ⟨.null, ascii "null", Bool.false⟩
  | .string s => ⟨.string, s.text, s.hasEscapes⟩
  | .number n => ⟨.number, n.text, Bool.false⟩

end Lexeme

/-- A byte that a number could continue with. -/
def continuesNumber (c : UInt8) : Bool :=
  isDigit c || c = '.'.toUInt8 || c = 'e'.toUInt8 || c = 'E'.toUInt8

/-- The input does not continue a number. -/
def NumberEnds (r : Bytes) : Prop := ∀ c ∈ r.head?, continuesNumber c = false

theorem numberEnds_nil : NumberEnds [] := by
  intro c h
  cases h

theorem numberEnds_cons {c : UInt8} (h : continuesNumber c = false) (r : Bytes) :
    NumberEnds (c :: r) := by
  rintro d hd
  cases hd
  exact h

/-! ## Runs of bytes of one class -/

/-- A run of bytes satisfying `p`, followed by something that does not start with one, is exactly what
`takeWhile` takes. -/
theorem span_append {p : UInt8 → Bool} {w r : Bytes} (hw : ∀ c ∈ w, p c = true)
    (hr : ∀ c ∈ r.head?, p c = false) :
    (w ++ r).takeWhile p = w ∧ (w ++ r).dropWhile p = r := by
  have htake : r.takeWhile p = [] := by
    cases r with
    | nil => rfl
    | cons c r => rw [List.takeWhile_cons_of_neg (by simp [hr c rfl])]
  have hdrop : r.dropWhile p = r := by
    cases r with
    | nil => rfl
    | cons c r => rw [List.dropWhile_cons_of_neg (by simp [hr c rfl])]
  constructor
  · rw [List.takeWhile_append_of_pos hw, htake, List.append_nil]
  · rw [List.dropWhile_append_of_pos hw, hdrop]

/-! ## Strings -/

section

variable (size start : Nat)

theorem scanString_quote (t : Bytes) :
    scanString size start ('"'.toUInt8 :: t) = .ok ([], false, t) := by
  rw [scanString.eq_def]
  rfl

theorem scanString_plain {c : UInt8} (h : isPlain c = true) (t : Bytes) :
    scanString size start (c :: t) =
      scanString size start t >>= fun (text, escapes, rest) ↦ .ok (c :: text, escapes, rest) := by
  simp only [isPlain, Bool.and_eq_true, decide_eq_true_eq, ne_eq] at h
  obtain ⟨⟨hge, hquote⟩, hback⟩ := h
  rw [scanString.eq_def]
  simp only [if_neg hquote, if_neg (not_lt.mpr hge), if_neg hback]

theorem scanString_short {e : UInt8} (h : isShortEscape e = true) (t : Bytes) :
    scanString size start ('\\'.toUInt8 :: e :: t) =
      scanString size start t >>= fun (text, _, rest) ↦
        .ok ('\\'.toUInt8 :: e :: text, true, rest) := by
  rw [scanString.eq_def]
  exact if_pos h

theorem scanString_unicode (q : HexQuad) (t : Bytes) :
    scanString size start ('\\'.toUInt8 :: 'u'.toUInt8 :: q.text ++ t) =
      scanString size start t >>= fun (text, _, rest) ↦
        .ok ('\\'.toUInt8 :: 'u'.toUInt8 :: q.text ++ text, true, rest) := by
  rw [List.cons_append, List.cons_append, scanString.eq_def]
  exact if_pos q.isHex

/-- The lexer reads a string body up to its closing quote. -/
theorem scanString_text (b : StrBody) (r : Bytes) :
    scanString size start (b.text ++ '"'.toUInt8 :: r) = .ok (b.text, b.hasEscapes, r) := by
  induction b with
  | nil => exact scanString_quote size start r
  | cons c b ih =>
      have htext : StrBody.text (c :: b) = c.text ++ StrBody.text b := List.flatMap_cons
      rw [htext, List.append_assoc]
      cases c with
      | plain c h =>
          rw [StrChar.text, List.singleton_append, scanString_plain size start h, ih]
          rfl
      | short e h =>
          rw [StrChar.text, List.cons_append, List.singleton_append, scanString_short size start h, ih]
          rfl
      | unicode q =>
          rw [StrChar.text, scanString_unicode size start q, ih]
          rfl

/-- What the lexer has read as a string is a string body. -/
theorem scanString_sound {s text rest : Bytes} {escapes : Bool}
    (h : scanString size start s = .ok (text, escapes, rest)) :
    ∃ b : StrBody, text = b.text ∧ escapes = b.hasEscapes ∧ s = b.text ++ '"'.toUInt8 :: rest := by
  fun_induction scanString size start s generalizing text rest escapes with
  | case1 => cases h
  | case2 t =>
      cases h
      exact ⟨[], rfl, rfl, rfl⟩
  | case3 => cases h
  | case4 => cases h
  | case5 e t he hquote hctl ih =>
      obtain ⟨⟨text', escapes', rest'⟩, hscan, hok⟩ := Except.bind_eq_ok_iff.mp h
      cases hok
      obtain ⟨b, rfl, -, rfl⟩ := ih hscan
      exact ⟨.short e he :: b, rfl, rfl, rfl⟩
  | case6 h₁ h₂ h₃ h₄ t hhex hquote hctl hshort ih =>
      obtain ⟨⟨text', escapes', rest'⟩, hscan, hok⟩ := Except.bind_eq_ok_iff.mp h
      cases hok
      obtain ⟨b, rfl, -, rfl⟩ := ih hscan
      exact ⟨.unicode ⟨h₁, h₂, h₃, h₄, hhex⟩ :: b, rfl, rfl, rfl⟩
  | case7 => cases h
  | case8 => cases h
  | case9 => cases h
  | case10 c t hquote hctl hback ih =>
      obtain ⟨⟨text', escapes', rest'⟩, hscan, hok⟩ := Except.bind_eq_ok_iff.mp h
      cases hok
      obtain ⟨b, rfl, rfl, rfl⟩ := ih hscan
      have hplain : isPlain c = true := by
        simp [isPlain, hquote, hback, not_lt.mp hctl]
      exact ⟨.plain c hplain :: b, rfl, rfl, rfl⟩

end

/-! ## Numbers -/

theorem IsDigits.head {ds : Bytes} (h : IsDigits ds) (r : Bytes) :
    ∃ d t, ds ++ r = d :: t ∧ isDigit d = true := by
  obtain ⟨hne, hall⟩ := h
  cases ds with
  | nil => exact absurd rfl hne
  | cons d ds => exact ⟨d, ds ++ r, rfl, hall d List.mem_cons_self⟩

theorem isDigit_ne {c d : UInt8} (hc : isDigit c = true) (hd : isDigit d = false) : c ≠ d := by
  rintro rfl
  rw [hc] at hd
  cases hd

theorem lexDigits_text {ds r : Bytes} (e : JsonError) (h : IsDigits ds)
    (hr : ∀ c ∈ r.head?, isDigit c = false) : lexDigits e (ds ++ r) = .ok (ds, r) := by
  obtain ⟨htake, hdrop⟩ := span_append h.2 hr
  rw [lexDigits, htake, hdrop, if_neg h.1]

theorem lexDigits_sound {s ds r : Bytes} {e : JsonError} (h : lexDigits e s = .ok (ds, r)) :
    IsDigits ds ∧ s = ds ++ r := by
  rw [lexDigits] at h
  split at h
  · cases h
  · next hne =>
      cases h
      exact ⟨⟨hne, fun c hc ↦ List.mem_takeWhile_imp hc⟩, List.takeWhile_append_dropWhile.symm⟩

theorem lexInt_text {int r : Bytes} (start : Nat) (h : IsInt int)
    (hr : ∀ c ∈ r.head?, isDigit c = false) : lexInt start (int ++ r) = .ok (int, r) := by
  rcases h with rfl | ⟨hds, hzero⟩
  · rfl
  · cases int with
    | nil => exact absurd rfl hds.1
    | cons c int =>
        have hc : c ≠ '0'.toUInt8 := fun h ↦ hzero (congrArg some h)
        rw [List.cons_append, lexInt, if_neg hc, ← List.cons_append, lexDigits_text _ hds hr]

theorem lexInt_sound {start : Nat} {s int r : Bytes} (h : lexInt start s = .ok (int, r)) :
    IsInt int ∧ s = int ++ r := by
  cases s with
  | nil => cases h
  | cons c t =>
      rw [lexInt] at h
      split at h
      · next hc =>
          cases h
          exact ⟨.inl (by rw [hc]), rfl⟩
      · next hc =>
          obtain ⟨hds, hs⟩ := lexDigits_sound h
          refine ⟨.inr ⟨hds, ?_⟩, hs⟩
          cases int with
          | nil => exact absurd rfl hds.1
          | cons d int =>
              cases hs
              exact fun h ↦ hc (Option.some.inj h)

theorem lexFrac_text {frac r : Bytes} (start : Nat) (h : IsFrac frac)
    (hr : ∀ c ∈ r.head?, isDigit c = false ∧ c ≠ '.'.toUInt8) :
    lexFrac start (frac ++ r) = .ok (frac, r) := by
  rcases h with rfl | ⟨ds, rfl, hds⟩
  · cases r with
    | nil => rfl
    | cons c r => exact if_neg (hr c rfl).2
  · rw [List.cons_append, lexFrac, if_pos rfl, lexDigits_text _ hds fun c hc ↦ (hr c hc).1]
    rfl

theorem lexFrac_sound {start : Nat} {s frac r : Bytes} (h : lexFrac start s = .ok (frac, r)) :
    IsFrac frac ∧ s = frac ++ r := by
  cases s with
  | nil =>
      cases h
      exact ⟨.inl rfl, rfl⟩
  | cons c t =>
      rw [lexFrac] at h
      split at h
      · next hc =>
          obtain ⟨⟨ds, s⟩, hlex, hok⟩ := Except.bind_eq_ok_iff.mp h
          cases hok
          obtain ⟨hds, rfl⟩ := lexDigits_sound hlex
          exact ⟨.inr ⟨ds, by rw [hc], hds⟩, rfl⟩
      · cases h
        exact ⟨.inl rfl, rfl⟩

theorem isSign_of_isDigit {c : UInt8} (h : isDigit c = true) : isSign c = false := by
  simp [isSign, isDigit_ne h (show isDigit '+'.toUInt8 = false by decide),
    isDigit_ne h (show isDigit '-'.toUInt8 = false by decide)]

theorem takeIf_sound {p : UInt8 → Bool} {s x r : Bytes} (h : takeIf p s = (x, r)) :
    s = x ++ r ∧ (x = [] ∨ ∃ c, x = [c] ∧ p c = true) := by
  cases s with
  | nil =>
      cases h
      exact ⟨rfl, .inl rfl⟩
  | cons c t =>
      rw [takeIf] at h
      split at h
      · next hc =>
          cases h
          exact ⟨rfl, .inr ⟨c, rfl, hc⟩⟩
      · cases h
        exact ⟨rfl, .inl rfl⟩

theorem takeIf_of_head {p : UInt8 → Bool} {r : Bytes} (hr : ∀ c ∈ r.head?, p c = false) :
    takeIf p r = ([], r) := by
  cases r with
  | nil => rfl
  | cons c r => rw [takeIf, hr c rfl]; rfl

theorem lexExp_text {exp r : Bytes} (start : Nat) (h : IsExp exp) (hr : NumberEnds r) :
    lexExp start (exp ++ r) = .ok (exp, r) := by
  have hdigit : ∀ c ∈ r.head?, isDigit c = false := fun c hc ↦ by
    have := hr c hc
    simp only [continuesNumber, Bool.or_eq_false_iff] at this
    exact this.1.1.1
  rcases h with rfl | ⟨e, sign, ds, rfl, he, hsign, hds⟩
  · cases r with
    | nil => rfl
    | cons c r =>
        have hc := hr c rfl
        simp only [continuesNumber, Bool.or_eq_false_iff] at hc
        rw [List.nil_append, lexExp, if_neg (by simp [hc.1.2, hc.2])]
  · have htake : takeIf isSign (sign ++ (ds ++ r)) = (sign, ds ++ r) := by
      rcases hsign with rfl | rfl | rfl
      · obtain ⟨d, t, hdt, hd⟩ := hds.head r
        refine takeIf_of_head fun c hc ↦ ?_
        rw [List.nil_append, hdt] at hc
        cases hc
        exact isSign_of_isDigit hd
      · rfl
      · rfl
    have heE : (decide (e = 'e'.toUInt8) || decide (e = 'E'.toUInt8)) = true := by simp [he]
    rw [List.cons_append, List.cons_append, List.append_assoc, lexExp, if_pos heE, htake]
    simp only [lexDigits_text _ hds hdigit]
    rfl

theorem lexExp_sound {start : Nat} {s exp r : Bytes} (h : lexExp start s = .ok (exp, r)) :
    IsExp exp ∧ s = exp ++ r := by
  cases s with
  | nil =>
      cases h
      exact ⟨.inl rfl, rfl⟩
  | cons c t =>
      rw [lexExp] at h
      split at h
      · next hc =>
          obtain ⟨⟨ds, s⟩, hlex, hok⟩ := Except.bind_eq_ok_iff.mp h
          cases hok
          obtain ⟨hds, hs⟩ := lexDigits_sound hlex
          obtain ⟨ht, hsign⟩ := takeIf_sound (p := isSign) (s := t) rfl
          refine ⟨.inr ⟨c, _, ds, rfl, by simpa using hc, ?_, hds⟩, ?_⟩
          · rcases hsign with h | ⟨d, hd, hp⟩
            · exact .inl h
            · rw [hd]
              simpa [isSign] using hp
          · rw [List.append_assoc, ← hs, List.cons_append, ← ht]
      · cases h
        exact ⟨.inl rfl, rfl⟩

/-- What follows the integer part of a number does not continue it. -/
theorem IsFrac.head_append {frac s : Bytes} (h : IsFrac frac)
    (hs : ∀ c ∈ s.head?, isDigit c = false) : ∀ c ∈ (frac ++ s).head?, isDigit c = false := by
  rcases h with rfl | ⟨ds, rfl, -⟩
  · exact hs
  · rintro c hc
    cases hc
    decide

/-- What follows the fraction of a number does not continue it. -/
theorem IsExp.head_append {exp s : Bytes} (h : IsExp exp) (hs : NumberEnds s) :
    ∀ c ∈ (exp ++ s).head?, isDigit c = false ∧ c ≠ '.'.toUInt8 := by
  intro c hc
  rcases h with rfl | ⟨e, sign, ds, rfl, he, -, -⟩
  · have := hs c hc
    simp only [continuesNumber, Bool.or_eq_false_iff, decide_eq_false_iff_not] at this
    exact ⟨this.1.1.1, this.1.1.2⟩
  · cases hc
    rcases he with rfl | rfl <;> decide

theorem IsInt.head {int : Bytes} (h : IsInt int) (r : Bytes) :
    ∃ d t, int ++ r = d :: t ∧ isDigit d = true := by
  rcases h with rfl | ⟨hds, -⟩
  · exact ⟨_, r, rfl, by decide⟩
  · exact hds.head r

/-- The lexer reads a number to its end. -/
theorem lexNumber_text {l : JsonLexer} {n : Numeral} {r : Bytes} (hl : l.rest = n.text ++ r)
    (hr : NumberEnds r) : l.lexNumber = .ok (⟨.number, n.text, false⟩, { l with rest := r }) := by
  have hexp := n.isExp.head_append hr
  have hint := n.isFrac.head_append fun c hc ↦ (hexp c hc).1
  have hsign : takeIf (fun c ↦ c = '-'.toUInt8) l.rest =
      (if n.negative then ['-'.toUInt8] else [], n.int ++ (n.frac ++ (n.exp ++ r))) := by
    rw [hl, Numeral.text, List.append_assoc, List.append_assoc, List.append_assoc]
    cases n.negative with
    | true => rfl
    | false =>
        obtain ⟨d, t, hdt, hd⟩ := n.isInt.head (n.frac ++ (n.exp ++ r))
        refine takeIf_of_head fun c hc ↦ ?_
        change c ∈ (n.int ++ (n.frac ++ (n.exp ++ r))).head? at hc
        rw [hdt] at hc
        cases hc
        exact decide_eq_false (isDigit_ne hd (by decide))
  rw [JsonLexer.lexNumber]
  simp only [hsign, lexInt_text _ n.isInt hint, lexFrac_text _ n.isFrac hexp,
    lexExp_text _ n.isExp hr, Except.bind_ok]
  rfl

/-- What the lexer has read as a number is a number. -/
theorem lexNumber_sound {l l' : JsonLexer} {tok : Token} (h : l.lexNumber = .ok (tok, l')) :
    ∃ n : Numeral, tok = ⟨.number, n.text, false⟩ ∧ l.rest = n.text ++ l'.rest ∧
      l'.size = l.size := by
  rw [JsonLexer.lexNumber] at h
  rcases htake : takeIf (fun c ↦ c = '-'.toUInt8) l.rest with ⟨sign, s₀⟩
  rw [htake] at h
  obtain ⟨hrest, hsign⟩ := takeIf_sound htake
  obtain ⟨⟨int, s₁⟩, hint, h⟩ := Except.bind_eq_ok_iff.mp h
  obtain ⟨⟨frac, s₂⟩, hfrac, h⟩ := Except.bind_eq_ok_iff.mp h
  obtain ⟨⟨exp, s₃⟩, hexp, h⟩ := Except.bind_eq_ok_iff.mp h
  obtain ⟨isInt, h₁⟩ := lexInt_sound hint
  obtain ⟨isFrac, h₂⟩ := lexFrac_sound hfrac
  obtain ⟨isExp, h₃⟩ := lexExp_sound hexp
  cases h
  rcases hsign with rfl | ⟨c, rfl, hc⟩
  · refine ⟨⟨false, int, frac, exp, isInt, isFrac, isExp⟩, rfl, ?_, rfl⟩
    rw [hrest, h₁, h₂, h₃]
    simp [Numeral.text]
  · obtain rfl := of_decide_eq_true hc
    refine ⟨⟨true, int, frac, exp, isInt, isFrac, isExp⟩, rfl, ?_, rfl⟩
    rw [hrest, h₁, h₂, h₃]
    simp [Numeral.text]

/-! ## Tokens -/

theorem punctuation_sound {c : UInt8} {type : TokenType} (h : punctuation c = some type) :
    ∃ x : Lexeme, x.text = [c] ∧ x.token = ⟨type, [c], false⟩ := by
  rw [punctuation] at h
  split_ifs at h with h₁ h₂ h₃ h₄ h₅ h₆ <;> cases h
  · exact ⟨.leftBrace, by rw [h₁]; rfl, by rw [h₁]; rfl⟩
  · exact ⟨.rightBrace, by rw [h₂]; rfl, by rw [h₂]; rfl⟩
  · exact ⟨.leftBracket, by rw [h₃]; rfl, by rw [h₃]; rfl⟩
  · exact ⟨.rightBracket, by rw [h₄]; rfl, by rw [h₄]; rfl⟩
  · exact ⟨.colon, by rw [h₅]; rfl, by rw [h₅]; rfl⟩
  · exact ⟨.comma, by rw [h₆]; rfl, by rw [h₆]; rfl⟩

theorem literal_sound {s word : Bytes} {type : TokenType} (h : literal s = some (word, type)) :
    (∃ x : Lexeme, x.text = word ∧ x.token = ⟨type, word, false⟩) ∧ s = word ++ s.drop word.length := by
  have hmem := List.mem_of_find?_eq_some h
  have hpre : word.isPrefixOf s = true :=
    List.find?_some (p := fun p : Bytes × TokenType ↦ p.1.isPrefixOf s) h
  obtain ⟨t, rfl⟩ := List.isPrefixOf_iff_prefix.mp hpre
  refine ⟨?_, by rw [List.drop_left]⟩
  simp only [List.mem_cons, Prod.mk.injEq, List.not_mem_nil, or_false] at hmem
  rcases hmem with ⟨rfl, rfl⟩ | ⟨rfl, rfl⟩ | ⟨rfl, rfl⟩
  · exact ⟨.true, rfl, rfl⟩
  · exact ⟨.false, rfl, rfl⟩
  · exact ⟨.null, rfl, rfl⟩

/-- Nothing but a number starts like a number. -/
theorem lexToken_number_start : ∀ c : UInt8, (c = '-'.toUInt8 || isDigit c) = true →
    punctuation c = none ∧ c ≠ '"'.toUInt8 ∧ c ≠ 't'.toUInt8 ∧ c ≠ 'f'.toUInt8 ∧
      c ≠ 'n'.toUInt8 := by
  refine Bytes.forall_byte ?_
  decide

theorem not_isWs_of_number_start : ∀ c : UInt8, (c = '-'.toUInt8 || isDigit c) = true →
    isWs c = false := by
  refine Bytes.forall_byte ?_
  decide

theorem literal_eq_none {c : UInt8} (s : Bytes) (ht : c ≠ 't'.toUInt8) (hf : c ≠ 'f'.toUInt8)
    (hn : c ≠ 'n'.toUInt8) : literal (c :: s) = none := by
  have isPrefixOf_cons : ∀ (d : UInt8) (w : Bytes), c ≠ d →
      (d :: w).isPrefixOf (c :: s) = Bool.false := by
    intro d w hd
    rw [List.isPrefixOf, beq_eq_false_iff_ne.mpr hd.symm, Bool.false_and]
  have htrue : (ascii "true").isPrefixOf (c :: s) = Bool.false := isPrefixOf_cons _ _ ht
  have hfalse : (ascii "false").isPrefixOf (c :: s) = Bool.false := isPrefixOf_cons _ _ hf
  have hnull : (ascii "null").isPrefixOf (c :: s) = Bool.false := isPrefixOf_cons _ _ hn
  simp [literal, htrue, hfalse, hnull]

theorem Numeral.head (n : Numeral) (r : Bytes) :
    ∃ c t, n.text ++ r = c :: t ∧ (c = '-'.toUInt8 || isDigit c) = true := by
  rw [Numeral.text]
  cases n.negative with
  | true => exact ⟨_, _, rfl, rfl⟩
  | false =>
      obtain ⟨d, t, hdt, hd⟩ := n.isInt.head (n.frac ++ (n.exp ++ r))
      refine ⟨d, t, ?_, by rw [hd, Bool.or_true]⟩
      rw [← hdt]
      simp

/-- What has to follow a lexeme for the lexer to read it to its end and no further. -/
def Lexeme.Ends (x : Lexeme) (r : Bytes) : Prop :=
  match x with
  | .number _ => NumberEnds r
  | _ => True

theorem lexToken_number {l : JsonLexer} {n : Numeral} {r : Bytes} (hl : l.rest = n.text ++ r)
    (hr : NumberEnds r) : l.lexToken = .ok (⟨.number, n.text, false⟩, { l with rest := r }) := by
  obtain ⟨c, t, hct, hc⟩ := n.head r
  obtain ⟨hpunct, hquote, ht, hf, hn⟩ := lexToken_number_start c hc
  have hrest : l.rest = c :: t := hl.trans hct
  have hlit : literal l.rest = none := by
    rw [hrest]
    exact literal_eq_none t ht hf hn
  rw [JsonLexer.lexToken]
  split
  · next h =>
      rw [h] at hrest
      cases hrest
  · next c' t' h =>
      rw [h] at hrest
      cases hrest
      simp only [hpunct, if_neg hquote, hlit, if_pos hc]
      exact lexNumber_text hl hr

theorem lexToken_lexeme {l : JsonLexer} {x : Lexeme} {r : Bytes} (hl : l.rest = x.text ++ r)
    (hr : x.Ends r) : l.lexToken = .ok (x.token, { l with rest := r }) := by
  cases x with
  | number n => exact lexToken_number hl hr
  | string s =>
      obtain ⟨size, rest⟩ := l
      simp only at hl
      subst hl
      have hscan := scanString_text size (size - (s.text ++ '"'.toUInt8 :: r).length) s r
      have hbody : (Lexeme.string s).text ++ r = '"'.toUInt8 :: (s.text ++ '"'.toUInt8 :: r) := by
        simp [Lexeme.text, quoted]
      rw [hbody]
      change JsonLexer.lexString ⟨size, _⟩ = _
      rw [JsonLexer.lexString]
      simp only [List.tail_cons, hscan]
      rfl
  | _ =>
      obtain ⟨size, rest⟩ := l
      simp only at hl
      subst hl
      rfl

theorem lexToken_sound {l l' : JsonLexer} {tok : Token} (h : l.lexToken = .ok (tok, l')) :
    (l.rest = [] ∧ tok = ⟨.endOfInput, [], false⟩ ∧ l' = l) ∨
      ∃ x : Lexeme, tok = x.token ∧ l.rest = x.text ++ l'.rest ∧ l'.size = l.size := by
  rw [JsonLexer.lexToken] at h
  split at h
  · next hrest =>
      cases h
      exact .inl ⟨hrest, rfl, rfl⟩
  · next c t hrest =>
      right
      split at h
      · next type hpunct =>
          cases h
          obtain ⟨x, htext, htoken⟩ := punctuation_sound hpunct
          exact ⟨x, htoken.symm, by rw [hrest, htext]; rfl, rfl⟩
      · by_cases hquote : c = '"'.toUInt8
        · rw [if_pos hquote, JsonLexer.lexString] at h
          obtain ⟨⟨text, escapes, rest⟩, hscan, hok⟩ := Except.bind_eq_ok_iff.mp h
          cases hok
          obtain ⟨b, rfl, rfl, hbody⟩ := scanString_sound _ _ hscan
          refine ⟨.string b, rfl, ?_, rfl⟩
          rw [hrest, List.tail_cons] at hbody
          rw [hrest, hquote, hbody]
          simp [Lexeme.text, quoted]
        · rw [if_neg hquote] at h
          split at h
          · next word type hlit =>
              cases h
              obtain ⟨⟨x, htext, htoken⟩, hdrop⟩ := literal_sound hlit
              exact ⟨x, htoken.symm, by rw [htext, ← hdrop], rfl⟩
          · split_ifs at h
            obtain ⟨n, rfl, hl, hsize⟩ := lexNumber_sound h
            exact ⟨.number n, rfl, hl, hsize⟩

theorem Lexeme.text_head (x : Lexeme) (r : Bytes) :
    x.text ≠ [] ∧ ∀ c ∈ (x.text ++ r).head?, isWs c = Bool.false := by
  cases x with
  | number n =>
      obtain ⟨c, t, hct, hc⟩ := n.head r
      have hne : n.text ≠ [] := by
        obtain ⟨c, t, hct, -⟩ := n.head []
        intro h
        rw [h] at hct
        cases hct
      refine ⟨hne, fun d hd ↦ ?_⟩
      rw [Lexeme.text, hct] at hd
      cases hd
      exact not_isWs_of_number_start c hc
  | _ =>
      refine ⟨List.cons_ne_nil _ _, fun d hd ↦ ?_⟩
      cases hd
      rfl

namespace JsonLexer

variable {l l' : JsonLexer} {tok : Token} {x : Lexeme} {r : Bytes}

/-- The lexer skips whitespace and reads the lexeme that follows. -/
theorem next_lexeme (w : Ws) (hl : l.rest = w.val ++ (x.text ++ r)) (hr : x.Ends r) :
    l.next = .ok (x.token, { l with rest := r }) := by
  have hskip : l.skipWs = { l with rest := x.text ++ r } := by
    rw [skipWs, hl, (span_append w.property (x.text_head r).2).2]
  rw [next, hskip]
  exact lexToken_lexeme rfl hr

/-- At the end of the input, but for whitespace, the lexer says so. -/
theorem next_end (hl : ∀ c ∈ l.rest, isWs c = true) :
    l.next = .ok (⟨.endOfInput, [], false⟩, { l with rest := [] }) := by
  have hskip : l.skipWs = { l with rest := [] } := by
    rw [skipWs, List.dropWhile_eq_nil_iff.mpr hl]
  rw [next, hskip]
  rfl

/-- A token is either the end of the input or a lexeme of it. -/
theorem next_sound (h : l.next = .ok (tok, l')) :
    ((∀ c ∈ l.rest, isWs c = true) ∧ tok = ⟨.endOfInput, [], false⟩ ∧
        l' = { l with rest := [] }) ∨
      ∃ (w : Ws) (x : Lexeme), tok = x.token ∧ l.rest = w.val ++ (x.text ++ l'.rest) ∧
        l'.size = l.size := by
  rcases lexToken_sound h with ⟨hnil, htok, rfl⟩ | ⟨x, htok, hrest, hsize⟩
  · exact .inl ⟨List.dropWhile_eq_nil_iff.mp hnil, htok, by rw [← hnil]; rfl⟩
  · refine .inr ⟨⟨l.rest.takeWhile isWs, fun c hc ↦ List.mem_takeWhile_imp hc⟩, x, htok, ?_, hsize⟩
    rw [← hrest, skipWs]
    exact List.takeWhile_append_dropWhile.symm

end JsonLexer

end KalshiClient.Json
