import KalshiClient.Json.IndexedLexer
import KalshiClient.Json.Unicode

/-!
# Runs of the lexer

What repeated calls of `next` do to the index, from the start of an input on and whatever the calls return.  The parser,
the decoder without a tree and their loops over skipped values call nothing else, so that they end because the index
moves on with every token (`lt_position_succ`) and stays within the input (`position_le`).  What the tokens leave out of
the input is whitespace (`exists_ws`), so that nothing of it is lost.
-/

namespace KalshiClient.Json

open Bytes Cursor

/-! ## Tokens and the bytes they stand for -/

/-- The bytes of a token in the input: its text, to which a string lacks the quotes. -/
def Token.source (tok : Token) : Bytes := if tok.type = .string then quoted tok.text else tok.text

namespace Lexeme

theorem source_token (x : Lexeme) : x.token.source = x.text := by
  cases x <;> rfl

theorem type_token_ne (x : Lexeme) : x.token.type ≠ .endOfInput := by
  intro h
  cases x <;> cases h

/-- The mark for escapes stands on the strings with a backslash. -/
theorem hasEscapes_token (x : Lexeme) :
    x.token.hasEscapes = Bool.true ↔ x.token.type = .string ∧ '\\'.toUInt8 ∈ x.token.text := by
  cases x with
  | string s =>
      rw [token, s.hasEscapes_eq, decide_eq_true_iff]
      exact (and_iff_right rfl).symm
  | _ =>
      refine iff_of_false Bool.false_ne_true ?_
      rintro ⟨htype, -⟩
      cases htype

end Lexeme

namespace Indexed

variable {input : Bytes} {pos n : Nat} {tok : Token}

/-! ## One call -/

/-- Whatever a call returns, it leaves the index within the input. -/
theorem next_within (h : pos ≤ input.length) : (next input pos).2 ≤ input.length := by
  obtain ⟨l, hl⟩ := (next_agrees (Stands.of_le h)).exists_related
  exact hl.at_rest.within

/-- A call that returns a token has reached the end of the input, but for whitespace, or a lexeme. -/
theorem next_eq_ok (h : pos ≤ input.length) (hok : (next input pos).1 = .ok tok) :
    (∃ w : Ws, tok = ⟨.endOfInput, [], false⟩ ∧ input.drop pos = w.val ∧ input.drop (next input pos).2 = []) ∨
      ∃ (w : Ws) (x : Lexeme), tok = x.token ∧ input.drop pos = w.val ++ (x.text ++ input.drop (next input pos).2) := by
  obtain ⟨l, hl, hnext⟩ := (next_agrees (Stands.of_le h)).of_ok hok
  rw [hl.at_rest.drop_eq]
  rcases JsonLexer.next_sound hnext with ⟨hws, htok, rfl⟩ | ⟨w, x, htok, hrest, -⟩
  · exact .inl ⟨⟨_, hws⟩, htok, rfl, rfl⟩
  · exact .inr ⟨w, x, htok, hrest⟩

/-- It has skipped whitespace and nothing else. -/
theorem exists_ws (h : pos ≤ input.length) (hok : (next input pos).1 = .ok tok) :
    ∃ w : Ws, input.drop pos = w.val ++ (tok.source ++ input.drop (next input pos).2) := by
  rcases next_eq_ok h hok with ⟨w, rfl, hdrop, hend⟩ | ⟨w, x, rfl, hdrop⟩
  · refine ⟨w, ?_⟩
    rw [hdrop, hend]
    exact (List.append_nil w.val).symm
  · exact ⟨w, by rw [x.source_token]; exact hdrop⟩

/-- A token other than the end of the input moves the index. -/
theorem lt_next (h : pos ≤ input.length) (hok : (next input pos).1 = .ok tok) (htype : tok.type ≠ .endOfInput) :
    pos < (next input pos).2 := by
  rcases next_eq_ok h hok with ⟨w, rfl, -, -⟩ | ⟨w, x, rfl, hdrop⟩
  · exact absurd rfl htype
  · have hlength := congrArg List.length hdrop
    have htext : 0 < x.text.length := List.length_pos_iff.mpr (x.text_head []).1
    have hwithin := next_within h
    simp only [List.length_append, List.length_drop] at hlength
    omega

theorem hasEscapes_iff (h : pos ≤ input.length) (hok : (next input pos).1 = .ok tok) :
    tok.hasEscapes = true ↔ tok.type = .string ∧ '\\'.toUInt8 ∈ tok.text := by
  rcases next_eq_ok h hok with ⟨w, rfl, -, -⟩ | ⟨w, x, rfl, -⟩
  · refine iff_of_false Bool.false_ne_true ?_
    rintro ⟨htype, -⟩
    cases htype
  · exact x.hasEscapes_token

/-! ## Calls in a row -/

/-- `_pos` after `n` calls of `next`. -/
def position (input : Bytes) (n : Nat) : Nat := (fun pos ↦ (next input pos).2)^[n] 0

/-- What the next call returns after `n` calls. -/
def call (input : Bytes) (n : Nat) : Except JsonError Token := (next input (position input n)).1

/-- What the first `n` calls return. -/
def calls (input : Bytes) (n : Nat) : List (Except JsonError Token) := (List.range n).map (call input)

/-- A caller that reads tokens stops at the end of the input and at an error. -/
def Stops (r : Except JsonError Token) : Prop := (∃ e, r = .error e) ∨ ∃ tok, r = .ok tok ∧ tok.type = .endOfInput

theorem position_succ (input : Bytes) (n : Nat) : position input (n + 1) = (next input (position input n)).2 :=
  Function.iterate_succ_apply' _ n 0

theorem calls_succ (input : Bytes) (n : Nat) : calls input (n + 1) = calls input n ++ [call input n] := by
  rw [calls, List.range_succ, List.map_append]
  rfl

theorem position_le (input : Bytes) (n : Nat) : position input n ≤ input.length := by
  induction n with
  | zero => exact Nat.zero_le _
  | succ n ih =>
      rw [position_succ]
      exact next_within ih

theorem lt_position_succ (hok : call input n = .ok tok) (htype : tok.type ≠ .endOfInput) :
    position input n < position input (n + 1) := by
  rw [position_succ]
  exact lt_next (position_le input n) hok htype

/-- As long as no call stops, the index has moved at least as often. -/
theorem le_position (h : ∀ i < n, ¬ Stops (call input i)) : n ≤ position input n := by
  induction n with
  | zero => exact Nat.zero_le _
  | succ n ih =>
      have hn : n ≤ position input n := ih fun i hi ↦ h i (Nat.lt_succ_of_lt hi)
      have hgoes := h n (Nat.lt_succ_self n)
      cases hcall : call input n with
      | error e => exact absurd (.inl ⟨e, hcall⟩) hgoes
      | ok tok =>
          have hlt := lt_position_succ hcall fun htype ↦ hgoes (.inr ⟨tok, hcall, htype⟩)
          exact Nat.lt_of_le_of_lt hn hlt

/-- There is no room for more calls than bytes, and one more. -/
theorem exists_stops (input : Bytes) : ∃ n ≤ input.length, Stops (call input n) := by
  by_contra hnever
  have hgoes : ∀ i < input.length + 1, ¬ Stops (call input i) := by
    intro i hi hstops
    exact hnever ⟨i, Nat.le_of_lt_succ hi, hstops⟩
  exact absurd ((le_position hgoes).trans (position_le input _)) (Nat.not_succ_le_self _)

/-- Tokens with the whitespace before them. -/
def interleave (ws : List Ws) (toks : List Token) : Bytes :=
  (List.zipWith (fun w tok ↦ w.val ++ tok.source) ws toks).flatten

theorem interleave_append {ws : List Ws} {toks : List Token} (h : ws.length = toks.length) (w : Ws) (tok : Token) :
    interleave (ws ++ [w]) (toks ++ [tok]) = interleave ws toks ++ (w.val ++ tok.source) := by
  rw [interleave, List.zipWith_append h, List.flatten_append]
  simp [interleave]

/-- What has been read so far is whitespace and tokens. -/
theorem exists_interleave {toks : List Token} (h : calls input toks.length = toks.map .ok) :
    ∃ ws : List Ws, ws.length = toks.length ∧ input = interleave ws toks ++ input.drop (position input toks.length) := by
  induction toks using List.reverseRecOn with
  | nil => exact ⟨[], rfl, rfl⟩
  | append_singleton toks tok ih =>
      rw [List.length_append, List.length_singleton, calls_succ, List.map_append] at h
      obtain ⟨hcalls, hcall⟩ := List.append_inj' h rfl
      obtain ⟨ws, hlength, hread⟩ := ih hcalls
      obtain ⟨w, hws⟩ := exists_ws (position_le input _) (List.singleton_inj.mp hcall)
      refine ⟨ws ++ [w], by rw [List.length_append, List.length_append, hlength]; rfl, ?_⟩
      rw [interleave_append hlength, List.append_assoc, List.append_assoc, List.length_append, List.length_singleton,
        position_succ, ← hws]
      exact hread

/-- **The lexer loses nothing and makes progress.**  However often `next` has been called, the index is within the
input; a call that returns a token has skipped whitespace and read the bytes of the token, which move the index unless
it is the end, and marks the strings with a backslash.  So one of the first `input.length + 1` calls returns the end or
an error, and if the end comes without an error, the input is whitespace and tokens. -/
theorem lexer_lossless (input : Bytes) :
    (∀ n, position input n ≤ input.length ∧
      ∀ tok, call input n = .ok tok →
        (tok.type ≠ .endOfInput → position input n < position input (n + 1)) ∧
        (∃ w : Ws, input.drop (position input n) = w.val ++ (tok.source ++ input.drop (position input (n + 1)))) ∧
        (tok.hasEscapes = true ↔ tok.type = .string ∧ '\\'.toUInt8 ∈ tok.text)) ∧
    (∃ n ≤ input.length, Stops (call input n)) ∧
    ∀ toks last, calls input (toks.length + 1) = (toks ++ [last]).map .ok → last.type = .endOfInput →
      ∃ (ws : List Ws) (w : Ws), ws.length = toks.length ∧ input = interleave ws toks ++ w.val := by
  refine ⟨fun n ↦ ⟨position_le input n, fun tok hok ↦ ⟨lt_position_succ hok, ?_, ?_⟩⟩, exists_stops input, ?_⟩
  · rw [position_succ]
    exact exists_ws (position_le input n) hok
  · exact hasEscapes_iff (position_le input n) hok
  · intro toks last hcalls hlast
    rw [calls_succ, List.map_append] at hcalls
    obtain ⟨hread, hcall⟩ := List.append_inj' hcalls rfl
    obtain ⟨ws, hlength, hinput⟩ := exists_interleave hread
    rcases next_eq_ok (position_le input _) (List.singleton_inj.mp hcall) with ⟨w, -, hdrop, -⟩ | ⟨w, x, rfl, -⟩
    · exact ⟨ws, w, hlength, by rw [← hdrop]; exact hinput⟩
    · exact absurd hlast x.type_token_ne

example : calls (ascii "[-1] ") 4 =
    [.ok ⟨.leftBracket, ascii "[", false⟩, .ok ⟨.number, ascii "-1", false⟩, .ok ⟨.rightBracket, ascii "]", false⟩,
      .ok ⟨.endOfInput, [], false⟩] := by
  decide +kernel

-- After an error the index stays where the fault was found, here at the end.
example : calls (ascii "-") 2 = [.error ⟨"Invalid number", 0⟩, .ok ⟨.endOfInput, [], false⟩] := by
  decide +kernel

end Indexed

end KalshiClient.Json
