import KalshiClient.Base.Bytes
import KalshiClient.Base.Result

/-!
# The JSON lexer

`JsonLexer` of `src/encoding/json_lexer.cpp`: a pull lexer that hands out one token at a time.  The
source keeps the whole input and an index `_pos` into it; here the state is the input's size and the
part of it from `_pos` on, so that `_pos` is `position` and the scanning loops are recursions over the
remaining bytes.  `Json.IndexedLexer` has the lexer with its index, which agrees with this one.
-/

namespace KalshiClient.Json

open Bytes

/-- `enum class TokenType`; `endOfInput` is `End`. -/
inductive TokenType where
  | leftBrace | rightBrace | leftBracket | rightBracket | colon | comma
  | string | number | true | false | null | endOfInput
deriving DecidableEq, Repr

/-- `struct JsonError`: a message and the byte offset where it occurred. -/
structure JsonError where
  /-- The message. -/
  what : String
  /-- The offset. -/
  offset : Nat
deriving DecidableEq, Repr

/-- `JsonError::message`. -/
def JsonError.message (e : JsonError) : String := e.what ++ " at offset " ++ toString e.offset

/-- `struct Token`: for strings, `text` is the raw content between the quotes. -/
structure Token where
  /-- The kind of token. -/
  type : TokenType
  /-- The bytes of the token. -/
  text : Bytes
  /-- Whether a string token contains an escape sequence. -/
  hasEscapes : Bool
deriving DecidableEq, Repr

/-- `class JsonLexer`. -/
structure JsonLexer where
  /-- `_input.size()`. -/
  size : Nat
  /-- `_input.substr(_pos)`. -/
  rest : Bytes
deriving DecidableEq, Repr

/-- The four whitespace characters of JSON. -/
def isWs (c : UInt8) : Bool :=
  c = ' '.toUInt8 || c = '\n'.toUInt8 || c = '\r'.toUInt8 || c = '\t'.toUInt8

/-- The escape letters that stand for one byte. -/
def isShortEscape (c : UInt8) : Bool :=
  c ∈ ['"', '\\', '/', 'b', 'f', 'n', 'r', 't'].map Char.toUInt8

/-- The single-character tokens. -/
def punctuation (c : UInt8) : Option TokenType :=
  if c = '{'.toUInt8 then some .leftBrace
  else if c = '}'.toUInt8 then some .rightBrace
  else if c = '['.toUInt8 then some .leftBracket
  else if c = ']'.toUInt8 then some .rightBracket
  else if c = ':'.toUInt8 then some .colon
  else if c = ','.toUInt8 then some .comma
  else none

/-- The literal the input starts with, if any. -/
def literal (s : Bytes) : Option (Bytes × TokenType) :=
  [(ascii "true", TokenType.true), (ascii "false", .false), (ascii "null", .null)].find?
    fun p ↦ p.1.isPrefixOf s

/-- The loop of `lex_string` over the bytes after the opening quote, which is at offset `start - 1`.
Returns the raw text, whether it has an escape, and the bytes after the closing quote. -/
def scanString (size start : Nat) : Bytes → Except JsonError (Bytes × Bool × Bytes)
  | [] => .error ⟨"Unterminated string", start - 1⟩
  | c :: t =>
    if c = '"'.toUInt8 then .ok ([], false, t)
    else if c < 0x20 then
      .error ⟨"Unescaped control character in string", size - (t.length + 1)⟩
    else if c = '\\'.toUInt8 then
      match t with
      | [] => .error ⟨"Unterminated string", start - 1⟩
      | e :: t =>
        if isShortEscape e then do
          let (text, _, rest) ← scanString size start t
          .ok (c :: e :: text, true, rest)
        else if e = 'u'.toUInt8 then
          match t with
          | h₁ :: h₂ :: h₃ :: h₄ :: t =>
            if isHex h₁ && isHex h₂ && isHex h₃ && isHex h₄ then do
              let (text, _, rest) ← scanString size start t
              .ok (c :: e :: h₁ :: h₂ :: h₃ :: h₄ :: text, true, rest)
            else
              .error ⟨"Invalid \\u escape in string", size - (t.length + 4) +
                ([h₁, h₂, h₃, h₄].takeWhile isHex).length⟩
          | t =>
            .error ⟨"Invalid \\u escape in string", size - t.length + (t.takeWhile isHex).length⟩
        else .error ⟨"Invalid escape in string", size - (t.length + 1)⟩
    else do
      let (text, escapes, rest) ← scanString size start t
      .ok (c :: text, escapes, rest)

/-- `if (p(peek())) ++_pos`: one optional character, and what follows it. -/
def takeIf (p : UInt8 → Bool) : Bytes → Bytes × Bytes
  | [] => ([], [])
  | c :: t => if p c then ([c], t) else ([], c :: t)

/-- The lambda `digits` of `lex_number`: a run of digits, which must not be empty. -/
def lexDigits (e : JsonError) (s : Bytes) : Except JsonError (Bytes × Bytes) :=
  if s.takeWhile isDigit = [] then .error e else .ok (s.takeWhile isDigit, s.dropWhile isDigit)

/-- The integer part: `0`, or a run of digits. -/
def lexInt (start : Nat) (s : Bytes) : Except JsonError (Bytes × Bytes) :=
  match s with
  | c :: t =>
    if c = '0'.toUInt8 then .ok ([c], t) else lexDigits ⟨"Invalid number", start⟩ (c :: t)
  | [] => .error ⟨"Invalid number", start⟩

/-- The optional fraction. -/
def lexFrac (start : Nat) (s : Bytes) : Except JsonError (Bytes × Bytes) :=
  match s with
  | c :: t =>
    if c = '.'.toUInt8 then do
      let (ds, s) ← lexDigits ⟨"Invalid number: no digits after '.'", start⟩ t
      .ok (c :: ds, s)
    else .ok ([], c :: t)
  | [] => .ok ([], [])

/-- The optional sign of an exponent. -/
def isSign (c : UInt8) : Bool := c = '+'.toUInt8 || c = '-'.toUInt8

/-- The optional exponent. -/
def lexExp (start : Nat) (s : Bytes) : Except JsonError (Bytes × Bytes) :=
  match s with
  | c :: t =>
    if c = 'e'.toUInt8 || c = 'E'.toUInt8 then do
      let (sign, s) := takeIf isSign t
      let (ds, s) ← lexDigits ⟨"Invalid number: bad exponent", start⟩ s
      .ok (c :: sign ++ ds, s)
    else .ok ([], c :: t)
  | [] => .ok ([], [])

namespace JsonLexer

/-- The lexer at the start of an input. -/
def ofBytes (input : Bytes) : JsonLexer := ⟨input.length, input⟩

/-- `_pos`. -/
def position (l : JsonLexer) : Nat := l.size - l.rest.length

/-- The whitespace loop of `next`. -/
def skipWs (l : JsonLexer) : JsonLexer := { l with rest := l.rest.dropWhile isWs }

/-- `lex_string`, with the opening quote already seen. -/
def lexString (l : JsonLexer) : Except JsonError (Token × JsonLexer) := do
  let body := l.rest.tail
  let (text, escapes, rest) ← scanString l.size (l.size - body.length) body
  .ok (⟨.string, text, escapes⟩, { l with rest := rest })

/-- `lex_number`. -/
def lexNumber (l : JsonLexer) : Except JsonError (Token × JsonLexer) := do
  let start := l.position
  let (sign, s) := takeIf (fun c ↦ c = '-'.toUInt8) l.rest
  let (int, s) ← lexInt start s
  let (frac, s) ← lexFrac start s
  let (exp, s) ← lexExp start s
  .ok (⟨.number, sign ++ int ++ frac ++ exp, false⟩, { l with rest := s })

/-- The part of `next` after the whitespace. -/
def lexToken (l : JsonLexer) : Except JsonError (Token × JsonLexer) :=
  match l.rest with
  | [] => .ok (⟨.endOfInput, [], false⟩, l)
  | c :: t =>
    match punctuation c with
    | some type => .ok (⟨type, [c], false⟩, { l with rest := t })
    | none =>
      if c = '"'.toUInt8 then l.lexString
      else
        match literal l.rest with
        | some (word, type) =>
          .ok (⟨type, word, false⟩, { l with rest := l.rest.drop word.length })
        | none =>
          if c = '-'.toUInt8 || isDigit c then l.lexNumber
          else .error ⟨"Unexpected character", l.position⟩

/-- `JsonLexer::next`. -/
def next (l : JsonLexer) : Except JsonError (Token × JsonLexer) := l.skipWs.lexToken

end JsonLexer

end KalshiClient.Json
