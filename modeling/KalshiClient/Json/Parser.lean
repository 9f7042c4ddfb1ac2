import KalshiClient.Json.Escape
import KalshiClient.Json.LexerSpec

/-!
# The JSON parser

`Parser` and `parse_json` of `src/encoding/json_parser.cpp`: recursive descent over the lexer, one
token of lookahead held by the caller.  The source counts the nesting depth up to `kMaxJsonDepth`;
here the recursion is on what is left of it, so `room` is `kMaxJsonDepth - depth` and a container met
with no room left is the one the source rejects.  The loops over elements and members are given as
many rounds as there are bytes left, which is more than they can use: a round reads at least a
separator.
-/

namespace KalshiClient.Json

open Bytes

/-- `Parser::fail`. -/
def fail {α : Type} (l : JsonLexer) (what : String) : Except JsonError α :=
  .error ⟨what, l.position⟩

/-- `Parser::string_value`. -/
def stringValue (l : JsonLexer) (token : Token) : Except JsonError Bytes :=
  if token.hasEscapes then
    match decodeJsonString token.text with
    | .ok s => .ok s
    | .error _ => fail l "Invalid escape sequence in string"
  else .ok token.text

section

variable (value : Token → JsonLexer → Except JsonError (JsonValue × JsonLexer))

/-- The loop of `parse_object`, with `value` for `parse_value` at the object's depth. -/
def parseMembers :
    Nat → Token → JsonObject → JsonLexer → Except JsonError (JsonObject × JsonLexer)
  | 0, _, _, l => fail l "Unexpected end of JSON"
  | n + 1, token, object, l =>
    if token.type ≠ .string then fail l "Expected string key in object"
    else do
      let key ← stringValue l token
      let (colon, l) ← l.next
      if colon.type ≠ .colon then fail l "Expected ':' after object key"
      else do
        let (valueToken, l) ← l.next
        let (v, l) ← value valueToken l
        let object := FlatMap.emplace key v object
        let (sep, l) ← l.next
        if sep.type = .rightBrace then .ok (object, l)
        else if sep.type ≠ .comma then fail l "Expected ',' or '\x7d' after object value"
        else do
          let (token, l) ← l.next
          parseMembers n token object l

/-- `Parser::parse_object`. -/
def parseObject (l : JsonLexer) : Except JsonError (JsonObject × JsonLexer) := do
  let n := l.rest.length
  let (token, l) ← l.next
  if token.type = .rightBrace then .ok ([], l)
  else parseMembers value n token [] l

/-- The loop of `parse_array`, with `value` for `parse_value` at the array's depth. -/
def parseElements :
    Nat → Token → JsonArray → JsonLexer → Except JsonError (JsonArray × JsonLexer)
  | 0, _, _, l => fail l "Unexpected end of JSON"
  | n + 1, token, array, l => do
    let (v, l) ← value token l
    let array := array ++ [v]
    let (sep, l) ← l.next
    if sep.type = .rightBracket then .ok (array, l)
    else if sep.type ≠ .comma then fail l "Expected ',' or ']' after array value"
    else do
      let (token, l) ← l.next
      parseElements n token array l

/-- `Parser::parse_array`. -/
def parseArray (l : JsonLexer) : Except JsonError (JsonArray × JsonLexer) := do
  let n := l.rest.length
  let (token, l) ← l.next
  if token.type = .rightBracket then .ok ([], l)
  else parseElements value n token [] l

end

/-- `Parser::parse_value`. -/
def parseValue (room : Nat) (token : Token) (l : JsonLexer) :
    Except JsonError (JsonValue × JsonLexer) :=
  match token.type with
  | .leftBrace =>
    match room with
    | 0 => fail l "JSON nested too deeply"
    | room + 1 => do
      let (object, l) ← parseObject (parseValue room) l
      .ok (.object object, l)
  | .leftBracket =>
    match room with
    | 0 => fail l "JSON nested too deeply"
    | room + 1 => do
      let (array, l) ← parseArray (parseValue room) l
      .ok (.array array, l)
  | .string => do
    let s ← stringValue l token
    .ok (.string s, l)
  | .number => .ok (.string token.text, l)
  | .true => .ok (.bool true, l)
  | .false => .ok (.bool false, l)
  | .null => .ok (.null, l)
  | .endOfInput => fail l "Unexpected end of JSON"
  | .rightBrace | .rightBracket | .colon | .comma => fail l "Unexpected token in value position"

section

variable {token : Token} (room : Nat) (l : JsonLexer)

theorem parseValue_string (h : token.type = .string) :
    parseValue room token l = stringValue l token >>= fun s ↦ .ok (.string s, l) := by
  rw [parseValue.eq_def, h]

theorem parseValue_number (h : token.type = .number) :
    parseValue room token l = .ok (.string token.text, l) := by
  rw [parseValue.eq_def, h]

theorem parseValue_leftBracket (h : token.type = .leftBracket) :
    parseValue (room + 1) token l =
      parseArray (parseValue room) l >>= fun p ↦ .ok (.array p.1, p.2) := by
  rw [parseValue.eq_def, h]

theorem parseValue_leftBrace (h : token.type = .leftBrace) :
    parseValue (room + 1) token l =
      parseObject (parseValue room) l >>= fun p ↦ .ok (.object p.1, p.2) := by
  rw [parseValue.eq_def, h]

/-- A container needs room. -/
theorem parseValue_zero (h : token.type = .leftBracket ∨ token.type = .leftBrace) :
    parseValue 0 token l = fail l "JSON nested too deeply" := by
  rcases h with h | h <;> rw [parseValue.eq_def, h]

end

/-- `Parser::parse`. -/
def parse (l : JsonLexer) : Except JsonError JsonValue := do
  let (first, l) ← l.next
  let (v, l) ← parseValue kMaxJsonDepth first l
  let (last, l) ← l.next
  if last.type ≠ .endOfInput then fail l "Trailing characters after JSON value"
  else .ok v

/-- `parse_json`. -/
def parseJson (text : Bytes) : Except String JsonValue :=
  match parse (.ofBytes text) with
  | .ok v => .ok v
  | .error e => .error e.message

end KalshiClient.Json
