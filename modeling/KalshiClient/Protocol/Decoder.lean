import KalshiClient.Protocol.Messages

/-!
# The one-pass decoder

`Decoder`, `build` and `decode_kalshi_message` of `src/protocol/kalshi_decoder.cpp`: the token stream is
walked once and the fields a message uses are recorded on the way, without building a tree.  A string
with an escape stops the walk and sends the whole payload to the tree-based path instead.

The members of `struct Fields` are addressed by the enumerations `RootField`, `MsgField` and
`LevelsName`, so that `type`, `sid`, ... are the values of one function; `room` stands for
`kMaxJsonDepth - depth` as in the parser, and the loops have the parser's bound.
-/

namespace KalshiClient.Protocol

open Bytes Json

/-! ## Recorded fields -/

/-- `struct Scalar`. -/
structure Scalar where
  /-- `seen`. -/
  seen : Bool := false
  /-- `value`, set only if the first occurrence was a string or a number. -/
  value : Option Bytes := none
deriving DecidableEq

/-- `struct LevelsField`. -/
structure LevelsField where
  /-- `seen`. -/
  seen : Bool := false
  /-- `present`: the first occurrence was an array. -/
  present : Bool := false
  /-- `valid`: every element was an array of two strings. -/
  valid : Bool := true
  /-- `levels`. -/
  levels : List PriceLevel := []
deriving DecidableEq

/-- The scalars looked up in the root object. -/
inductive RootField where
  | type | sid | seq
deriving DecidableEq

/-- The scalars looked up in `msg`. -/
inductive MsgField where
  | marketTicker | marketId | priceDollars | deltaFp | side | ts | tsMs | orderId | countFp | action
deriving DecidableEq

/-- The two lists of levels looked up in `msg`. -/
inductive LevelsName where
  | yes | no
deriving DecidableEq

/-- `struct Fields`. -/
structure Fields where
  /-- `type`, `sid`, `seq`. -/
  root : RootField → Scalar := fun _ ↦ {}
  /-- `msg_seen`. -/
  msgSeen : Bool := false
  /-- `msg_is_object`. -/
  msgIsObject : Bool := false
  /-- `market_ticker`, ..., `action`. -/
  msg : MsgField → Scalar := fun _ ↦ {}
  /-- `yes`, `no`. -/
  levels : LevelsName → LevelsField := fun _ ↦ {}

/-- The comparisons of `root_member`. -/
def rootField? (key : Bytes) : Option RootField :=
  if key = ascii "type" then some .type
  else if key = ascii "sid" then some .sid
  else if key = ascii "seq" then some .seq
  else none

/-- The comparisons of `msg_member` that lead to a scalar. -/
def msgField? (key : Bytes) : Option MsgField :=
  if key = ascii "market_ticker" then some .marketTicker
  else if key = ascii "market_id" then some .marketId
  else if key = ascii "price_dollars" then some .priceDollars
  else if key = ascii "delta_fp" then some .deltaFp
  else if key = ascii "side" then some .side
  else if key = ascii "ts" then some .ts
  else if key = ascii "ts_ms" then some .tsMs
  else if key = ascii "order_id" then some .orderId
  else if key = ascii "count_fp" then some .countFp
  else if key = ascii "action" then some .action
  else none

/-- The comparisons of `msg_member` that lead to a list of levels. -/
def levelsName? (key : Bytes) : Option LevelsName :=
  if key = ascii "yes_dollars_fp" then some .yes
  else if key = ascii "no_dollars_fp" then some .no
  else none

/-! ## Walking the tokens -/

/-- Why the walk stopped: an error, and whether `needs_fallback` was set. -/
structure Stop where
  /-- `needs_fallback`. -/
  needsFallback : Bool
  /-- The error returned. -/
  error : JsonError
deriving DecidableEq

namespace Decoder

/-- `Decoder::fail`. -/
def fail {α : Type} (l : JsonLexer) (what : String) : Except Stop α :=
  .error ⟨false, ⟨what, l.position⟩⟩

/-- `Decoder::next`: a string with an escape is not handed out. -/
def next (l : JsonLexer) : Except Stop (Token × JsonLexer) :=
  match l.next with
  | .error e => .error ⟨false, e⟩
  | .ok (token, l) =>
    if token.type = .string ∧ token.hasEscapes = true then
      .error ⟨true, ⟨"escaped string; falling back", l.position⟩⟩
    else .ok (token, l)

section

variable {σ : Type}

/-- The loop of `for_each_member`; `f` works on the captured state `s`. -/
def memberLoop (f : Bytes → Token → σ → JsonLexer → Except Stop (σ × JsonLexer)) :
    Nat → Token → σ → JsonLexer → Except Stop (σ × JsonLexer)
  | 0, _, _, l => fail l "Unexpected end of JSON"
  | n + 1, token, s, l =>
    if token.type ≠ .string then fail l "Expected string key in object"
    else do
      let key := token.text
      let (colon, l) ← next l
      if colon.type ≠ .colon then fail l "Expected ':' after object key"
      else do
        let (value, l) ← next l
        let (s, l) ← f key value s l
        let (sep, l) ← next l
        if sep.type = .rightBrace then .ok (s, l)
        else if sep.type ≠ .comma then fail l "Expected ',' or '\x7d' after object value"
        else do
          let (token, l) ← next l
          memberLoop f n token s l

/-- `Decoder::for_each_member`. -/
def forEachMember (f : Bytes → Token → σ → JsonLexer → Except Stop (σ × JsonLexer)) (s : σ)
    (l : JsonLexer) : Except Stop (σ × JsonLexer) := do
  let n := l.rest.length
  let (token, l) ← next l
  if token.type = .rightBrace then .ok (s, l)
  else memberLoop f n token s l

/-- The loop of `for_each_element`. -/
def elementLoop (f : Token → σ → JsonLexer → Except Stop (σ × JsonLexer)) :
    Nat → Token → σ → JsonLexer → Except Stop (σ × JsonLexer)
  | 0, _, _, l => fail l "Unexpected end of JSON"
  | n + 1, token, s, l => do
    let (s, l) ← f token s l
    let (sep, l) ← next l
    if sep.type = .rightBracket then .ok (s, l)
    else if sep.type ≠ .comma then fail l "Expected ',' or ']' after array value"
    else do
      let (token, l) ← next l
      elementLoop f n token s l

/-- `Decoder::for_each_element`. -/
def forEachElement (f : Token → σ → JsonLexer → Except Stop (σ × JsonLexer)) (s : σ)
    (l : JsonLexer) : Except Stop (σ × JsonLexer) := do
  let n := l.rest.length
  let (token, l) ← next l
  if token.type = .rightBracket then .ok (s, l)
  else elementLoop f n token s l

/-- `Decoder::skip_value`, inside a walk that carries the state `s`. -/
def skipValue (room : Nat) (first : Token) (s : σ) (l : JsonLexer) : Except Stop (σ × JsonLexer) :=
  match first.type with
  | .string | .number | .true | .false | .null => .ok (s, l)
  | .leftBrace =>
    match room with
    | 0 => fail l "JSON nested too deeply"
    | room + 1 => forEachMember (fun _ ↦ skipValue room) s l
  | .leftBracket =>
    match room with
    | 0 => fail l "JSON nested too deeply"
    | room + 1 => forEachElement (skipValue room) s l
  | .endOfInput => fail l "Unexpected end of JSON"
  | .rightBrace | .rightBracket | .colon | .comma => fail l "Unexpected token in value position"

end

/-- `is_text`. -/
def isText (t : TokenType) : Bool := t = .string || t = .number

/-- `Decoder::scalar`. -/
def scalar (room : Nat) (value : Token) (field : Scalar) (l : JsonLexer) :
    Except Stop (Scalar × JsonLexer) :=
  if field.seen = false then
    if isText value.type = true then .ok (⟨true, some value.text⟩, l)
    else skipValue room value { field with seen := true } l
  else skipValue room value field l

/-- The captured variables of the innermost loop of `levels`. -/
structure Pair where
  /-- `pair[0]`. -/
  first : Bytes := []
  /-- `pair[1]`. -/
  second : Bytes := []
  /-- `count`. -/
  count : Nat := 0
  /-- `all_text`. -/
  allText : Bool := true

/-- `if (count < 2) pair[count] = text; ++count`. -/
def Pair.push (p : Pair) (text : Bytes) : Pair :=
  { p with
    first := if p.count = 0 then text else p.first
    second := if p.count = 1 then text else p.second
    count := p.count + 1 }

/-- What `levels` does with one string of a level. -/
def levelEntry (room : Nat) (x : Token) (p : Pair) (l : JsonLexer) : Except Stop (Pair × JsonLexer) :=
  if isText x.type = true then .ok (p.push x.text, l)
  else skipValue room x { p with allText := false, count := p.count + 1 } l

/-- The end of the round of `levels` for one level. -/
def LevelsField.close (field : LevelsField) (p : Pair) : LevelsField :=
  if p.count = 2 ∧ p.allText = true then
    { field with levels := field.levels ++ [(p.first, p.second)] }
  else { field with valid := false }

/-- What `levels` does with one level. -/
def level (room : Nat) (element : Token) (field : LevelsField) (l : JsonLexer) :
    Except Stop (LevelsField × JsonLexer) :=
  if element.type ≠ .leftBracket then skipValue room element { field with valid := false } l
  else
    match room with
    | 0 => fail l "JSON nested too deeply"
    | room + 1 => do
      let (p, l) ← forEachElement (levelEntry room) {} l
      .ok (LevelsField.close field p, l)

/-- `Decoder::levels`. -/
def levels (room : Nat) (value : Token) (field : LevelsField) (l : JsonLexer) :
    Except Stop (LevelsField × JsonLexer) :=
  if field.seen = true ∨ value.type ≠ .leftBracket then
    skipValue room value { field with seen := true } l
  else
    match room with
    | 0 => fail l "JSON nested too deeply"
    | room + 1 => forEachElement (level room) { field with seen := true, present := true } l

/-- `Decoder::msg_member`. -/
def msgMember (room : Nat) (key : Bytes) (value : Token) (f : Fields) (l : JsonLexer) :
    Except Stop (Fields × JsonLexer) :=
  match msgField? key with
  | some n => do
    let (field, l) ← scalar room value (f.msg n) l
    .ok ({ f with msg := Function.update f.msg n field }, l)
  | none =>
    match levelsName? key with
    | some n => do
      let (field, l) ← levels room value (f.levels n) l
      .ok ({ f with levels := Function.update f.levels n field }, l)
    | none => skipValue room value f l

/-- `Decoder::root_member`. -/
def rootMember (room : Nat) (key : Bytes) (value : Token) (f : Fields) (l : JsonLexer) :
    Except Stop (Fields × JsonLexer) :=
  match rootField? key with
  | some n => do
    let (field, l) ← scalar room value (f.root n) l
    .ok ({ f with root := Function.update f.root n field }, l)
  | none =>
    if key = ascii "msg" ∧ f.msgSeen = false then
      if value.type = .leftBrace then
        match room with
        | 0 => fail l "JSON nested too deeply"
        | room + 1 => forEachMember (msgMember room) { f with msgSeen := true, msgIsObject := true } l
      else skipValue room value { f with msgSeen := true } l
    else skipValue room value f l

/-- `Decoder::decode`. -/
def decode (l : JsonLexer) : Except Stop Fields := do
  let (first, l) ← next l
  if first.type ≠ .leftBrace then do
    let (_, l) ← skipValue kMaxJsonDepth first () l
    let (last, l) ← next l
    if last.type ≠ .endOfInput then fail l "Trailing characters after JSON value"
    else fail l "Root JSON is not an object"
  else do
    let (f, l) ← forEachMember (rootMember (kMaxJsonDepth - 1)) {} l
    let (last, l) ← next l
    if last.type ≠ .endOfInput then fail l "Trailing characters after JSON value"
    else .ok f

end Decoder

/-! ## Building the message -/

/-- `build`. -/
def build (f : Fields) : Except Bytes Message :=
  match (f.root .type).value with
  | none => .error (ascii "Missing or invalid 'type' field")
  | some type =>
    let make := Message.mk type (toU32 ((f.root .sid).value.bind parseU64))
      (toU32 ((f.root .seq).value.bind parseU64))
    if type = ascii "subscribed" then .ok (make .none)
    else if f.msgIsObject = false then .error (ascii "Missing 'msg' object")
    else if type = ascii "orderbook_delta" then
      match (f.msg .marketTicker).value, (f.msg .marketId).value, (f.msg .priceDollars).value,
        (f.msg .deltaFp).value, (f.msg .side).value, (f.msg .ts).value,
        (f.msg .tsMs).value.bind parseU64 with
      | some ticker, some marketId, some priceDollars, some deltaFp, some side, some ts, some tsMs =>
        .ok (make (.delta ⟨ticker, marketId, priceDollars, deltaFp, side, ts, tsMs⟩))
      | _, _, _, _, _, _, _ => .error (ascii "Invalid Key")
    else if type = ascii "orderbook_snapshot" then
      match (f.msg .marketTicker).value, (f.msg .marketId).value with
      | some ticker, some marketId =>
        let yes := f.levels .yes
        let no := f.levels .no
        if yes.present = true ∧ yes.valid = false ∨ no.present = true ∧ no.valid = false then
          .error (ascii "Malformed price level")
        else .ok (make (.snapshot ⟨ticker, marketId, if yes.present then yes.levels else [],
          if no.present then no.levels else []⟩))
      | _, _ => .error (ascii "Missing required fields in snapshot")
    else if type = ascii "fill" then
      match (f.msg .action).value with
      | none => .error (ascii "Missing action field")
      | some actionStr => do
        let action ← parseAction actionStr
        match (f.msg .orderId).value, (f.msg .marketTicker).value, (f.msg .countFp).value with
        | some orderId, some ticker, some countFp =>
          .ok (make (.fill ⟨orderId, ticker, countFp, action⟩))
        | _, _, _ => .error (ascii "Missing fields in fill")
    else .error (ascii "Unknown message type: " ++ type)

/-- `parse_json(bytes).and_then(parse_kalshi_message)`, the tree-based path. -/
def parseTree (bytes : Bytes) : Except Bytes Message :=
  match parseJson bytes with
  | .ok json => parseKalshiMessage json
  | .error e => .error (ascii e)

/-- `decode_kalshi_message`. -/
def decodeKalshiMessage (bytes : Bytes) : Except Bytes Message :=
  match Decoder.decode (.ofBytes bytes) with
  | .error stop =>
    if stop.needsFallback = false then .error (ascii stop.error.message) else parseTree bytes
  | .ok f => build f

end KalshiClient.Protocol
