import KalshiClient.Json.Lexer
import KalshiClient.Json.Value

/-!
# The JSON grammar

RFC 8259, as the data of a concrete syntax tree: a tree of `Syn` records every byte of a text,
whitespace included, and `Syn.text` puts the bytes back.  A byte string is a JSON value when it is the
text of some `Syn .value`.  Nothing here refers to the parser; `Syn.depth` and `Syn.paired` are the two
conditions the client adds to the grammar, and `Syn.denote` is the value a text denotes.

The tree is one inductive family indexed by the part of the grammar, rather than three mutually
inductive types, so that an induction over a text is a single induction.
-/

namespace KalshiClient.Json

open Bytes

/-! ## Strings -/

/-- A byte that stands for itself in a string. -/
def isPlain (c : UInt8) : Bool := 0x20 ≤ c && c ≠ '"'.toUInt8 && c ≠ '\\'.toUInt8

/-- Four hexadecimal digits. -/
structure HexQuad where
  /-- The most significant digit. -/
  a : UInt8
  /-- The second digit. -/
  b : UInt8
  /-- The third digit. -/
  c : UInt8
  /-- The least significant digit. -/
  d : UInt8
  /-- All four are digits. -/
  isHex : (isHex a && isHex b && isHex c && isHex d) = true

namespace HexQuad

/-- The digits. -/
def text (q : HexQuad) : Bytes := [q.a, q.b, q.c, q.d]

/-- The UTF-16 code unit written. -/
def unit (q : HexQuad) : Nat := ofDigits 16 q.text

/-- A high surrogate. -/
def isHigh (q : HexQuad) : Bool := 0xD800 ≤ q.unit && q.unit ≤ 0xDBFF

/-- A low surrogate. -/
def isLow (q : HexQuad) : Bool := 0xDC00 ≤ q.unit && q.unit ≤ 0xDFFF

end HexQuad

/-- One character of a string: a byte that stands for itself, a short escape, or `\uXXXX`. -/
inductive StrChar where
  | plain (c : UInt8) (h : isPlain c = true)
  | short (e : UInt8) (h : isShortEscape e = true)
  | unicode (q : HexQuad)

/-- The byte a short escape stands for. -/
def shortByte (e : UInt8) : UInt8 :=
  if e = 'b'.toUInt8 then 0x08
  else if e = 'f'.toUInt8 then 0x0C
  else if e = 'n'.toUInt8 then 0x0A
  else if e = 'r'.toUInt8 then 0x0D
  else if e = 't'.toUInt8 then 0x09
  else e

/-- The UTF-8 encoding of a scalar value. -/
def utf8 (cp : Nat) : Bytes := String.utf8EncodeChar (Char.ofNat cp)

namespace StrChar

/-- The bytes of the character as written. -/
def text : StrChar → Bytes
  | .plain c _ => [c]
  | .short e _ => ['\\'.toUInt8, e]
  | .unicode q => '\\'.toUInt8 :: 'u'.toUInt8 :: q.text

/-- Whether the character is an escape. -/
def isEscape : StrChar → Bool
  | .plain _ _ => false
  | .short _ _ | .unicode _ => true

/-- The bytes the character stands for on its own. -/
def bytes : StrChar → Bytes
  | .plain c _ => [c]
  | .short e _ => [shortByte e]
  | .unicode q => utf8 q.unit

end StrChar

/-- The content of a string literal. -/
abbrev StrBody := List StrChar

namespace StrBody

/-- The bytes between the quotes. -/
def text (s : StrBody) : Bytes := s.flatMap StrChar.text

/-- Whether there is an escape. -/
def hasEscapes (s : StrBody) : Bool := s.any StrChar.isEscape

/-- Every surrogate escape is part of a high surrogate immediately followed by a low one. -/
def paired : StrBody → Bool
  | .unicode q :: .unicode r :: s =>
    if q.isHigh then r.isLow && paired s else !q.isLow && paired (.unicode r :: s)
  | .unicode q :: s => !q.isHigh && !q.isLow && paired s
  | _ :: s => paired s
  | [] => true

/-- The bytes the content stands for: each character's own, and for a surrogate pair the encoding of
the scalar value it writes. -/
def unescape : StrBody → Bytes
  | .unicode q :: .unicode r :: s =>
    if q.isHigh && r.isLow then
      utf8 (0x10000 + (q.unit - 0xD800) * 0x400 + (r.unit - 0xDC00)) ++ unescape s
    else utf8 q.unit ++ unescape (.unicode r :: s)
  | c :: s => c.bytes ++ unescape s
  | [] => []

end StrBody

/-! ## Numbers -/

/-- A nonempty run of digits. -/
def IsDigits (s : Bytes) : Prop := s ≠ [] ∧ ∀ c ∈ s, isDigit c = true

/-- The integer part: `0`, or digits that do not start with `0`. -/
def IsInt (s : Bytes) : Prop := s = ['0'.toUInt8] ∨ IsDigits s ∧ s.head? ≠ some '0'.toUInt8

/-- The fraction: nothing, or a point and digits. -/
def IsFrac (s : Bytes) : Prop := s = [] ∨ ∃ ds, s = '.'.toUInt8 :: ds ∧ IsDigits ds

/-- The exponent: nothing, or `e` or `E`, an optional sign and digits. -/
def IsExp (s : Bytes) : Prop :=
  s = [] ∨ ∃ e sign ds, s = e :: sign ++ ds ∧ (e = 'e'.toUInt8 ∨ e = 'E'.toUInt8) ∧
    (sign = [] ∨ sign = ['+'.toUInt8] ∨ sign = ['-'.toUInt8]) ∧ IsDigits ds

/-- A number: `-?(0|[1-9][0-9]*)(\.[0-9]+)?([eE][+-]?[0-9]+)?`. -/
structure Numeral where
  /-- Whether there is a minus sign. -/
  negative : Bool
  /-- The integer part. -/
  int : Bytes
  /-- The fraction, with its point. -/
  frac : Bytes
  /-- The exponent, with its letter. -/
  exp : Bytes
  isInt : IsInt int
  isFrac : IsFrac frac
  isExp : IsExp exp

/-- The bytes of a number. -/
def Numeral.text (n : Numeral) : Bytes :=
  (if n.negative then ['-'.toUInt8] else []) ++ n.int ++ n.frac ++ n.exp

/-! ## Values -/

/-- A run of whitespace. -/
abbrev Ws := {w : Bytes // ∀ c ∈ w, isWs c = true}

/-- The parts of the grammar that contain one another. -/
inductive Part where
  /-- A value. -/
  | value
  /-- The elements of a nonempty array. -/
  | elements
  /-- The members of a nonempty object. -/
  | members

/-- Concrete syntax trees.  An element carries the whitespace around it, a member the whitespace
around its key and around its value. -/
inductive Syn : Part → Type
  | null : Syn .value
  | true : Syn .value
  | false : Syn .value
  | number (n : Numeral) : Syn .value
  | string (s : StrBody) : Syn .value
  | emptyArray (w : Ws) : Syn .value
  | array (es : Syn .elements) : Syn .value
  | emptyObject (w : Ws) : Syn .value
  | object (ms : Syn .members) : Syn .value
  | lastElement (w₁ : Ws) (v : Syn .value) (w₂ : Ws) : Syn .elements
  | element (w₁ : Ws) (v : Syn .value) (w₂ : Ws) (es : Syn .elements) : Syn .elements
  | lastMember (w₁ : Ws) (k : StrBody) (w₂ w₃ : Ws) (v : Syn .value) (w₄ : Ws) : Syn .members
  | member (w₁ : Ws) (k : StrBody) (w₂ w₃ : Ws) (v : Syn .value) (w₄ : Ws) (ms : Syn .members) :
      Syn .members

/-- A string literal, with its quotes. -/
def quoted (s : Bytes) : Bytes := '"'.toUInt8 :: s ++ ['"'.toUInt8]

/-- What a part of a text denotes. -/
abbrev Denotation : Part → Type
  | .value => JsonValue
  | .elements => List JsonValue
  | .members => List (Bytes × JsonValue)

namespace Syn

/-- The bytes of a text. -/
def text : ∀ {i : Part}, Syn i → Bytes
  | _, .null => ascii "null"
  | _, .true => ascii "true"
  | _, .false => ascii "false"
  | _, .number n => n.text
  | _, .string s => quoted s.text
  | _, .emptyArray w => '['.toUInt8 :: w.val ++ [']'.toUInt8]
  | _, .array es => '['.toUInt8 :: es.text ++ [']'.toUInt8]
  | _, .emptyObject w => '{'.toUInt8 :: w.val ++ ['}'.toUInt8]
  | _, .object ms => '{'.toUInt8 :: ms.text ++ ['}'.toUInt8]
  | _, .lastElement w₁ v w₂ => w₁.val ++ v.text ++ w₂.val
  | _, .element w₁ v w₂ es => w₁.val ++ v.text ++ w₂.val ++ ','.toUInt8 :: es.text
  | _, .lastMember w₁ k w₂ w₃ v w₄ =>
    w₁.val ++ quoted k.text ++ w₂.val ++ ':'.toUInt8 :: w₃.val ++ v.text ++ w₄.val
  | _, .member w₁ k w₂ w₃ v w₄ ms =>
    w₁.val ++ quoted k.text ++ w₂.val ++ ':'.toUInt8 :: w₃.val ++ v.text ++ w₄.val ++
      ','.toUInt8 :: ms.text

/-- How deep arrays and objects nest. -/
def depth : ∀ {i : Part}, Syn i → Nat
  | _, .null | _, .true | _, .false | _, .number _ | _, .string _ => 0
  | _, .emptyArray _ | _, .emptyObject _ => 1
  | _, .array es => es.depth + 1
  | _, .object ms => ms.depth + 1
  | _, .lastElement _ v _ => v.depth
  | _, .element _ v _ es => max v.depth es.depth
  | _, .lastMember _ _ _ _ v _ => v.depth
  | _, .member _ _ _ _ v _ ms => max v.depth ms.depth

/-- Every surrogate escape, in keys as well as in values, is part of a proper pair. -/
def paired : ∀ {i : Part}, Syn i → Bool
  | _, .null | _, .true | _, .false | _, .number _ => Bool.true
  | _, .string s => s.paired
  | _, .emptyArray _ | _, .emptyObject _ => Bool.true
  | _, .array es => es.paired
  | _, .object ms => ms.paired
  | _, .lastElement _ v _ => v.paired
  | _, .element _ v _ es => v.paired && es.paired
  | _, .lastMember _ k _ _ v _ => k.paired && v.paired
  | _, .member _ k _ _ v _ ms => k.paired && v.paired && ms.paired

/-- The value denoted: numbers are their text, strings are unescaped, and of the members of an object
with one key the first counts. -/
def denote : ∀ {i : Part}, Syn i → Denotation i
  | _, .null => JsonValue.null
  | _, .true => JsonValue.bool Bool.true
  | _, .false => JsonValue.bool Bool.false
  | _, .number n => JsonValue.string n.text
  | _, .string s => JsonValue.string s.unescape
  | _, .emptyArray _ => JsonValue.array []
  | _, .array es => JsonValue.array es.denote
  | _, .emptyObject _ => JsonValue.object []
  | _, .object ms => JsonValue.object (FlatMap.emplaceAll [] ms.denote)
  | _, .lastElement _ v _ => [v.denote]
  | _, .element _ v _ es => List.cons v.denote es.denote
  | _, .lastMember _ k _ _ v _ => [(k.unescape, v.denote)]
  | _, .member _ k _ _ v _ ms => List.cons (k.unescape, v.denote) ms.denote

end Syn

end KalshiClient.Json
