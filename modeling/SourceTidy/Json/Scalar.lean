import SourceTidy.Bytes
import SourceTidy.Number

/-! # JSON scalars

How far a string, a number or a word of a JSON text reaches, and what can be wrong with it. A stop
says what is wrong and how many octets of the scalar were read when that was noticed, the offending
one included.

Numbers are kept as an integer significand and a power of ten. A number is out of range when its
value as a double of 64 bits is infinite.
-/

namespace SourceTidy.Json

open Ascii Bytes

/-- What can be wrong with a JSON text. -/
inductive Problem where
  | endOfList
  | endOfObject
  | endOfString
  | endOfValue
  | expectedColon
  | expectedListComma
  | expectedObjectComma
  | expectedIdent
  | expectedValue
  | invalidEscape
  | invalidNumber
  | numberOutOfRange
  | controlCharacter
  | keyNotString
  | loneSurrogate
  | trailingComma
  | trailingCharacters
  | endOfHexEscape
  | recursionLimit
deriving DecidableEq, Repr

def Problem.message : Problem → String
  | .endOfList => "EOF while parsing a list"
  | .endOfObject => "EOF while parsing an object"
  | .endOfString => "EOF while parsing a string"
  | .endOfValue => "EOF while parsing a value"
  | .expectedColon => "expected `:`"
  | .expectedListComma => "expected `,` or `]`"
  | .expectedObjectComma => "expected `,` or `\x7d`"
  | .expectedIdent => "expected ident"
  | .expectedValue => "expected value"
  | .invalidEscape => "invalid escape"
  | .invalidNumber => "invalid number"
  | .numberOutOfRange => "number out of range"
  | .controlCharacter => "control character (\\u0000-\\u001F) found while parsing a string"
  | .keyNotString => "key must be a string"
  | .loneSurrogate => "lone leading surrogate in hex escape"
  | .trailingComma => "trailing comma"
  | .trailingCharacters => "trailing characters"
  | .endOfHexEscape => "unexpected end of hex escape"
  | .recursionLimit => "recursion limit exceeded"

/-- A problem inside of a scalar, and how many of its octets were read. -/
structure Stop where
  problem : Problem
  read : Nat
deriving DecidableEq, Repr

/-- The stop with `n` more octets before it. -/
def Stop.shift (n : Nat) (stop : Stop) : Stop := { stop with read := stop.read + n }

/-- The result for a text from the result for what is left of it after `n` octets. -/
def after (n : Nat) (result : Except Stop Nat) : Except Stop Nat :=
  match result with
  | .ok m => .ok (m + n)
  | .error stop => .error (stop.shift n)

/-! ## Words -/

/-- The rest of a word such as `true`. -/
def word : (expected text : Bytes) → Except Stop Nat
  | [], _ => .ok 0
  | _ :: _, [] => .error ⟨.endOfValue, 0⟩
  | e :: expected, b :: rest =>
    if b = e then after 1 (word expected rest) else .error ⟨.expectedIdent, 1⟩

/-! ## Strings -/

def hexDigit? (b : UInt8) : Option Nat :=
  if isDigit b then some (b.toNat - 0x30)
  else if 0x61 ≤ b && b ≤ 0x66 then some (b.toNat - 0x61 + 10)
  else if 0x41 ≤ b && b ≤ 0x46 then some (b.toNat - 0x41 + 10)
  else none

/-- The code unit of the four digits after `\u`. -/
def hexUnit (s : Bytes) : Except Stop Nat :=
  match s with
  | a :: b :: c :: d :: _ =>
    match [a, b, c, d].mapM hexDigit? with
    | some digits => .ok (digits.foldl (fun n d => n * 16 + d) 0)
    | none => .error ⟨.invalidEscape, 4⟩
  | _ => .error ⟨.endOfString, s.length⟩

/-- The extent of an escape after `\u`: four digits, and for the first half of a surrogate pair a
second escape with the other half. -/
def unicodeEscape (s : Bytes) : Except Stop Nat := do
  let unit ← hexUnit s
  -- the second half of a pair cannot come first
  if 0xDC00 ≤ unit && unit ≤ 0xDFFF then throw ⟨.loneSurrogate, 4⟩
  if unit < 0xD800 || 0xDBFF < unit then return 4
  match s.drop 4 with
  | [] => throw ⟨.endOfString, 4⟩
  | a :: rest =>
    if a ≠ backslash then throw ⟨.endOfHexEscape, 5⟩
    match rest with
    | [] => throw ⟨.endOfString, 5⟩
    | b :: digits =>
      if b ≠ 0x75 then throw ⟨.endOfHexEscape, 6⟩
      match hexUnit digits with
      | .error stop => throw (stop.shift 6)
      | .ok low => if low < 0xDC00 || 0xDFFF < low then throw ⟨.loneSurrogate, 10⟩ else return 10

/-- The extent of an escape after the backslash. -/
def escape (s : Bytes) : Except Stop Nat :=
  match s with
  | [] => .error ⟨.endOfString, 0⟩
  | b :: rest =>
    if b = 0x75 then after 1 (unicodeEscape rest)
    else if (ascii "\"\\/bfnrt").contains b then .ok 1
    else .error ⟨.invalidEscape, 1⟩

/-- The extent of a string after its opening quote, of which the first `skip` octets belong to an
escape that has been read. -/
def stringRest : Nat → Bytes → Except Stop Nat
  | _, [] => .error ⟨.endOfString, 0⟩
  | skip + 1, _ :: rest => after 1 (stringRest skip rest)
  | 0, b :: rest =>
    if b = doubleQuote then .ok 1
    else if b = backslash then
      match escape rest with
      | .error stop => .error (stop.shift 1)
      | .ok n => after 1 (stringRest n rest)
    else if b < 0x20 then .error ⟨.controlCharacter, 1⟩
    else after 1 (stringRest 0 rest)

/-! ## Numbers -/

/-- Is `significand * 10 ^ exponent` infinite as a double? The two factors are rounded before they
are multiplied. -/
def isInfinite (significand : Nat) (exponent : Int) : Bool :=
  if significand = 0 || exponent < 0 then false
  -- higher powers of ten are infinite by themselves
  else if exponent > 308 then true
  else
    Number.infinite ≤
      Number.roundPlaces significand 1 * Number.roundPlaces (Nat.pow 10 exponent.toNat) 1

/-- The largest significand that is kept. -/
def maxSignificand : Nat := Nat.pow 2 64 - 1

/-- A number while it is read. -/
structure Decimal where
  significand : Nat
  exponent : Int
  /-- Further digits do not fit and are not kept. -/
  full : Bool
deriving DecidableEq, Repr

/-- One more digit before the point. -/
def Decimal.pushInteger (d : Decimal) (digit : Nat) : Decimal :=
  if d.full || maxSignificand < d.significand * 10 + digit then
    { d with exponent := d.exponent + 1, full := true }
  else { d with significand := d.significand * 10 + digit }

/-- One more digit after the point. -/
def Decimal.pushFraction (d : Decimal) (digit : Nat) : Decimal :=
  if d.full || maxSignificand < d.significand * 10 + digit then { d with full := true }
  else { d with significand := d.significand * 10 + digit, exponent := d.exponent - 1 }

def digitValues (s : Bytes) : List Nat := (s.takeWhile isDigit).map fun b => b.toNat - 0x30

/-- The extent of an exponent after its mark, and its value. -/
def exponentPart (s : Bytes) : Except Stop (Nat × Int) :=
  let sign := if nextIn (fun b => b == plus || b == dash) s then 1 else 0
  let negative := nextIs dash s
  let digits := digitValues (s.drop sign)
  if digits.isEmpty then
    .error (if (s.drop sign).isEmpty then ⟨.endOfValue, sign⟩ else ⟨.invalidNumber, sign + 1⟩)
  else
    let value : Nat := digits.foldl (fun n d => n * 10 + d) 0
    .ok (sign + digits.length, if negative then -Int.ofNat value else Int.ofNat value)

/-- The extent of the rest of a number after the digits of its fraction or, if it has none, of its
integer part. -/
def numberEnd (d : Decimal) (isFloat : Bool) (s : Bytes) : Except Stop Nat :=
  if nextIn (fun b => b == 0x65 || b == 0x45) s then
    match exponentPart (s.drop 1) with
    | .error stop => .error (stop.shift 1)
    | .ok (n, e) =>
      if isInfinite d.significand (d.exponent + e) then .error ⟨.numberOutOfRange, n + 1⟩
      else .ok (n + 1)
  -- integers that fit in 64 bits are kept as they are
  else if (isFloat || d.full) && isInfinite d.significand d.exponent then
    .error ⟨.numberOutOfRange, 0⟩
  else .ok 0

/-- The extent of the rest of a number after the digits of its integer part. -/
def fractionPart (d : Decimal) (s : Bytes) : Except Stop Nat :=
  if nextIs dot s then
    let digits := digitValues (s.drop 1)
    let rest := s.drop (1 + digits.length)
    if digits.isEmpty then
      .error (if rest.isEmpty then ⟨.endOfValue, 1⟩ else ⟨.invalidNumber, 2⟩)
    else
      -- after a digit that did not fit a smaller one still may
      let d' := digits.foldl Decimal.pushFraction { d with full := false }
      after (1 + digits.length) (numberEnd d' true rest)
  else numberEnd d false s

/-- The extent of a number after its sign. -/
def number (s : Bytes) : Except Stop Nat :=
  match s with
  | [] => .error ⟨.endOfValue, 0⟩
  | b :: rest =>
    if b = zero then
      -- a zero in front stands alone
      if nextIn isDigit rest then .error ⟨.invalidNumber, 2⟩
      else after 1 (fractionPart ⟨0, 0, false⟩ rest)
    else if isDigit b then
      let digits := digitValues s
      let d := digits.foldl Decimal.pushInteger ⟨0, 0, false⟩
      after digits.length (fractionPart d (s.drop digits.length))
    else .error ⟨.invalidNumber, 1⟩

end SourceTidy.Json
