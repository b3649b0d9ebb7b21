import SourceTidy.Bytes

/-! # UTF-8

A text is read one octet at a time by a machine with eight states. Between characters it is in
state `ground`; inside a character the state says which octets may come next, which excludes
overlong forms, surrogates and numbers above `U+10FFFF`.

* `Utf8.valid`: the machine ends between two characters;
* `Utf8.decode`: the characters of a text. An octet sequence that starts no character, and the
  longest start of a character that does not continue, each read as `U+FFFD`.
-/

namespace SourceTidy.Utf8

/-- Where the reader stands: between characters, or inside one. -/
inductive State where
  /-- Between two characters. -/
  | ground
  /-- One more octet `80-BF`. -/
  | tail1
  /-- Two more octets `80-BF`. -/
  | tail2
  /-- Three more octets `80-BF`. -/
  | tail3
  /-- After `E0`: an octet `A0-BF`, then one more. -/
  | afterE0
  /-- After `ED`: an octet `80-9F`, then one more. -/
  | afterED
  /-- After `F0`: an octet `90-BF`, then two more. -/
  | afterF0
  /-- After `F4`: an octet `80-8F`, then two more. -/
  | afterF4
deriving DecidableEq, Repr

/-- Is the octet from `lo` to `hi`? -/
def within (lo hi b : UInt8) : Bool := lo ≤ b && b ≤ hi

/-- The state after one more octet, or nothing if the octet may not come here. -/
def State.step : State → UInt8 → Option State
  | .ground, b =>
    if b < 0x80 then some .ground
    else if within 0xC2 0xDF b then some .tail1
    else if b = 0xE0 then some .afterE0
    else if b = 0xED then some .afterED
    else if within 0xE1 0xEF b then some .tail2
    else if b = 0xF0 then some .afterF0
    else if within 0xF1 0xF3 b then some .tail3
    else if b = 0xF4 then some .afterF4
    else none
  | .tail1, b => if within 0x80 0xBF b then some .ground else none
  | .tail2, b => if within 0x80 0xBF b then some .tail1 else none
  | .tail3, b => if within 0x80 0xBF b then some .tail2 else none
  | .afterE0, b => if within 0xA0 0xBF b then some .tail1 else none
  | .afterED, b => if within 0x80 0x9F b then some .tail1 else none
  | .afterF0, b => if within 0x90 0xBF b then some .tail2 else none
  | .afterF4, b => if within 0x80 0x8F b then some .tail2 else none

/-- The state after a text, or nothing if an octet of it may not stand where it does. -/
def State.run (q : State) (s : Bytes) : Option State := s.foldlM State.step q

/-- The text is a sequence of whole characters. -/
def valid (s : Bytes) : Bool := State.ground.run s == some .ground

/-- The part of a character's number that its first octet carries. -/
def leadBits (b : UInt8) : Nat :=
  if b < 0x80 then b.toNat
  else if b < 0xE0 then b.toNat % 0x20
  else if b < 0xF0 then b.toNat % 0x10
  else b.toNat % 0x08

/-- The number read so far, with the six bits of one more octet. -/
def addBits (n : Nat) (b : UInt8) : Nat := n * 0x40 + b.toNat % 0x40

/-- The character that stands for octets that are none. -/
def replacement : Char := Char.ofNat 0xFFFD

/-- The characters of a text, read from state `q` with the bits `n` of the current character. -/
def decodeFrom : State → Nat → Bytes → List Char
  | q, _, [] => if q = .ground then [] else [replacement]
  | q, n, b :: rest =>
    match q.step b with
    | some q' =>
      let n' := if q = .ground then leadBits b else addBits n b
      if q' = .ground then Char.ofNat n' :: decodeFrom .ground 0 rest
      else decodeFrom q' n' rest
    | none =>
      -- the octet that does not continue a character may start another one
      match (if q = .ground then none else State.ground.step b) with
      | some .ground => replacement :: Char.ofNat b.toNat :: decodeFrom .ground 0 rest
      | some q' => replacement :: decodeFrom q' (leadBits b) rest
      | none =>
        if q = .ground then replacement :: decodeFrom .ground 0 rest
        else replacement :: replacement :: decodeFrom .ground 0 rest

/-- The characters of a text. -/
def decode (s : Bytes) : List Char := decodeFrom .ground 0 s

/-- A text as a string, for messages. -/
def toString (s : Bytes) : String := String.ofList (decode s)

end SourceTidy.Utf8
