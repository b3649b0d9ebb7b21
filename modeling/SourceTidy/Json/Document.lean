import SourceTidy.Json.Scalar

/-! # JSON documents

A JSON text drives a machine that holds the open lists and objects and what may come next. No value
is built. The machine stops at the first thing that is wrong and reports the line on which it was
noticed.

* `Machine.step`: one scalar or one mark;
* `decode`: is the text a document?
-/

namespace SourceTidy.Json

open Ascii Bytes

/-- So many brackets open inside of each other are refused. -/
def recursionLimit : Nat := 128

inductive Container where
  | list
  | object
deriving DecidableEq, Repr

/-- What may come next. -/
inductive Expect where
  | value
  /-- A value or the end of the list, after its opening bracket. -/
  | firstItem
  /-- A value, after a comma in a list. -/
  | item
  /-- A key or the end of the object, after its opening bracket. -/
  | firstKey
  /-- A key, after a comma in an object. -/
  | key
  | colon
  /-- A comma or the end of the container, or at the top the end of the text. -/
  | more
deriving DecidableEq, Repr

/-- The open containers, innermost first, and what may come next. -/
structure Machine where
  containers : List Container
  expect : Expect
deriving DecidableEq, Repr

def Machine.start : Machine := { containers := [], expect := .value }

/-- A problem and the line on which it was noticed. -/
structure Fault where
  problem : Problem
  line : Nat
deriving DecidableEq, Repr

/-- The problem of a text that ends here, if it may not. -/
def Machine.endProblem? (m : Machine) : Option Problem :=
  match m.expect, m.containers with
  | .value, _ | .item, _ | .key, _ => some .endOfValue
  | .firstItem, _ => some .endOfList
  | .firstKey, _ | .colon, _ => some .endOfObject
  | .more, .list :: _ => some .endOfList
  | .more, .object :: _ => some .endOfObject
  | .more, [] => none

/-- A value: its extent as far as one step goes, and the machine after it. -/
def Machine.stepValue (m : Machine) (b : UInt8) (rest : Bytes) : Except Stop (Nat × Machine) :=
  let scalar (n : Except Stop Nat) : Except Stop (Nat × Machine) :=
    (after 1 n).map fun n => (n, { m with expect := .more })
  let enter (c : Container) (expect : Expect) : Except Stop (Nat × Machine) :=
    if recursionLimit ≤ m.containers.length + 1 then .error ⟨.recursionLimit, 1⟩
    else .ok (1, { containers := c :: m.containers, expect })
  if b = 0x6E then scalar (word (ascii "ull") rest)
  else if b = 0x74 then scalar (word (ascii "rue") rest)
  else if b = 0x66 then scalar (word (ascii "alse") rest)
  else if b = dash then scalar (number rest)
  else if isDigit b then (number (b :: rest)).map fun n => (n, { m with expect := .more })
  else if b = doubleQuote then scalar (stringRest 0 rest)
  else if b = openBracket then enter .list .firstItem
  else if b = openBrace then enter .object .firstKey
  else .error ⟨.expectedValue, 1⟩

/-- A key in quotes. -/
def Machine.stepKey (m : Machine) (rest : Bytes) : Except Stop (Nat × Machine) :=
  (after 1 (stringRest 0 rest)).map fun n => (n, { m with expect := .colon })

/-- The innermost container ends. -/
def Machine.leave (m : Machine) : Machine := { containers := m.containers.tail, expect := .more }

/-- One scalar or mark that starts with `b`: its extent and the machine after it. -/
def Machine.step (m : Machine) (b : UInt8) (rest : Bytes) : Except Stop (Nat × Machine) :=
  match m.expect with
  | .value => m.stepValue b rest
  | .firstItem => if b = closeBracket then .ok (1, m.leave) else m.stepValue b rest
  | .item => if b = closeBracket then .error ⟨.trailingComma, 1⟩ else m.stepValue b rest
  | .firstKey =>
    if b = closeBrace then .ok (1, m.leave)
    else if b = doubleQuote then m.stepKey rest
    else .error ⟨.keyNotString, 1⟩
  | .key =>
    if b = doubleQuote then m.stepKey rest
    else if b = closeBrace then .error ⟨.trailingComma, 1⟩
    else .error ⟨.keyNotString, 1⟩
  | .colon =>
    if b = Ascii.colon then .ok (1, { m with expect := .value }) else .error ⟨.expectedColon, 1⟩
  | .more =>
    match m.containers with
    | [] => .error ⟨.trailingCharacters, 1⟩
    | .list :: _ =>
      if b = closeBracket then .ok (1, m.leave)
      else if b = comma then .ok (1, { m with expect := .item })
      else .error ⟨.expectedListComma, 1⟩
    | .object :: _ =>
      if b = closeBrace then .ok (1, m.leave)
      else if b = comma then .ok (1, { m with expect := .key })
      else .error ⟨.expectedObjectComma, 1⟩

/-- Runs the machine on a text whose first `skip` octets have been read; `line` is the line of the
octet after them. -/
def Machine.run (m : Machine) (line : Nat) : Nat → Bytes → Except Fault Unit
  | _, [] =>
    match m.endProblem? with
    | some problem => .error ⟨problem, line⟩
    | none => .ok ()
  | skip + 1, _ :: rest => m.run line skip rest
  | 0, b :: rest =>
    if b = lf then m.run (line + 1) 0 rest
    else if isSpacing b then m.run line 0 rest
    else match m.step b rest with
      -- the line is that of the octet where the problem was noticed
      | .error stop => .error ⟨stop.problem, line + lineBreaks ((b :: rest).take stop.read)⟩
      | .ok (n, m') => m'.run line (n - 1) rest

/-- Is the text a JSON document? -/
def decode (source : Bytes) : Except Fault Unit := Machine.start.run 1 0 source

end SourceTidy.Json
