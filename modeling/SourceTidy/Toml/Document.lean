import SourceTidy.Bytes
import SourceTidy.Toml.Scalar
import SourceTidy.Toml.Store
import SourceTidy.Utf8

/-! # TOML documents

A document is read from its start by a machine that holds the keys defined so far, the table that
the last header opened, the lists and tables in brackets that are open, and what may come next.

* `Machine.step`: one key, value or mark;
* `parse`, `decode`: the keys of a document, or the first problem and its line.
-/

namespace SourceTidy.Toml

/-- How deep lists and tables in brackets may nest. -/
def maxDepth : Nat := 80

/-- How many parts a dotted key may have. -/
def maxKeyParts : Nat := 80

/-- What a key is for. -/
inductive KeyRole where
  /-- It gets a value in the table of the last header. -/
  | assignment
  /-- It gets a value in a table in braces. -/
  | entry
  | tableHeader
  | elementHeader
deriving DecidableEq, Repr

/-- An open list or table in brackets. -/
inductive Frame where
  /-- The items so far, the last one first. -/
  | array (items : List Value)
  /-- The keys so far. -/
  | table (store : Store)
  /-- A key that waits for its value. -/
  | key (keys : List String)
deriving Repr

/-- What may come next. -/
inductive Expect where
  /-- A statement, or an empty line. -/
  | statement
  /-- A part of a key after the given parts. -/
  | keyPart (role : KeyRole) (parts : List String)
  /-- A dot, or what ends a key. -/
  | keyEnd (role : KeyRole) (parts : List String)
  /-- The sign between a key of a table in braces and its value. -/
  | equals (parts : List String)
  /-- A value, on this line or, in a table in braces, on a later one. -/
  | value (inBraces : Bool)
  /-- An item of a list, or its end. -/
  | item
  /-- A comma, or the end of a list. -/
  | itemEnd
  /-- A key of a table in braces, or its end. -/
  | entry
  /-- A comma, or the end of a table in braces. -/
  | entryEnd
  /-- The end of the line. -/
  | lineEnd
deriving DecidableEq, Repr

/-- May a line end, or a comment start, here? -/
def Expect.allowsBreak : Expect → Bool
  | .statement | .item | .itemEnd | .entry | .equals _ | .entryEnd | .lineEnd => true
  | .keyEnd role _ => role == .entry
  | .value inBraces => inBraces
  | .keyPart _ _ => false

structure Machine where
  store : Store
  /-- The table of the last header. -/
  current : Path
  /-- What is open inside of a statement, innermost first. -/
  frames : List Frame
  expect : Expect
  /-- How integers are held. -/
  width : Width
deriving Repr

namespace Machine

def start (width : Width) : Machine :=
  { store := .empty, current := [], frames := [], expect := .statement, width }

/-- How many brackets are open. -/
def depth (m : Machine) : Nat :=
  m.frames.countP fun
    | .key _ => false
    | .array _ | .table _ => true

/-- A value has been read: it goes to what waits for it. -/
def deliver (m : Machine) (v : Value) : Except Problem Machine :=
  match m.frames with
  | .array items :: outer =>
    .ok { m with frames := .array (v :: items) :: outer, expect := .itemEnd }
  -- a table in braces has keys of its own
  | .key keys :: .table store :: outer =>
    match store.define? [] keys v with
    | some store' => .ok { m with frames := .table store' :: outer, expect := .entryEnd }
    | none => .error .duplicateKey
  | .key keys :: outer =>
    match m.store.define? m.current keys v with
    | some store => .ok { m with store, frames := outer, expect := .lineEnd }
    | none => .error .duplicateKey
  | _ => .error .unexpectedCharacter

/-- A bracket opens a list or a table. -/
def enter (m : Machine) (frame : Frame) (expect : Expect) : Except Problem (Nat × Machine) :=
  if maxDepth ≤ m.depth then .error .tooDeep
  else .ok (1, { m with frames := frame :: m.frames, expect })

/-- The innermost list or table ends. -/
def leave (m : Machine) : Except Problem (Nat × Machine) :=
  match m.frames with
  | .array items :: outer =>
    ({ m with frames := outer }.deliver (.array items.reverse)).map (1, ·)
  -- its keys have been checked, and nothing else is needed of them
  | .table _ :: outer => ({ m with frames := outer }.deliver .table).map (1, ·)
  | _ => .error .unexpectedCharacter

/-- A value at the start of the text. -/
def readValue (m : Machine) (s : List Char) : Except Problem (Nat × Machine) :=
  match string? s with
  | some none => .error .invalidString
  | some (some r) => (m.deliver (.string (String.ofList r.text))).map (r.extent, ·)
  | none =>
    match s.head? with
    | some '[' => m.enter (.array []) .item
    | some '{' => m.enter (.table .empty) .entry
    | _ =>
      let w := word s
      match wordValue? m.width w with
      | some v => (m.deliver v).map (w.length, ·)
      | none => .error .invalidValue

/-- A part of a key at the start of the text. -/
def readKey (m : Machine) (role : KeyRole) (parts : List String) (s : List Char) :
    Except Problem (Nat × Machine) :=
  if maxKeyParts ≤ parts.length then .error .tooDeep
  else match key? s with
  | some r => .ok (r.extent, { m with expect := .keyEnd role (parts ++ [String.ofList r.text]) })
  | none => .error .unexpectedCharacter

/-- What follows the parts of a key. -/
def endKey (m : Machine) (role : KeyRole) (parts : List String) (s : List Char) :
    Except Problem (Nat × Machine) :=
  match role, s with
  | _, '.' :: _ => .ok (1, { m with expect := .keyPart role parts })
  | .assignment, '=' :: _ =>
    .ok (1, { m with frames := .key parts :: m.frames, expect := .value false })
  | .entry, '=' :: _ =>
    .ok (1, { m with frames := .key parts :: m.frames, expect := .value true })
  | .tableHeader, ']' :: _ =>
    match m.store.openTable? parts with
    | some (store, current) => .ok (1, { m with store, current, expect := .lineEnd })
    | none => .error .duplicateKey
  | .elementHeader, ']' :: ']' :: _ =>
    match m.store.openElement? parts with
    | some (store, current) => .ok (2, { m with store, current, expect := .lineEnd })
    | none => .error .duplicateKey
  | _, _ => .error .unexpectedCharacter

/-- One key, value or mark at the start of a text that is no blank, line break or comment: its
extent and the machine after it. -/
def step (m : Machine) (s : List Char) : Except Problem (Nat × Machine) :=
  match m.expect, s with
  | .statement, '[' :: '[' :: _ => .ok (2, { m with expect := .keyPart .elementHeader [] })
  | .statement, '[' :: _ => .ok (1, { m with expect := .keyPart .tableHeader [] })
  | .statement, _ => m.readKey .assignment [] s
  | .keyPart role parts, _ => m.readKey role parts s
  | .keyEnd role parts, _ => m.endKey role parts s
  | .equals parts, '=' :: _ => m.endKey .entry parts s
  | .value _, _ => m.readValue s
  | .item, ']' :: _ => m.leave
  | .item, _ => m.readValue s
  | .itemEnd, ',' :: _ => .ok (1, { m with expect := .item })
  | .itemEnd, ']' :: _ => m.leave
  | .entry, '}' :: _ => m.leave
  | .entry, _ => m.readKey .entry [] s
  | .entryEnd, ',' :: _ => .ok (1, { m with expect := .entry })
  | .entryEnd, '}' :: _ => m.leave
  | .equals _, _ | .itemEnd, _ | .entryEnd, _ | .lineEnd, _ => .error .unexpectedCharacter

/-- A line ends here. After a key of a table in braces no dot may follow then. -/
def breakLine (m : Machine) : Machine :=
  match m.expect with
  | .lineEnd => { m with expect := .statement }
  | .keyEnd .entry parts => { m with expect := .equals parts }
  | _ => m

end Machine

/-- A problem and the line it was noticed on. -/
structure Fault where
  problem : Problem
  line : Nat
deriving DecidableEq, Repr

/-- The extent of a comment, unless a control character stands in it. -/
def comment? (s : List Char) : Option Nat :=
  let text := s.takeWhile fun c => c != '\n'
  -- a carriage return before the line feed is part of the line break
  let body := if text.getLast? == some '\r' && text.length < s.length then text.dropLast else text
  if body.any isForbidden then none else some body.length

/-- Runs the machine on a text whose first `skip` characters have been read; `line` is the line of
the character after them. -/
def Machine.run (m : Machine) (line : Nat) : Nat → List Char → Except Fault Store
  | _, [] =>
    if m.expect = .statement || m.expect = .lineEnd then .ok m.store
    else .error ⟨.unexpectedEnd, line⟩
  | skip + 1, c :: rest => m.run (if c = '\n' then line + 1 else line) skip rest
  | 0, c :: rest =>
    if isBlank c then m.run line 0 rest
    else match (if m.expect.allowsBreak then lineBreak? (c :: rest) else none) with
      | some n => m.breakLine.run (if c = '\n' then line + 1 else line) (n - 1) rest
      | none =>
        if m.expect.allowsBreak && c = '#' then
          match comment? rest with
          | some n => m.run line n rest
          | none => .error ⟨.unexpectedCharacter, line⟩
        else
          match m.step (c :: rest) with
          | .error problem => .error ⟨problem, line⟩
          | .ok (n, m') => m'.run (if c = '\n' then line + 1 else line) (n - 1) rest

/-- The keys of a document. A byte order mark before it is left out. -/
def parse (width : Width) (source : Bytes) : Except Fault Store :=
  let chars := Utf8.decode source
  let text := if chars.head?.any fun c => c.toNat == 0xFEFF then chars.drop 1 else chars
  (Machine.start width).run 1 0 text

/-- The keys of a document in which all integers have 64 bits. -/
def decode (source : Bytes) : Except Fault Store := parse .narrow source

end SourceTidy.Toml
