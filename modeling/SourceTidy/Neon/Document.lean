import SourceTidy.Neon.Lexer

/-! # NEON documents

The tokens of a document drive a machine that holds the constructs that are open: indented blocks,
and on the innermost line of them the groups in brackets. No value is built. What is checked is that
brackets match, that lines are indented consistently, and that no mapping has a key twice.

* `Machine.step`: one token;
* `Machine.finish`: the end of the document;
* `decode`: is the text a document?

A bracket past the nesting limit is noticed at the token after it.
-/

namespace SourceTidy.Neon

/-- How deep brackets and blocks may nest below the outermost block. -/
def maxDepth : Nat := 200

/-- How much of a value has been read. -/
inductive Progress where
  /-- Nothing yet. -/
  | vacant
  /-- A scalar; `called` after it has had a list of arguments in round brackets. -/
  | scalar (text : Bytes) (line : Nat) (called : Bool)
  /-- A group in brackets or an indented block. -/
  | composite
deriving DecidableEq, Repr

namespace Progress

def isVacant (p : Progress) : Bool := p == .vacant

/-- The key that the value makes before a colon: a scalar without arguments, and its line. -/
def key? : Progress → Option (Bytes × Nat)
  | .scalar text line false => some (text, line)
  | _ => none

end Progress

/-- What the next value in a group is. -/
inductive GroupSlot where
  /-- An item, after the opening bracket or a comma. -/
  | item
  /-- An item after one that the end of a line has ended; a comma may still come before it. -/
  | resumed
  /-- The value of a key. -/
  | value
deriving DecidableEq, Repr

/-- An open pair of brackets. -/
structure Group where
  bracket : Bracket
  /-- The line of the opening bracket. -/
  line : Nat
  keys : List Bytes
  slot : GroupSlot
  progress : Progress
deriving DecidableEq, Repr

/-- What the next value on a line of a block is. -/
inductive LineSlot where
  /-- The first thing on the line: a dash, a key, or a value by itself. -/
  | entry
  /-- An item, after a dash. -/
  | item
  /-- The value of a key of the block. -/
  | value
  /-- The value of the key in `- key:`. Deeper lines continue the mapping that the key starts. -/
  | itemValue (key : Bytes)
deriving DecidableEq, Repr

/-- An open block of lines with one indentation. -/
structure Block where
  indent : Bytes
  keys : List Bytes
  /-- Does the block count towards the nesting limit? The outermost one does not, and neither does
  one that continues the mapping of an item. -/
  counted : Bool
  slot : LineSlot
  progress : Progress
deriving DecidableEq, Repr

/-- The open constructs, innermost first. Groups lie inside of the last line of the innermost
block. -/
structure Machine where
  blocks : List Block
  groups : List Group
deriving DecidableEq, Repr

namespace Machine

def start : Machine := { blocks := [], groups := [] }

def depth (m : Machine) : Nat := m.groups.length + m.blocks.countP Block.counted

end Machine

def openGroup (bracket : Bracket) (line : Nat) : Group :=
  { bracket, line, keys := [], slot := .item, progress := .vacant }

/-- Reads one more token of a value: the value after it, and the group that the token opens.
Nothing if the token does not go on with the value. -/
def Progress.read? (p : Progress) (t : Token) : Option (Progress × List Group) :=
  match p, t.symbol with
  | .vacant, .scalar text => some (.scalar text t.line false, [])
  | .vacant, .opening .square => some (.composite, [openGroup .square t.line])
  | .vacant, .opening .curly => some (.composite, [openGroup .curly t.line])
  | .scalar text line _, .opening .round => some (.scalar text line true, [openGroup .round t.line])
  -- a chained call, as in `a()::b()`
  | .scalar text line true, .scalar chained =>
    if (Bytes.ascii "::").isPrefixOf chained then some (.scalar text line true, []) else none
  | _, _ => none

def unexpected {α : Type} (t : Token) : Except Fault α := .error ⟨.unexpected t.symbol, t.line⟩

/-- The key that the value before a colon makes, if it makes one and the mapping does not have
it. -/
def newKey (p : Progress) (keys : List Bytes) (t : Token) : Except Fault Bytes :=
  match p.key? with
  | none => unexpected t
  | some (key, line) =>
    if keys.contains key then .error ⟨.duplicatedKey key, line⟩ else .ok key

/-- One token inside of the brackets of `g`; `outer` are the groups around it. -/
def Group.step (g : Group) (outer : List Group) (t : Token) : Except Fault (List Group) :=
  match g.progress.read? t with
  | some (progress, opened) => .ok (opened ++ { g with progress } :: outer)
  | none =>
    match t.symbol with
    | .newline _ =>
      if g.progress.isVacant then .ok (g :: outer)
      else .ok ({ g with slot := .resumed, progress := .vacant } :: outer)
    | .closing bracket => if bracket = g.bracket then .ok outer else unexpected t
    | .comma =>
      -- a key may be without a value, but no item may be empty
      if g.progress.isVacant && g.slot = .item then unexpected t
      else .ok ({ g with slot := .item, progress := .vacant } :: outer)
    | .colon | .equals =>
      if g.progress.isVacant || g.slot = .value then unexpected t
      else do
        let key ← newKey g.progress g.keys t
        .ok ({ g with keys := key :: g.keys, slot := .value, progress := .vacant } :: outer)
    | _ => unexpected t

/-- One token on the current line of `b`, outside of all brackets: the block, and the group that the
token opens. -/
def Block.step (b : Block) (t : Token) : Except Fault (Block × List Group) :=
  match b.progress.read? t with
  | some (progress, opened) => .ok ({ b with progress }, opened)
  | none =>
    match b.slot, b.progress.isVacant, t.symbol with
    | .entry, true, .dash => .ok ({ b with slot := .item }, [])
    | .entry, false, .colon | .entry, false, .equals => do
      let key ← newKey b.progress b.keys t
      .ok ({ b with keys := key :: b.keys, slot := .value, progress := .vacant }, [])
    | .item, false, .colon | .item, false, .equals => do
      -- the key starts a mapping of its own inside of the item
      let key ← newKey b.progress [] t
      .ok ({ b with slot := .itemValue key, progress := .vacant }, [])
    | _, _, _ => unexpected t

/-- Is `inner` a deeper indentation, one that extends `outer`? -/
def deepens (outer inner : Bytes) : Bool := outer.length < inner.length && outer.isPrefixOf inner

def openBlock (indent : Bytes) (keys : List Bytes) (counted : Bool) : Block :=
  { indent, keys, counted, slot := .entry, progress := .vacant }

/-- The start of a line with the given indentation. It opens a block below a line that waits for
one; else it goes on with the block of that indentation, and the deeper blocks end. -/
def newLine (depth line : Nat) (indent : Bytes) : List Block → Except Fault (List Block)
  | [] => .error ⟨.badIndentation, line⟩
  | b :: outer =>
    let resume : Except Fault (List Block) :=
      if indent = b.indent then .ok ({ b with slot := .entry, progress := .vacant } :: outer)
      else if deepens indent b.indent then newLine depth line indent outer
      else .error ⟨.badIndentation, line⟩
    match b.slot, b.progress.isVacant with
    | .entry, true => .error ⟨.unexpected (.newline indent), line⟩
    -- deeper lines are further keys of the mapping that the item has started
    | .itemValue key, false =>
      if deepens b.indent indent then
        .ok (openBlock indent [key] false :: { b with slot := .value } :: outer)
      else resume
    -- a key or a dash alone on its line waits for a block
    | _, true =>
      if b.indent.length < indent.length then
        if !b.indent.isPrefixOf indent then .error ⟨.badIndentation, line⟩
        else if maxDepth ≤ depth then .error ⟨.tooDeep, line⟩
        else .ok (openBlock indent [] true :: { b with progress := .composite } :: outer)
      else resume
    | _, false => resume

/-- One token. -/
def Machine.step (m : Machine) (t : Token) : Except Fault Machine :=
  if maxDepth < m.depth then .error ⟨.tooDeep, t.line⟩
  else match m.groups, m.blocks, t.symbol with
    | g :: outer, _, _ => (g.step outer t).map fun groups => { m with groups }
    -- the first line tells the indentation of the outermost block
    | [], [], .newline indent => .ok { m with blocks := [openBlock indent [] false] }
    | [], [], _ => unexpected t
    | [], _ :: _, .newline indent =>
      (newLine m.depth t.line indent m.blocks).map fun blocks => { m with blocks }
    | [], b :: outer, _ =>
      (b.step t).map fun (b', opened) => { blocks := b' :: outer, groups := opened }

/-- The end of the document, after a last token on line `line`. -/
def Machine.finish (m : Machine) (line : Nat) : Except Fault Unit :=
  if maxDepth < m.depth then .error ⟨.tooDeep, line⟩
  else match m.groups, m.blocks with
    | g :: _, _ =>
      if g.slot = .value && g.progress.isVacant then .error ⟨.unexpectedEnd, line⟩
      else .error ⟨.missingBracket g.bracket, g.line⟩
    | [], b :: _ =>
      if b.slot = .entry && b.progress.isVacant then .error ⟨.unexpectedEnd, line⟩ else .ok ()
    | [], [] => .ok ()

/-- The machine after the tokens. -/
def Machine.run (m : Machine) (tokens : List Token) : Except Fault Machine := tokens.foldlM step m

/-- Do the tokens form a document? -/
def parse (tokens : List Token) : Except Fault Unit := do
  let m ← Machine.start.run tokens
  m.finish ((tokens.getLast?.map Token.line).getD 1)

/-- Is the text a document? -/
def decode (source : Bytes) : Except Fault Unit := do
  let tokens ← lex source
  parse tokens

end SourceTidy.Neon
