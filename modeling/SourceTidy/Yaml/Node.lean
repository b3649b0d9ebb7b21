import SourceTidy.Yaml.Token

/-! # YAML nodes

The tokens of a document make a tree of nodes: scalars, sequences, mappings, and aliases, which
stand for a node with an anchor elsewhere in the tree.

* `Reader.node`: one node;
* `readDocument`: the nodes of a whole text, which is one document only.

The reader takes fuel, of which each call inside of another uses one unit. At most four calls lie
between two tokens, so fuel in proportion to the tokens never runs out.
-/

namespace SourceTidy.Yaml

/-- A node of a document. -/
inductive Node where
  | scalar (text : List Char) (style : Style) (tag : Option Tag)
  | sequence (items : List Node) (tag : Option Tag)
  /-- The keys and, in the same order, their values. -/
  | mapping (keys values : List Node) (tag : Option Tag)
  /-- The node with the given number. -/
  | alias (number : Nat)
deriving Repr

/-- A node that is not written. -/
def Node.empty : Node := .scalar [] .plain none

/-- A node that an alias can stand for. -/
structure Target where
  number : Nat
  /-- How many nodes with an anchor start before it. -/
  order : Nat
  node : Node
deriving Repr

/-- The state while tokens are read. -/
structure Reader where
  rest : List Token
  /-- The names of the anchors so far, each once, with the number of the node that it names now. -/
  anchors : List (String × Nat)
  /-- How many anchors there are so far. -/
  started : Nat
  /-- The nodes with an anchor that have been read; of those with one number, the last to start. -/
  targets : List Target
  /-- The handles of tags and what they stand for. -/
  handles : List (Tag × Tag)
  /-- How many nodes begin or end in the document. -/
  events : Nat
deriving Repr

namespace Reader

def next? (r : Reader) : Option Token := r.rest.head?

def skip (r : Reader) : Reader := { r with rest := r.rest.tail }

def count (r : Reader) (n : Nat) : Reader := { r with events := r.events + n }

/-- Is the next token one of these? -/
def isAt (r : Reader) (ts : List Token) : Bool := r.next?.any ts.contains

/-- A tag in full: its handle stands for the start of it. -/
def resolveTag? (r : Reader) (handle suffix : Tag) : Option Tag :=
  if handle.isEmpty then some suffix else (r.handles.lookup handle).map (· ++ suffix)

/-- The anchor and the tag before a node, in either order. -/
structure Properties where
  anchor : Option String
  tag : Option Tag
deriving Repr

def Properties.isEmpty (p : Properties) : Bool := p.anchor.isNone && p.tag.isNone

/-- Reads the properties of a node. -/
def properties? (r : Reader) : Option (Properties × Reader) :=
  match r.rest with
  | .anchor a :: .tag h s :: rest | .tag h s :: .anchor a :: rest => do
    let tag ← r.resolveTag? h s
    return (⟨some a, some tag⟩, { r with rest })
  | .anchor a :: rest => some (⟨some a, none⟩, { r with rest })
  | .tag h s :: rest => do
    let tag ← r.resolveTag? h s
    return (⟨none, some tag⟩, { r with rest })
  | _ => some (⟨none, none⟩, r)

/-- The number of the node that an alias stands for. -/
def alias? (r : Reader) (name : String) : Option (Node × Reader) :=
  (r.anchors.lookup name).map fun number => (.alias number, r.skip.count 1)

/-- An anchor names a new node, whose number is how many names there were before. A name that comes
again adds none to them, so the next node takes the same number over. -/
def bind (r : Reader) (name : String) : Reader :=
  let others := r.anchors.filter fun a => a.1 != name
  { r with anchors := (name, r.anchors.length) :: others, started := r.started + 1 }

/-- The node with a number and a place among the anchors has been read. -/
def record (r : Reader) (number order : Nat) (node : Node) : Reader :=
  if r.targets.any fun t => t.number == number && order < t.order then r
  else { r with targets := ⟨number, order, node⟩ :: r.targets.filter fun t => t.number != number }

mutual

/-- One node. In a block it may be a block of lines; as the value of a key in a block it may be a
sequence whose entries are not indented. -/
def node (block indentless : Bool) : Nat → Reader → Option (Node × Reader)
  | 0, _ => none
  | fuel + 1, r =>
    match r.next? with
    | some (.alias name) => r.alias? name
    | _ => do
      let (p, r) ← r.properties?
      match p.anchor with
      | none => content block indentless p fuel r
      | some name =>
        -- the anchor is known inside of its own node already
        let (n, after) ← content block indentless p fuel (r.bind name)
        return (n, after.record r.anchors.length r.started n)

/-- What follows the properties of a node. -/
def content (block indentless : Bool) (p : Properties) : Nat → Reader → Option (Node × Reader)
  | 0, _ => none
  | fuel + 1, r =>
    let sequence (result : Option (List Node × Reader)) : Option (Node × Reader) :=
      result.map fun (items, r) => (.sequence items p.tag, r.count 2)
    let mapping (result : Option (List (Node × Node) × Reader)) : Option (Node × Reader) :=
      result.map fun (entries, r) =>
        (.mapping (entries.map Prod.fst) (entries.map Prod.snd) p.tag, r.count 2)
    match r.next? with
    | some (.scalar text style) => some (.scalar text style p.tag, r.skip.count 1)
    | some .openBracket => sequence (flowItems true fuel r.skip)
    | some .openBrace => mapping (flowEntries true fuel r.skip)
    | some .entry =>
      if indentless then sequence (looseItems fuel r)
      else if p.isEmpty then none
      else some (.scalar [] .plain p.tag, r.count 1)
    | some .sequenceStart => if block then sequence (blockItems fuel r.skip) else none
    | some .mappingStart => if block then mapping (blockEntries fuel r.skip) else none
    -- a tag or an anchor with nothing after it makes an empty scalar
    | _ => if p.isEmpty then none else some (.scalar [] .plain p.tag, r.count 1)

/-- A node, or nothing written before one of the given tokens. -/
def nodeUnless (stops : List Token) (block indentless : Bool) : Nat → Reader →
    Option (Node × Reader)
  | 0, _ => none
  | fuel + 1, r =>
    if r.isAt stops then some (Node.empty, r.count 1) else node block indentless fuel r

/-- The entries of an indented sequence, up to its end. -/
def blockItems : Nat → Reader → Option (List Node × Reader)
  | 0, _ => none
  | fuel + 1, r =>
    match r.next? with
    | some .entry => do
      let (item, r) ← nodeUnless [.entry, .blockEnd] true false fuel r.skip
      let (items, r) ← blockItems fuel r
      return (item :: items, r)
    | some .blockEnd => some ([], r.skip)
    | _ => none

/-- The entries of a sequence at the indentation of the key before it. -/
def looseItems : Nat → Reader → Option (List Node × Reader)
  | 0, _ => none
  | fuel + 1, r =>
    match r.next? with
    | some .entry => do
      let (item, r) ← nodeUnless [.entry, .key, .value, .blockEnd] true false fuel r.skip
      let (items, r) ← looseItems fuel r
      return (item :: items, r)
    | _ => some ([], r)

/-- The entries of an indented mapping, up to its end. -/
def blockEntries : Nat → Reader → Option (List (Node × Node) × Reader)
  | 0, _ => none
  | fuel + 1, r =>
    match r.next? with
    | some .blockEnd => some ([], r.skip)
    | some .key => do
      let (key, r) ← nodeUnless [.key, .value, .blockEnd] true true fuel r.skip
      let (value, r) ←
        if r.next? == some .value then nodeUnless [.key, .value, .blockEnd] true true fuel r.skip
        else some (Node.empty, r.count 1)
      let (entries, r) ← blockEntries fuel r
      return ((key, value) :: entries, r)
    | _ => none

/-- The items of a sequence in brackets, up to its end. An item may be a mapping of one pair. -/
def flowItems (first : Bool) : Nat → Reader → Option (List Node × Reader)
  | 0, _ => none
  | fuel + 1, r =>
    if r.next? == some .closeBracket then some ([], r.skip)
    else if !first && r.next? != some .comma then none
    else
      let r := if first then r else r.skip
      match r.next? with
      | some .closeBracket => some ([], r.skip)
      | some .key => do
        -- a pair without braces is a mapping by itself
        let r := r.skip
        let (key, r) ←
          -- a key that is not written takes the token after it along
          if r.isAt [.value, .comma, .closeBracket] then some (Node.empty, r.skip.count 1)
          else node false false fuel r
        let (value, r) ←
          if r.next? == some .value then nodeUnless [.comma, .closeBracket] false false fuel r.skip
          else some (Node.empty, r.count 1)
        let (items, r) ← flowItems false fuel (r.count 2)
        return (.mapping [key] [value] none :: items, r)
      | _ => do
        let (item, r) ← node false false fuel r
        let (items, r) ← flowItems false fuel r
        return (item :: items, r)

/-- The entries of a mapping in braces, up to its end. -/
def flowEntries (first : Bool) : Nat → Reader → Option (List (Node × Node) × Reader)
  | 0, _ => none
  | fuel + 1, r =>
    if r.next? == some .closeBrace then some ([], r.skip)
    else if !first && r.next? != some .comma then none
    else
      let r := if first then r else r.skip
      match r.next? with
      | some .closeBrace => some ([], r.skip)
      | some .key => do
        let (key, r) ← nodeUnless [.value, .comma, .closeBrace] false false fuel r.skip
        let (value, r) ←
          if r.next? == some .value then nodeUnless [.comma, .closeBrace] false false fuel r.skip
          else some (Node.empty, r.count 1)
        let (entries, r) ← flowEntries false fuel r
        return ((key, value) :: entries, r)
      | _ => do
        let (key, r) ← node false false fuel r
        let (entries, r) ← flowEntries false fuel (r.count 1)
        return ((key, Node.empty) :: entries, r)

end

end Reader

/-! ## Documents -/

/-- What the tags of scalars that have a form of their own start with. -/
def coreAddress : Tag := Bytes.ofString "tag:yaml.org,2002:"

/-- The handles that need no directive. -/
def defaultHandles : List (Tag × Tag) :=
  [(Bytes.ofString "!", Bytes.ofString "!"), (Bytes.ofString "!!", coreAddress)]

/-- Reads the directives before a document. A version and a handle are given once at most. -/
def directives? (version : Bool) (handles : List (Tag × Tag)) : List Token →
    Option (List (Tag × Tag) × Bool × List Token)
  | .version major minor :: rest =>
    if version || major != 1 || (minor != 1 && minor != 2) then none
    else (directives? true handles rest).map fun (hs, _, ts) => (hs, true, ts)
  | .tagHandle handle address :: rest =>
    if handles.any fun h => h.1 == handle then none
    else (directives? version ((handle, address) :: handles) rest).map
      fun (hs, _, ts) => (hs, true, ts)
  | ts => some (handles, false, ts)

/-- Are only marks of the end of a document left? -/
def onlyEnds (ts : List Token) : Bool := ts.all (· == .documentEnd)

/-- The nodes of a text. -/
structure Document where
  root : Node
  targets : List Target
  /-- How many nodes begin or end in the document. -/
  events : Nat
deriving Repr

/-- The node with a number. -/
def Document.target? (d : Document) (number : Nat) : Option Node :=
  (d.targets.find? fun t => t.number == number).map (·.node)

/-- The node itself or, for an alias, what it stands for. -/
def Document.resolve? (d : Document) : Node → Option Node
  | .alias number => d.target? number
  | node => some node

/-- The document in a text, or nothing if the text is empty. -/
def readDocument (ts : List Token) : Option (Option Document) := do
  if ts.isEmpty then return none
  let (given, any, body) ← directives? false [] ts
  let explicit := body.head? == some .documentStart
  -- directives have to be followed by the mark of a document
  if any && !explicit then none
  let start := if explicit then body.tail else body
  let r : Reader :=
    { rest := start, anchors := [], started := 0, targets := [], handles := given ++ defaultHandles,
      events := 0 }
  let isVacant :=
    start.isEmpty || start.head? == some .documentEnd || start.head? == some .documentStart
  let (root, r) ←
    -- only a document with a mark may be without a node
    if explicit && isVacant then some (Node.empty, r.count 1)
    else r.node true false (4 * ts.length + 8)
  if onlyEnds r.rest then return some ⟨root, r.targets, r.events⟩ else none

end SourceTidy.Yaml
