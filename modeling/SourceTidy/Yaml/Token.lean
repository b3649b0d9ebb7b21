import SourceTidy.Yaml.Text

/-! # YAML tokens

The text of a document becomes a list of tokens in which indentation and keys are explicit: every
block of lines has a token for its start and one for its end, and every key has a token before it.
Since a key is known only by the colon after it, the lexer keeps the places where one could have
started, and puts the token there when the colon comes.

* `Lexer.fetch?`: one token of the text;
* `tokens`: the tokens of a document.
-/

namespace SourceTidy.Yaml

/-- How a scalar is written. -/
inductive Style where
  | plain
  | quoted
  /-- A block of lines that keeps its line breaks. -/
  | literal
  /-- A block of lines that is folded. -/
  | folded
deriving DecidableEq, Repr

/-- A tag, or a part of one. Escapes in it can write any octets. -/
abbrev Tag := Bytes

inductive Token where
  /-- `%YAML 1.2` -/
  | version (major minor : Nat)
  /-- `%TAG !handle! address` -/
  | tagHandle (handle address : Tag)
  | documentStart
  | documentEnd
  | sequenceStart
  | mappingStart
  | blockEnd
  | openBracket
  | closeBracket
  | openBrace
  | closeBrace
  | entry
  | comma
  | key
  | value
  | alias (name : String)
  | anchor (name : String)
  | tag (handle suffix : Tag)
  | scalar (text : List Char) (style : Style)
deriving DecidableEq, Repr

/-- What is left of the text, and where it starts. -/
structure Cursor where
  rest : List Char
  /-- How many octets come before the rest. -/
  index : Nat
  line : Nat
  column : Nat
deriving Repr

namespace Cursor

def advance (c : Cursor) : Nat → Cursor
  | 0 => c
  | n + 1 =>
    match c.rest with
    | [] => c
    | ch :: rest =>
      advance { rest, index := c.index + ch.utf8Size,
                line := if isBreak ch then c.line + 1 else c.line,
                column := nextColumn c.column ch } n

end Cursor

/-- A place where a key could have started. -/
structure Candidate where
  /-- A line of a mapping that has no colon is an error. -/
  required : Bool
  /-- How many tokens come before it. -/
  number : Nat
  index : Nat
  line : Nat
  column : Nat
deriving Repr

structure Lexer where
  cursor : Cursor
  /-- The tokens so far, the last one first. -/
  tokens : List Token
  /-- How many tokens there are so far. -/
  count : Nat
  /-- The candidate for a key outside of brackets. -/
  candidate : Option Candidate
  /-- The candidates for a key inside of each level of brackets, innermost first. -/
  inner : List (Option Candidate)
  /-- May a key start here? -/
  keyAllowed : Bool
  /-- The indentations of the open blocks, innermost first; below all is one less than zero. -/
  indent : Int
  outer : List Int
  /-- Has the end of the text been reached? -/
  ended : Bool
deriving Repr

namespace Lexer

def start (text : List Char) : Lexer :=
  { cursor := ⟨text, 0, 1, 0⟩, tokens := [], count := 0, candidate := none, inner := [],
    keyAllowed := true, indent := -1, outer := [], ended := false }

/-- Inside of brackets? -/
def inFlow (l : Lexer) : Bool := !l.inner.isEmpty

def emit (l : Lexer) (t : Token) : Lexer := { l with tokens := t :: l.tokens, count := l.count + 1 }

/-- Puts a token after the first `number` ones. -/
def insertAt (l : Lexer) (number : Nat) (t : Token) : Lexer :=
  -- the list is in reverse order, so what comes later stands in front
  let later := l.count - number
  { l with tokens := l.tokens.take later ++ t :: l.tokens.drop later, count := l.count + 1 }

def skip (l : Lexer) (n : Nat) : Lexer := { l with cursor := l.cursor.advance n }

/-! ## Candidates for keys -/

/-- The longest distance between a key and its colon, in octets. -/
def maxKeyLength : Nat := 1024

/-- Is the candidate too far back to be a key: on another line, or too many octets away? -/
def isStale (cursor : Cursor) (c : Candidate) : Bool :=
  c.line < cursor.line || c.index + maxKeyLength < cursor.index

/-- The innermost candidate, unless it is too far back. -/
def candidate? (l : Lexer) : Option Candidate :=
  let innermost := match l.inner with
    | c :: _ => c
    | [] => l.candidate
  innermost.filter fun c => !isStale l.cursor c

/-- Replaces the innermost candidate. -/
def setCandidate (l : Lexer) (c : Option Candidate) : Lexer :=
  match l.inner with
  | _ :: inner => { l with inner := c :: inner }
  | [] => { l with candidate := c }

/-- Gives up the innermost candidate, unless it is required. -/
def dropCandidate? (l : Lexer) : Option Lexer :=
  if l.candidate?.any (·.required) then none else some (l.setCandidate none)

/-- Remembers that a key could start here. -/
def saveCandidate? (l : Lexer) : Option Lexer :=
  if l.keyAllowed then do
    let l ← l.dropCandidate?
    -- a line at the indentation of its block has to start with a key
    return l.setCandidate (some
      { required := !l.inFlow && l.indent == l.cursor.column, number := l.count,
        index := l.cursor.index, line := l.cursor.line, column := l.cursor.column })
  else some l

/-- Gives up a candidate that is too far back, unless it is required. Inside of brackets none is. -/
def dropStale? (l : Lexer) : Option Lexer :=
  match l.candidate with
  | some c =>
    if !isStale l.cursor c then some l
    else if c.required then none
    else some { l with candidate := none }
  | none => some l

/-! ## Indentation -/

/-- Ends the blocks that are indented deeper than `column`, of which the `outer` ones lie around the
innermost. -/
def unroll (column : Int) : (outer : List Int) → Lexer → Lexer
  | [], l => l
  | o :: outer, l =>
    if column < l.indent then unroll column outer { l.emit .blockEnd with indent := o, outer }
    else l

def unrollTo (l : Lexer) (column : Int) : Lexer :=
  if l.inFlow then l else unroll column l.outer l

/-- Starts a block at `column`, its token after the first `number` ones, unless one is open
there. -/
def roll (l : Lexer) (column number : Nat) (t : Token) : Lexer :=
  if l.inFlow || column ≤ l.indent then l
  else { l.insertAt number t with outer := l.indent :: l.outer, indent := column }

/-- Starts a block here. -/
def rollHere (l : Lexer) (t : Token) : Lexer := l.roll l.cursor.column l.count t

/-! ## White space -/

/-- The byte order mark, which may stand at the start of a line. -/
def isOrderMark (c : Char) : Bool := c.toNat == 0xFEFF

/-- The extent of the white space and comments at the start of the text, and whether a key may start
after them. A tab is white space only where no key may start, or inside of brackets; a byte order
mark takes a column, and is white space only in the first one. -/
def space (inFlow : Bool) : (keyAllowed inComment : Bool) → (column : Nat) → List Char → Nat × Bool
  | keyAllowed, _, _, [] => (0, keyAllowed)
  | keyAllowed, inComment, column, c :: rest =>
    let next (allowed comment : Bool) : Nat × Bool :=
      let (n, a) := space inFlow allowed comment (nextColumn column c) rest
      (n + 1, a)
    -- outside of brackets a new line may start with a key
    if isBreak c then next (keyAllowed || !inFlow) false
    else if inComment then next keyAllowed true
    else if c = ' ' || (c = '\t' && (inFlow || !keyAllowed)) then next keyAllowed false
    else if column = 0 && isOrderMark c then next keyAllowed false
    else if c = '#' then next keyAllowed true
    else (0, keyAllowed)

def skipSpace (l : Lexer) : Lexer :=
  let (n, keyAllowed) := space l.inFlow l.keyAllowed false l.cursor.column l.cursor.rest
  { l.skip n with keyAllowed }

/-! ## Tokens -/

/-- A token that ends all blocks: a directive or the mark of a document. -/
def atMargin? (l : Lexer) : Option Lexer := do
  let l ← (l.unrollTo (-1)).dropCandidate?
  return { l with keyAllowed := false }

def openFlow? (l : Lexer) (t : Token) : Option Lexer := do
  let l ← l.saveCandidate?
  let l := { l with inner := none :: l.inner, keyAllowed := true }
  return (l.skip 1).emit t

def closeFlow? (l : Lexer) (t : Token) : Option Lexer := do
  let l ← l.dropCandidate?
  return ({ l with inner := l.inner.tail, keyAllowed := false }.skip 1).emit t

def comma? (l : Lexer) : Option Lexer := do
  let l ← l.dropCandidate?
  return ({ l with keyAllowed := true }.skip 1).emit .comma

def entry? (l : Lexer) : Option Lexer := do
  if !l.inFlow && !l.keyAllowed then none
  let l ← (l.rollHere .sequenceStart).dropCandidate?
  return ({ l with keyAllowed := true }.skip 1).emit .entry

def key? (l : Lexer) : Option Lexer := do
  if !l.inFlow && !l.keyAllowed then none
  let l ← (l.rollHere .mappingStart).dropCandidate?
  return ({ l with keyAllowed := !l.inFlow }.skip 1).emit .key

def value? (l : Lexer) : Option Lexer :=
  match l.candidate? with
  -- the token of the key goes before the key, and that of the mapping before both
  | some c =>
    let l := ((l.insertAt c.number .key).roll c.column c.number .mappingStart).setCandidate none
    some (({ l with keyAllowed := false }.skip 1).emit .value)
  -- no key is written before the colon
  | none =>
    if !l.inFlow && !l.keyAllowed then none
    else
      let l := l.rollHere .mappingStart
      some (({ l with keyAllowed := !l.inFlow }.skip 1).emit .value)

/-- The name of an anchor or an alias, and its extent with the sign before it. -/
def anchorName? (s : List Char) : Option String :=
  let name := (s.drop 1).takeWhile isWord
  let rest := s.drop (1 + name.length)
  if name.isEmpty ||
    !(spaceFollows rest || nextOf ['?', ':', ',', ']', '}', '%', '@', '`'] rest) then
    none
  else some (String.ofList name)

/-- An anchor, an alias, a tag or a scalar on one line: a key may start with it, and none right
after it. -/
def plainToken? (l : Lexer) (t : Token) (extent : Nat) : Option Lexer := do
  let l ← l.saveCandidate?
  return ({ l with keyAllowed := false }.skip extent).emit t

/-! ## Tags and directives -/

/-- May the character stand for itself in an address? -/
def isAddress (wide : Bool) (c : Char) : Bool :=
  isWord c || (";/?:@&=+$.!~*'()".toList).contains c || (wide && [',', '[', ']'].contains c)

/-- The octet that two hexadecimal digits at the start of the text write. -/
def octet? (s : List Char) : Option UInt8 :=
  match s.take 2 with
  | [a, b] => do return UInt8.ofNat ((← hexValue? a) * 16 + (← hexValue? b))
  | _ => none

/-- How many octets have to follow the first one of a character. -/
def followers? (b : UInt8) : Option Nat :=
  if b < 0x80 then some 0
  else if b < 0xC0 then none
  else if b < 0xE0 then some 1
  else if b < 0xF0 then some 2
  else if b < 0xF8 then some 3
  else none

/-- How many octets are due after `b`, where `due` were due before it. -/
def dueAfter? (due : Nat) (b : UInt8) : Option Nat :=
  match due with
  | 0 => followers? b
  | n + 1 => if Utf8.within 0x80 0xBF b then some n else none

/-- The address at the start of the text, in octets, and its extent. An octet may be written as a
percent sign and two hexadecimal digits. Of the character so started `due` octets are due; the first
`skip` characters have been read. -/
def address? (wide : Bool) : (due skip : Nat) → List Char → Option (Tag × Nat)
  | due, _, [] => if due = 0 then some ([], 0) else none
  | due, skip + 1, _ :: rest => counted 1 (address? wide due skip rest)
  | due, 0, c :: rest =>
    if c = '%' then do
      let b ← octet? rest
      let (octets, n) ← address? wide (← dueAfter? due b) 2 rest
      return (b :: octets, n + 1)
    -- all octets of a character are escaped, one after the other
    else if due ≠ 0 then none
    else if isAddress wide c then do
      let (octets, n) ← address? wide 0 0 rest
      return (UInt8.ofNat c.toNat :: octets, n + 1)
    else some ([], 0)

/-- A part of a tag ends before the octet zero. -/
def untilZero (octets : Tag) : Tag := octets.takeWhile (· != 0)

/-- The handle of a tag: an exclamation mark, or a word between two of them. -/
def handleLength (s : List Char) : Nat :=
  let word := ((s.drop 1).takeWhile isWord).length
  if (s.drop (1 + word)).head? == some '!' then word + 2 else 1

/-- The tag at the start of the text: its handle, what follows the handle, and its extent. A lone
exclamation mark is a tag without a handle. -/
def tag? (inFlow : Bool) (s : List Char) : Option (Tag × Tag × Nat) := do
  let (handle, suffix, extent) ←
    -- the tag in full, as in `!<address>`
    if (s.drop 1).head? == some '<' then do
      let (suffix, n) ← address? true 0 0 (s.drop 2)
      if n = 0 || (s.drop (2 + n)).head? != some '>' then none
      else some ([], untilZero suffix, n + 3)
    else do
      let h := handleLength s
      let handle := Bytes.ofString (String.ofList (s.take h))
      let (address, n) ← address? false 0 0 (s.drop h)
      let suffix := untilZero address
      if 1 < h then
        if n = 0 then none else some (handle, suffix, h + n)
      else if suffix.isEmpty then some ([], handle, 1 + n)
      else some (handle, suffix, 1 + n)
  let rest := s.drop extent
  if spaceFollows rest || (inFlow && rest.head? == some ',') then some (handle, suffix, extent)
  else none

/-- The end of a directive: blanks, a comment, and the line break. -/
def directiveEnd? (s : List Char) : Option Nat := headerEnd? s

def blankLength (s : List Char) : Nat := (s.takeWhile isBlank).length

/-- A number of a version: one to nine digits. -/
def versionNumber? (s : List Char) : Option (Nat × Nat) :=
  let ds := s.takeWhile Char.isDigit
  if ds.isEmpty || 9 < ds.length then none
  else some (ds.foldl (fun n c => n * 10 + (c.toNat - '0'.toNat)) 0, ds.length)

/-- The directive at the start of the text and its extent. -/
def directive? (s : List Char) : Option (Token × Nat) := do
  let name := (s.drop 1).takeWhile isWord
  let rest := s.drop (1 + name.length)
  if !spaceFollows rest then none
  let b := blankLength rest
  let body := rest.drop b
  let (token, n) ←
    if name == "YAML".toList then do
      let (major, m) ← versionNumber? body
      if (body.drop m).head? != some '.' then none
      let (minor, k) ← versionNumber? (body.drop (m + 1))
      some (Token.version major minor, m + 1 + k)
    else if name == "TAG".toList then do
      if body.head? != some '!' then none
      let h := handleLength body
      let handle := Bytes.ofString (String.ofList (body.take h))
      let afterHandle := body.drop h
      let gap := blankLength afterHandle
      if gap = 0 || (h = 1 && afterHandle.head?.any isWord) then none
      let (address, n) ← address? true 0 0 (afterHandle.drop gap)
      if n = 0 || !spaceFollows (afterHandle.drop (gap + n)) then none
      some (Token.tagHandle handle (untilZero address), h + gap + n)
    else none
  let extent := 1 + name.length + b + n
  let tail ← directiveEnd? (s.drop extent)
  return (token, extent + tail)

/-! ## The next token -/

/-- May a plain scalar start here? -/
def startsPlain (inFlow : Bool) (c : Char) (rest : List Char) : Bool :=
  if c = '-' then !rest.head?.any isBlank
  else if c = '?' || c = ':' then !inFlow && !spaceFollows rest
  else !("-?:,[]\x7b\x7d#&*!|>'\"%@`".toList).contains c && !isBlank c

/-- A token that starts with `c`, after white space, with stale candidates given up and deeper
blocks ended. -/
def token? (l : Lexer) (c : Char) (rest : List Char) : Option Lexer :=
  let s := c :: rest
  let atStart := l.cursor.column == 0
  if atStart && c = '%' then do
    let l ← l.atMargin?
    let (t, n) ← directive? s
    return (l.skip n).emit t
  else if atStart && isDocumentMark s then do
    let l ← l.atMargin?
    return (l.skip 3).emit (if c = '-' then .documentStart else .documentEnd)
  else if c = '[' then l.openFlow? .openBracket
  else if c = '{' then l.openFlow? .openBrace
  else if c = ']' then l.closeFlow? .closeBracket
  else if c = '}' then l.closeFlow? .closeBrace
  else if c = ',' then l.comma?
  else if c = '-' && spaceFollows rest then l.entry?
  else if c = '?' && (l.inFlow || spaceFollows rest) then l.key?
  else if c = ':' && (l.inFlow || spaceFollows rest) then l.value?
  else if c = '*' then do
    let name ← anchorName? s
    l.plainToken? (.alias name) (1 + name.length)
  else if c = '&' then do
    let name ← anchorName? s
    l.plainToken? (.anchor name) (1 + name.length)
  else if c = '!' then do
    let (handle, suffix, n) ← tag? l.inFlow s
    l.plainToken? (.tag handle suffix) n
  else if (c = '|' || c = '>') && !l.inFlow then do
    -- a block of lines is no key
    let l ← l.dropCandidate?
    let (text, n) ← blockScalar (c = '>') l.indent rest
    let style := if c = '>' then Style.folded else .literal
    return ({ l with keyAllowed := true }.skip (1 + n)).emit (.scalar text style)
  else if c = '\'' || c = '"' then do
    let (text, n) ← quotedText c .empty (l.cursor.column + 1) 0 rest
    l.plainToken? (.scalar text .quoted) (1 + n)
  else if startsPlain l.inFlow c rest then do
    let l ← l.saveCandidate?
    let (f, n) ← plainText l.inFlow (l.indent + 1) .empty l.cursor.column s
    -- a key may follow if a line break comes after the scalar
    return ({ l with keyAllowed := f.breaks.isSome }.skip n).emit (.scalar f.result .plain)
  else none

/-- The end of the text. -/
def finish? (l : Lexer) : Option Lexer := do
  let l ← (l.unrollTo (-1)).dropCandidate?
  return { l with ended := true }

/-- One more token of the text, or nothing if there is none here. -/
def fetch? (l : Lexer) : Option Lexer := do
  let l ← l.skipSpace.dropStale?
  let l := l.unrollTo l.cursor.column
  match l.cursor.rest with
  | [] => l.finish?
  | c :: rest => l.token? c rest

/-- The tokens of the text, or the line on which there is none. The fuel is more than the characters
of the text, of which every token takes one at least. -/
def run : (fuel : Nat) → Lexer → Except Nat (List Token)
  | 0, l => .error l.cursor.line
  | fuel + 1, l =>
    match l.fetch? with
    | none => .error l.cursor.line
    | some l' => if l'.ended then .ok l'.tokens.reverse else run fuel l'

end Lexer

/-- The tokens of a document, or the line on which the text makes none. -/
def tokens (source : Bytes) : Except Nat (List Token) :=
  let chars := Utf8.decode source
  if chars.all isAllowed then
    let text := unifyBreaks chars
    (Lexer.start text).run (text.length + 1)
  -- the line of the first character that may not stand in a document
  else .error (Bytes.lineBreaks (Bytes.ofString (String.ofList (chars.takeWhile isAllowed))) + 1)

end SourceTidy.Yaml
