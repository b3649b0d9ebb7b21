import SourceTidy.Bytes
import SourceTidy.Utf8

/-! # Text of a YAML document

The characters that a document may hold, and the text of its scalars: plain, in quotes, or a block
of lines. A scalar that goes over several lines is folded: one line break becomes a space, and of
more than one the first is left out.

Each reader gives the text and how many characters it takes, or nothing if the scalar is malformed.
-/

namespace SourceTidy.Yaml

/-! ## Characters -/

/-- May the character stand in a document? -/
def isAllowed (c : Char) : Bool :=
  let n := c.toNat
  n == 0x09 || n == 0x0A || n == 0x0D || (0x20 ≤ n && n ≤ 0x7E) || n == 0x85 ||
    (0xA0 ≤ n && n ≤ 0xFFFD) || 0x10000 ≤ n

def isBlank (c : Char) : Bool := c == ' ' || c == '\t'

/-- A line break, after all the common ones have become a line feed. -/
def isBreak (c : Char) : Bool := c == '\n' || c.toNat == 0x2028 || c.toNat == 0x2029

/-- The text with a line feed for each carriage return, for one with a line feed after it, and for
the next-line character. -/
def unifyBreaks : List Char → List Char
  | [] => []
  | c :: rest =>
    if c = '\r' then
      (if rest.head? == some '\n' then unifyBreaks rest else '\n' :: unifyBreaks rest)
    else if c.toNat == 0x85 then '\n' :: unifyBreaks rest
    else c :: unifyBreaks rest

/-- Does white space follow, or the end? -/
def spaceFollows (s : List Char) : Bool := s.head?.all fun c => isBlank c || isBreak c

/-- Is the next character one of these? -/
def nextOf (cs : List Char) (s : List Char) : Bool := s.head?.any cs.contains

/-- Does one of the marks `---` and `...` stand here? -/
def isDocumentMark (s : List Char) : Bool :=
  (['-', '-', '-'].isPrefixOf s || ['.', '.', '.'].isPrefixOf s) && spaceFollows (s.drop 3)

/-- A letter or a digit, or one of two signs, as in the name of an anchor. -/
def isWord (c : Char) : Bool := c.isAlphanum || c == '_' || c == '-'

/-! ## Folding -/

/-- A text while it is folded. The lists are in reverse order. -/
structure Folding where
  text : List Char
  /-- Blanks after the text, which count only if more follows on the line. -/
  blanks : List Char
  /-- The first line break after the text, if it is kept, and the ones after it. -/
  breaks : Option (List Char × List Char)
deriving Repr

namespace Folding

def empty : Folding := ⟨[], [], none⟩

def blank (f : Folding) (c : Char) : Folding :=
  if f.breaks.isSome then f else { f with blanks := c :: f.blanks }

def lineBreak (f : Folding) (c : Char) : Folding :=
  match f.breaks with
  | none => { f with blanks := [], breaks := some ([c], []) }
  | some (first, more) => { f with breaks := some (first, c :: more) }

/-- The text with what stands between it and the next character. -/
def join (f : Folding) : Folding :=
  match f.breaks with
  | none => ⟨f.blanks ++ f.text, [], none⟩
  | some (first, more) =>
    if first == ['\n'] then ⟨(if more.isEmpty then [' '] else more) ++ f.text, [], none⟩
    else ⟨more ++ first ++ f.text, [], none⟩

def push (f : Folding) (c : Char) : Folding :=
  let g := f.join
  { g with text := c :: g.text }

/-- A line break that a backslash takes out. -/
def escapedBreak (f : Folding) : Folding := { f.join with breaks := some ([], []) }

/-- Is there something between the text and the next character? -/
def atGap (f : Folding) : Bool := f.breaks.isSome || !f.blanks.isEmpty

def result (f : Folding) : List Char := f.text.reverse

end Folding

/-- The column after a character. -/
def nextColumn (column : Nat) (c : Char) : Nat := if isBreak c then 0 else column + 1

/-! ## Scalars in quotes -/

def hexValue? (c : Char) : Option Nat :=
  if '0' ≤ c && c ≤ '9' then some (c.toNat - '0'.toNat)
  else if 'a' ≤ c && c ≤ 'f' then some (c.toNat - 'a'.toNat + 10)
  else if 'A' ≤ c && c ≤ 'F' then some (c.toNat - 'A'.toNat + 10)
  else none

/-- The character whose number has `n` hexadecimal digits at the start of the text. -/
def hexChar? (n : Nat) (s : List Char) : Option Char := do
  let digits ← (s.take n).mapM hexValue?
  if digits.length < n then none
  else
    let code := digits.foldl (fun v d => v * 16 + d) 0
    if code.isValidChar then some (Char.ofNat code) else none

/-- The characters that stand for one character after a backslash. -/
def simpleEscapes : List (Char × Nat) :=
  [('0', 0x00), ('a', 0x07), ('b', 0x08), ('t', 0x09), ('\t', 0x09), ('n', 0x0A), ('v', 0x0B),
   ('f', 0x0C), ('r', 0x0D), ('e', 0x1B), (' ', 0x20), ('"', 0x22), ('/', 0x2F), ('\\', 0x5C),
   ('N', 0x85), ('_', 0xA0), ('L', 0x2028), ('P', 0x2029)]

/-- The character of an escape, and the extent of the escape after its backslash. -/
def escape? : List Char → Option (Char × Nat)
  | [] => none
  | c :: rest =>
    if c = 'x' then (hexChar? 2 rest).map (·, 3)
    else if c = 'u' then (hexChar? 4 rest).map (·, 5)
    else if c = 'U' then (hexChar? 8 rest).map (·, 9)
    else (simpleEscapes.lookup c).map fun n => (Char.ofNat n, 1)

/-- Counts characters that were read before a result. -/
def counted {α : Type} (n : Nat) (r : Option (α × Nat)) : Option (α × Nat) :=
  r.map fun (a, m) => (a, m + n)

/-- The rest of a scalar in quotes, up to its closing quote; the first `skip` characters have been
read. -/
def quotedText (quote : Char) : Folding → Nat → Nat → List Char → Option (List Char × Nat)
  | _, _, _, [] => none
  | f, column, skip + 1, c :: rest => counted 1 (quotedText quote f (nextColumn column c) skip rest)
  | f, column, 0, c :: rest =>
    -- a document cannot end inside of quotes
    if column = 0 && isDocumentMark (c :: rest) then none
    else if isBlank c then counted 1 (quotedText quote (f.blank c) (column + 1) 0 rest)
    else if isBreak c then counted 1 (quotedText quote (f.lineBreak c) 0 0 rest)
    else if c = quote then
      if quote = '\'' && rest.head? == some '\'' then
        counted 1 (quotedText quote (f.push c) (column + 1) 1 rest)
      else some (f.join.result, 1)
    else if quote = '"' && c = '\\' then
      if rest.head?.any isBreak then counted 1 (quotedText quote f.escapedBreak (column + 1) 1 rest)
      else match escape? rest with
        | some (e, n) => counted 1 (quotedText quote (f.push e) (column + 1) n rest)
        | none => none
    else counted 1 (quotedText quote (f.push c) (column + 1) 0 rest)

/-! ## Plain scalars -/

/-- The rest of a plain scalar, the white space after it included. Inside of brackets it ends at a
bracket or a comma; outside of them at a line that is indented less than `indent`. -/
def plainText (inFlow : Bool) (indent : Int) : Folding → Nat → List Char → Option (Folding × Nat)
  | f, _, [] => some (f, 0)
  | f, column, c :: rest =>
    if isBlank c then
      -- a tab does not indent a line
      if c = '\t' && f.breaks.isSome && column < indent then none
      else counted 1 (plainText inFlow indent (f.blank c) (column + 1) rest)
    else if isBreak c then counted 1 (plainText inFlow indent (f.lineBreak c) 0 rest)
    else if f.atGap && (c = '#' || (column = 0 && isDocumentMark (c :: rest)) ||
        (!inFlow && column < indent)) then some (f, 0)
    -- in brackets such a colon is neither text nor the end of a key
    else if inFlow && c = ':' && nextOf [',', '?', '[', ']', '{', '}'] rest then none
    else if (c = ':' && spaceFollows rest) || (inFlow && [',', '[', ']', '{', '}'].contains c) then
      some (f, 0)
    else counted 1 (plainText inFlow indent (f.push c) (column + 1) rest)

/-! ## Blocks of lines -/

/-- What happens to the line breaks at the end of a block. -/
inductive Chomping where
  | strip
  | clip
  | keep
deriving DecidableEq, Repr

/-- The indicators of a block and how many characters they take. -/
structure BlockHeader where
  chomping : Chomping
  /-- The indentation of the block relative to the lines around it, if it is given. -/
  increment : Option Nat
  extent : Nat
deriving Repr

def chomping? (c : Char) : Option Chomping :=
  if c = '+' then some .keep else if c = '-' then some .strip else none

def digit? (c : Char) : Option Nat := if c.isDigit then some (c.toNat - '0'.toNat) else none

/-- The indicators at the start of the text, in either order. An indentation of zero is refused. -/
def blockHeader? (s : List Char) : Option BlockHeader :=
  let first := s.head?
  let second := s.tail.head?
  let header : BlockHeader :=
    match first.bind chomping?, first.bind digit? with
    | some ch, _ =>
      match second.bind digit? with
      | some d => ⟨ch, some d, 2⟩
      | none => ⟨ch, none, 1⟩
    | none, some d =>
      match second.bind chomping? with
      | some ch => ⟨ch, some d, 2⟩
      | none => ⟨.clip, some d, 1⟩
    | none, none => ⟨.clip, none, 0⟩
  if header.increment == some 0 then none else some header

/-- The end of the line of the indicators: blanks, a comment, and the line break. -/
def headerEnd? (s : List Char) : Option Nat :=
  let blanks := (s.takeWhile isBlank).length
  let rest := s.drop blanks
  let comment := if rest.head? == some '#' then (rest.takeWhile fun c => !isBreak c).length else 0
  match rest.drop comment with
  | [] => some (blanks + comment)
  | c :: _ => if isBreak c then some (blanks + comment + 1) else none

/-- The white space before a line of a block. -/
structure Margin where
  extent : Nat
  /-- The column of the line. -/
  column : Nat
  /-- The largest column seen. -/
  widest : Nat
  breaks : List Char
deriving Repr

/-- Reads empty lines and indentation up to column `indent`, or all of it where `indent` is zero. -/
def margin (indent column widest : Nat) : List Char → Option Margin
  | [] => some ⟨0, column, max widest column, []⟩
  | c :: rest =>
    if (indent = 0 || column < indent) && c = ' ' then
      (margin indent (column + 1) widest rest).map fun m => { m with extent := m.extent + 1 }
    else if (indent = 0 || column < indent) && c = '\t' then none
    else if isBreak c then
      (margin indent 0 (max widest column) rest).map fun m =>
        { m with extent := m.extent + 1, breaks := c :: m.breaks }
    else some ⟨0, column, max widest column, []⟩

/-- A block while its lines are read. The text is in reverse order. -/
structure BlockText where
  text : List Char
  lineBreak : List Char
  emptyLines : List Char
  /-- The last line started with a blank. -/
  afterBlank : Bool
deriving Repr

/-- Joins one more line to a block. A folded block keeps the breaks around lines that start with a
blank. -/
def BlockText.line (b : BlockText) (folded : Bool) (line : List Char) : BlockText :=
  let startsBlank := line.head?.any isBlank
  let gap :=
    if folded && b.lineBreak == ['\n'] && !b.afterBlank && !startsBlank then
      (if b.emptyLines.isEmpty then [' '] else [])
    else b.lineBreak
  { text := line.reverse ++ b.emptyLines.reverse ++ gap ++ b.text,
    lineBreak := [], emptyLines := [], afterBlank := startsBlank }

/-- The lines of a block from column `indent` of one of them on; the first `skip` characters have
been read. -/
def blockLines (indent : Nat) (folded : Bool) : BlockText → Nat → List Char →
    Option (BlockText × Nat)
  | b, _, [] => some (b, 0)
  | b, skip + 1, _ :: rest => counted 1 (blockLines indent folded b skip rest)
  | b, 0, c :: rest =>
    let line := (c :: rest).takeWhile fun c => !isBreak c
    let afterLine := (c :: rest).drop line.length
    let lineBreak := afterLine.take 1
    match margin indent 0 0 (afterLine.drop 1) with
    | none => none
    | some m =>
      let b' := { b.line folded line with lineBreak, emptyLines := m.breaks }
      let taken := line.length + lineBreak.length + m.extent
      if m.column = indent && lineBreak.length = 1 then
        counted 1 (blockLines indent folded b' (taken - 1) rest)
      else some (b', taken)

/-- The text of a block and its extent after the indicator; `outer` is the indentation of the lines
around it, less than zero at the top. -/
def blockScalar (folded : Bool) (outer : Int) (s : List Char) : Option (List Char × Nat) := do
  let header ← blockHeader? s
  let lineEnd ← headerEnd? (s.drop header.extent)
  let start := header.extent + lineEnd
  let given := match header.increment with
    | some n => (if 0 ≤ outer then outer.toNat else 0) + n
    | none => 0
  let m ← margin given 0 0 (s.drop start)
  -- where no indentation is given, the lines before the text tell it
  let indent := if given = 0 then max (max m.widest (outer + 1).toNat) 1 else given
  let first : BlockText := ⟨[], [], m.breaks, false⟩
  let (b, n) ←
    if m.column = indent then blockLines indent folded first 0 (s.drop (start + m.extent))
    else some (first, 0)
  let tail := match header.chomping with
    | .strip => []
    | .clip => b.lineBreak
    | .keep => b.lineBreak ++ b.emptyLines
  return (b.text.reverse ++ tail, start + m.extent + n)

end SourceTidy.Yaml
