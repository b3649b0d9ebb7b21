import SourceTidy.Toml.Value

/-! # TOML strings and keys

A string stands in double quotes, where a backslash starts an escape, or in single quotes, where
nothing is escaped. Three quotes open a string of several lines. Each reader gives the text and how
many characters it takes.
-/

namespace SourceTidy.Toml

/-- A piece of text and how many characters of the document it takes. -/
structure Reading where
  text : List Char
  extent : Nat
deriving DecidableEq, Repr

/-- The reading with `taken` more characters before it, which stand for `text`. -/
def Reading.before (text : List Char) (taken : Nat) (r : Reading) : Reading :=
  ⟨text ++ r.text, taken + r.extent⟩

/-- A control character other than the tab. -/
def isForbidden (c : Char) : Bool := (c.toNat < 0x20 && c != '\t') || c.toNat == 0x7F

def isBlank (c : Char) : Bool := c == ' ' || c == '\t'

/-- The length of the line break at the start of the text. -/
def lineBreak? : List Char → Option Nat
  | '\n' :: _ => some 1
  | '\r' :: '\n' :: _ => some 2
  | _ => none

/-! ## Escapes -/

def hexValue? (c : Char) : Option Nat :=
  if '0' ≤ c && c ≤ '9' then some (c.toNat - '0'.toNat)
  else if 'a' ≤ c && c ≤ 'f' then some (c.toNat - 'a'.toNat + 10)
  else if 'A' ≤ c && c ≤ 'F' then some (c.toNat - 'A'.toNat + 10)
  else none

/-- The character whose number has `n` hexadecimal digits at the start of the text. -/
def hexChar? (n : Nat) (s : List Char) : Option Char := do
  let digits ← (s.take n).mapM hexValue?
  if digits.length < n then none
  else
    let code := digits.foldl (fun v d => v * 16 + d) 0
    if code.isValidChar then some (Char.ofNat code) else none

/-- The character of an escape, and the extent of the escape after its backslash. -/
def escape? : List Char → Option (Char × Nat)
  | [] => none
  | c :: rest =>
    match c with
    | 'b' => some (Char.ofNat 0x08, 1)
    | 't' => some ('\t', 1)
    | 'n' => some ('\n', 1)
    | 'f' => some (Char.ofNat 0x0C, 1)
    | 'r' => some ('\r', 1)
    | 'e' => some (Char.ofNat 0x1B, 1)
    | '"' => some ('"', 1)
    | '\\' => some ('\\', 1)
    | 'x' => (hexChar? 2 rest).map (·, 3)
    | 'u' => (hexChar? 4 rest).map (·, 5)
    | 'U' => (hexChar? 8 rest).map (·, 9)
    | _ => none

/-- The length of the white space at the start of the text, line breaks included. -/
def spaceLength : List Char → Nat
  | [] => 0
  | c :: rest =>
    if isBlank c || c = '\n' || (c = '\r' && rest.head? == some '\n') then spaceLength rest + 1
    else 0

/-- The extent of the white space that a backslash before it takes out of a string, if it reaches
the end of the line. -/
def foldedSpace? (s : List Char) : Option Nat :=
  if (lineBreak? (s.dropWhile isBlank)).isSome then some (spaceLength s) else none

/-! ## Strings -/

/-- The text of a string on one line and its extent, closing quote included; the first `skip`
characters belong to an escape that has been read. -/
def basicString : Nat → List Char → Option Reading
  | _, [] => none
  | skip + 1, _ :: rest => (basicString skip rest).map (Reading.before [] 1)
  | 0, c :: rest =>
    if c = '"' then some ⟨[], 1⟩
    else if c = '\\' then
      match escape? rest with
      | some (e, n) => (basicString n rest).map (Reading.before [e] 1)
      | none => none
    else if isForbidden c then none
    else (basicString 0 rest).map (Reading.before [c] 1)

/-- The text of a string without escapes on one line. -/
def literalString : List Char → Option Reading
  | [] => none
  | c :: rest =>
    if c = '\'' then some ⟨[], 1⟩
    else if isForbidden c then none
    else (literalString rest).map (Reading.before [c] 1)

/-- The end of a string of several lines, if three quotes stand at the start of the text. Up to two
more quotes belong to the string. -/
def closingQuotes? (quote : Char) (s : List Char) : Option Reading :=
  let run := min 5 (s.takeWhile (· == quote)).length
  if run < 3 then none else some ⟨List.replicate (run - 3) quote, run⟩

/-- The text of a string of several lines; `escapes` tells whether a backslash starts an escape. -/
def multilineString (quote : Char) (escapes : Bool) : Nat → List Char → Option Reading
  | _, [] => none
  | skip + 1, _ :: rest => (multilineString quote escapes skip rest).map (Reading.before [] 1)
  | 0, c :: rest =>
    match closingQuotes? quote (c :: rest) with
    | some r => some r
    | none =>
      if escapes && c = '\\' then
        match foldedSpace? rest, escape? rest with
        | some n, _ => (multilineString quote escapes n rest).map (Reading.before [] 1)
        | none, some (e, n) => (multilineString quote escapes n rest).map (Reading.before [e] 1)
        | none, none => none
      else if c = '\n' || (c = '\r' && rest.head? == some '\n') then
        (multilineString quote escapes 0 rest).map (Reading.before [c] 1)
      else if isForbidden c then none
      else (multilineString quote escapes 0 rest).map (Reading.before [c] 1)

/-- A string of several lines after its opening quotes; a line break right after them is left
out. -/
def openedMultiline (quote : Char) (escapes : Bool) (s : List Char) : Option Reading :=
  let skip := (lineBreak? s).getD 0
  (multilineString quote escapes 0 (s.drop skip)).map (Reading.before [] (3 + skip))

/-- The string at the start of the text, if a quote stands there. -/
def string? (s : List Char) : Option (Option Reading) :=
  match s with
  | '"' :: '"' :: '"' :: rest => some (openedMultiline '"' true rest)
  | '\'' :: '\'' :: '\'' :: rest => some (openedMultiline '\'' false rest)
  | '"' :: rest => some ((basicString 0 rest).map (Reading.before [] 1))
  | '\'' :: rest => some ((literalString rest).map (Reading.before [] 1))
  | _ => none

/-! ## Keys -/

/-- May the character stand in a key without quotes? -/
def isBareKey (c : Char) : Bool := c.isAlphanum || c == '_' || c == '-'

/-- One part of a key. -/
def key? (s : List Char) : Option Reading :=
  match s with
  | '"' :: rest => (basicString 0 rest).map (Reading.before [] 1)
  | '\'' :: rest => (literalString rest).map (Reading.before [] 1)
  | _ =>
    let bare := s.takeWhile isBareKey
    if bare.isEmpty then none else some ⟨bare, bare.length⟩

end SourceTidy.Toml
