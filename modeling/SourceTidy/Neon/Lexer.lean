import SourceTidy.Neon.Token

/-! # The NEON lexer

Blank lines and comments leave no token. Every other line starts with a `newline` token that carries
its indentation; the whole document is indented by tabs or by spaces, not by both.

* `lexeme`: the symbol at the start of a text, if it makes one, and how far it reaches;
* `lex`: the tokens of a document.
-/

namespace SourceTidy.Neon

open Ascii Bytes

/-- Does white space follow, or nothing? -/
def spaceFollows (s : Bytes) : Bool := s.isEmpty || nextIn isSpacing s

/-- Does a colon before `s` separate a key from its value: white space follows, or nothing, or
what ends an item? -/
def valueFollows (s : Bytes) : Bool :=
  spaceFollows s ||
    nextIn (fun b => b == comma || b == closeBracket || b == closeBrace || b == closeParen) s

/-- The octets that may stand after a backslash in double quotes. -/
def escapes : Bytes := ascii "tnrfb\"\\/_ux"

/-- The length of the body of a quoted string on one line; `s` starts after the opening quote. In
single quotes a quote is written twice, in double quotes after a backslash. -/
def quotedBody (quote : UInt8) : Bytes → Except Problem Nat
  | [] => .error .unterminatedString
  | b :: rest =>
    if b = lf then .error .unterminatedString
    else if b = backslash && quote = doubleQuote then
      match rest with
      | [] => .error (.invalidEscape [backslash])
      | c :: rest' =>
        if escapes.contains c then (quotedBody quote rest').map (· + 2)
        -- the first octet of a longer character is not told by itself
        else .error (.invalidEscape (if c < 0x80 then [backslash, c] else [backslash]))
    else if b = quote then
      match rest with
      | c :: rest' =>
        if quote = singleQuote && c = singleQuote then (quotedBody quote rest').map (· + 2)
        else .ok 0
      | [] => .ok 0
    else (quotedBody quote rest).map (· + 1)

/-- The text of a quoted string and how far it reaches; `s` starts with the opening quote. Three
quotes open a string of several lines, which ends at the next three. -/
def quotedString (quote : UInt8) (s : Bytes) : Except Problem (Bytes × Nat) :=
  if [quote, quote, quote].isPrefixOf s then
    match indexOf? [quote, quote, quote] (s.drop 3) with
    | some n => .ok ((s.drop 3).take n, n + 6)
    | none => .error (.missingQuotes quote)
  else
    (quotedBody quote (s.drop 1)).map fun n => ((s.drop 1).take n, n + 2)

/-- Does the octet end a literal wherever it stands? -/
def stopsLiteral (b : UInt8) : Bool :=
  b == lf || b == comma || b == equals || b == openBracket || b == closeBracket ||
    b == openBrace || b == closeBrace || b == openParen || b == closeParen

/-- May the octet stand inside of a literal, but not at its end? -/
def isInnerBlank (b : UInt8) : Bool := isBlank b || b == cr

/-- How much of `s` belongs to a literal that has begun before it, and whether blanks before `s`
end that literal. Blanks belong to a literal only if more of it follows. -/
def literalRest : Bytes → Nat × Bool
  | [] => (0, true)
  | b :: rest =>
    if stopsLiteral b || (b = colon && valueFollows rest) then (0, true)
    else
      let (n, ends) := literalRest rest
      if isInnerBlank b then (if ends then (0, true) else (n + 1, false))
      -- a hash sign after blanks starts a comment
      else (n + 1, b = hash)

/-- The symbol that the octet makes by itself, given what follows it. -/
def punctuation? (b : UInt8) (rest : Bytes) : Option Symbol :=
  if b = comma then some .comma
  else if b = equals then some .equals
  else if b = openBracket then some (.opening .square)
  else if b = openBrace then some (.opening .curly)
  else if b = openParen then some (.opening .round)
  else if b = closeBracket then some (.closing .square)
  else if b = closeBrace then some (.closing .curly)
  else if b = closeParen then some (.closing .round)
  else if b = dash && spaceFollows rest then some .dash
  else if b = colon && valueFollows rest then some .colon
  else none

/-- The symbol at the start of a text inside of a line, if it makes one, and how far it reaches. -/
def lexeme (b : UInt8) (rest : Bytes) : Except Problem (Option Symbol × Nat) :=
  match punctuation? b rest with
  | some symbol => .ok (some symbol, 1)
  | none =>
    if isInnerBlank b then .ok (none, 1)
    else if b = hash then .ok (none, 1 + runLength (· != lf) rest)
    else if b = singleQuote || b = doubleQuote then
      (quotedString b (b :: rest)).map fun (text, n) => (some (.scalar text), n)
    else
      let n := (literalRest (b :: rest)).1
      .ok (some (.scalar ((b :: rest).take n)), n)

/-- The indentation of the line that `s` starts with, unless the line is blank or a comment. -/
def entryIndent? (s : Bytes) : Option Bytes :=
  let indent := s.takeWhile isBlank
  let isVacant := match s.drop indent.length with
    | [] => true
    -- a carriage return at the end of the line is part of the line break
    | b :: rest => b = lf || b = hash || (b = cr && (rest.isEmpty || nextIs lf rest))
  if isVacant then none else some indent

/-- The octet that indents the document, after one more indentation, unless that one has another
octet too. -/
def agreeIndent? (unit : Option UInt8) (indent : Bytes) : Option (Option UInt8) :=
  match unit.or indent.head? with
  | none => some none
  | some u => if indent.all (· == u) then some (some u) else none

/-- The token for the start of a line, if the line has one, and the octet that indents the document
from there on. -/
def startLine (unit : Option UInt8) (line : Nat) (s : Bytes) :
    Except Fault (List Token × Option UInt8) :=
  match entryIndent? s with
  | none => .ok ([], unit)
  | some indent =>
    match agreeIndent? unit indent with
    | none => .error ⟨.mixedIndentation, line⟩
    | some unit' => .ok ([⟨.newline indent, line⟩], unit')

/-- The tokens of a text whose first `skip` octets belong to the token before; `line` is the line
that the octets after them are on. -/
def lexFrom (unit : Option UInt8) (line : Nat) : Nat → Bytes → Except Fault (List Token)
  | _, [] => .ok []
  | skip + 1, _ :: rest => lexFrom unit line skip rest
  | 0, b :: rest =>
    if b = lf then
      match startLine unit (line + 1) rest with
      | .error fault => .error fault
      | .ok (tokens, unit') => (lexFrom unit' (line + 1) 0 rest).map (tokens ++ ·)
    else
      match lexeme b rest with
      | .error problem => .error ⟨problem, line⟩
      | .ok (symbol?, n) =>
        let tokens := symbol?.toList.map (Token.mk · line)
        -- only strings of several lines have line breaks in them
        let passed := lineBreaks ((b :: rest).take n)
        (lexFrom unit (line + passed) (n - 1) rest).map (tokens ++ ·)

/-- The tokens of a document. -/
def lex (source : Bytes) : Except Fault (List Token) :=
  match startLine none 1 source with
  | .error fault => .error fault
  | .ok (tokens, unit) => (lexFrom unit 1 0 source).map (tokens ++ ·)

end SourceTidy.Neon
