/-! # File contents as byte strings

A file is a list of octets. Every scanner of the library reads such a list from the front, so
its recursion follows the data and what it has not read yet is always a suffix of the file.

* `Ascii`: the octets that carry meaning for a scanner, by name, and their classes;
* `Bytes.lineBreaks`: how many line feeds a text holds; the line of a position is one more than
  the line breaks before it;
* `Bytes.trimEnd`: a text without the blanks and line breaks at its end;
* `Bytes.lines`: a text cut at its line feeds.
-/

namespace SourceTidy

/-- The content of a file, or a part of it. -/
abbrev Bytes := List UInt8

namespace Ascii

abbrev nul : UInt8 := 0x00
abbrev tab : UInt8 := 0x09
abbrev lf : UInt8 := 0x0A
abbrev vt : UInt8 := 0x0B
abbrev ff : UInt8 := 0x0C
abbrev cr : UInt8 := 0x0D
abbrev space : UInt8 := 0x20
abbrev doubleQuote : UInt8 := 0x22
abbrev hash : UInt8 := 0x23
abbrev dollar : UInt8 := 0x24
abbrev singleQuote : UInt8 := 0x27
abbrev openParen : UInt8 := 0x28
abbrev closeParen : UInt8 := 0x29
abbrev star : UInt8 := 0x2A
abbrev plus : UInt8 := 0x2B
abbrev comma : UInt8 := 0x2C
abbrev dash : UInt8 := 0x2D
abbrev dot : UInt8 := 0x2E
abbrev slash : UInt8 := 0x2F
abbrev zero : UInt8 := 0x30
abbrev nine : UInt8 := 0x39
abbrev colon : UInt8 := 0x3A
abbrev less : UInt8 := 0x3C
abbrev equals : UInt8 := 0x3D
abbrev greater : UInt8 := 0x3E
abbrev question : UInt8 := 0x3F
abbrev openBracket : UInt8 := 0x5B
abbrev backslash : UInt8 := 0x5C
abbrev closeBracket : UInt8 := 0x5D
abbrev underscore : UInt8 := 0x5F
abbrev backtick : UInt8 := 0x60
abbrev openBrace : UInt8 := 0x7B
abbrev closeBrace : UInt8 := 0x7D

/-- A space or a tab. -/
def isBlank (b : UInt8) : Bool := b == space || b == tab

/-- Space, tab, carriage return or line feed. -/
def isSpacing (b : UInt8) : Bool := isBlank b || b == cr || b == lf

/-- The octets that may follow an opening tag of a script: spacing and the form feed. -/
def isTagSpacing (b : UInt8) : Bool := isSpacing b || b == ff

def isDigit (b : UInt8) : Bool := zero ≤ b && b ≤ nine

def isUpper (b : UInt8) : Bool := 0x41 ≤ b && b ≤ 0x5A

def isLower (b : UInt8) : Bool := 0x61 ≤ b && b ≤ 0x7A

def isLetter (b : UInt8) : Bool := isUpper b || isLower b

/-- A letter, a digit or the underscore. -/
def isWord (b : UInt8) : Bool := isLetter b || isDigit b || b == underscore

/-- A letter in lower case; every other octet as it is. -/
def toLower (b : UInt8) : UInt8 := if isUpper b then b + 0x20 else b

end Ascii

namespace Bytes

open Ascii

/-- The octets of an ASCII text. -/
def ascii (s : String) : Bytes := s.toList.map Char.toUInt8

/-- The octets of a text in UTF-8. -/
def ofString (s : String) : Bytes := s.toUTF8.data.toList

/-- How many line feeds the text holds. -/
def lineBreaks (s : Bytes) : Nat := s.count lf

/-- Is `b` the first octet? At the end of the text nothing is. -/
def nextIs (b : UInt8) (s : Bytes) : Bool := s.head? == some b

/-- Is there a first octet, and is it in class `p`? -/
def nextIn (p : UInt8 → Bool) (s : Bytes) : Bool := s.head?.any p

/-- The length of the longest run of octets in class `p` at the start. -/
def runLength (p : UInt8 → Bool) (s : Bytes) : Nat := (s.takeWhile p).length

/-- The offset of the first occurrence of `p`. -/
def indexOf? (p : Bytes) : Bytes → Option Nat
  | [] => if p.isEmpty then some 0 else none
  | b :: rest => if p.isPrefixOf (b :: rest) then some 0 else (indexOf? p rest).map (· + 1)

/-- What `trimEnd` takes off: blanks, line breaks, the null octet and the vertical tab. -/
def isPadding (b : UInt8) : Bool := isSpacing b || b == nul || b == vt

/-- The text without the padding at its end. -/
def trimEnd (s : Bytes) : Bytes := (s.reverse.dropWhile isPadding).reverse

/-- The pieces between line feeds, the line feeds left out; the empty text is one empty line. -/
def lines : Bytes → List Bytes
  | [] => [[]]
  | b :: rest =>
    if b = lf then [] :: lines rest
    else match lines rest with
      | [] => [[b]]
      | line :: more => (b :: line) :: more

/-- The length of the line break (a line feed, with or without a carriage return before it) at the
start of the text. -/
def lineBreakLength : Bytes → Option Nat
  | [] => none
  | b :: rest =>
    if b = lf then some 1
    else if b = cr && nextIs lf rest then some 2
    else none

end Bytes

end SourceTidy
