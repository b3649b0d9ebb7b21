import SourceTidy.Bytes

/-! # How far a PHP lexeme reaches

Each function here looks at the rest of a source and says how many octets the lexeme at its start
takes. An extent may be larger than what is left: a construct that is not closed takes the rest of
the source. Nothing is cut here, so no function can lose or reorder text.
-/

namespace SourceTidy.Php

open Ascii Bytes

/-- May the octet start an identifier? Every octet of a non-ASCII character may. -/
def isIdentStart (b : UInt8) : Bool := isLetter b || b == underscore || 0x80 ≤ b

/-- May the octet stand in an identifier? -/
def isIdent (b : UInt8) : Bool := isIdentStart b || isDigit b

/-- May the octet stand in a name with its variable sign and namespace separators? -/
def isName (b : UInt8) : Bool := isIdent b || b == dollar || b == backslash

/-! ## Tags -/

/-- The one white space character that an open tag takes with it; a line break of two octets
counts as one. -/
def tagSpacing (s : Bytes) : Nat :=
  if (ascii "\r\n").isPrefixOf s then 2
  else if nextIn isTagSpacing s then 1
  else 0

/-- The extent of an open tag at the start of `s`, if one stands there. -/
def openTag? (s : Bytes) : Option Nat :=
  if (ascii "<?=").isPrefixOf s then some 3
  else if (ascii "<?php").isPrefixOf ((s.take 5).map toLower) &&
      ((s.drop 5).isEmpty || nextIn isTagSpacing (s.drop 5)) then
    some (5 + tagSpacing (s.drop 5))
  -- unlike the long tag, the short one is none at the end of the text
  else if (ascii "<?").isPrefixOf s && nextIn isTagSpacing (s.drop 2) then
    some (2 + tagSpacing (s.drop 2))
  else none

/-- The text before the first open tag, and the extent of that tag. -/
def findOpenTag : Bytes → Nat × Option Nat
  | [] => (0, none)
  | b :: rest =>
    match openTag? (b :: rest) with
    | some n => (0, some n)
    | none =>
      let (before, tag) := findOpenTag rest
      (before + 1, tag)

/-- The extent of the closing tag at the start of `s`, with the line break right after it. -/
def closeTag (s : Bytes) : Nat := 2 + ((lineBreakLength (s.drop 2)).getD 0)

/-! ## Comments -/

/-- The extent of a line comment: it ends before a line break and, outside of an interpolation,
before a closing tag. -/
def lineComment (nested : Bool) : Bytes → Nat
  | [] => 0
  | b :: rest =>
    if b = lf || (b = cr && nextIs lf rest) ||
        (!nested && b = question && nextIs greater rest) then 0
    else lineComment nested rest + 1

/-- The octets up to the end of the first `*/`, or all. -/
def untilCommentEnd : Bytes → Nat
  | [] => 0
  | b :: rest => if b = star && nextIs slash rest then 2 else untilCommentEnd rest + 1

/-- The extent of a block comment. -/
def blockComment (s : Bytes) : Nat := 2 + untilCommentEnd (s.drop 2)

/-! ## Quoted literals -/

/-- The octets up to the quote that ends a literal, a backslash taking the octet after it along;
`s` starts after the opening quote. -/
def untilQuote (quote : UInt8) : Bytes → Nat
  | [] => 0
  | b :: rest =>
    if b = quote then 1
    else if b = backslash then
      match rest with
      | [] => 1
      | _ :: rest' => untilQuote quote rest' + 2
    else untilQuote quote rest + 1

/-- The extent of a literal in single quotes. -/
def singleQuoted (s : Bytes) : Nat := 1 + untilQuote singleQuote (s.drop 1)

/-- Does an interpolation start here: `$name`, `${` or `{$`? -/
def startsInterpolation : Bytes → Bool
  | [] => false
  | b :: rest =>
    if b = dollar then nextIn isIdentStart rest || nextIs openBrace rest
    else b = openBrace && nextIs dollar rest

/-- The octets up to the quote that ends a literal, or nothing if an interpolation comes before
it; `s` starts after the opening quote. -/
def plainUntilQuote? : Bytes → Option Nat
  | [] => some 0
  | b :: rest =>
    if b = backslash then
      match rest with
      | [] => some 1
      | _ :: rest' => (plainUntilQuote? rest').map (· + 2)
    else if b = doubleQuote then some 1
    else if startsInterpolation (b :: rest) then none
    else (plainUntilQuote? rest).map (· + 1)

/-- The extent of a literal in double quotes that has no interpolation. -/
def doubleQuoted? (s : Bytes) : Option Nat := (plainUntilQuote? (s.drop 1)).map (· + 1)

/-! ## Here documents -/

/-- The extent of a label that closes a here document, at the start of a line: blanks, the label,
and no more of an identifier. -/
def closingLabel? (label s : Bytes) : Option Nat :=
  let blanks := runLength isBlank s
  let rest := s.drop blanks
  if label.isPrefixOf rest && !nextIn isIdent (rest.drop label.length) then
    some (blanks + label.length)
  else none

/-- The opener of a here document. -/
structure HeredocOpener where
  /-- How far it reaches, its line break included. -/
  extent : Nat
  label : Bytes
  /-- The label stands in single quotes: nothing is interpolated. -/
  raw : Bool
deriving DecidableEq, Repr

/-- The opener at the start of `s`, which starts with `<<<`: blanks, a label, optionally in one
pair of quotes, and the end of the line. -/
def heredocOpener? (s : Bytes) : Option HeredocOpener :=
  let blanks := runLength isBlank (s.drop 3)
  let afterBlanks := s.drop (3 + blanks)
  let quote := afterBlanks.head?.filter fun b => b == singleQuote || b == doubleQuote
  let quoteWidth := if quote.isSome then 1 else 0
  let labelText := afterBlanks.drop quoteWidth
  let label := labelText.takeWhile isIdent
  let afterLabel := labelText.drop label.length
  if !nextIn isIdentStart labelText then none
  -- the quote that closes the label is the one that opened it
  else if quote.isSome && afterLabel.head? != quote then none
  else match lineBreakLength (afterLabel.drop quoteWidth) with
    | none => none
    | some n =>
      some { extent := 3 + blanks + quoteWidth + label.length + quoteWidth + n,
             label, raw := quote == some singleQuote }

/-- The body of a raw here document and the extent of its closing label. The label is looked for
at the start of each line only; `lineStart` tells whether `s` is one. -/
def nowdocBody (label : Bytes) : Bool → Bytes → Nat × Nat
  | lineStart, s =>
    match if lineStart then closingLabel? label s else none with
    | some n => (0, n)
    | none =>
      match s with
      | [] => (0, 0)
      | b :: rest =>
        let (body, n) := nowdocBody label (b = lf) rest
        (body + 1, n)

/-! ## Interpolating text -/

/-- What ends an interpolating text. -/
inductive Closer where
  | quote (byte : UInt8)
  | label (name : Bytes)
deriving DecidableEq, Repr

/-- The extent of the closing delimiter at the start of `s`, if it stands there. -/
def Closer.at? (closer : Closer) (lineStart : Bool) (s : Bytes) : Option Nat :=
  match closer with
  | .quote q => if nextIs q s then some 1 else none
  | .label name => if lineStart then closingLabel? name s else none

/-- What follows a run of literal text. -/
inductive SegmentEnd where
  /-- The closing delimiter, with its extent. -/
  | closed (extent : Nat)
  | interpolation
  /-- The source ends inside the literal. -/
  | input
deriving DecidableEq, Repr

/-- The run of literal text at the start of `s` and what follows it. A backslash takes the octet
after it along. -/
def segment (closer : Closer) : Bool → Bytes → Nat × SegmentEnd
  | _, [] => (0, .input)
  | lineStart, b :: rest =>
    match closer.at? lineStart (b :: rest) with
    | some n => (0, .closed n)
    | none =>
      if b = backslash then
        match rest with
        | [] => (1, .input)
        | c :: rest' =>
          -- a line starts after an escaped line feed too
          let (n, e) := segment closer (c = lf) rest'
          (n + 2, e)
      else if startsInterpolation (b :: rest) then (0, .interpolation)
      else
        let (n, e) := segment closer (b = lf) rest
        (n + 1, e)

/-- The extent of the opener of an interpolation in braces, `{` or `${`. -/
def braceOpener? (s : Bytes) : Option Nat :=
  if nextIs openBrace s then some 1
  else if nextIs openBrace (s.drop 1) then some 2
  else none

/-- The extent of a subscript in an interpolation, if it is closed before a quote and before the
end of the line. -/
def subscript (s : Bytes) : Nat :=
  let inside := s.takeWhile fun b => !(b == closeBracket || b == doubleQuote || b == lf)
  if nextIs closeBracket (s.drop inside.length) then inside.length + 1 else 0

/-- The extent of an interpolated variable with one subscript or one property. -/
def simpleVariable (s : Bytes) : Nat :=
  let name := 1 + runLength isIdent (s.drop 1)
  let rest := s.drop name
  if nextIs openBracket rest then name + subscript rest
  else if (ascii "->").isPrefixOf rest && nextIn isIdentStart (rest.drop 2) then
    name + 2 + runLength isIdent (rest.drop 2)
  else name

end SourceTidy.Php
