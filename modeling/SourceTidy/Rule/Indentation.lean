import SourceTidy.Rule.Php

/-! # Indentation

Lines are indented by tabs, and tabs stand at the start of a line only. The literals of a PHP file
may hold any blanks, so these are left out first; line breaks in them stay, which keeps the numbers
of the lines.
-/

namespace SourceTidy.Rule

open Ascii Bytes

/-- The blanks that are left out of a literal. -/
def isLiteralBlank (b : UInt8) : Bool := isBlank b || b == cr || b == vt || b == ff

/-- The text of a token, a literal without its blanks. -/
def withoutLiteralBlanks (t : Php.Token) : Bytes :=
  if t.kind.isLiteral then t.text.filter fun b => !isLiteralBlank b else t.text

/-- The content that is looked at. -/
def indentationText (file : SourceFile) (content : Bytes) : Bytes :=
  if file.hasExtension phpExtensions && Utf8.valid content then
    (Php.tokenize content).flatMap withoutLiteralBlanks
  else content

/-- Does the line start with tabs and then a space? The space before the star of a doc comment does
not count. -/
def isMixed (line : Bytes) : Bool :=
  match line.dropWhile (· == tab) with
  | [] => false
  | b :: rest => b == space && !nextIs star rest

/-- An octet that is not white space. -/
def isVisible (b : UInt8) : Bool := !(isSpacing b || b == vt || b == ff)

/-- Is there a tab with only spaces between it and something visible before it? `armed` tells
whether such a thing stands right before the text. -/
def hasInnerTab (armed : Bool) : Bytes → Bool
  | [] => false
  | b :: rest =>
    if b = tab then armed || hasInnerTab false rest
    else if b = space then hasInnerTab armed rest
    else hasInnerTab (isVisible b) rest

/-- An error at the first line in class `p`, if there is one. -/
def firstLineError (p : Bytes → Bool) (message : String) (content : Bytes) : List Diagnostic :=
  match (lines content).findIdx? p with
  | some i => [.error message (some (i + 1))]
  | none => []

/-- Refuses lines indented by tabs and spaces, and tabs inside of a line, in files with the given
extensions. -/
def indentation (extensions : List String) : Rule where
  name := "indentation"
  run file content :=
    -- a file that is indented by spaces only is left alone
    if file.hasExtension extensions && content.contains tab then
      let text := indentationText file content
      .found (firstLineError isMixed "mixed tabs and spaces indentation" text ++
        firstLineError (hasInnerTab false) "tabulator found" text)
    else .none

end SourceTidy.Rule
