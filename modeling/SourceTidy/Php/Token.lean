import SourceTidy.Bytes

/-! # Tokens of a PHP file

Only what the rules look at is told apart: comments, the bodies of string literals, the openers of
here documents, spacing, and everything else, text outside of the code included.
-/

namespace SourceTidy.Php

/-- The class of a token. -/
inductive TokenKind where
  /-- A line comment without its line break, or a block comment. -/
  | comment
  /-- A literal in single quotes, quotes included. -/
  | singleQuoted
  /-- A literal in double quotes without interpolation, quotes included. -/
  | doubleQuoted
  /-- A run of literal text between the interpolations of a string, without delimiters. -/
  | interpolated
  /-- The body of a here document whose label is in single quotes. -/
  | nowdoc
  /-- The opener of a here document up to its line break. -/
  | heredocStart
  /-- Spaces, tabs and line breaks between tokens. -/
  | whitespace
  | other
deriving DecidableEq, Repr

/-- Is the token the text of a string literal? -/
def TokenKind.isLiteral : TokenKind → Bool
  | .singleQuoted | .doubleQuoted | .interpolated | .nowdoc => true
  | .comment | .heredocStart | .whitespace | .other => false

/-- A piece of the source with its class. -/
structure Lexeme where
  kind : TokenKind
  text : Bytes
deriving DecidableEq, Repr

/-- A lexeme and the line on which it starts, counted from one. -/
structure Token extends Lexeme where
  line : Nat
deriving DecidableEq, Repr

/-- Gives each lexeme its line, the first one starting on line `line`. -/
def numberLines (line : Nat) : List Lexeme → List Token
  | [] => []
  | l :: rest => ⟨l, line⟩ :: numberLines (line + Bytes.lineBreaks l.text) rest

end SourceTidy.Php
