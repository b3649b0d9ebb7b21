import SourceTidy.Utf8

/-! # NEON tokens and faults

A NEON document is read in two passes: a lexer makes tokens of the text, and a machine checks that
the tokens form a document. Both report a `Fault`: what is wrong, and on which line.
-/

namespace SourceTidy.Neon

/-- The three pairs of brackets. -/
inductive Bracket where
  | square
  | curly
  | round
deriving DecidableEq, Repr

def Bracket.opening : Bracket → Char
  | .square => '['
  | .curly => '{'
  | .round => '('

def Bracket.closing : Bracket → Char
  | .square => ']'
  | .curly => '}'
  | .round => ')'

/-- What a token says. -/
inductive Symbol where
  /-- A literal or a quoted string, without its quotes. -/
  | scalar (text : Bytes)
  | colon
  | equals
  | comma
  | dash
  | opening (bracket : Bracket)
  | closing (bracket : Bracket)
  /-- The start of a line that is neither blank nor a comment, with its indentation. -/
  | newline (indent : Bytes)
deriving DecidableEq, Repr

/-- A symbol and the line on which it starts. -/
structure Token where
  symbol : Symbol
  line : Nat
deriving DecidableEq, Repr

def quoted (s : String) : String := "'" ++ s ++ "'"

/-- A symbol as a message names it. -/
def Symbol.describe : Symbol → String
  | .scalar text => quoted (Utf8.toString text)
  | .colon => quoted ":"
  | .equals => quoted "="
  | .comma => quoted ","
  | .dash => quoted "-"
  | .opening b => quoted b.opening.toString
  | .closing b => quoted b.closing.toString
  | .newline _ => "end of line"

/-- What can be wrong with a document. -/
inductive Problem where
  /-- Lines are indented by tabs and by spaces. -/
  | mixedIndentation
  /-- A block string lacks its three closing quotes. -/
  | missingQuotes (quote : UInt8)
  | unterminatedString
  /-- A backslash in a string starts no escape sequence. -/
  | invalidEscape (sequence : Bytes)
  | unexpected (symbol : Symbol)
  | unexpectedEnd
  | badIndentation
  | tooDeep
  | missingBracket (bracket : Bracket)
  | duplicatedKey (key : Bytes)
deriving DecidableEq, Repr

def Problem.message : Problem → String
  | .mixedIndentation => "Invalid combination of tabs and spaces"
  | .missingQuotes quote => "Missing closing " ++ Utf8.toString [quote, quote, quote]
  | .unterminatedString => "Unterminated string"
  | .invalidEscape sequence => "Invalid escaping sequence " ++ Utf8.toString sequence
  | .unexpected symbol => "Unexpected " ++ symbol.describe
  | .unexpectedEnd => "Unexpected end"
  | .badIndentation => "Bad indentation"
  | .tooDeep => "Too deep nesting"
  | .missingBracket b => "Missing " ++ quoted b.closing.toString
  | .duplicatedKey key => "Duplicated key " ++ quoted (Utf8.toString key)

/-- A problem and the line it is reported on. -/
structure Fault where
  problem : Problem
  line : Nat
deriving DecidableEq, Repr

end SourceTidy.Neon
