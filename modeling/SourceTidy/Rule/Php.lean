import SourceTidy.Php.Lexer
import SourceTidy.Rule.Basic
import SourceTidy.Text.Blank
import SourceTidy.Utf8

/-! # Rules on PHP code

* `phpdoc`: a block comment with an annotation ought to start with two stars;
* `escapeSequences`: a backslash before a letter or a digit ought to be an escape sequence;
* `closingTag`: the tag that closes the code at the end of a file is removed.
-/

namespace SourceTidy.Rule

open Ascii Bytes

/-- The extensions of PHP files. -/
def phpExtensions : List String := ["php", "phpt"]

/-- The tokens of a file, if it is a PHP file. -/
def phpTokens (file : SourceFile) (content : Bytes) : List Php.Token :=
  if file.hasExtension phpExtensions && Utf8.valid content then Php.tokenize content else []

/-! ## Doc comments -/

/-- A Latin letter, or one of the two characters that equal one when case is ignored: the long s and
the Kelvin sign. -/
def isTagLetter (c : Char) : Bool := c.isAlpha || c.toNat == 0x17F || c.toNat == 0x212A

/-- Does an annotation, `@` and a letter, stand in the text? -/
def hasAnnotation : List Char → Bool
  | [] => false
  | c :: rest => (c == '@' && rest.head?.any isTagLetter) || hasAnnotation rest

/-- Does the comment open with one star and white space, and have an annotation after that? -/
def looksLikeDoc (text : Bytes) : Bool :=
  match Utf8.decode text with
  | '/' :: '*' :: c :: rest => Text.isBlank c && hasAnnotation rest
  | _ => false

/-- Warns of annotations in a block comment that opens with one star only. -/
def phpdoc : Rule where
  name := "phpdoc"
  run file content :=
    .found (((phpTokens file content).filter fun t => t.kind == .comment && looksLikeDoc t.text).map
      fun t => .warning "missing /** in phpDoc comment" (some t.line))

/-! ## Escape sequences -/

/-- May the octet follow a backslash? Only letters, digits and the underscore that start no escape
sequence may not. -/
def mayEscape (b : UInt8) : Bool := (ascii "\\nrtvefx01234567").contains b || !isWord b

/-- The first backslash of a literal that starts no escape sequence, with the octet after it. -/
def badEscape? : Bytes → Option Bytes
  | [] => none
  | b :: rest =>
    if b = backslash then
      match rest with
      | [] => some [backslash]
      | c :: rest' => if mayEscape c then badEscape? rest' else some [backslash, c]
    else badEscape? rest

/-- Does a backslash start an escape sequence in such a token? -/
def hasEscapes (kind : Php.TokenKind) : Bool := kind == .doubleQuoted || kind == .interpolated

/-- The warning about a token, if it has a bad escape sequence. -/
def escapeWarning? (t : Php.Token) : Option Diagnostic :=
  if hasEscapes t.kind then
    (badEscape? t.text).map fun sequence =>
      .warning ("invalid escape sequence " ++ Utf8.toString sequence ++ " in double quoted string")
        (some t.line)
  else none

/-- Warns of the first bad escape sequence of each literal. -/
def escapeSequences : Rule where
  name := "escape-sequences"
  run file content := .found ((phpTokens file content).filterMap escapeWarning?)

/-! ## The closing tag -/

/-- The content up to the tag that closes the code at the end of a file, if there is one. -/
def beforeClosingTag? (content : Bytes) : Option Bytes :=
  let trimmed := trimEnd content
  if [question, greater].isSuffixOf trimmed then some (trimmed.take (trimmed.length - 2)) else none

/-- A closing tag at the end of a file is removed, one on each run. -/
def closingTag : Rule where
  name := "closing-tag"
  run file content :=
    if file.hasExtension phpExtensions then
      match beforeClosingTag? content with
      | some rest => .fixed rest "contains closing PHP tag ?>"
      | none => .none
    else .none

end SourceTidy.Rule
