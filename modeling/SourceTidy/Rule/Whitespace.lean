import SourceTidy.Rule.LineEnding

/-! # White space at the end of lines

Spaces and tabs before a line break are removed. A file that is not empty ends with one line break,
of the kind of its first one.
-/

namespace SourceTidy

open Ascii Bytes

/-- A text without the blanks at the ends of its lines, and what decides whether a blank before it
would be one of those. -/
structure Stripped where
  text : Bytes
  /-- A blank before the text stands at the end of a line. -/
  endsLine : Bool
  /-- The text started with a line feed before it was stripped. -/
  startsWithFeed : Bool
deriving DecidableEq, Repr

/-- The stripped text with one more octet in front. -/
def Stripped.cons (b : UInt8) (s : Stripped) : Stripped :=
  if isBlank b then
    { s with text := if s.endsLine then s.text else b :: s.text, startsWithFeed := false }
  else
    { text := b :: s.text,
      -- a carriage return ends a line only together with a line feed
      endsLine := b == lf || (b == cr && s.startsWithFeed),
      startsWithFeed := b == lf }

/-- The text without the blanks right before its line breaks. -/
def stripLines (content : Bytes) : Bytes := (content.foldr Stripped.cons ⟨[], false, false⟩).text

/-- The first line break of a text. -/
def firstLineEnding? : Bytes → Option LineEnding
  | [] => none
  | b :: rest =>
    if b = lf then some .lf
    else if b = cr && nextIs lf rest then some .crlf
    else firstLineEnding? rest

/-- The content that the rule leaves; `native` is for a file without a line break. -/
def tidyWhitespace (native : LineEnding) (content : Bytes) : Bytes :=
  let stripped := stripLines content
  let trimmed := trimEnd stripped
  if trimmed.isEmpty then [] else trimmed ++ ((firstLineEnding? stripped).getD native).bytes

/-- Removes blanks at the ends of lines and sees to the last line break. -/
def Rule.whitespace (native : LineEnding) : Rule where
  name := "whitespace"
  run _ content :=
    let next := tidyWhitespace native content
    if next = content then .none
    else
      let removed : Int := content.length - next.length
      .fixed next (toString removed ++ " bytes of whitespaces")

end SourceTidy
