import SourceTidy.Rule.Basic

/-! # Line endings

A file has one kind of line break. Carriage return and line feed together count as one break, and so
does each of them alone.
-/

namespace SourceTidy

open Ascii Bytes

/-- The two line breaks that are written. -/
inductive LineEnding where
  | lf
  | crlf
deriving DecidableEq, Repr

def LineEnding.bytes : LineEnding → Bytes
  | .lf => [Ascii.lf]
  | .crlf => [Ascii.cr, Ascii.lf]

/-- The text with `eol` for each of its line breaks; of a break of two octets the second one is
replaced and the first one left out. -/
def normalizeLines (eol : Bytes) : Bytes → Bytes
  | [] => []
  | b :: rest =>
    if b = cr then (if nextIs lf rest then [] else eol) ++ normalizeLines eol rest
    else if b = lf then eol ++ normalizeLines eol rest
    else b :: normalizeLines eol rest

/-- Every line break becomes `eol`. Shell scripts are left alone. -/
def Rule.lineEndings (eol : LineEnding) : Rule where
  name := "line-endings"
  run file content :=
    if file.hasExtension ["sh"] then .none
    else
      let next := normalizeLines eol.bytes content
      if next = content then .none else .fixed next "contains non-system line-endings"

end SourceTidy
