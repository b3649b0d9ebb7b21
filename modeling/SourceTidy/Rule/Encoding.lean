import SourceTidy.Rule.Basic
import SourceTidy.Utf8

/-! # Rules on the encoding

They come first, so that the rules after them see text: UTF-8, without control characters other than
the tab and line breaks, and without a byte order mark.
-/

namespace SourceTidy.Rule

/-- A control character other than tab, line feed and carriage return. -/
def isControl (b : UInt8) : Bool := b < 0x09 || b == 0x0B || b == 0x0C || (0x0E ≤ b && b < 0x20)

/-- A file with a control character is refused, at the line of the first one. -/
def controlCharacters : Rule where
  name := "control-characters"
  run _ content :=
    let before := content.takeWhile fun b => !isControl b
    if before.length < content.length then
      .found [.error "contains control characters" (some (Bytes.lineBreaks before + 1))]
    else .none

/-- The mark that some editors write at the start of a UTF-8 file. -/
def byteOrderMark : Bytes := [0xEF, 0xBB, 0xBF]

/-- One byte order mark at the start of a file is removed. -/
def bom : Rule where
  name := "bom"
  run _ content :=
    match byteOrderMark.isPrefixOf? content with
    | some rest => .fixed rest "contains BOM"
    | none => .none

/-- A file that is not UTF-8 is refused. -/
def utf8 : Rule where
  name := "utf8"
  run _ content :=
    if Utf8.valid content then .none else .found [.error "is not valid UTF-8 file"]

end SourceTidy.Rule
