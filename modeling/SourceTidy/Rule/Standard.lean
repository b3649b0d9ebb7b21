import SourceTidy.Rule.Document
import SourceTidy.Rule.Encoding
import SourceTidy.Rule.Indentation
import SourceTidy.Rule.Whitespace

/-! # The standard rules

The rules of a run in their order: the encoding first, then what reads the text, and last the two
rules on white space.
-/

namespace SourceTidy

/-- What the list of rules depends on. -/
structure RuleOptions where
  /-- Are line endings made uniform? -/
  eol : Bool
  /-- The line break of the system. -/
  nativeEol : LineEnding
  /-- The extensions whose files are checked for tabs and spaces. -/
  indentation : List String
  /-- The formats whose files are decoded. -/
  configSyntax : List String
deriving DecidableEq, Repr

def RuleOptions.default : RuleOptions where
  eol := false
  nativeEol := .lf
  indentation := ["php", "phpt", "css", "less", "js", "json", "neon"]
  configSyntax := ["neon"]

namespace Rule

/-- The rules in their order, with the given decoders. -/
def ordered (options : RuleOptions) (decoders : List (String × Decoder)) : List Rule :=
  [controlCharacters, bom, utf8, phpdoc, escapeSequences] ++
  (if options.eol then [lineEndings options.nativeEol] else []) ++
  [closingTag, templateSyntax, configSyntax decoders, whitespace options.nativeEol,
   indentation options.indentation]

/-- The decoders of the named formats, or the first name that has none. -/
def findDecoders : List String → Except String (List (String × Decoder))
  | [] => .ok []
  | name :: rest =>
    match Decoder.ofName? name with
    | none => .error name
    | some decoder => (findDecoders rest).map ((name, decoder) :: ·)

/-- The standard rules, or the name of a format that has no decoder. -/
def standard (options : RuleOptions) : Except String (List Rule) :=
  (findDecoders options.configSyntax).map (ordered options)

end Rule

end SourceTidy
