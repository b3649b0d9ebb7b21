import SourceTidy.Text.Blank
import SourceTidy.Utf8

/-! # Latte tags

A tag is what stands between braces in a template: `{if $x}`, `{/if}`, `{block head /}`, or an
expression to print. Expressions are not read. The catalogue says which names exist and which of
them open a region that has to be closed.
-/

namespace SourceTidy.Template

/-- A tag of a template. -/
structure Tag where
  /-- `{/name}` -/
  closing : Bool
  /-- `{name /}` -/
  selfClosing : Bool
  /-- Empty for a tag that prints an expression. -/
  name : String
  /-- What follows the name, without the blanks around it. -/
  args : List Char
deriving DecidableEq, Repr

/-- How many characters of the text make the name of a tag. -/
def nameLength : List Char → Nat
  | [] => 0
  | c :: rest =>
    if c.isAlpha then ((c :: rest).takeWhile fun c => c.isAlphanum || c == '_').length
    -- the sign for translations is a name by itself, whatever follows it
    else if c = '_' then 1
    else 0

/-- Does the text after a name make the tag an expression: a call, a class member or a namespace? -/
def continuesExpression (s : List Char) : Bool :=
  ['('].isPrefixOf s || [':', ':'].isPrefixOf s || ['\\'].isPrefixOf s

/-- The tag with the given characters between its braces. -/
def Tag.ofChars (inner : List Char) : Tag :=
  let closing := inner.head? == some '/'
  let body := if closing then inner.drop 1 else inner
  let selfClosing := !closing && (Text.trimEnd inner).getLast? == some '/'
  let n := nameLength body
  let rest := body.drop n
  let args := Text.trim rest
  { closing, selfClosing,
    name := if continuesExpression rest then "" else String.ofList (body.take n),
    args :=
      if selfClosing then Text.trimEnd (args.reverse.dropWhile (· == '/')).reverse else args }

/-- The tag with the given text between its braces. -/
def Tag.parse (inner : Bytes) : Tag := Tag.ofChars (Utf8.decode inner)

/-- Does the tag print something? `{_}` alone opens a region, `{_$text}` prints. -/
def Tag.isPrint (t : Tag) : Bool :=
  !t.closing && (t.name.isEmpty || (t.name == "_" && !t.args.isEmpty))

/-- Does the tag switch tags off up to the next `{/syntax}`? -/
def Tag.switchesOff (t : Tag) : Bool :=
  t.name == "syntax" && t.args == ['o', 'f', 'f'] && !t.closing

/-! ## The catalogue -/

/-- Tags that have to be closed. -/
def pairedTags : List String :=
  ["block", "cache", "capture", "define", "embed", "first", "for", "foreach", "form",
   "formContainer", "formContext", "if", "ifCurrent", "ifchanged", "ifset", "iterateWhile", "last",
   "sep", "snippet", "snippetArea", "spaceless", "switch", "syntax", "translate", "try", "while"]

/-- Tags that may be closed. -/
def optionalTags : List String := ["label"]

/-- Tags that stand alone. -/
def singleTags : List String :=
  ["breakIf", "case", "contentType", "continueIf", "control", "debugbreak", "default", "do", "dump",
   "else", "elseif", "elseifset", "exitIf", "extends", "import", "include", "includeblock", "input",
   "inputError", "l", "layout", "link", "parameters", "php", "plink", "r", "rollback", "sandbox",
   "skipIf", "status", "templatePrint", "templateType", "trace", "var", "varPrint", "varType"]

/-- Where `{elseif}` and `{elseifset}` may stand. -/
def conditionTags : List String := ["if", "ifset", "ifchanged", "ifCurrent"]

/-- Where `{else}` may stand. -/
def elseTags : List String :=
  ["if", "ifset", "ifchanged", "ifCurrent", "foreach", "first", "last", "sep", "try"]

/-- Is the name in the catalogue? -/
def isKnown (name : String) : Bool :=
  pairedTags.contains name || optionalTags.contains name || singleTags.contains name

/-- May a tag stand directly inside of `parent`, the innermost open tag that has to be closed? -/
def mayStandIn (name : String) (parent : Option String) : Bool :=
  if name = "else" then parent.any elseTags.contains
  else if name = "elseif" || name = "elseifset" then parent.any conditionTags.contains
  else if name = "case" then parent == some "switch"
  else true

end SourceTidy.Template
