import SourceTidy.LogFilter.Pattern
import SourceTidy.Text.Blank
import SourceTidy.Text.Cut

/-! # Log filters

A log filter is a list of directives with commas between them. A directive is a level, or it names a
target, a span in brackets, or both, for which a level may follow after an equals sign. A span may
have a field in braces, with a value or without.
-/

namespace SourceTidy.LogFilter

/-! ## Levels -/

/-- Is the text a number up to five? -/
def isLevelNumber (text : List Char) : Bool :=
  let digits := if text.head? == some '+' then text.tail else text
  !digits.isEmpty && digits.all Char.isDigit &&
    digits.foldl (fun n c => n * 10 + (c.toNat - '0'.toNat)) 0 ≤ 5

/-- Is the text the name or the number of a level? -/
def isLevel (text : List Char) : Bool :=
  isLevelNumber text ||
    ["trace", "debug", "info", "warn", "error", "off"].any fun level =>
      level.toList == text.map Char.toLower

/-! ## Directives -/

/-- May a target or a level start with the character? A letter, a number or one of three signs. -/
def isNameStart (c : Char) : Bool := c == '-' || c == ':' || c == '_' || Text.isAlphanumeric c

/-- Is the text a field? Its value stands between the first two equals signs, or after the only
one. -/
def isField (text : List Char) : Bool :=
  match Text.cutAt '=' text with
  | _ :: value :: _ => isFieldValue value
  | _ => !text.isEmpty

/-- What follows a span, from after its opening bracket. -/
def afterSpan? (text : List Char) : Option (List Char) :=
  match text.dropWhile fun c => c != ']' && c != '{' with
  | ']' :: after => some after
  | '{' :: field =>
    match field.dropWhile (· != '}') with
    | '}' :: ']' :: after => if isField (field.takeWhile (· != '}')) then some after else none
    | _ => none
  | _ => none

/-- The end of a directive: nothing, or a level. -/
def ending? (text : List Char) : Option (Option (List Char)) :=
  match text with
  | [] => some none
  | '=' :: level => some (some level)
  | _ => none

/-- The level after the equals sign of a directive, if it has one; nothing if the text is no
directive. -/
def level? (text : List Char) : Option (Option (List Char)) :=
  match text with
  | [] => none
  | '[' :: rest => (afterSpan? rest).bind ending?
  | c :: rest =>
    if isNameStart c then
      match rest.dropWhile fun c => c != '=' && c != '[' with
      | '[' :: span => (afterSpan? span).bind ending?
      | after => ending? after
    else none

/-- Is the text a directive? Blanks may stand around it only if no level follows an equals sign. -/
def isDirective (text : List Char) : Bool :=
  match level? (Text.trim text) with
  | none => false
  | some none => true
  | some (some level) => Text.trim text == text && (level.isEmpty || isLevel level)

/-- Is the text a log filter? Empty directives are allowed. -/
def isValid (text : String) : Bool :=
  (Text.cutAt ',' text.toList).all fun d => d.isEmpty || isDirective d

end SourceTidy.LogFilter
