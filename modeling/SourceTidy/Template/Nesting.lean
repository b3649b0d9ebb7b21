import SourceTidy.Template.Scan

/-! # The nesting of tags

Tags are checked in the order in which they stand, against the stack of the tags that are open. The
first problem ends the check.

* `accept`: one tag;
* `check`: does the whole template nest?
-/

namespace SourceTidy.Template

/-- A tag that is open. -/
structure OpenTag where
  name : String
  line : Nat
  /-- It need not be closed. -/
  optional : Bool
deriving DecidableEq, Repr

/-- What can be wrong with a template. -/
inductive Problem where
  /-- A closing tag that closes nothing. -/
  | unexpectedClosing (name : String)
  /-- A closing tag while another tag has to be closed. -/
  | crossedClosing (name expected : String)
  /-- A tag that may not stand where it does. -/
  | unexpectedTag (name : String)
  /-- A tag that is not closed. -/
  | missingClosing (name : String)
  | openComment
  | openTag
deriving DecidableEq, Repr

def braced (s : String) : String := "\x7b" ++ s ++ "\x7d"

def Problem.message : Problem → String
  | .unexpectedClosing name => "Unexpected " ++ braced ("/" ++ name)
  | .crossedClosing name expected =>
    "Unexpected " ++ braced ("/" ++ name) ++ ", expecting " ++ braced ("/" ++ expected)
  | .unexpectedTag name => "Unexpected " ++ braced name
  | .missingClosing name => "Missing " ++ braced ("/" ++ name)
  | .openComment => "Missing closing *\x7d"
  | .openTag => "Malformed tag, missing \x7d"

/-- Why a template is not accepted. -/
inductive Fault where
  /-- A tag that is not in the catalogue. A template can have such tags from extensions of its
  project, so this is told apart. -/
  | unknownTag (closing : Bool) (name : String)
  | malformed (problem : Problem) (line : Nat)
deriving DecidableEq, Repr

def Fault.message : Fault → String
  | .unknownTag closing name => "Unknown macro " ++ braced ((if closing then "/" else "") ++ name)
  | .malformed problem _ => problem.message

/-- Closes `name`: tags above it that need not be closed end with it. -/
def closeTag (name : String) (line : Nat) : List OpenTag → Except Fault (List OpenTag)
  | [] => .error (.malformed (.unexpectedClosing name) line)
  | top :: outer =>
    if top.name = name then .ok outer
    else if top.optional then closeTag name line outer
    else .error (.malformed (.crossedClosing name top.name) line)

/-- The innermost open tag that has to be closed. -/
def innermost? (stack : List OpenTag) : Option OpenTag := stack.find? fun t => !t.optional

/-- A closing tag. One without a name closes whatever is open. -/
def acceptClosing (stack : List OpenTag) (tag : Tag) (line : Nat) :
    Except Fault (List OpenTag) :=
  if tag.name.isEmpty then
    match stack with
    | [] => .error (.malformed (.unexpectedClosing "") line)
    | _ :: outer => .ok outer
  else if tag.name != "_" && !isKnown tag.name then .error (.unknownTag true tag.name)
  else closeTag tag.name line stack

/-- A tag that is neither closing nor prints. -/
def acceptOpening (stack : List OpenTag) (tag : Tag) (line : Nat) :
    Except Fault (List OpenTag) :=
  if tag.name = "_" then
    -- a translation may be closed but need not be
    .ok (if tag.selfClosing then stack else ⟨tag.name, line, true⟩ :: stack)
  else if !isKnown tag.name then .error (.unknownTag false tag.name)
  else if !mayStandIn tag.name ((innermost? stack).map OpenTag.name) then
    .error (.malformed (.unexpectedTag tag.name) line)
  else if tag.selfClosing then .ok stack
  else if pairedTags.contains tag.name then .ok (⟨tag.name, line, false⟩ :: stack)
  else if optionalTags.contains tag.name then .ok (⟨tag.name, line, true⟩ :: stack)
  else .ok stack

/-- The open tags after one more tag. -/
def accept (stack : List OpenTag) (t : Placed) : Except Fault (List OpenTag) :=
  if t.tag.isPrint then .ok stack
  else if t.tag.closing then acceptClosing stack t.tag t.line
  else acceptOpening stack t.tag t.line

/-- The end of a template with the given tags open. -/
def finish (stack : List OpenTag) : Ending → Except Fault Unit
  | .openComment line => .error (.malformed .openComment line)
  | .openTag line => .error (.malformed .openTag line)
  | .complete =>
    match innermost? stack with
    | some t => .error (.malformed (.missingClosing t.name) t.line)
    | none => .ok ()

/-- Does the template nest? -/
def check (source : Bytes) : Except Fault Unit := do
  let (tags, ending) := scan source
  let stack ← tags.foldlM accept []
  finish stack ending

end SourceTidy.Template
