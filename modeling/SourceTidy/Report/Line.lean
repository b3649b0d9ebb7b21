import SourceTidy.Run.Basic

/-! # Reports for people

One line for each finding, with a label for its severity, and a line of counts at the end. A
correction that has only been noticed has another label than one that has been made. Labels can be
in colour.
-/

namespace SourceTidy

/-- The label of a severity. -/
def Severity.label (mode : Mode) : Severity → String
  | .fix => if mode = .readOnly then "FOUND" else "FIX"
  | .warning => "WARNING"
  | .error => "ERROR"

/-- The colours of a terminal. -/
inductive Colour where
  | red
  | green
  | yellow
  | blue
  | magenta
deriving DecidableEq, Repr

namespace Colour

/-- The number of a colour in terminal codes. -/
def code : Colour → Nat
  | .red => 31
  | .green => 32
  | .yellow => 33
  | .blue => 34
  | .magenta => 35

end Colour

namespace Report

/-- A terminal code. -/
def escape (n : Nat) : String := "\x1b[" ++ toString n ++ "m"

/-- The text in bold letters, if colours are on. -/
def bold (colours : Bool) (text : String) : String :=
  if colours then escape 1 ++ text ++ escape 0 else text

/-- The text in bold letters of a colour, if colours are on. -/
def paint (colours : Bool) (c : Colour) (text : String) : String :=
  if colours then bold true (escape c.code ++ text ++ escape 39) else text

/-- The colour of a severity. -/
def colourOf (mode : Mode) : Severity → Colour
  | .fix => if mode = .readOnly then .magenta else .green
  | .warning => .yellow
  | .error => .red

/-- The line of a finding in the file at `path`, under a label. -/
def labelled (label path : String) (d : Diagnostic) : String :=
  "[" ++ label ++ "] " ++ path ++ "   " ++ d.text

/-- The line of a finding. -/
def line (colours : Bool) (mode : Mode) (file : SourceFile) (d : Diagnostic) : String :=
  labelled (paint colours (colourOf mode d.severity) (d.severity.label mode)) file.path d

/-- The line of counts. -/
def counts (s : Summary) : String :=
  "Done. files=" ++ toString s.files ++ " written=" ++ toString s.written ++
  " errors=" ++ toString s.errors ++ " warnings=" ++ toString s.warnings ++
  " fixes=" ++ toString s.fixes

/-- What is printed for an event. -/
def eventLine? (colours : Bool) (mode : Mode) : Event → Option String
  | .progress _ => none
  | .diagnostic file d => some (line colours mode file d)
  | .finish summary => some (bold colours (counts summary))

/-- The lines of a run. -/
def lines (colours : Bool) (mode : Mode) (events : List Event) : List String :=
  events.filterMap (eventLine? colours mode)

end Report

end SourceTidy
