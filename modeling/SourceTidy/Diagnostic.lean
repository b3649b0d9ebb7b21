/-! # Diagnostics

What a rule has to say about a file: how serious it is, a message, and the line if there is one.
-/

namespace SourceTidy

/-- How a finding affects a run. -/
inductive Severity where
  /-- Corrected by the rule. It fails a run that only reads. -/
  | fix
  | warning
  | error
deriving DecidableEq, Repr

/-- One finding in a file. -/
structure Diagnostic where
  severity : Severity
  message : String
  /-- Counted from one. -/
  line : Option Nat
deriving DecidableEq, Repr

namespace Diagnostic

def fix (message : String) : Diagnostic := ⟨.fix, message, none⟩

def warning (message : String) (line : Option Nat := none) : Diagnostic := ⟨.warning, message, line⟩

def error (message : String) (line : Option Nat := none) : Diagnostic := ⟨.error, message, line⟩

def isFix (d : Diagnostic) : Bool := d.severity == .fix

def isWarning (d : Diagnostic) : Bool := d.severity == .warning

def isError (d : Diagnostic) : Bool := d.severity == .error

/-- The message, with its line. -/
def text (d : Diagnostic) : String :=
  match d.line with
  | some line => d.message ++ " on line " ++ toString line
  | none => d.message

end Diagnostic

end SourceTidy
