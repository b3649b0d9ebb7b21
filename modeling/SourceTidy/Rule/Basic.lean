import SourceTidy.Bytes
import SourceTidy.Diagnostic
import SourceTidy.SourceFile

/-! # Rules

A rule is a pure function of a file's name and content. It may replace the content, and it may
report findings. A rule that does not concern the file does nothing.
-/

namespace SourceTidy

/-- What a rule does to a file. -/
structure Outcome where
  replacement : Option Bytes
  diagnostics : List Diagnostic
deriving DecidableEq, Repr

namespace Outcome

/-- No change and nothing to report. -/
def none : Outcome := ⟨Option.none, []⟩

/-- New content, reported as a fix. -/
def fixed (content : Bytes) (message : String) : Outcome := ⟨some content, [.fix message]⟩

/-- Findings only. -/
def found (diagnostics : List Diagnostic) : Outcome := ⟨Option.none, diagnostics⟩

def hasError (o : Outcome) : Bool := o.diagnostics.any Diagnostic.isError

def hasFix (o : Outcome) : Bool := o.diagnostics.any Diagnostic.isFix

def isNone (o : Outcome) : Bool := o.replacement.isNone && o.diagnostics.isEmpty

/-- The content that the rule leaves. -/
def content (o : Outcome) (before : Bytes) : Bytes := o.replacement.getD before

end Outcome

/-- A named check of a whole file that may correct it. -/
structure Rule where
  name : String
  run : SourceFile → Bytes → Outcome

end SourceTidy
