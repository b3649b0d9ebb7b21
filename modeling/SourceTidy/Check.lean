import SourceTidy.Rule.Basic

/-! # Checking one file

The content of a file passes through the rules in their order, each of which sees what the one
before it left. The first rule that reports an error ends the check: its replacement is dropped, and
the rules after it do not run.
-/

namespace SourceTidy

/-- Are corrections written, or only reported? -/
inductive Mode where
  | readOnly
  | fix
deriving DecidableEq, Repr

/-- How the check of a file ends. -/
inductive FileState where
  | completed
  /-- Ended by an error of the named rule. -/
  | failed (rule : String)
deriving DecidableEq, Repr

/-- The result of the check of one file. -/
structure FileReport where
  /-- The findings in the order in which they were made. -/
  diagnostics : List Diagnostic
  state : FileState
  /-- The content after the last rule that did not fail. -/
  content : Bytes
  /-- No error was found and, if nothing is to be written, nothing to correct either. -/
  passed : Bool
deriving DecidableEq, Repr

/-- The report of a file whose first rule has the given findings and whose other rules make
`rest`. -/
def FileReport.after (mode : Mode) (first : List Diagnostic) (rest : FileReport) : FileReport :=
  { rest with
    diagnostics := first ++ rest.diagnostics,
    passed := (mode == .fix || !first.any Diagnostic.isFix) && rest.passed }

/-- Runs the rules over the content of a file. -/
def checkFile (mode : Mode) (file : SourceFile) : List Rule → Bytes → FileReport
  | [], content => ⟨[], .completed, content, true⟩
  | rule :: rules, content =>
    let outcome := rule.run file content
    if outcome.hasError then ⟨outcome.diagnostics, .failed rule.name, content, false⟩
    else (checkFile mode file rules (outcome.content content)).after mode outcome.diagnostics

end SourceTidy
