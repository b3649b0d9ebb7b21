import SourceTidy.Json.Printer
import SourceTidy.Report.Line

/-! # Reports for programs

One JSON document with all findings of a run and its counts.
-/

namespace SourceTidy.Report

/-- A finding as a JSON value. -/
def findingValue (mode : Mode) (file : SourceFile) (d : Diagnostic) : Json.Value :=
  .object [
    ("file", .string file.path),
    ("severity", .string (d.severity.label mode).toLower),
    ("message", .string d.message),
    ("line", (d.line.map Json.Value.number).getD .null)]

/-- The counts as a JSON value. -/
def summaryValue (s : Summary) : Json.Value :=
  .object [
    ("files", .number s.files),
    ("written", .number s.written),
    ("errors", .number s.errors),
    ("warnings", .number s.warnings),
    ("fixes", .number s.fixes),
    ("success", .boolean s.success)]

/-- The document of all findings and the counts. -/
def document (mode : Mode) (findings : List (SourceFile × Diagnostic)) (s : Summary) : Json.Value :=
  .object [
    ("diagnostics", .array (findings.map fun (file, d) => findingValue mode file d)),
    ("summary", summaryValue s)]

/-- The findings among the events of a run. -/
def findings (events : List Event) : List (SourceFile × Diagnostic) :=
  events.filterMap fun
    | .diagnostic file d => some (file, d)
    | _ => none

end SourceTidy.Report
