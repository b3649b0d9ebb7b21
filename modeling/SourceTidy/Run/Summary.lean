import SourceTidy.Diagnostic
import SourceTidy.SourceFile

/-! # Summary of a run

How many files were checked and written, how many findings of each severity there were, and whether
all files passed.
-/

namespace SourceTidy

/-- What became of one file. -/
structure Processed where
  file : SourceFile
  /-- The findings in the order in which they were made. -/
  diagnostics : List Diagnostic
  written : Bool
  passed : Bool
deriving DecidableEq, Repr

/-- The counts of a run. -/
structure Summary where
  files : Nat
  written : Nat
  errors : Nat
  warnings : Nat
  fixes : Nat
  /-- Have all files passed? -/
  success : Bool
deriving DecidableEq, Repr

namespace Summary

def empty : Summary := ⟨0, 0, 0, 0, 0, true⟩

/-- Counts a finding. -/
def record (s : Summary) (d : Diagnostic) : Summary :=
  match d.severity with
  | .error => { s with errors := s.errors + 1 }
  | .warning => { s with warnings := s.warnings + 1 }
  | .fix => { s with fixes := s.fixes + 1 }

/-- Counts a file, apart from its findings. -/
def account (s : Summary) (p : Processed) : Summary :=
  { s with
    files := s.files + 1
    written := if p.written then s.written + 1 else s.written
    success := s.success && p.passed }

/-- Counts a file and its findings. -/
def add (s : Summary) (p : Processed) : Summary := (p.diagnostics.foldl record s).account p

end Summary

end SourceTidy
