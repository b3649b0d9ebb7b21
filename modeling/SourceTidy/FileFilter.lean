import SourceTidy.Glob

/-! # Which files to check

A filter has patterns of names that are accepted and patterns of names that are ignored. A folder
with an ignored name is not entered. A file is checked if its name is accepted and not ignored; an
accepted pattern that is a plain name outweighs those that ignore it.
-/

namespace SourceTidy

/-- The patterns of the files to check. -/
structure FileFilter where
  accept : List Glob
  ignore : List Glob
  /-- The accepted patterns that are plain names. -/
  names : List String
deriving DecidableEq, Repr

namespace FileFilter

/-- A pattern that cannot be read. -/
structure BadPattern where
  pattern : String
  fault : Glob.Fault
deriving DecidableEq, Repr

/-- Reads patterns up to the first that is bad. -/
def readPatterns : List String → Except BadPattern (List Glob)
  | [] => .ok []
  | pattern :: rest =>
    match Glob.parse pattern with
    | .error fault => .error ⟨pattern, fault⟩
    | .ok glob => (readPatterns rest).map (glob :: ·)

/-- The filter with the given patterns. -/
def ofPatterns (accept ignore : List String) : Except BadPattern FileFilter := do
  let accepted ← readPatterns accept
  let ignored ← readPatterns ignore
  return ⟨accepted, ignored, accept.filter Glob.isLiteral⟩

/-- Is a file of this name of a kind that is checked? -/
def acceptsFile (f : FileFilter) (name : String) : Bool := f.accept.any (·.accepts name)

/-- Is a folder of this name left out? -/
def skipsFolder (f : FileFilter) (name : String) : Bool := f.ignore.any (·.accepts name)

/-- Is a file of this name left out? -/
def skipsFile (f : FileFilter) (name : String) : Bool :=
  f.skipsFolder name && !f.names.contains name

end FileFilter

end SourceTidy
