/-! # Files by name

A rule knows of a file its path below the folder that is checked, and its extension. Paths have
`/` between their parts on every system.
-/

namespace SourceTidy

/-- What follows the last occurrence of `c`. -/
def afterLast? (c : Char) : List Char → Option (List Char)
  | [] => none
  | x :: rest =>
    match afterLast? c rest with
    | some tail => some tail
    | none => if x = c then some rest else none

/-- The path of a file below the folder that is checked, and its extension. -/
structure SourceFile where
  path : String
  extension : String
deriving DecidableEq, Repr

namespace SourceFile

/-- The path with `/` between its parts. -/
def slashed (path : String) : String :=
  String.ofList (path.toList.map fun c => if c = '\\' then '/' else c)

/-- The file at `path`. Its extension is what follows the last dot of its name, and empty if the
name has no dot. -/
def ofPath (path : String) : SourceFile :=
  let chars := (slashed path).toList
  let name := (afterLast? '/' chars).getD chars
  { path := slashed path, extension := String.ofList ((afterLast? '.' name).getD []) }

/-- Is the extension one of these? -/
def hasExtension (file : SourceFile) (extensions : List String) : Bool :=
  extensions.contains file.extension

end SourceFile

end SourceTidy
