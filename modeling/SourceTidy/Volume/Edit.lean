import SourceTidy.Volume.Basic

/-! # Changes to the tree of a volume

Making folders, files and links, and removing entries. Reading and writing files never need them.
-/

namespace SourceTidy

/-- The entry `name` of the folder at the end of the names is set, or removed if there is no
node. -/
def Node.place (name : String) (entry : Option Node) : List String → Node → Node
  | [], .folder listable entries =>
    .folder listable (entries.filter (·.1 != name) ++ (entry.map fun e => (name, e)).toList)
  | step :: way, .folder listable entries =>
    .folder listable (entries.map fun (n, node) =>
      if n = step then (n, node.place name entry way) else (n, node))
  | _, node => node

namespace Volume

/-- A volume with nothing but the current folder and those above it. -/
def fresh (current : List String) : Volume where
  root := current.foldr (fun name below => .folder true [(name, below)]) (.folder true [])
  store := []
  current := current

/-- Sets or removes an entry of the folder at the end of `way`. -/
def place (v : Volume) (way : List String) (name : String) (entry : Option Node) : Volume :=
  { v with root := v.root.place name entry way }

/-- The entry itself, not what it links to. -/
def nodeIn? (v : Volume) (way : List String) (name : String) : Option Node :=
  v.root.find? (way ++ [name])

/-- Enters the folders of the given names one in the other, from the folder at the end of `way`, and
makes those that are missing. The result has the way to the last of them. -/
def enterFolders (v : Volume) (way : List String) :
    List String → Except IoError (Volume × List String)
  | [] => .ok (v, way)
  | name :: names => do
    match v.resolve ⟨true, way ++ [name]⟩ with
    | .ok (.folder _ _) => v.enterFolders (← v.canonical ⟨true, way ++ [name]⟩) names
    | .ok _ => .error .alreadyExists
    | .error .notFound =>
      if (v.nodeIn? way name).isSome then .error .alreadyExists
      else (v.place way name (some (.folder true []))).enterFolders (way ++ [name]) names
    | .error e => .error e

/-- The names of a path without those that mean the current folder. -/
def steps (path : FilePath) : List String := path.parts.filter (· != ".")

/-- Where a path starts. -/
def start (v : Volume) (path : FilePath) : List String := if path.absolute then [] else v.current

/-- Makes a folder, and those above it. -/
def makeFolder (v : Volume) (path : FilePath) : Except IoError Volume :=
  (v.enterFolders (v.start path) (steps path)).map Prod.fst

/-- Writes a file, which is made if it is missing, with the folders above it. -/
def put (v : Volume) (path : FilePath) (bytes : Bytes) : Except IoError Volume := do
  match (steps path).getLast? with
  | none => .error .isFolder
  | some name =>
    let (v, way) ← v.enterFolders (v.start path) (steps path).dropLast
    match v.resolve ⟨true, way ++ [name]⟩ with
    | .ok _ => v.write ⟨true, way ++ [name]⟩ bytes
    | .error .notFound =>
      let v := v.place way name (some (.file v.store.length))
      .ok { v with store := v.store ++ [⟨bytes, true, true⟩] }
    | .error e => .error e

/-- The folder that holds the entry at a path, and the name of the entry. -/
def holder (v : Volume) (path : FilePath) : Except IoError (List String × String) := do
  match (steps path).getLast? with
  | none => .error .isFolder
  | some name =>
    let way ← v.follow maxLinks (v.start path) (steps path).dropLast
    return (way, name)

/-- Removes a file, a link, or a folder with all it holds. -/
def remove (v : Volume) (path : FilePath) : Except IoError Volume := do
  let (way, name) ← v.holder path
  if (v.nodeIn? way name).isSome then return v.place way name none else throw .notFound

/-- Makes a symbolic link. -/
def makeLink (v : Volume) (path : FilePath) (target : String) : Except IoError Volume := do
  if path.hasZero || (FilePath.ofString target).hasZero then throw .zeroInName
  if maxPath < target.utf8ByteSize then throw .nameTooLong
  let (way, name) ← v.holder path
  match v.root.find? way with
  | some (.folder _ _) =>
    if maxName < name.utf8ByteSize then throw .nameTooLong
    if (v.nodeIn? way name).isSome then throw .alreadyExists
    if target.isEmpty then throw .notFound
    return v.place way name (some (.link target))
  | some _ => throw .notFolder
  | none => throw .notFound

end Volume

end SourceTidy
