import SourceTidy.Program
import SourceTidy.Volume.Edit

/-! # The disk as a volume

A picture is a volume with the part of the disk that a run can depend on: the folder to check, the
files in it that the filter lets through, and the settings files and repository marks above it.
After the run the files whose content has changed are written.

Only this module and `SourceTidy.Main` touch the outside world.
-/

namespace SourceTidy.Disk

/-- A volume, and the path on the disk of each of its files by its number. -/
structure Picture where
  volume : Volume
  paths : List String

/-- The text of the path with the given names from the root. -/
def pathText (way : List String) : String := (FilePath.mk true way).toString

/-- The names that lead from the root to the place of a path, with all links followed. -/
def realWay (path : String) : IO (List String) := do
  let real ← IO.FS.realPath path
  return (FilePath.ofString real.toString).parts

/-- Makes sure that the folder is in the picture. -/
def addFolder (p : Picture) (way : List String) : Picture :=
  match p.volume.makeFolder ⟨true, way⟩ with
  | .ok volume => { p with volume }
  | .error _ => p

/-- Can the file be opened for writing? -/
def isWritable (path : String) : IO Bool := do
  try
    -- opened for appending, a file keeps its content
    let _ ← IO.FS.Handle.mk path .append
    return true
  catch _ => return false

/-- Makes sure that the file is in the picture. -/
def addFile (p : Picture) (way : List String) : IO Picture := do
  match way.getLast?, p.volume.root.find? way with
  | some name, none =>
    let path := pathText way
    let bytes ← try (some ∘ ByteArray.toList) <$> IO.FS.readBinFile path catch _ => pure none
    let stored : Stored := ⟨bytes.getD [], bytes.isSome, ← isWritable path⟩
    let p := addFolder p way.dropLast
    let volume := p.volume.place way.dropLast name (some (.file p.volume.store.length))
    return ⟨{ volume with store := volume.store ++ [stored] }, p.paths ++ [path]⟩
  | _, _ => return p

/-- Adds the file or folder at the end of `way`, on which there is no link. -/
def addReal (p : Picture) (way : List String) : IO Picture := do
  let info ← (← IO.FS.realPath (pathText way)).metadata
  match info.type with
  | .file => addFile p way
  | .dir => return addFolder p way
  | _ => return p

/-- Adds an entry of the folder at the end of `way`, and what it links to. Entries that lead nowhere
are left out. -/
def addEntry (p : Picture) (way : List String) (name : String) : IO Picture := do
  let entry : IO.FS.DirEntry := ⟨pathText way, name⟩
  try
    let info ← entry.path.symlinkMetadata
    if info.type == .symlink then
      -- in the picture every link leads to its end at once
      let target ← realWay entry.path.toString
      let p ← addReal p target
      let link : Node := .link (pathText target)
      return { p with volume := (addFolder p way).volume.place way name (some link) }
    else addReal p (way ++ [name])
  catch _ => return p

/-- Adds what the names lead through from the folder at the end of `way`. -/
def addPath (p : Picture) (way : List String) : List String → IO Picture
  | [] => return p
  | name :: names => do
    if name == "." then addPath p way names
    else if name == ".." then addPath p way.dropLast names
    else
      let p ← addEntry p way name
      match p.volume.canonical ⟨true, way ++ [name]⟩ with
      | .ok next => addPath p next names
      | .error _ => return p

/-- Adds the settings files and the repository mark of the folder at the end of `way`. -/
def addSettings (p : Picture) (way : List String) : IO Picture :=
  (".git" :: Settings.fileNames).foldlM (fun p name => addEntry p way name) p

/-- Adds the files below the folder at the end of `way` that the filter lets through. -/
partial def addTree (filter : FileFilter) (p : Picture) (way : List String) : IO Picture := do
  let entries ←
    try
      let folder ← IO.FS.realPath (pathText way)
      some <$> folder.readDir
    catch _ => pure none
  match entries with
  | none =>
    let name := way.getLast?.getD ""
    return { p with volume := p.volume.place way.dropLast name (some (.folder false [])) }
  | some entries =>
    entries.toList.foldlM (fun p entry => do
      let name := entry.fileName
      let info ← entry.path.symlinkMetadata
      if info.type == .dir then
        if filter.skipsFolder name then return p
        addTree filter (addFolder p (way ++ [name])) (way ++ [name])
      else if filter.acceptsFile name && !filter.skipsFile name then addEntry p way name
      else return p) p

/-- The picture that a run with the given wishes depends on. -/
def takePicture (wishes : Wishes) : IO Picture := do
  let current ← realWay (← IO.currentDir).toString
  let start := FilePath.ofString (wishes.root.getD ".")
  let p ← addPath ⟨Volume.fresh current, []⟩ (if start.absolute then [] else current) start.parts
  match Settings.findRoot p.volume wishes.root with
  | .error _ => return p
  | .ok root =>
    let ways := (List.range (root.parts.length + 1)).map root.parts.take
    let p ← ways.foldlM addSettings p
    -- the settings come first, since they say which files are to be read
    let filter := do
      let settings ← Settings.resolve p.volume wishes
      (FileFilter.ofPatterns settings.accept settings.ignore).mapError .invalidPattern
    match filter with
    | .error _ => return p
    | .ok filter => addTree filter p root.parts

/-- Writes the files whose content has changed. -/
def writeChanges (p : Picture) (after : Volume) : IO Unit :=
  (p.paths.zip (p.volume.store.zip after.store)).forM fun (path, old, new) => do
    if old.bytes != new.bytes then IO.FS.writeBinFile path ⟨new.bytes.toArray⟩

end SourceTidy.Disk
