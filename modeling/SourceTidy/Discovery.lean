import SourceTidy.FileFilter
import SourceTidy.Volume.Basic

/-! # Finding the files to check

All files below a folder whose names pass the filter, in the order of their paths name by name.
Links to files count as files, links to folders are not followed, and folders that cannot be listed
count as empty.
-/

namespace SourceTidy

/-- Puts named things into the order of their names. -/
def sortByName {α : Type} (named : List (String × α)) : List (String × α) :=
  named.mergeSort fun a b => decide (a.1 ≤ b.1)

mutual

/-- The files at or below the entry at `path`, which is neither the folder where the search starts
nor above it. -/
def Node.discover (v : Volume) (filter : FileFilter) (path : FilePath) (name : String) :
    Node → List FilePath
  | .file _ => if filter.acceptsFile name && !filter.skipsFile name then [path] else []
  | .link _ =>
    if filter.acceptsFile name && !filter.skipsFile name && v.isFile path then [path] else []
  | .folder listable entries =>
    if filter.skipsFolder name || !listable then []
    else (sortByName (discoverEach v filter path entries)).flatMap Prod.snd

/-- The files at or below each entry of the folder at `path`, beside the name of the entry. -/
def discoverEach (v : Volume) (filter : FileFilter) (path : FilePath) :
    List (String × Node) → List (String × List FilePath)
  | [] => []
  | (name, node) :: rest =>
    (name, node.discover v filter (path.child name) name) :: discoverEach v filter path rest

end

/-- The files below the folder at `root`. -/
def findFiles (v : Volume) (root : FilePath) (filter : FileFilter) :
    Except IoError (List FilePath) := do
  match ← v.resolve root with
  | .folder true entries => .ok ((sortByName (discoverEach v filter root entries)).flatMap Prod.snd)
  | .folder false _ => .error .denied
  | _ => .error .notFolder

end SourceTidy
