import SourceTidy.Settings.Preferences
import SourceTidy.Settings.StartError

/-! # The settings file

The settings file of a folder is the nearest one in the folder or above it. The search does not
leave a repository: it ends at a folder with an entry `.git`, after a look at the folder itself.
-/

namespace SourceTidy.Settings

/-- The names of settings files, the preferred first. -/
def fileNames : List String := ["codecheck.toml", "codecheck.yaml", "codecheck.yml"]

/-- The settings file in the folder at `path`. -/
def fileIn? (v : Volume) (path : FilePath) : Option FilePath :=
  (fileNames.map path.child).find? v.isFile

/-- Searches the folder whose path has the given names, in reverse order, and those above it. -/
def search (v : Volume) (absolute : Bool) : List String → Option FilePath
  | [] => fileIn? v ⟨absolute, []⟩
  | name :: above =>
    let path : FilePath := ⟨absolute, (name :: above).reverse⟩
    match fileIn? v path with
    | some file => some file
    | none => if v.isPresent (path.child ".git") then none else search v absolute above

/-- The settings file of the folder at `path`. -/
def findFile (v : Volume) (path : FilePath) : Option FilePath :=
  search v path.absolute path.parts.reverse

/-- Reads a settings file. Its extension tells its format. -/
def load (v : Volume) (path : String) : Except StartError Preferences :=
  match v.read (FilePath.ofString path) with
  | .error e => .error (.unreadableSettings path e)
  | .ok source =>
    if !Utf8.valid source then .error (.unreadableSettings path .invalidText)
    else
      let found := match (FilePath.ofString path).extension? with
        | some "yaml" | some "yml" => Preferences.ofYaml? source
        | _ => Preferences.ofToml? source
      match found with
      | some preferences => .ok preferences
      | none => .error (.invalidSettings path)

end SourceTidy.Settings
