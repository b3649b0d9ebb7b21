import SourceTidy.FileFilter
import SourceTidy.Volume.Basic

/-! # Why a run cannot start

Each of these ends a run before the first file is read. What is wrong with a single file is a
finding in that file, and never ends a run.
-/

namespace SourceTidy

/-- What keeps a run from starting. -/
inductive StartError where
  | folderNotFound (path : String) (error : IoError)
  | notAFolder (path : String)
  | unreadableSettings (path : String) (error : IoError)
  | invalidSettings (path : String)
  | invalidOutput (name : String)
  | invalidLogFilter (filter : String)
  | invalidPattern (bad : FileFilter.BadPattern)
  | unknownFormat (name : String)
  | unreadableFolder (path : String) (error : IoError)
deriving DecidableEq, Repr

def StartError.message : StartError → String
  | .folderNotFound path e => "folder not found: " ++ path ++ ": " ++ e.message
  | .notAFolder path => "not a folder: " ++ path
  | .unreadableSettings path e => "failed to read config " ++ path ++ ": " ++ e.message
  | .invalidSettings path => "invalid config " ++ path ++ ": not a settings document"
  | .invalidOutput name => "invalid output mode '" ++ name ++ "' (expected human or json)"
  | .invalidLogFilter filter => "invalid log filter: " ++ filter
  | .invalidPattern bad => "invalid file pattern '" ++ bad.pattern ++ "': " ++ bad.fault.message
  | .unknownFormat name =>
    "no syntax decoder for '" ++ name ++ "' (known: neon, json, yaml, yml, toml)"
  | .unreadableFolder path e => "failed to scan " ++ path ++ ": " ++ e.message

end SourceTidy
