import SourceTidy.Check
import SourceTidy.Rule.Standard
import SourceTidy.Settings.Find

/-! # Settings

All that a run depends on. Each setting is what the command line says, or else what the settings
file says, or else a default.
-/

namespace SourceTidy

/-- How the findings are printed. -/
inductive OutputMode where
  | human
  | json
deriving DecidableEq, Repr

def OutputMode.ofName (name : String) : Except StartError OutputMode :=
  if name = "human" then .ok .human
  else if name = "json" then .ok .json
  else .error (.invalidOutput name)

/-- What a command line asks for. Each wish may be missing. -/
structure Wishes where
  root : Option String := none
  fix : Option Bool := none
  eol : Option Bool := none
  output : Option String := none
  parallel : Option Bool := none
  log : Option String := none
deriving DecidableEq, Repr

/-- The settings of a run. -/
structure Settings where
  /-- The folder to check. -/
  root : FilePath
  /-- The settings file, if there is one. -/
  file : Option FilePath
  mode : Mode
  eol : Bool
  output : OutputMode
  parallel : Bool
  log : String
  accept : List String
  ignore : List String
  indentation : List String
  configSyntax : List String
deriving DecidableEq, Repr

namespace Settings

def defaultAccept : List String :=
  ["*.php", "*.phpt", "*.inc", "*.txt", "*.texy", "*.md", "*.css", "*.less", "*.js", "*.json",
   "*.latte", "*.htm", "*.html", "*.phtml", "*.xml", "*.ini", "*.neon", "*.sh", "*.bat", "*.sql",
   ".htaccess", ".gitignore"]

def defaultIgnore : List String := [".*", "*.tmp", "tmp", "temp", "log", "vendor"]

def defaultLog : String := "warn"

/-- The folder to check, by its way from the root: the current folder if there is no other wish. -/
def findRoot (v : Volume) (wish : Option String) : Except StartError FilePath :=
  let start := wish.getD "."
  match v.canonical (FilePath.ofString start) with
  | .error e => .error (.folderNotFound start e)
  | .ok way =>
    match v.root.find? way with
    -- all links have been followed, so the folder is known by one path only
    | some (.folder _ _) => .ok ⟨true, way⟩
    | _ => .error (.notAFolder start)

/-- The preferences of the settings file at a path, if there is such a file. -/
def loadOptional (v : Volume) : Option FilePath → Except StartError Preferences
  | none => .ok {}
  | some path => load v path.toString

/-- The output that is wished for. -/
def chooseOutput : Option String → Except StartError OutputMode
  | none => .ok .human
  | some name => OutputMode.ofName name

/-- The settings of a run with the given wishes. -/
def resolve (v : Volume) (wishes : Wishes) : Except StartError Settings := do
  let root ← findRoot v wishes.root
  let file := findFile v root
  let preferences ← loadOptional v file
  let output ← chooseOutput (wishes.output <|> preferences.output)
  let fix := (wishes.fix <|> preferences.fix).getD false
  return {
    root
    file
    mode := if fix then .fix else .readOnly
    eol := (wishes.eol <|> preferences.eol).getD RuleOptions.default.eol
    output
    parallel := (wishes.parallel <|> preferences.parallel).getD false
    log := (wishes.log <|> preferences.log).getD defaultLog
    accept := preferences.accept.getD defaultAccept
    ignore := preferences.ignore.getD defaultIgnore
    indentation := preferences.indentation.getD RuleOptions.default.indentation
    configSyntax := preferences.configSyntax.getD RuleOptions.default.configSyntax }

/-- The options of the rules. -/
def ruleOptions (s : Settings) : RuleOptions where
  eol := s.eol
  nativeEol := .lf
  indentation := s.indentation
  configSyntax := s.configSyntax

end Settings

end SourceTidy
