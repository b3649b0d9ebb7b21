import SourceTidy.CommandLine
import SourceTidy.Discovery
import SourceTidy.LogFilter.Basic
import SourceTidy.Report.Document
import SourceTidy.Text.Blank

/-! # The program

What the program does with a command line and a volume: what it prints, how it ends, and the volume
that it leaves.
-/

namespace SourceTidy

/-- A run that is ready to start. -/
structure Plan where
  settings : Settings
  rules : List Rule
  files : List FilePath

namespace Plan

/-- Makes a run ready: reads the patterns, chooses the rules and finds the files. -/
def ofSettings (v : Volume) (settings : Settings) : Except StartError Plan := do
  let filter ← (FileFilter.ofPatterns settings.accept settings.ignore).mapError .invalidPattern
  let rules ← (Rule.standard settings.ruleOptions).mapError .unknownFormat
  let files ← (findFiles v settings.root filter).mapError (.unreadableFolder settings.root.toString)
  return { settings, rules, files }

/-- Checks the files. -/
def run (p : Plan) (v : Volume) : RunResult :=
  let run : Run := ⟨p.settings.root, p.rules, p.settings.mode⟩
  run.check p.settings.parallel v p.files

end Plan

namespace Program

/-- What the program is told apart from its command line. -/
structure Environment where
  /-- May the output have colours? -/
  colours : Bool
  /-- A log filter that outweighs all others, unless it is blank. -/
  logFilter : Option String
deriving DecidableEq, Repr

/-- How the program ends. -/
structure Ending where
  /-- Zero if all files passed, one if not, and two if the run could not start. -/
  exitCode : Nat
  output : String
  /-- The lines for the user that are no output. -/
  notes : List String
  volume : Volume
deriving Repr

def versionText : String := "codecheck 0.1.0\n"

def helpText : String :=
  "Checks and fixes PHP project source trees\n\n" ++
  "Usage: codecheck [OPTIONS]\n\n" ++
  "Options:\n" ++
  "  -d, --root <DIR>          Folder to scan (default: current dir)\n" ++
  "  -f, --fix                 Fix files (default: only report)\n" ++
  "  -l, --eol                 Convert line endings to the system's\n" ++
  "      --output <OUTPUT>     Output mode: human|json (default: human)\n" ++
  "      --parallel            Check files in parallel\n" ++
  "      --log-level <FILTER>  Log filter, e.g. info or codecheck=debug (default: warn)\n" ++
  "  -h, --help                Print help\n" ++
  "  -V, --version             Print version\n"

/-- The complaint about a command line. -/
def complaint : CommandLine.Refusal → String
  | .unknownArgument => "error: unexpected argument found"
  | .missingValue => "error: a value is required but none was supplied"
  | .repeated => "error: an argument cannot be used multiple times"
  | .unwantedValue => "error: unexpected value for a flag"
  | .help => "error: help requested"
  | .version => "error: version requested"

/-- The log filter that is in force. -/
def logFilter (env : Environment) (settings : Settings) : String :=
  match env.logFilter with
  | some filter => if filter.toList.all Text.isBlank then settings.log else filter
  | none => settings.log

/-- Makes the run that is asked for. -/
def prepare (env : Environment) (wishes : Wishes) (v : Volume) : Except StartError Plan := do
  let settings ← Settings.resolve v wishes
  let filter := logFilter env settings
  if !LogFilter.isValid filter then throw (.invalidLogFilter filter)
  Plan.ofSettings v settings

/-- What a user is told before the run. A program that reads the output is told nothing. -/
def notes (env : Environment) (p : Plan) : List String :=
  let note (text : String) : String := Report.paint env.colours .blue "Note:" ++ " " ++ text
  let activity := if p.settings.mode = .readOnly then "read-only" else "fixing"
  if p.settings.output = .json then []
  else
    (if p.settings.file.isNone then [note "No codecheck.toml found; using defaults."] else []) ++
    [note ("Scanning " ++ p.settings.root.toString ++ " (" ++ toString p.files.length ++
      " files, " ++ activity ++ ")")]

/-- The output of a run. -/
def render (env : Environment) (settings : Settings) (result : RunResult) : String :=
  match settings.output with
  | .human =>
    String.join ((Report.lines env.colours settings.mode result.events).map (· ++ "\n"))
  | .json =>
    (Report.document settings.mode (Report.findings result.events) result.summary).pretty 0 ++ "\n"

/-- What the program does. -/
def run (env : Environment) (arguments : List String) (v : Volume) : Ending :=
  match CommandLine.parse arguments with
  | .error .help => ⟨0, helpText, [], v⟩
  | .error .version => ⟨0, versionText, [], v⟩
  | .error refusal => ⟨2, "", [complaint refusal], v⟩
  | .ok given =>
    match prepare env given.wishes v with
    | .error e => ⟨2, "", [Report.paint env.colours .red "Error:" ++ " " ++ e.message], v⟩
    | .ok plan =>
      let result := plan.run v
      ⟨if result.summary.success then 0 else 1, render env plan.settings result, notes env plan,
        result.volume⟩

end Program

end SourceTidy
