import SourceTidy.Settings.Basic

/-! # The command line

A command line is a list of options, each of which may be given once. A switch stands alone, and
every other option has a value. Short options can share one dash, and a value follows its option
directly, after an equals sign, or as the next argument. Nothing may follow `--`.

* `CommandLine.parse`: the options that are given, or why the command line is refused.
-/

namespace SourceTidy.CommandLine

/-- The options without a value. -/
inductive Switch where
  | fix
  | eol
  | parallel
deriving DecidableEq, Repr

/-- The options with a value. -/
inductive Setting where
  | root
  | output
  | logLevel
deriving DecidableEq, Repr

/-- What an option stands for. -/
inductive Meaning where
  | switch (s : Switch)
  | setting (s : Setting)
  | help
  | version
deriving DecidableEq, Repr

/-- The short options. -/
def short? (c : Char) : Option Meaning :=
  match c with
  | 'd' => some (.setting .root)
  | 'f' => some (.switch .fix)
  | 'l' => some (.switch .eol)
  | 'h' => some .help
  | 'V' => some .version
  | _ => none

/-- The long options. -/
def long? (name : String) : Option Meaning :=
  match name with
  | "root" => some (.setting .root)
  | "fix" => some (.switch .fix)
  | "eol" => some (.switch .eol)
  | "output" => some (.setting .output)
  | "parallel" => some (.switch .parallel)
  | "log-level" => some (.setting .logLevel)
  | "help" => some .help
  | "version" => some .version
  | _ => none

/-- Why there is nothing to run. -/
inductive Refusal where
  /-- An argument is no option and no value of one. -/
  | unknownArgument
  | missingValue
  | repeated
  /-- A switch has a value. -/
  | unwantedValue
  /-- Help is asked for. -/
  | help
  /-- The version is asked for. -/
  | version
deriving DecidableEq, Repr

/-- The options that are given. -/
structure Given where
  switches : List Switch := []
  settings : List (Setting × String) := []
deriving DecidableEq, Repr

namespace Given

/-- Is the switch given? -/
def has (g : Given) (s : Switch) : Bool := g.switches.contains s

/-- The value of an option. -/
def value? (g : Given) (s : Setting) : Option String := g.settings.lookup s

/-- Adds a switch. -/
def addSwitch (g : Given) (s : Switch) : Except Refusal Given :=
  if g.has s then .error .repeated else .ok { g with switches := s :: g.switches }

/-- Adds the value of an option. -/
def addValue (g : Given) (s : Setting) (value : String) : Except Refusal Given :=
  if (g.value? s).isSome then .error .repeated
  else .ok { g with settings := (s, value) :: g.settings }

/-- What the options ask for. -/
def wishes (g : Given) : Wishes where
  root := g.value? .root
  fix := if g.has .fix then some true else none
  eol := if g.has .eol then some true else none
  output := g.value? .output
  parallel := if g.has .parallel then some true else none
  log := g.value? .logLevel

end Given

/-- The options so far, of which the last may still be without its value. -/
structure Reader where
  given : Given := {}
  /-- An option that is not yet added, and its value. -/
  pending : Option (Setting × Option String) := none
deriving DecidableEq, Repr

namespace Reader

/-- Adds the pending option. -/
def settle (r : Reader) : Except Refusal Given :=
  match r.pending with
  | none => .ok r.given
  | some (_, none) => .error .missingValue
  | some (s, some value) => r.given.addValue s value

/-- Reads an option without a value. -/
def mention (r : Reader) : Meaning → Except Refusal Reader
  | .switch s => do
    let given ← r.settle
    return { given := ← given.addSwitch s }
  | .setting s => do
    let given ← r.settle
    return { given, pending := some (s, none) }
  -- an option that still waits for its value is complained about first
  | .help => do
    let _ ← r.settle
    throw .help
  | .version => do
    let _ ← r.settle
    throw .version

/-- Reads an option with a value. -/
def assign (r : Reader) (s : Setting) (value : String) : Except Refusal Reader := do
  let given ← r.settle
  return { given := ← given.addValue s value }

/-- Reads short options that share one dash. -/
def readShort (r : Reader) : List Char → Except Refusal Reader
  | [] => .ok r
  | c :: rest =>
    match short? c with
    | none => .error .unknownArgument
    | some (.setting s) =>
      match rest with
      | [] => r.mention (.setting s)
      | x :: value => r.assign s (String.ofList (if x = '=' then value else x :: value))
    | some meaning => do
      let r ← r.mention meaning
      r.readShort rest

/-- Reads a long option, what follows its two dashes. -/
def readLong (r : Reader) (text : List Char) : Except Refusal Reader :=
  let name := text.takeWhile (· != '=')
  let value := text.drop (name.length + 1)
  match long? (String.ofList name) with
  | none => .error .unknownArgument
  | some meaning =>
    if name.length = text.length then r.mention meaning
    else match meaning with
      | .setting s => r.assign s (String.ofList value)
      | _ => .error .unwantedValue

/-- Reads an argument that is no option. -/
def readValue (r : Reader) (value : String) : Except Refusal Reader :=
  match r.pending with
  | some (s, none) => .ok { r with pending := some (s, some value) }
  | _ => .error .unknownArgument

/-- Reads one argument. -/
def read (r : Reader) (argument : String) : Except Refusal Reader :=
  match argument.toList with
  | '-' :: '-' :: text => r.readLong text
  | '-' :: c :: text => r.readShort (c :: text)
  | _ => r.readValue argument

/-- Reads the arguments that are left. -/
def readAll (r : Reader) : List String → Except Refusal Given
  | [] => r.settle
  | argument :: rest =>
    if argument = "--" then
      if rest.isEmpty then r.settle else .error .unknownArgument
    else do
      let r ← r.read argument
      r.readAll rest

end Reader

/-- The options on a command line. -/
def parse (arguments : List String) : Except Refusal Given := Reader.readAll {} arguments

end SourceTidy.CommandLine
