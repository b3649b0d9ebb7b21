import SourceTidy.Toml.Document
import SourceTidy.Yaml.Schema

/-! # Preferences

What a settings file says. Each entry may be missing; entries of other names are ignored. A file is
written in TOML or in YAML.
-/

namespace SourceTidy

/-- The entries of a settings file. -/
structure Preferences where
  fix : Option Bool := none
  eol : Option Bool := none
  output : Option String := none
  parallel : Option Bool := none
  log : Option String := none
  accept : Option (List String) := none
  ignore : Option (List String) := none
  indentation : Option (List String) := none
  configSyntax : Option (List String) := none
deriving DecidableEq, Repr

namespace Preferences

/-- How the entries of a document are read: each reader fails on an entry of another type, and
yields nothing for one that is missing. -/
structure Readers where
  boolean? : String → Option (Option Bool)
  text? : String → Option (Option String)
  texts? : String → Option (Option (List String))

/-- The preferences in a document, unless an entry has the wrong type. -/
def gather? (r : Readers) : Option Preferences := do
  return {
    fix := ← r.boolean? "fix"
    eol := ← r.boolean? "eol"
    output := ← r.text? "output"
    parallel := ← r.boolean? "parallel"
    log := ← r.text? "log"
    accept := ← r.texts? "accept"
    ignore := ← r.texts? "ignore"
    indentation := ← r.texts? "indentation"
    configSyntax := ← r.texts? "config_syntax" }

/-! ## TOML -/

def tomlString? : Toml.Value → Option String
  | .string s => some s
  | _ => none

def tomlBoolean? : Toml.Value → Option Bool
  | .boolean b => some b
  | _ => none

def tomlStrings? : Toml.Value → Option (List String)
  | .array items => items.mapM tomlString?
  | _ => none

/-- Reads an outermost key. A key that stands for a table has the wrong type. -/
def tomlAt? {α : Type} (store : Toml.Store) (read? : Toml.Value → Option α) (key : String) :
    Option (Option α) :=
  match store.root? key with
  | none => some none
  | some (.value v) => (read? v).map some
  | some _ => none

/-- The preferences in a TOML document. What is ignored may hold integers of 128 bits. -/
def ofToml? (source : Bytes) : Option Preferences :=
  -- unlike a file that is checked, where 64 bits are the limit
  match Toml.parse .wide source with
  | .error _ => none
  | .ok store => gather?
      ⟨tomlAt? store tomlBoolean?, tomlAt? store tomlString?, tomlAt? store tomlStrings?⟩

/-! ## YAML -/

/-- Says whether the node has a value, or only a way to say that there is none. Under the tag for
null no other text may stand. -/
def isPresent? : Yaml.Node → Option Bool
  | .scalar text .plain none => some !(text.isEmpty || Yaml.isNull text)
  | .scalar text .plain (some t) =>
    if t = Yaml.coreTag "null" then (if Yaml.isNull text then some false else none) else some true
  | _ => some true

/-- Is it a scalar that is not written, whatever its tag? -/
def isBlank : Yaml.Node → Bool
  | .scalar [] .plain _ => true
  | _ => false

/-- A boolean is plain, or a block of lines with its tag. -/
def yamlBoolean? : Yaml.Node → Option Bool
  | .scalar text .plain _ => Yaml.boolean? text
  | .scalar text .literal (some t) => if t = Yaml.coreTag "bool" then Yaml.boolean? text else none
  | _ => none

/-- Every scalar can be a text. -/
def yamlString? : Yaml.Node → Option String
  | .scalar text _ _ => some (String.ofList text)
  | _ => none

/-- A list of texts; one that is not written is empty. -/
def yamlStrings? (d : Yaml.Document) : Yaml.Node → Option (List String)
  | .sequence items _ => items.mapM fun n => (d.resolve? n).bind yamlString?
  | node => if isBlank node then some [] else none

/-- Reads the entry of a key. A key that stands there twice cannot be read. -/
def yamlAt? {α : Type} (d : Yaml.Document) (entries : List (String × Yaml.Node))
    (read? : Yaml.Node → Option α) (key : String) : Option (Option α) :=
  match entries.filter (·.1 == key) with
  | [] => some none
  | [(_, node)] => do
    let node ← d.resolve? node
    if ← isPresent? node then (read? node).map some else some none
  | _ => none

/-- The preferences in a document. Nothing at all, or null, says nothing. -/
def ofDocument? (d : Yaml.Document) : Option Preferences :=
  match d.root with
  | .mapping keys values _ => do
    let names ← keys.mapM fun k => (d.resolve? k).bind yamlString?
    let entries := names.zip values
    gather? ⟨yamlAt? d entries yamlBoolean?, yamlAt? d entries yamlString?,
      yamlAt? d entries (yamlStrings? d)⟩
  | node => if isBlank node || isPresent? node == some false then some {} else none

/-- The preferences in a YAML document. An empty one has none. -/
def ofYaml? (source : Bytes) : Option Preferences :=
  match Yaml.parse source with
  | .error _ => none
  | .ok none => some {}
  | .ok (some d) => ofDocument? d

end Preferences

end SourceTidy
