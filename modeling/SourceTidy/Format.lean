import SourceTidy.Json.Document
import SourceTidy.Neon.Document
import SourceTidy.Toml.Document
import SourceTidy.Yaml.Schema

/-! # Formats of configuration files

A format is known by the extension of its files. Its decoder says whether a text is a document of
that format and, if not, why and where.
-/

namespace SourceTidy

/-- Why a text is no document. -/
structure DecodeFailure where
  message : String
  line : Option Nat
deriving DecidableEq, Repr

/-- Decides whether a text is a document. -/
abbrev Decoder := Bytes → Except DecodeFailure Unit

namespace Decoder

def neon : Decoder := fun source =>
  (Neon.decode source).mapError fun f => ⟨f.problem.message, some f.line⟩

def json : Decoder := fun source =>
  (Json.decode source).mapError fun f => ⟨f.problem.message, some f.line⟩

def yaml : Decoder := fun source =>
  (Yaml.decode source).mapError fun line => ⟨"invalid YAML document", some line⟩

def toml : Decoder := fun source =>
  match Toml.decode source with
  | .ok _ => .ok ()
  | .error f => .error ⟨f.problem.message, some f.line⟩

/-- The decoder of a format. -/
def ofName? (name : String) : Option Decoder :=
  match name with
  | "neon" => some neon
  | "json" => some json
  | "yaml" | "yml" => some yaml
  | "toml" => some toml
  | _ => none

end Decoder

end SourceTidy
