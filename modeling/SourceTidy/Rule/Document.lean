import SourceTidy.Format
import SourceTidy.Rule.Basic
import SourceTidy.Template.Nesting

/-! # Rules on documents

Templates and configuration files are refused if they are malformed.
-/

namespace SourceTidy.Rule

/-- Refuses a template whose tags do not nest. Tags that are not in the catalogue may come from
extensions of the project and are let through. -/
def templateSyntax : Rule where
  name := "template-syntax"
  run file content :=
    if file.hasExtension ["latte"] && Utf8.valid content then
      match Template.check content with
      | .error (.malformed problem line) => .found [.error problem.message (some line)]
      | .error (.unknownTag _ _) | .ok () => .none
    else .none

/-- Refuses a configuration file that is no document of the format its extension names. -/
def configSyntax (decoders : List (String × Decoder)) : Rule where
  name := "config-syntax"
  run file content :=
    match decoders.find? fun d => d.1 == file.extension with
    | none => .none
    | some (_, decoder) =>
      if Utf8.valid content then
        match decoder content with
        | .ok () => .none
        | .error failure => .found [.error failure.message failure.line]
      else .none

end SourceTidy.Rule
