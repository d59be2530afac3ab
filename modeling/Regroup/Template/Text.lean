/-
  Regroup.Template.Text — templates as JSON or YAML text.

  A YAML text is read as a value, then as a property tree, and only then as a template, so
  each of the three has its own way to fail (`TemplateError`). YAML is always written with
  the functions' long names.
-/

import Regroup.Json.Reader
import Regroup.Json.Writer
import Regroup.Path
import Regroup.Template.Codec
import Regroup.Yaml.Reader
import Regroup.Yaml.Shown
import Regroup.Yaml.Writer

namespace Regroup

inductive TemplateError where
  /-- The text is no JSON, or the tree is no template. -/
  | json
  /-- The text is no YAML. -/
  | yaml
  /-- The file cannot be read or written. -/
  | file (reason : String)
  | store (e : StoreError)
  | unsupportedFormat (name : String)
  /-- A mapping key that is no field name. -/
  | unsupportedKey (key : Yaml)
  deriving Repr

def TemplateError.message : TemplateError → String
  | .json => "JSON error: not a template"
  | .yaml => "YAML error: not a document"
  | .file reason => "IO error: " ++ reason
  | .store e => "Graph error: " ++ e.message
  | .unsupportedFormat name => "Unsupported document format: " ++ name
  | .unsupportedKey key => "Invalid template: unsupported mapping key: " ++ key.shown

inductive Format where
  | json
  | yaml
  deriving DecidableEq, Repr

namespace Format

def ofName? : String → Option Format
  | "json" => some .json
  | "yaml" => some .yaml
  | "yml" => some .yaml
  | _ => none

def ofName (name : String) : Except TemplateError Format :=
  (ofName? name).elim (.error (.unsupportedFormat name)) .ok

/-- The format that a file's extension names. -/
def ofPath (path : String) : Except TemplateError Format :=
  ((Path.extension? path).bind ofName?).elim (.error (.unsupportedFormat path)) .ok

def extension : Format → String
  | .json => "json"
  | .yaml => "yaml"

theorem ofName?_extension (f : Format) : ofName? f.extension = some f := by cases f <;> rfl

end Format

namespace Template

def parse (format : Format) (text : String) : Except TemplateError Template :=
  match format with
  | .json => ((Json.read? text).bind ofJson?).elim (.error .json) .ok
  | .yaml =>
    match Yaml.read? text with
    | none => .error .yaml
    | some v =>
      match v.toTree with
      | .error key => .error (.unsupportedKey key)
      | .ok tree => (ofJson? (.ofTree tree)).elim (.error .json) .ok

def render (format : Format) (t : Template) : String :=
  match format with
  | .json => t.toTree.pretty
  | .yaml => (Yaml.ofTree t.toTree).render

end Template

end Regroup
