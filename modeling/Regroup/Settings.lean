/-
  Regroup.Settings — naming settings from a YAML text.

  The text holds one mapping, or nothing. A setting that is left out keeps its default, an
  unknown one is passed over, a repeated one is refused. Any scalar is a value as it is
  written, whatever its tag.
-/

import Regroup.Naming
import Regroup.Yaml.Node

namespace Regroup.Naming

/-- The text of a scalar, or of one that an alias stands for. -/
def scalarText? (targets : List (Nat × Yaml.Node)) : Yaml.Node → Option String
  | .scalar _ _ _ s => some s
  | .alias number =>
    match targets.reverse.lookup number with
    | some (.scalar _ _ _ s) => some s
    | _ => none
  | _ => none

/-- The settings among the entries, each at most once. -/
def settings? (targets : List (Nat × Yaml.Node)) : List (Yaml.Node × Yaml.Node) → Option (Fields String)
  | [] => some []
  | (key, value) :: rest => do
    let key ← scalarText? targets key
    let found ← if ["export_separator", "output_suffix"].contains key then
        (scalarText? targets value).map fun s => [(key, s)]
      else some []
    let later ← settings? targets rest
    if found.any fun (name, _) => later.has name then none else return found ++ later

def ofYaml? (text : String) : Option Naming := do
  match ← Yaml.Node.read? text with
  | none => return {}
  | some (.mapping anchor tag entries) =>
    let found ← settings? (Yaml.Node.anchored (.mapping anchor tag entries)) entries
    return { separator := (found.find? "export_separator").getD ({} : Naming).separator
             suffix := (found.find? "output_suffix").getD ({} : Naming).suffix }
  | some (.scalar _ _ plain s) => if plain && s.isEmpty then return {} else none
  | some _ => none

end Regroup.Naming
