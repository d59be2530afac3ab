/-
  Regroup.Template — a group's document: its resources and its outputs.
-/

import Regroup.Tree

namespace Regroup

/-- Explicit predecessors, a lone name or a list. -/
inductive DependsOn where
  | one (name : String)
  | many (names : List String)
  deriving DecidableEq, Repr

namespace DependsOn

def names : DependsOn → List String
  | .one name => [name]
  | .many names => names

/-- A lone name for one, a list for several, nothing for none. -/
def ofNames? : List String → Option DependsOn
  | [] => none
  | [name] => some (.one name)
  | names => some (.many names)

theorem names_ofNames? (names : List String) : ((ofNames? names).map DependsOn.names).getD [] = names := by
  match names with
  | [] => rfl
  | [_] => rfl
  | _ :: _ :: _ => rfl

end DependsOn

structure Resource where
  /-- The resource type. -/
  kind : String
  properties : Option Tree := none
  dependsOn : Option DependsOn := none
  /-- All else that is declared with the resource. -/
  extra : Fields Tree := []
  deriving Repr

structure Output where
  value : Tree
  description : Option String := none
  /-- The name to publish the value under, if it is published. -/
  exportName : Option Tree := none
  deriving Repr

structure Template where
  formatVersion : Option String := none
  description : Option String := none
  resources : Fields Resource := []
  outputs : Fields Output := []
  deriving Repr

/-- The version that generated templates declare. -/
def Template.currentVersion : String := "2010-09-09"

end Regroup
