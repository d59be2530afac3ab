/-
  Regroup.Template.Generation — the template of a group, from the store as it stands.

  Resources come from the group's nodes and outputs from the exports sourced there, both in
  store order. In the trees, a local name that no node of the group has is looked up among
  the referrer's edges and becomes an import of the matching export; an import of what this
  group itself publishes becomes a local reference (`localize`).
-/

import Regroup.Reference.Redirect
import Regroup.Store
import Regroup.Template

namespace Regroup.Store

/-- What a reference becomes in the template of `group`, given the edges of its referrer. -/
def localize (s : Store) (group : String) (references : List Edge) (r : Reference) : Option Reference :=
  match r with
  | .imported name =>
    match s.export? name with
    | none => none
    | some e =>
      if e.source.group ≠ group then none
      else match e.exposure with
        | .computed => none
        | .whole => some (.node e.source.name)
        | .attrOf attr => some (.attrOf e.source.name attr)
  | .node name | .attrOf name _ =>
    if s.has ⟨group, name⟩ then none
    else do
      let attr := r.attributeName?
      let edge ← references.find? fun e => e.target.name == name && e.target.group != group && e.attr == attr
      let e ← s.exportOf? edge.target attr
      return .imported e.name

/-- The properties of `node` as its group's template gives them. -/
def localizedProperties (s : Store) (group : String) (node : Node) : Tree :=
  (node.properties.redirect (s.localize group ((s.dependencies node.id).filter (·.kind.isReference)))).result

/-- The names in `group` that `id` is ordered after, each once. -/
def predecessors (s : Store) (group : String) (id : Address) : List String :=
  (((s.dependencies id).filter fun e => e.kind == .structural && e.target.group == group).map
    (·.target.name)).eraseDups

def resourceFor (s : Store) (group : String) (node : Node) : Resource :=
  let properties := s.localizedProperties group node
  { kind := node.kind
    properties := if properties.isEmpty then none else some properties
    dependsOn := DependsOn.ofNames? (s.predecessors group node.id)
    extra := node.metadata.getD [] }

/-- The outputs after `done`, one for each export, under its output id or the next free number of it. -/
def outputsFrom (s : Store) (done : Fields Output) : List Export → Fields Output
  | [] => done
  | e :: rest =>
    let id := Fresh.name (e.outputId.getD (s.naming.outputId e.name none)) "" (Fields.keys done)
    s.outputsFrom (done ++ [(id, { value := e.expression, exportName := some (.text e.name) })]) rest

def generate (s : Store) (group : String) : Template :=
  { formatVersion := some Template.currentVersion
    resources := Fields.ofPairs ((s.members group).map fun node => (node.id.name, s.resourceFor group node))
    outputs := s.outputsFrom [] (s.exportsIn group) }

end Regroup.Store
