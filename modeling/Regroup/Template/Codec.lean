/-
  Regroup.Template.Codec — templates as property trees, and from JSON.

  Absent fields are left out, except that the resources are always written. Of a resource,
  every field that is not its type, properties or predecessors is kept as an extra one; a
  resource is therefore read from a record only, the other parts also from a list.
-/

import Regroup.Json.Codec
import Regroup.Template

namespace Regroup

open Json (members? required optional text?)

namespace DependsOn

def toTree : DependsOn → Tree
  | .one name => .text name
  | .many names => .list (names.map .text)

def ofJson? : Json → Option DependsOn
  | .text name => some (.one name)
  | .list items => (items.mapM text?).map .many
  | _ => none

end DependsOn

namespace Resource

def known : List String := ["Type", "Properties", "DependsOn"]

def toTree (r : Resource) : Tree := .record ([("Type", .text r.kind)] ++ Tree.present "Properties" r.properties ++
  Tree.present "DependsOn" (r.dependsOn.map DependsOn.toTree) ++ r.extra)

def ofJson? (v : Json) : Option Resource := do
  let .record members := v | none
  let ms ← members? known v
  let extra ← Json.treeFields? (.record (members.filter (!known.contains ·.1)))
  return { kind := ← required ms "Type" text?, properties := ← optional ms "Properties" Json.tree?,
           dependsOn := ← optional ms "DependsOn" DependsOn.ofJson?, extra }

end Resource

namespace Output

def exportTree (name : Tree) : Tree := .record [("Name", name)]

def exportOfJson? (v : Json) : Option Tree := do
  let ms ← members? ["Name"] v
  required ms "Name" Json.tree?

def toTree (o : Output) : Tree := .record ([("Value", o.value)] ++
  Tree.present "Description" (o.description.map .text) ++ Tree.present "Export" (o.exportName.map exportTree))

def ofJson? (v : Json) : Option Output := do
  let ms ← members? ["Value", "Description", "Export"] v
  return { value := ← required ms "Value" Json.tree?, description := ← optional ms "Description" text?,
           exportName := ← optional ms "Export" exportOfJson? }

end Output

namespace Template

def toTree (t : Template) : Tree := .record (
  Tree.present "AWSTemplateFormatVersion" (t.formatVersion.map .text) ++
  Tree.present "Description" (t.description.map .text) ++
  [("Resources", .record (t.resources.map fun (name, r) => (name, r.toTree)))] ++
  (if t.outputs.isEmpty then [] else [("Outputs", .record (t.outputs.map fun (name, o) => (name, o.toTree)))]))

def ofJson? (v : Json) : Option Template := do
  let ms ← members? ["AWSTemplateFormatVersion", "Description", "Resources", "Outputs"] v
  let fields {α : Type} (name : String) (read : Json → Option α) :=
    (ms.find? name).elim (some []) (Json.fieldsOf? read)
  return { formatVersion := ← optional ms "AWSTemplateFormatVersion" text?,
           description := ← optional ms "Description" text?,
           resources := ← fields "Resources" Resource.ofJson?, outputs := ← fields "Outputs" Output.ofJson? }

end Template

end Regroup
