/-
  Regroup.Json.Codec — the graph's own values as JSON records, and back.

  A record is read by field names, or from a list of its fields in order. A field it knows may
  not be repeated, one it does not know is passed over; an optional field may be absent or
  null. `toTree` writes the fields in order and leaves absent ones out.
-/

import Regroup.Json
import Regroup.Store

namespace Regroup

namespace Json

/-- The members of a record with the fields `known`. -/
def members? (known : List String) : Json → Option (Fields Json)
  | .record members =>
    if known.any fun name => members.countP (·.1 == name) > 1 then none
    else some (members.filter (known.contains ·.1))
  | .list items => if items.length ≤ known.length then some (known.zip items) else none
  | _ => none

def text? : Json → Option String
  | .text s => some s
  | _ => none

def bool? : Json → Option Bool
  | .bool b => some b
  | _ => none

def required {α : Type} (members : Fields Json) (name : String) (read : Json → Option α) : Option α :=
  (members.find? name).bind read

/-- Absent and null are nothing; anything else must be readable. -/
def optional {α : Type} (members : Fields Json) (name : String) (read : Json → Option α) : Option (Option α) :=
  match members.find? name with
  | none => some none
  | some .null => some none
  | some v => (read v).map some

/-- The value by name, with the last of repeated names in the place of the first. -/
def fieldsOf? {α : Type} (read : Json → Option α) : Json → Option (Fields α)
  | .record members => (members.mapM fun m => (read m.2).map (m.1, ·)).map Fields.ofPairs
  | _ => none

def treeFields? (v : Json) : Option (Fields Tree) := v.tree?.bind Tree.fields?

end Json

/-- A field that is left out when it is absent. -/
def Tree.present (name : String) : Option Tree → List (String × Tree)
  | none => []
  | some v => [(name, v)]

open Json (members? required optional text? bool?)

namespace Address

def toTree (a : Address) : Tree := .record [("group", .text a.group), ("name", .text a.name)]

def ofJson? (v : Json) : Option Address := do
  let ms ← members? ["group", "name"] v
  return ⟨← required ms "group" text?, ← required ms "name" text?⟩

end Address

namespace EdgeKind

/-- The label, alone or as the only member of a record whose value is null. -/
def ofJson? : Json → Option EdgeKind
  | .text label => ofLabel? label
  | .record [(label, .null)] => ofLabel? label
  | _ => none

end EdgeKind

namespace Edge

def toTree (e : Edge) : Tree := .record ([("source", e.source.toTree), ("target", e.target.toTree),
  ("kind", .text e.kind.label), ("cross_group", .bool e.crossGroup)] ++ Tree.present "attribute" (e.attr.map .text))

def ofJson? (v : Json) : Option Edge := do
  let ms ← members? ["source", "target", "kind", "cross_group", "attribute"] v
  return ⟨← required ms "source" Address.ofJson?, ← required ms "target" Address.ofJson?,
    ← required ms "kind" EdgeKind.ofJson?, ← required ms "cross_group" bool?, ← optional ms "attribute" text?⟩

end Edge

namespace Node

def toTree (n : Node) : Tree := .record ([("id", n.id.toTree), ("kind", .text n.kind),
  ("properties", n.properties)] ++ Tree.present "metadata" (n.metadata.map .record))

def ofJson? (v : Json) : Option Node := do
  let ms ← members? ["id", "kind", "properties", "metadata"] v
  return ⟨← required ms "id" Address.ofJson?, ← required ms "kind" text?,
    ← required ms "properties" Json.tree?, ← optional ms "metadata" Json.treeFields?⟩

end Node

namespace Export

def toTree (e : Export) : Tree := .record ([("name", .text e.name), ("source", e.source.toTree)] ++
  Tree.present "output_id" (e.outputId.map .text) ++ Tree.present "value" e.value)

def ofJson? (v : Json) : Option Export := do
  let ms ← members? ["name", "source", "output_id", "value"] v
  return ⟨← required ms "name" text?, ← required ms "source" Address.ofJson?,
    ← optional ms "output_id" text?, ← optional ms "value" Json.tree?⟩

end Export

namespace Naming

def toTree (n : Naming) : Tree :=
  .record [("export_separator", .text n.separator), ("output_suffix", .text n.suffix)]

/-- A field that is left out keeps its default; null is no text. -/
def ofJson? (v : Json) : Option Naming := do
  let ms ← members? ["export_separator", "output_suffix"] v
  let text (name standard : String) := ((ms.find? name).map text?).getD (some standard)
  return ⟨← text "export_separator" ({} : Naming).separator, ← text "output_suffix" ({} : Naming).suffix⟩

end Naming

end Regroup
