/-
  Regroup.Export — a named value that one group publishes for the others.

  An export shows its source node whole, or one attribute of it, when its value is exactly
  that reference (no value stands for the whole node). Any other value is computed.
-/

import Regroup.Address
import Regroup.Reference

namespace Regroup

structure Export where
  name : String
  source : Address
  /-- The output that publishes it in the source group's template. -/
  outputId : Option String
  value : Option Tree
  deriving Repr

/-- What an export shows of its source. -/
inductive Exposure where
  | computed
  | whole
  | attrOf (attr : String)
  deriving DecidableEq, Repr

namespace Exposure

/-- The node whole, or the attribute. -/
def ofAttr : Option String → Exposure
  | none => .whole
  | some attr => .attrOf attr

def attr? : Exposure → Option String
  | .attrOf attr => some attr
  | _ => none

/-- What a reference shows of the node `name` of its own group. -/
def ofReference (name : String) : Option Reference → Exposure
  | some (.node n) => if n = name then .whole else .computed
  | some (.attrOf n attr) => if n = name then .attrOf attr else .computed
  | _ => .computed

end Exposure

namespace Export

def exposure (e : Export) : Exposure :=
  match e.value with
  | none => .whole
  | some value => .ofReference e.source.name value.reference?

/-- Whether the export shows exactly this attribute of `id`, or `id` whole. -/
def exposes (e : Export) (id : Address) (attr : Option String) : Bool :=
  e.source == id && e.exposure == .ofAttr attr

/-- The published expression; an export without one stands for its source. -/
def expression (e : Export) : Tree := e.value.getD (Reference.node e.source.name).construct

end Export

end Regroup
