/-
  Regroup.Store — the graph: nodes, edges and exports, each in the order they came.

  Nodes are found by address, exports by name. Every change either succeeds with the next
  store or names the one reason why not (`StoreError`); nothing is changed in place, so a
  failure leaves nothing behind.
-/

import Regroup.Edge
import Regroup.Export
import Regroup.Naming

namespace Regroup

/-- A declared resource. -/
structure Node where
  id : Address
  /-- The resource type. -/
  kind : String
  properties : Tree
  /-- Declared beside the properties: policies, conditions, metadata. -/
  metadata : Option (Fields Tree)
  deriving Repr

inductive StoreError where
  | notFound (id : Address)
  | alreadyExists (id : Address)
  | danglingEdge (source target : Address)
  | cycleDetected (id : Address)
  deriving DecidableEq, Repr

def StoreError.message : StoreError → String
  | .notFound id => "Node not found: " ++ id.render
  | .alreadyExists id => "Address already occupied: " ++ id.render
  | .danglingEdge source target => "Edge endpoint missing: " ++ source.render ++ " -> " ++ target.render
  | .cycleDetected id => "Cycle detected at " ++ id.render

structure Store where
  nodes : List Node := []
  edges : List Edge := []
  exports : List Export := []
  naming : Naming := {}
  deriving Repr

namespace Node

def new (id : Address) (kind : String) : Node := ⟨id, kind, .emptyRecord, none⟩

/-- One top-level property set; a tree that is no record gives way to one. -/
def setProperty (node : Node) (key : String) (value : Tree) : Node :=
  match node.properties with
  | .record fields => { node with properties := .record (Fields.put key value fields) }
  | _ => { node with properties := .call key value }

def setMetadata (node : Node) (key : String) (value : Tree) : Node :=
  { node with metadata := some (Fields.put key value (node.metadata.getD [])) }

end Node

namespace Store

/-! ## Nodes -/

def node? (s : Store) (id : Address) : Option Node := s.nodes.find? (·.id == id)

def has (s : Store) (id : Address) : Bool := s.nodes.any (·.id == id)

def ids (s : Store) : List Address := s.nodes.map (·.id)

def addNode (s : Store) (node : Node) : Except StoreError Store :=
  if s.has node.id then .error (.alreadyExists node.id) else .ok { s with nodes := s.nodes ++ [node] }

/-- The node goes with its edges and the exports it is the source of. -/
def removeNode (s : Store) (id : Address) : Except StoreError (Node × Store) :=
  match s.node? id with
  | none => .error (.notFound id)
  | some node =>
    .ok (node, { s with
      nodes := s.nodes.filter (·.id != id)
      edges := s.edges.filter (!·.touches id)
      exports := s.exports.filter (·.source != id) })

/-- The node at `id` changed by `f`. -/
def updateNode (s : Store) (id : Address) (f : Node → Node) : Store :=
  { s with nodes := s.nodes.map fun node => if node.id = id then f node else node }

def setProperties (s : Store) (id : Address) (properties : Tree) : Except StoreError Store :=
  if s.has id then .ok (s.updateNode id ({ · with properties })) else .error (.notFound id)

def members (s : Store) (group : String) : List Node := s.nodes.filter (·.id.group == group)

/-- The groups in the order of their first node. -/
def groups (s : Store) : List String := (s.nodes.map (·.id.group)).eraseDups

/-! ## Edges -/

/-- Both endpoints must be there; the flag is set from them. -/
def addEdge (s : Store) (edge : Edge) : Except StoreError Store :=
  if s.has edge.source && s.has edge.target then .ok { s with edges := s.edges ++ [edge.refreshed] }
  else .error (.danglingEdge edge.source edge.target)

def dependencies (s : Store) (id : Address) : List Edge := s.edges.filter (·.source == id)

def dependents (s : Store) (id : Address) : List Edge := s.edges.filter (·.target == id)

def crossing (s : Store) : List Edge := s.edges.filter (·.crossGroup)

/-! ## Exports -/

def export? (s : Store) (name : String) : Option Export := s.exports.find? (·.name == name)

def exportNames (s : Store) : List String := s.exports.map (·.name)

/-- The export under its name: in the place of an earlier one, else at the end. -/
def putExport (e : Export) : List Export → List Export
  | [] => [e]
  | d :: rest => if d.name = e.name then e :: rest else d :: putExport e rest

/-- Publishes `e`, and answers the export it replaces. -/
def register (s : Store) (e : Export) : Except StoreError (Option Export × Store) :=
  if s.has e.source then .ok (s.export? e.name, { s with exports := putExport e s.exports })
  else .error (.notFound e.source)

def exportsIn (s : Store) (group : String) : List Export := s.exports.filter (·.source.group == group)

def outputIds (s : Store) (group : String) : List String := (s.exportsIn group).filterMap (·.outputId)

/-- The first export that shows exactly this of `id`. -/
def exportOf? (s : Store) (id : Address) (attr : Option String) : Option Export :=
  s.exports.find? (·.exposes id attr)

/-! ## Reversal -/

/-- The same nodes and exports with every edge turned round. -/
def opposite (s : Store) : Store := { s with edges := s.edges.map Edge.reversed }

end Store

end Regroup
