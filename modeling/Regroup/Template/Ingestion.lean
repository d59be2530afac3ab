/-
  Regroup.Template.Ingestion — templates into a store, one group each.

  Three passes over all documents: nodes, then exports, then edges, so that an import finds an
  export of any document. A template's exported outputs are registered when their name is
  plain text and their value refers to a resource of the group. Its edges are its stated
  predecessors and then each distinct dependency its properties imply (`impliedEdge?`).
-/

import Regroup.Reference.Scan
import Regroup.Store
import Regroup.Template

namespace Regroup

/-- A template and the group it declares. -/
structure Document where
  group : String
  template : Template
  deriving Repr

namespace Document

def nodes (d : Document) : List Node :=
  d.template.resources.map fun (name, resource) =>
    ⟨⟨d.group, name⟩, resource.kind, resource.properties.getD .emptyRecord,
      if resource.extra.isEmpty then none else some resource.extra⟩

/-- The first node of the group that a published value refers to. -/
def publisher? (d : Document) (s : Store) (value : Tree) : Option Address :=
  (value.scan.filterMap fun r => r.targetName?.map fun name => (⟨d.group, name⟩ : Address)).find? s.has

def exports (d : Document) (s : Store) : List Export :=
  d.template.outputs.filterMap fun (outputId, output) => do
    let name ← output.exportName.bind Tree.asText?
    let source ← d.publisher? s output.value
    return ⟨name, source, some outputId, some output.value⟩

end Document

namespace Store

/-- The dependency a reference in the tree of `source` implies, if its target is known. -/
def impliedEdge? (s : Store) (source : Address) (r : Reference) : Option Edge :=
  match r with
  | .imported name => (s.export? name).map fun e => .between source e.source .imported e.exposure.attr?
  | .node name | .attrOf name _ =>
    let target : Address := ⟨source.group, name⟩
    let attr := r.attributeName?
    if target = source ∨ ¬s.has target then none else some (.between source target (.ofAttr attr) attr)

/-- The edges of one resource: stated predecessors, then distinct implied dependencies. -/
def declaredEdges (s : Store) (source : Address) (resource : Resource) : List Edge :=
  let stated := (resource.dependsOn.elim [] DependsOn.names).map fun name =>
    Edge.between source ⟨source.group, name⟩ .structural none
  let implied := (resource.properties.elim [] Tree.scan).filterMap (s.impliedEdge? source)
  stated ++ implied.eraseDups

def addNodes (s : Store) (nodes : List Node) : Except StoreError Store := nodes.foldlM addNode s

def addEdges (s : Store) (edges : List Edge) : Except StoreError Store := edges.foldlM addEdge s

def registerAll (s : Store) (exports : List Export) : Except StoreError Store :=
  exports.foldlM (fun s e => (s.register e).map (·.2)) s

/-- All documents, or the first reason why not. -/
def ingest (s : Store) (documents : List Document) : Except StoreError Store := do
  let s ← documents.foldlM (fun s d => s.addNodes d.nodes) s
  let s ← documents.foldlM (fun s d => s.registerAll (d.exports s)) s
  documents.foldlM (fun s d => s.addEdges (d.template.resources.flatMap fun (name, resource) =>
    s.declaredEdges ⟨d.group, name⟩ resource)) s

end Store

end Regroup
