/-
  Regroup.Store.Relocation — a node moved to another address, with all that refers to it.

  The node keeps its place and takes its exports along. Each edge that touches it gets the
  fate its kind has in the new placement (`Edge.fate`):

    an ordering that now crosses groups is dropped;
    a reference that now crosses groups becomes an import;
    an import within one group becomes a reference again, with an ordering beside it;
    any other edge is kept.

  The trees follow. A new import uses the export of the referenced value, made if there is
  none (`materialize`), in place of the reference. A restored reference takes the published
  expression in place of the import, and the export goes if nothing uses it any more
  (`prune`). A move within the group renames the node in its fellow members' trees.

  Moving a node onto itself changes nothing. A move from an empty address or onto an occupied
  one fails (`relocate`).
-/

import Regroup.Reference.Redirect
import Regroup.Store

namespace Regroup

/-- What a relocation changed. -/
structure Relocation where
  origin : Address
  destination : Address
  crossedGroups : Bool
  dropped : List Edge := []
  converted : List Edge := []
  restored : List Edge := []
  created : List String := []
  pruned : List String := []
  /-- Constructs and placeholders changed in property trees. -/
  redirected : Nat := 0
  deriving Repr

def Relocation.isNoop (r : Relocation) : Bool := r.origin == r.destination

/-! ## Edges -/

/-- What becomes of an edge, as it then stands. -/
inductive Fate where
  | kept (e : Edge)
  | dropped (e : Edge)
  | converted (e : Edge)
  | restored (e : Edge)
  deriving Repr

namespace Fate

/-- The edge, when it stays in the store. -/
def remaining? : Fate → Option Edge
  | .kept e | .converted e | .restored e => some e
  | .dropped _ => none

def dropped? : Fate → Option Edge
  | .dropped e => some e
  | _ => none

def converted? : Fate → Option Edge
  | .converted e => some e
  | _ => none

def restored? : Fate → Option Edge
  | .restored e => some e
  | _ => none

end Fate

/-- The address that `id` has after the move. -/
def Address.moved (id origin destination : Address) : Address := if id = origin then destination else id

namespace Edge

def moved (origin destination : Address) (e : Edge) : Edge :=
  { e with source := e.source.moved origin destination, target := e.target.moved origin destination }

def fate (origin destination : Address) (e : Edge) : Fate :=
  if !e.touches origin then .kept e
  else
    let e := e.moved origin destination
    let apart := e.source.group != e.target.group
    match e.kind with
    | .structural => if apart then .dropped e else .kept e.refreshed
    | .value | .attrOf => if apart then .converted { e with kind := .imported, crossGroup := true } else .kept e.refreshed
    | .imported => if apart then .kept e.refreshed else .restored { e with kind := .ofAttr e.attr, crossGroup := false }
    | .exportLink => .kept e.refreshed

/-- The name by which the source's tree knows the target of a converted edge. -/
def writtenName (origin destination : Address) (e : Edge) : String :=
  if e.target = destination then origin.name else e.target.name

end Edge

/-! ## The node and its exports -/

namespace Export

/-- The export as it follows its source; in another group a `taken` output id gives way. -/
def moved (e : Export) (origin destination : Address) (taken : List String) : Export :=
  { e with
    source := destination
    value := e.value.map fun value => (value.rename origin.name destination.name).result
    outputId := if origin.group = destination.group then e.outputId else e.outputId.map (Fresh.name · "" taken) }

end Export

namespace Store

def rekeyNode (s : Store) (origin destination : Address) : Store :=
  s.updateNode origin ({ · with id := destination })

/-- The exports of the moved node after the move, each output id fresh among those before it. -/
def rekeyExportList (origin destination : Address) (taken : List String) : List Export → List Export
  | [] => []
  | e :: rest =>
    if e.source = origin then
      let e := e.moved origin destination taken
      e :: rekeyExportList origin destination (taken ++ e.outputId.toList) rest
    else e :: rekeyExportList origin destination taken rest

def rekeyExports (s : Store) (origin destination : Address) : Store :=
  let taken := if origin.group = destination.group then [] else s.outputIds destination.group
  { s with exports := rekeyExportList origin destination taken s.exports }

/-! ## Trees -/

/-- The tree of the node at `id` redirected, and how much of it changed. -/
def redirectNode (s : Store) (id : Address) (f : Reference → Option Reference) : Store × Nat :=
  let changed := (s.node? id).elim 0 fun node => (node.properties.redirect f).changed
  (s.updateNode id fun node => { node with properties := (node.properties.redirect f).result }, changed)

/-- The export that shows `attr` of `target`, made if there is none; and whether it was made. -/
def materialize (s : Store) (target : Address) (attr : Option String) : String × Bool × Store :=
  match s.exportOf? target attr with
  | some e => (e.name, false, s)
  | none =>
    let name := Fresh.name (s.naming.exportName target attr) s.naming.separator s.exportNames
    let outputId := Fresh.name (s.naming.outputId target.name attr) "" (s.outputIds target.group)
    let e : Export := ⟨name, target, some outputId, some (Reference.ofTarget target.name attr).construct⟩
    (name, true, { s with exports := s.exports ++ [e] })

/-- The exports of `target` that the tree of `source` imports; else the one for the edge itself. -/
def consumed (s : Store) (source target : Address) (attr : Option String) : List String :=
  let imports := (s.node? source).elim [] fun node => node.properties.scan.filterMap fun
    | .imported name => if (s.export? name).map (·.source) = some target then some name else none
    | _ => none
  match imports.eraseDups with
  | [] => ((s.exportOf? target attr).map (·.name)).toList
  | names => names

/-- The imports of `name` in the tree of `source` replaced by the published expression. -/
def inlineExport (s : Store) (source : Address) (name : String) : Store × Nat :=
  match s.export? name with
  | none => (s, 0)
  | some e =>
    let replace (tree : Tree) := tree.substitute (.imported name) e.expression
    (s.updateNode source fun node => { node with properties := (replace node.properties).1 },
     (s.node? source).elim 0 fun node => (replace node.properties).2)

/-- Whether an import edge or a tree still uses the export. -/
def isConsumed (s : Store) (e : Export) : Bool :=
  (s.edges.any fun edge => edge.kind == .imported && e.exposes edge.target edge.attr)
    || s.nodes.any fun node => node.properties.scan.contains (.imported e.name)

/-- The export removed, unless something still uses it. -/
def prune (s : Store) (name : String) : Option Store :=
  match s.export? name with
  | none => none
  | some e => if s.isConsumed e then none else some { s with exports := s.exports.filter (·.name != name) }

/-! ## The steps -/

/-- A store on its way through a relocation, and what has been reported so far. -/
structure Underway where
  store : Store
  report : Relocation

/-- One converted reference: its source imports the value from now on. -/
def Underway.convert (origin destination : Address) (u : Underway) (e : Edge) : Underway :=
  let (name, made, store) := u.store.materialize e.target e.attr
  let written := Reference.ofTarget (e.writtenName origin destination) e.attr
  let (store, n) := store.redirectNode e.source fun r => if r = written then some (.imported name) else none
  { store, report := { u.report with
      created := if made then u.report.created ++ [name] else u.report.created
      redirected := u.report.redirected + n } }

/-- Adds the ordering that a restored reference implies, unless it is there. -/
def orderAfter (s : Store) (source target : Address) : Store :=
  if s.edges.any fun e => e.kind == .structural && e.source == source && e.target == target then s
  else { s with edges := s.edges ++ [.between source target .structural none] }

/-- Restored references so far: whose trees are done, and the exports that may now be idle. -/
structure Restoring extends Underway where
  handled : List (Address × Address) := []
  idle : List String := []

/-- The published expression of `name` takes the place of its imports in the tree of `source`. -/
def Restoring.inlineOne (source : Address) (r : Restoring) (name : String) : Restoring :=
  let (store, n) := r.store.inlineExport source name
  { r with
    store
    report := { r.report with redirected := r.report.redirected + n }
    idle := if name ∈ r.idle then r.idle else r.idle ++ [name] }

/-- One restored reference. The tree of each source is done once for each target. -/
def Restoring.restore (r : Restoring) (e : Edge) : Restoring :=
  let r := { r with store := r.store.orderAfter e.source e.target }
  if (e.source, e.target) ∈ r.handled then r
  else
    (r.store.consumed e.source e.target e.attr).foldl (Restoring.inlineOne e.source)
      { r with handled := r.handled ++ [(e.source, e.target)] }

def Underway.prune (u : Underway) (name : String) : Underway :=
  match u.store.prune name with
  | none => u
  | some store => { store, report := { u.report with pruned := u.report.pruned ++ [name] } }

/-- The other members of the group call the node by its new name. -/
def Underway.renameIn (origin destination : Address) (u : Underway) : Underway :=
  let renamed (node : Node) := node.properties.rename origin.name destination.name
  let touched (node : Node) : Bool := node.id.group == destination.group && node.id != destination
  let counts := (u.store.nodes.filter touched).map fun node => (renamed node).changed
  { store := { u.store with
      nodes := u.store.nodes.map fun node =>
        if touched node then { node with properties := (renamed node).result } else node }
    report := { u.report with redirected := u.report.redirected + counts.foldl (· + ·) 0 } }

/-- Every step of a move between two different addresses, the second one empty. -/
def move (s : Store) (origin destination : Address) : Underway :=
  let fates := s.edges.map (Edge.fate origin destination)
  let store := (s.rekeyNode origin destination).rekeyExports origin destination
  let report : Relocation := {
    origin, destination
    crossedGroups := origin.group != destination.group
    dropped := fates.filterMap Fate.dropped?
    converted := fates.filterMap Fate.converted?
    restored := fates.filterMap Fate.restored? }
  let u : Underway := ⟨{ store with edges := fates.filterMap Fate.remaining? }, report⟩
  let u := report.converted.foldl (Underway.convert origin destination) u
  let r := report.restored.foldl Restoring.restore { toUnderway := u }
  let u := r.idle.foldl Underway.prune r.toUnderway
  if origin.group = destination.group then u.renameIn origin destination else u

/-- Moves the node at `origin` to `destination`, and reports what that changed. -/
def relocate (s : Store) (origin destination : Address) : Except StoreError (Relocation × Store) :=
  if !s.has origin then .error (.notFound origin)
  else if origin = destination then .ok ({ origin, destination, crossedGroups := false }, s)
  else if s.has destination then .error (.alreadyExists destination)
  else
    let u := s.move origin destination
    .ok (u.report, u.store)

end Store

end Regroup
