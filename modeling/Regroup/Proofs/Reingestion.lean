/-
  Regroup.Proofs.Reingestion — generated documents can always be read again.

  Nothing that generation writes depends on what is not there: a resource is made of a node, a
  predecessor is a node that an ordering of the group leads to, and a reference implies an edge
  only to a node that was read. So the documents of a consistent store are read without an
  error, whatever edges it has and whatever became of its trees and exports, and the new store
  has the same nodes and within each group the same orderings (`exists_ingest_documents`).
-/

import Regroup.Proofs.Consistency
import Regroup.Proofs.Regeneration

namespace Regroup

/-- What a document says of a node besides its properties. Empty metadata are as good as none. -/
def Node.declaration (node : Node) : Address × String × Fields Tree := (node.id, node.kind, node.metadata.getD [])

namespace Store

variable {s fresh : Store} {source target : Address} {naming : Naming} {documents : List Document}

/-- An edge orders the source after the target. -/
def Orders (s : Store) (source target : Address) : Prop :=
  ∃ e ∈ s.edges, e.kind = .structural ∧ e.source = source ∧ e.target = target

theorem declaration_rewritten (s : Store) (node : Node) : (s.rewritten node).declaration = node.declaration := by
  by_cases hempty : (node.metadata.getD []).isEmpty = true
  · simp [Node.declaration, rewritten, List.isEmpty_iff.mp hempty]
  · simp [Node.declaration, rewritten, hempty]

theorem declarations_documents (hids : s.ids.Nodup) (horder : documents.Perm s.documents) :
    ((documents.flatMap Document.nodes).map Node.declaration).Perm (s.nodes.map Node.declaration) := by
  refine (((horder.flatMap_right _).trans (nodes_documents hids)).map _).trans (List.Perm.of_eq ?_)
  rw [List.map_map]
  exact List.map_congr_left fun node _ => s.declaration_rewritten node

theorem not_structural_of_impliedEdge? {r : Reference} {e : Edge} (h : s.impliedEdge? source r = some e) :
    e.kind ≠ .structural := by
  rcases impliedEdge?_cases h with ⟨_, _, _, _, rfl⟩ | ⟨_, attr, _, _, _, rfl⟩
  · simp [Edge.between]
  · exact (EdgeKind.isLocal_ofAttr attr).ne.1

/-- From nothing, the orderings are the predecessors that the documents state. -/
theorem orders_ingest_iff (h : ({ naming } : Store).ingest documents = .ok fresh) : fresh.Orders source target ↔
    ∃ d ∈ documents, d.group = source.group ∧ d.group = target.group ∧ ∃ resource,
      (source.name, resource) ∈ d.template.resources ∧ target.name ∈ resource.dependsOn.elim [] DependsOn.names := by
  constructor
  · rintro ⟨e, he, hkind, rfl, rfl⟩
    rcases (mem_edges_ingest_iff h).mp he with ⟨d, hd, name, resource, hres, before, hbefore, rfl⟩ | ⟨_, _, r, _, hr⟩
    · exact ⟨d, hd, rfl, rfl, resource, hres, hbefore⟩
    · exact absurd hkind (not_structural_of_impliedEdge? hr)
  · rintro ⟨d, hd, hsource, htarget, resource, hres, hbefore⟩
    refine ⟨_, (mem_edges_ingest_iff h).mpr (Or.inl ⟨d, hd, _, resource, hres, _, hbefore, rfl⟩), rfl, ?_, ?_⟩
    · exact Address.ext hsource rfl
    · exact Address.ext htarget rfl

/-- The documents of all groups of a consistent store can be read into an empty one, in any order.
    The nodes have the same addresses, kinds and metadata as before, and each group is ordered by
    the same edges. -/
theorem exists_ingest_documents (hs : s.Consistent) (naming : Naming) {documents : List Document}
    (horder : documents.Perm s.documents) : ∃ fresh, ({ naming } : Store).ingest documents = .ok fresh ∧
      (fresh.nodes.map Node.declaration).Perm (s.nodes.map Node.declaration) ∧
      ∀ source target, source.group = target.group → (fresh.Orders source target ↔ s.Orders source target) := by
  have hread := ingest_documents hs.ids hs.ends naming horder
  refine ⟨_, hread, ?_, fun source target hgroup => ?_⟩
  · rw [nodes_ingest hread]
    exact declarations_documents hs.ids horder
  rw [orders_ingest_iff hread]
  constructor
  · rintro ⟨d, hd, hsource, _, resource, hres, hbefore⟩
    obtain ⟨node, _, hid, rfl⟩ := (exists_resource_iff hs.ids).mp ⟨d, horder.mem_iff.mp hd, hsource, hres⟩
    rw [mem_dependsOn_resourceFor_iff, hgroup, mem_predecessors_iff, hid] at hbefore
    exact hbefore
  · rintro ⟨e, he, hkind, rfl, rfl⟩
    obtain ⟨node, hn, hid⟩ := List.mem_map.mp (hs.ends e he).1
    obtain ⟨d, hd, hdgroup, hres⟩ := (exists_resource_iff hs.ids).mpr ⟨node, hn, hid, rfl⟩
    refine ⟨d, horder.mem_iff.mpr hd, hdgroup, hdgroup.trans hgroup, _, hres, ?_⟩
    rw [mem_dependsOn_resourceFor_iff, mem_predecessors_iff]
    exact ⟨e, he, hkind, hid.symm, Address.ext hgroup.symm rfl⟩

/-- An alarm is ordered after its topic, and a reader in another group after the alarm. What is
    published of the topic does not refer to it, and its metadata are empty. -/
def alarmStore : Store :=
  let topic : Address := ⟨"infra", "Topic"⟩
  let alarm : Address := ⟨"infra", "Alarm"⟩
  let reader : Address := ⟨"services", "Reader"⟩
  { nodes := [.new alarm "alarm", .new reader "reader", { Node.new topic "topic" with metadata := some [] }]
    edges := [.between alarm topic .structural none, .between reader alarm .structural none,
      .between reader topic .imported none, .between topic reader .exportLink none]
    exports := [⟨"topic", topic, none, some (.text "constant")⟩] }

theorem exists_ingest_documents_alarm : ∃ fresh, ({} : Store).ingest alarmStore.documents.reverse = .ok fresh ∧
    (fresh.nodes.map Node.declaration).Perm (alarmStore.nodes.map Node.declaration) ∧
    fresh.Orders ⟨"infra", "Alarm"⟩ ⟨"infra", "Topic"⟩ := by
  have hs : alarmStore.Consistent := by decide
  obtain ⟨fresh, hread, hnodes, hordered⟩ := exists_ingest_documents hs {} (List.reverse_perm _)
  have halarm : alarmStore.Orders ⟨"infra", "Alarm"⟩ ⟨"infra", "Topic"⟩ := ⟨_, List.mem_cons_self .., rfl, rfl, rfl⟩
  exact ⟨fresh, hread, hnodes, (hordered ⟨"infra", "Alarm"⟩ ⟨"infra", "Topic"⟩ rfl).mpr halarm⟩

end Store

end Regroup
