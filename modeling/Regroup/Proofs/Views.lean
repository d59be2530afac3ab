/-
  Regroup.Proofs.Views — a store as what can be looked up in it.

  A store shows the tree of each address (`tree?`), the nodes without their trees (`headers`) and
  the export of each name. One lemma for each change says what is shown afterwards, so that later
  proofs do not go through the lists.
-/

import Mathlib.Data.List.Find
import Mathlib.Data.List.Nodup
import Regroup.Store.Relocation

namespace Regroup

/-! ## Addresses -/

namespace Address

variable {a b origin destination : Address}

theorem ext (hg : a.group = b.group) (hn : a.name = b.name) : a = b := by
  cases a
  cases b
  cases hg
  cases hn
  rfl

@[simp] theorem moved_origin (origin destination : Address) : origin.moved origin destination = destination := if_pos rfl

theorem moved_of_ne (h : a ≠ origin) : a.moved origin destination = a := if_neg h

theorem moved_inj (ha : a ≠ destination) (hb : b ≠ destination) :
    a.moved origin destination = b.moved origin destination ↔ a = b := by
  refine ⟨fun h => ?_, fun h => by rw [h]⟩
  unfold moved at h
  split at h <;> split at h <;> simp_all

theorem moved_eq_destination (ha : a ≠ destination) : a.moved origin destination = destination ↔ a = origin := by
  unfold moved
  split <;> simp_all

end Address

/-- A node without its tree. -/
def Node.header (node : Node) : Address × String × Option (Fields Tree) := (node.id, node.kind, node.metadata)

namespace Store

variable {s : Store} {id a origin destination : Address} {name : String}

/-! ## Nodes -/

/-- The tree of the node at `id`. -/
def tree? (s : Store) (id : Address) : Option Tree := (s.node? id).map (·.properties)

def headers (s : Store) : List (Address × String × Option (Fields Tree)) := s.nodes.map Node.header

theorem ids_eq_headers (s : Store) : s.ids = s.headers.map (·.1) := by
  rw [headers, List.map_map]
  rfl

theorem ids_congr {s' : Store} (h : s'.headers = s.headers) : s'.ids = s.ids := by
  rw [ids_eq_headers, h, ids_eq_headers]

theorem has_iff : s.has id = true ↔ id ∈ s.ids := by
  simp [has, ids]

theorem exists_of_tree? {t : Tree} (h : s.tree? id = some t) : ∃ node ∈ s.nodes, node.id = id ∧ node.properties = t := by
  obtain ⟨node, hn, rfl⟩ := Option.map_eq_some_iff.mp h
  exact ⟨node, List.mem_of_find?_eq_some hn, by simpa using List.find?_some hn, rfl⟩

theorem exists_tree?_iff : (∃ t, s.tree? id = some t) ↔ id ∈ s.ids := by
  constructor
  · rintro ⟨t, h⟩
    obtain ⟨node, hn, rfl, _⟩ := exists_of_tree? h
    exact List.mem_map_of_mem hn
  · intro h
    obtain ⟨node, hn, rfl⟩ := List.mem_map.mp h
    have hsome : (s.node? node.id).isSome := List.find?_isSome.mpr ⟨node, hn, by simp⟩
    obtain ⟨found, hf⟩ := Option.isSome_iff_exists.mp hsome
    exact ⟨found.properties, by rw [tree?, hf]; rfl⟩

theorem mem_ids_of_tree? {t : Tree} (h : s.tree? id = some t) : id ∈ s.ids := exists_tree?_iff.mp ⟨t, h⟩

/-- Where addresses are unique, every node is found. -/
theorem node?_of_mem (hids : s.ids.Nodup) {node : Node} (h : node ∈ s.nodes) : s.node? node.id = some node := by
  have hsome : (s.node? node.id).isSome := List.find?_isSome.mpr ⟨node, h, by simp⟩
  obtain ⟨found, hf⟩ := Option.isSome_iff_exists.mp hsome
  have hid : found.id = node.id := by simpa using List.find?_some hf
  rw [hf, List.inj_on_of_nodup_map hids (List.mem_of_find?_eq_some hf) h hid]

theorem tree?_of_mem (hids : s.ids.Nodup) {node : Node} (h : node ∈ s.nodes) : s.tree? node.id = some node.properties := by
  rw [tree?, node?_of_mem hids h]
  rfl

/-- The same store with the trees changed, each as its address says. -/
def mapTrees (s : Store) (g : Address → Tree → Tree) : Store :=
  { s with nodes := s.nodes.map fun node => { node with properties := g node.id node.properties } }

theorem headers_mapTrees (s : Store) (g : Address → Tree → Tree) : (s.mapTrees g).headers = s.headers := by
  rw [headers, mapTrees, List.map_map]
  rfl

theorem tree?_mapTrees (s : Store) (g : Address → Tree → Tree) (a : Address) :
    (s.mapTrees g).tree? a = (s.tree? a).map (g a) := by
  have hfind : (s.mapTrees g).node? a = (s.node? a).map fun node => { node with properties := g node.id node.properties } := by
    simp only [node?, mapTrees, List.find?_map, Function.comp_def]
  rw [tree?, hfind, tree?]
  rcases hn : s.node? a with _ | node
  · rfl
  · have : node.id = a := by simpa using List.find?_some hn
    simp [this]

theorem updateNode_eq_mapTrees (s : Store) (id : Address) (g : Tree → Tree) :
    (s.updateNode id fun node => { node with properties := g node.properties }) =
      s.mapTrees fun a => if a = id then g else fun t => t := by
  rw [updateNode, mapTrees]
  congr 2
  funext node
  split <;> rfl

theorem tree?_updateNode (s : Store) (id a : Address) (g : Tree → Tree) :
    (s.updateNode id fun node => { node with properties := g node.properties }).tree? a =
      if a = id then (s.tree? a).map g else s.tree? a := by
  rw [updateNode_eq_mapTrees, tree?_mapTrees]
  split
  · rfl
  · exact Option.map_id'

/-! ## Removals and new trees -/

theorem removeNode_eq_ok {node : Node} {s' : Store} (h : s.removeNode id = .ok (node, s')) : s.node? id = some node ∧
    s' = { s with
      nodes := s.nodes.filter (·.id != id)
      edges := s.edges.filter (!·.touches id)
      exports := s.exports.filter (·.source != id) } := by
  unfold removeNode at h
  split at h
  · cases h
  · rename_i hnode
    cases h
    exact ⟨hnode, rfl⟩

theorem setProperties_eq_ok {properties : Tree} {s' : Store} (h : s.setProperties id properties = .ok s') :
    id ∈ s.ids ∧ s' = s.mapTrees fun a => if a = id then fun _ => properties else fun t => t := by
  unfold setProperties at h
  split at h
  · rename_i hid
    cases h
    exact ⟨has_iff.mp hid, updateNode_eq_mapTrees s id fun _ => properties⟩
  · cases h

/-! ## The moved node -/

theorem headers_rekeyNode (s : Store) (origin destination : Address) :
    (s.rekeyNode origin destination).headers = s.headers.map fun header => (header.1.moved origin destination, header.2) := by
  simp only [rekeyNode, updateNode, headers, List.map_map]
  refine List.map_congr_left fun node _ => ?_
  by_cases h : node.id = origin <;> simp [Node.header, Address.moved, h]

theorem nodup_map_moved {ids : List Address} (h : ids.Nodup) (hd : destination ∉ ids) :
    (ids.map (·.moved origin destination)).Nodup := by
  refine (List.nodup_map_iff_inj_on h).mpr fun a ha b hb => ?_
  exact (Address.moved_inj (ne_of_mem_of_not_mem ha hd) (ne_of_mem_of_not_mem hb hd)).mp

theorem tree?_rekeyNode (hd : destination ∉ s.ids) (ha : a ≠ destination) :
    (s.rekeyNode origin destination).tree? (a.moved origin destination) = s.tree? a := by
  have hfind : (s.rekeyNode origin destination).node? (a.moved origin destination) =
      (s.node? a).map fun node => { node with id := node.id.moved origin destination } := by
    have hmap : (s.rekeyNode origin destination).nodes =
        s.nodes.map fun node => { node with id := node.id.moved origin destination } := by
      refine List.map_congr_left fun node _ => ?_
      simp only [Address.moved]
      split <;> rfl
    rw [node?, hmap, List.find?_map, node?]
    congr 1
    refine List.find?_congr fun node hn => ?_
    have hne : node.id ≠ destination := fun e => hd (e ▸ List.mem_map_of_mem hn)
    rw [Function.comp_apply, Bool.eq_iff_iff, beq_iff_eq, beq_iff_eq]
    exact Address.moved_inj hne ha
  rw [tree?, hfind, Option.map_map, tree?]
  rfl

/-! ## Exports -/

theorem export?_isSome_iff : (s.export? name).isSome = true ↔ name ∈ s.exportNames := by
  simp [export?, exportNames, List.find?_isSome]

theorem mem_of_export? {e : Export} (h : s.export? name = some e) : e ∈ s.exports ∧ e.name = name :=
  ⟨List.mem_of_find?_eq_some h, by simpa using List.find?_some h⟩

theorem export?_eq_none_iff : s.export? name = none ↔ name ∉ s.exportNames := by
  rw [← export?_isSome_iff, Bool.not_eq_true, Option.isSome_eq_false_iff, Option.isNone_iff_eq_none]

/-- Where names are unique, every export is found. -/
theorem export?_of_mem (hnames : s.exportNames.Nodup) {e : Export} (h : e ∈ s.exports) : s.export? e.name = some e := by
  have hsome : (s.export? e.name).isSome := export?_isSome_iff.mpr (List.mem_map_of_mem h)
  obtain ⟨found, hf⟩ := Option.isSome_iff_exists.mp hsome
  obtain ⟨hmem, hname⟩ := mem_of_export? hf
  rw [hf, List.inj_on_of_nodup_map hnames hmem h hname]

theorem mem_of_exportOf? {e : Export} {attr : Option String} (h : s.exportOf? id attr = some e) :
    e ∈ s.exports ∧ e.source = id ∧ e.exposure = .ofAttr attr := by
  have := List.find?_some h
  simp only [Export.exposes, Bool.and_eq_true, beq_iff_eq] at this
  exact ⟨List.mem_of_find?_eq_some h, this⟩

end Store

end Regroup
