/-
  Regroup.Proofs.Consistency — what every operation on a store keeps.

  A store is consistent when addresses and export names are unique, nothing is about a node that
  is not there, and the flag of each edge is what its kind and its ends say. The operations are
  of different shape, but each of them adds, drops or moves whole nodes, edges and exports, so
  there is one lemma for each (`Consistent.addNode` to `Consistent.opposite`) and one for
  whichever is performed (`Consistent.perform`). A call that fails changes nothing, so every
  store that a program makes from the empty one is consistent (`consistent_performAll`).
-/

import Regroup.Proofs.Grounded

namespace Regroup

variable {origin destination : Address}

/-! ## Edges -/

namespace Edge

/-- The flag says whether the edge crosses groups. -/
def Flagged (e : Edge) : Prop := e.crossGroup = true ↔ e.kind = .imported ∨ e.source.group ≠ e.target.group

instance (e : Edge) : Decidable e.Flagged := inferInstanceAs (Decidable (_ ↔ _))

theorem flagged_refreshed (e : Edge) : e.refreshed.Flagged := by
  simp [Flagged, refreshed, crosses]

theorem flagged_between (source target : Address) (kind : EdgeKind) (attr : Option String) :
    (between source target kind attr).Flagged := flagged_refreshed (between source target kind attr)

/-- Groups differ in both directions. -/
theorem Flagged.reversed {e : Edge} (h : e.Flagged) : e.reversed.Flagged := by
  unfold Flagged at h ⊢
  rw [ne_comm]
  exact h

theorem Flagged.remaining {e e' : Edge} (h : e.Flagged) (hr : (e.fate origin destination).remaining? = some e') :
    e'.Flagged := by
  rcases e.fate_cases origin destination with
    ⟨_, hf⟩ | ⟨_, _, _, hf⟩ | ⟨_, _, hf⟩ | ⟨_, _, _, hf⟩ | ⟨_, _, hwhole, hf⟩ <;> rw [hf] at hr <;> cases hr
  · exact h
  · exact flagged_refreshed _
  · exact iff_of_true rfl (Or.inl rfl)
  · refine iff_of_false Bool.false_ne_true (not_or.mpr ⟨?_, hwhole⟩)
    exact (EdgeKind.isLocal_ofAttr e.attr).ne.2

end Edge

namespace Store

variable {s s' : Store}

structure Consistent (s : Store) : Prop where
  ids : s.ids.Nodup
  names : s.exportNames.Nodup
  ends : ∀ e ∈ s.edges, e.source ∈ s.ids ∧ e.target ∈ s.ids
  flags : ∀ e ∈ s.edges, e.Flagged
  sources : ∀ e ∈ s.exports, e.source ∈ s.ids

instance (s : Store) : Decidable s.Consistent :=
  decidable_of_iff (s.ids.Nodup ∧ s.exportNames.Nodup ∧ (∀ e ∈ s.edges, e.source ∈ s.ids ∧ e.target ∈ s.ids) ∧
      (∀ e ∈ s.edges, e.Flagged) ∧ ∀ e ∈ s.exports, e.source ∈ s.ids)
    ⟨fun ⟨ids, names, ends, flags, sources⟩ => ⟨ids, names, ends, flags, sources⟩,
      fun h => ⟨h.ids, h.names, h.ends, h.flags, h.sources⟩⟩

theorem consistent_empty (naming : Naming) : Consistent { naming } :=
  ⟨List.nodup_nil, List.nodup_nil, by simp, by simp, by simp⟩

/-! ## Each operation -/

namespace Consistent

variable (hs : s.Consistent)

include hs

theorem addNode {node : Node} (h : s.addNode node = .ok s') : s'.Consistent := by
  have hadd : s.addNodes [node] = .ok s' := by
    rw [addNodes, List.foldlM_cons, h]
    rfl
  obtain ⟨hnodup, rfl⟩ := (addNodes_eq_ok_iff hs.ids [node]).mp hadd
  have hids : { s with nodes := s.nodes ++ [node] }.ids = s.ids ++ [node.id] := by simp [Store.ids]
  have hold : ∀ id ∈ s.ids, id ∈ { s with nodes := s.nodes ++ [node] }.ids :=
    fun id hid => hids ▸ List.mem_append_left _ hid
  exact ⟨hids ▸ hnodup, hs.names, fun e he => ⟨hold _ (hs.ends e he).1, hold _ (hs.ends e he).2⟩, hs.flags,
    fun e he => hold _ (hs.sources e he)⟩

/-- What is about the removed node goes with it. -/
theorem removeNode {id : Address} {node : Node} (h : s.removeNode id = .ok (node, s')) : s'.Consistent := by
  obtain ⟨_, rfl⟩ := removeNode_eq_ok h
  have hstay : ∀ a ∈ s.ids, a ≠ id → a ∈ (s.nodes.filter (·.id != id)).map (·.id) := by
    intro a ha hne
    obtain ⟨other, hn, rfl⟩ := List.mem_map.mp ha
    exact List.mem_map_of_mem (List.mem_filter.mpr ⟨hn, by simpa using hne⟩)
  refine ⟨(List.filter_sublist.map _).nodup hs.ids, (List.filter_sublist.map _).nodup hs.names, ?_, ?_, ?_⟩
  · intro e he
    obtain ⟨he, haway⟩ := List.mem_filter.mp he
    have hne : ¬(e.source = id ∨ e.target = id) := fun ht => by simp [Edge.touches_iff.mpr ht] at haway
    rw [not_or] at hne
    exact ⟨hstay _ (hs.ends e he).1 hne.1, hstay _ (hs.ends e he).2 hne.2⟩
  · exact fun e he => hs.flags e (List.mem_filter.mp he).1
  · intro e he
    obtain ⟨he, hne⟩ := List.mem_filter.mp he
    exact hstay _ (hs.sources e he) (by simpa using hne)

theorem setProperties {id : Address} {properties : Tree} (h : s.setProperties id properties = .ok s') : s'.Consistent := by
  obtain ⟨_, rfl⟩ := setProperties_eq_ok h
  have hids := ids_congr (headers_mapTrees s fun a => if a = id then fun _ => properties else fun t => t)
  exact ⟨hids ▸ hs.ids, hs.names, fun e he => hids ▸ hs.ends e he, hs.flags, fun e he => hids ▸ hs.sources e he⟩

theorem addEdge {edge : Edge} (h : s.addEdge edge = .ok s') : s'.Consistent := by
  have hadd : s.addEdges [edge] = .ok s' := by
    rw [addEdges, List.foldlM_cons, h]
    rfl
  obtain ⟨hends, rfl⟩ := (addEdges_eq_ok_iff [edge]).mp hadd
  refine ⟨hs.ids, hs.names, fun e he => ?_, fun e he => ?_, hs.sources⟩
  · rcases List.mem_append.mp he with he | he
    · exact hs.ends e he
    · rw [List.mem_singleton.mp he]
      obtain ⟨hsource, htarget⟩ := hends edge (List.mem_singleton_self _)
      exact ⟨has_iff.mp hsource, has_iff.mp htarget⟩
  · rcases List.mem_append.mp he with he | he
    · exact hs.flags e he
    · rw [List.mem_singleton.mp he]
      exact edge.flagged_refreshed

theorem register {e : Export} {replaced : Option Export} (h : s.register e = .ok (replaced, s')) : s'.Consistent := by
  unfold Store.register at h
  split at h
  · rename_i hsource
    cases h
    refine ⟨hs.ids, nodup_names_putExport hs.names, hs.ends, hs.flags, fun e' he' => ?_⟩
    rcases mem_putExport he' with rfl | he'
    · exact has_iff.mp hsource
    · exact hs.sources e' he'
  · cases h

theorem move (hd : destination ∉ s.ids) : (s.move origin destination).store.Consistent := by
  refine ⟨nodup_ids_move hs.ids hd, nodup_exportNames_move hs.names, ends_move hs.ends, ?_, sources_move hs.ends hs.sources⟩
  intro e' he'
  rcases mem_edges_move he' with ⟨e, he, hr⟩ | ⟨_, _, _, rfl⟩
  · exact (hs.flags e he).remaining hr
  · exact Edge.flagged_between _ _ _ _

theorem relocate {r : Relocation} (h : s.relocate origin destination = .ok (r, s')) : s'.Consistent := by
  rcases relocate_eq_ok h with ⟨_, rfl, _⟩ | ⟨_, _, hd, _, rfl⟩
  · exact hs
  · exact hs.move hd

theorem relocateAll {moves : List (Address × Address)} (h : s.relocateAll moves = .ok s') : s'.Consistent :=
  relocateAll_induction h (fun hd hs => hs.move hd) hs

theorem ingest {documents : List Document} (h : s.ingest documents = .ok s') : s'.Consistent := by
  refine ⟨nodup_ids_ingest hs.ids h, nodup_exportNames_ingest hs.ids h hs.names, ends_ingest hs.ids h hs.ends, ?_,
    sources_ingest hs.ids h hs.sources⟩
  intro e he
  rcases (mem_edges_ingested hs.ids h).mp he with he | ⟨d, _, he⟩
  · exact hs.flags e he
  · rw [← refreshed_documentEdges] at he
    obtain ⟨e', _, rfl⟩ := List.mem_map.mp he
    exact e'.flagged_refreshed

theorem opposite : s.opposite.Consistent := by
  refine ⟨hs.ids, hs.names, fun e' he' => ?_, fun e' he' => ?_, hs.sources⟩
  · obtain ⟨e, he, rfl⟩ := List.mem_map.mp he'
    exact (hs.ends e he).symm
  · obtain ⟨e, he, rfl⟩ := List.mem_map.mp he'
    exact (hs.flags e he).reversed

end Consistent

/-! ## All operations -/

/-- A call that may change a store. -/
inductive Operation where
  | addNode (node : Node)
  | removeNode (id : Address)
  | setProperties (id : Address) (properties : Tree)
  | addEdge (edge : Edge)
  | register (e : Export)
  | relocate (origin destination : Address)
  | ingest (documents : List Document)
  | ingestDocument (document : Document)
  | opposite

/-- The next store, or the reason why there is none. -/
def Operation.run (s : Store) : Operation → Except StoreError Store
  | addNode node => s.addNode node
  | removeNode id => (s.removeNode id).map (·.2)
  | setProperties id properties => s.setProperties id properties
  | addEdge edge => s.addEdge edge
  | register e => (s.register e).map (·.2)
  | relocate origin destination => (s.relocate origin destination).map (·.2)
  | ingest documents => s.ingest documents
  | ingestDocument document => s.ingest [document]
  | opposite => .ok s.opposite

/-- The store after a call, which is the same one if the call fails. -/
def perform (s : Store) (operation : Operation) : Store := (operation.run s).toOption.getD s

/-- The store after each call in turn. -/
def performAll (s : Store) (operations : List Operation) : Store := operations.foldl perform s

/-- An operation that also answers something else. -/
theorem exists_of_map_snd {α : Type} {x : Except StoreError (α × Store)} (h : x.map (·.2) = .ok s') : ∃ a, x = .ok (a, s') := by
  rcases x with _ | ⟨a, _⟩
  · cases h
  · cases h
    exact ⟨a, rfl⟩

theorem Consistent.run (hs : s.Consistent) {operation : Operation} (h : operation.run s = .ok s') : s'.Consistent := by
  cases operation with
  | addNode => exact hs.addNode h
  | removeNode =>
    obtain ⟨_, h⟩ := exists_of_map_snd h
    exact hs.removeNode h
  | setProperties => exact hs.setProperties h
  | addEdge => exact hs.addEdge h
  | register =>
    obtain ⟨_, h⟩ := exists_of_map_snd h
    exact hs.register h
  | relocate =>
    obtain ⟨_, h⟩ := exists_of_map_snd h
    exact hs.relocate h
  | ingest => exact hs.ingest h
  | ingestDocument => exact hs.ingest h
  | opposite =>
    cases h
    exact hs.opposite

theorem Consistent.perform (hs : s.Consistent) (operation : Operation) : (s.perform operation).Consistent := by
  unfold Store.perform
  rcases h : operation.run s with _ | s'
  · exact hs
  · exact hs.run h

theorem Consistent.performAll (hs : s.Consistent) (operations : List Operation) : (s.performAll operations).Consistent := by
  induction operations generalizing s with
  | nil => exact hs
  | cons operation operations ih => exact ih (hs.perform operation)

/-- Every store that calls make from the empty one is consistent, whether or not they succeed, and
    each of its nodes and exports is found under its own address or name. -/
theorem consistent_performAll (naming : Naming) (operations : List Operation) :
    let s := performAll { naming } operations
    s.Consistent ∧ (∀ node ∈ s.nodes, s.node? node.id = some node) ∧ ∀ e ∈ s.exports, s.export? e.name = some e := by
  have hs := (consistent_empty naming).performAll operations
  exact ⟨hs, fun _ hn => node?_of_mem hs.ids hn, fun _ he => export?_of_mem hs.names he⟩

end Store

end Regroup
