/-
  Regroup.Proofs.Placement — where the edges of a store lie that documents make and moves change.

  Ingestion finds the target of a reference in the group of its source, so only an import can
  leave a group, and the kind of a reference says whether it has an attribute
  (`placed_of_mem_documentEdges`). A move gives an edge that is torn apart the kind of an import
  and an import whose ends meet the kind that its attribute asks for (`Placed.remaining`), and
  the orderings it adds lie within a group. No call but `addEdge`, which takes any edge, and
  `opposite`, which turns references round, can do otherwise, so it holds of every store that
  the others make from the empty one (`placed_performAll`).
-/

import Regroup.Proofs.Consistency

namespace Regroup

variable {origin destination : Address}

/-! ## Edges -/

namespace Edge

/-- Only an import leaves its group, and any other reference is of the kind its attribute asks for. -/
structure Placed (e : Edge) : Prop where
  within : e.Within
  kind : e.kind.IsLocal → e.kind = .ofAttr e.attr

theorem Placed.imported {e : Edge} (h : e.Placed) (hgroup : e.source.group ≠ e.target.group) : e.kind = .imported := by
  by_contra hk
  exact hgroup (h.within.2 hk)

theorem Placed.value {e : Edge} (h : e.Placed) (hk : e.kind = .value) : e.attr = none := by
  have hattr := h.kind (Or.inl hk)
  rw [hk] at hattr
  cases he : e.attr with
  | none => rfl
  | some attr =>
    rw [he] at hattr
    cases hattr

theorem Placed.attrOf {e : Edge} (h : e.Placed) (hk : e.kind = .attrOf) : ∃ attr, e.attr = some attr := by
  have hattr := h.kind (Or.inr hk)
  rw [hk] at hattr
  cases he : e.attr with
  | none =>
    rw [he] at hattr
    cases hattr
  | some attr => exact ⟨attr, rfl⟩

theorem placed_ordering {source target : Address} (h : source.group = target.group) :
    (between source target .structural none).Placed :=
  ⟨⟨by simp [between], fun _ => h⟩, fun hk => absurd rfl hk.ne.1⟩

/-- An edge that stays keeps its attribute, and gets another kind only where its place asks for it. -/
theorem Placed.remaining {e e' : Edge} (h : e.Placed) (hr : (e.fate origin destination).remaining? = some e') : e'.Placed := by
  refine ⟨h.within.remaining hr, fun hk => ?_⟩
  obtain ⟨_, _, hattr, ⟨hkind, _⟩ | ⟨hkind, _⟩ | ⟨hkind, _⟩⟩ := remaining?_fate hr
  · rw [hkind] at hk ⊢
    rw [hattr]
    exact h.kind hk
  · exact absurd hkind hk.ne.2
  · rw [hkind, hattr]

end Edge

namespace Store

variable {s s' : Store}

theorem placed_of_mem_documentEdges {d : Document} {e : Edge} (h : e ∈ s.documentEdges d) : e.Placed := by
  refine ⟨within_of_mem_documentEdges h, fun hk => ?_⟩
  obtain ⟨⟨name, resource⟩, _, he⟩ := List.mem_flatMap.mp h
  rcases mem_declaredEdges.mp he with ⟨_, _, rfl⟩ | ⟨r, _, hr⟩
  · exact absurd rfl hk.ne.1
  · rcases impliedEdge?_cases hr with ⟨_, _, _, _, rfl⟩ | ⟨_, _, _, _, _, rfl⟩
    · exact absurd rfl hk.ne.2
    · rfl

/-! ## Each operation -/

/-- Every edge lies where its kind allows. -/
def Placed (s : Store) : Prop := ∀ e ∈ s.edges, e.Placed

namespace Placed

variable (hs : s.Placed)

include hs

theorem removeNode {id : Address} {node : Node} (h : s.removeNode id = .ok (node, s')) : s'.Placed := by
  obtain ⟨_, rfl⟩ := removeNode_eq_ok h
  exact fun e he => hs e (List.mem_filter.mp he).1

theorem setProperties {id : Address} {properties : Tree} (h : s.setProperties id properties = .ok s') : s'.Placed := by
  obtain ⟨_, rfl⟩ := setProperties_eq_ok h
  exact hs

theorem move : (s.move origin destination).store.Placed := by
  intro e' he'
  rcases mem_edges_move he' with ⟨e, he, hr⟩ | ⟨e, _, hwhole, rfl⟩
  · exact (hs e he).remaining hr
  · exact Edge.placed_ordering (not_not.mp hwhole)

theorem relocate {r : Relocation} (h : s.relocate origin destination = .ok (r, s')) : s'.Placed := by
  rcases relocate_eq_ok h with ⟨_, rfl, _⟩ | ⟨_, _, _, _, rfl⟩
  · exact hs
  · exact hs.move

theorem ingest (hids : s.ids.Nodup) {documents : List Document} (h : s.ingest documents = .ok s') : s'.Placed := by
  intro e he
  rcases (mem_edges_ingested hids h).mp he with he | ⟨d, _, he⟩
  · exact hs e he
  · exact placed_of_mem_documentEdges he

end Placed

/-! ## Runs -/

/-- The operation makes edges only from documents and by moves. -/
def Operation.fromDocuments : Operation → Bool
  | ingest _ | ingestDocument _ | relocate _ _ | removeNode _ | setProperties _ _ => true
  | addNode _ | addEdge _ | register _ | opposite => false

theorem Placed.run (hs : s.Placed) (hids : s.ids.Nodup) {operation : Operation} (hop : operation.fromDocuments = true)
    (h : operation.run s = .ok s') : s'.Placed := by
  cases operation with
  | ingest => exact hs.ingest hids h
  | ingestDocument => exact hs.ingest hids h
  | relocate =>
    obtain ⟨_, h⟩ := exists_of_map_snd h
    exact hs.relocate h
  | removeNode =>
    obtain ⟨_, h⟩ := exists_of_map_snd h
    exact hs.removeNode h
  | setProperties => exact hs.setProperties h
  | addNode => cases hop
  | addEdge => cases hop
  | register => cases hop
  | opposite => cases hop

theorem Placed.performAll (hs : s.Placed) (hconsistent : s.Consistent) {operations : List Operation}
    (hops : ∀ operation ∈ operations, operation.fromDocuments = true) : (s.performAll operations).Placed := by
  induction operations generalizing s with
  | nil => exact hs
  | cons operation operations ih =>
    obtain ⟨hop, hops⟩ := List.forall_mem_cons.mp hops
    refine ih ?_ (hconsistent.perform operation) hops
    unfold perform
    rcases h : operation.run s with _ | s'
    · exact hs
    · exact hs.run hconsistent.ids hop h

/-- In every store made from the empty one by documents, moves, removals and new properties, only
    imports cross groups, and of the references within a group exactly those to an attribute have one. -/
theorem placed_performAll (naming : Naming) (operations : List Operation)
    (hops : ∀ operation ∈ operations, operation.fromDocuments = true) : ∀ e ∈ (performAll { naming } operations).edges,
      (e.source.group ≠ e.target.group → e.kind = .imported) ∧ (e.kind = .value → e.attr = none) ∧
        (e.kind = .attrOf → ∃ attr, e.attr = some attr) := by
  have hempty : Placed { naming } := fun e he => absurd he List.not_mem_nil
  intro e he
  have hplaced : e.Placed := hempty.performAll (consistent_empty naming) hops e he
  exact ⟨hplaced.imported, hplaced.value, hplaced.attrOf⟩

/-- A queue that reads an attribute of its topic leaves the group, and a reader joins it there. The
    alarm is removed and its second removal fails. -/
def queueOperations : List Operation :=
  [.ingest [⟨"infra", { resources := [("Topic", { kind := "topic" }), ("Alarm", { kind := "alarm", dependsOn := some (.one "Topic") }),
      ("Queue", { kind := "queue", properties := some (Reference.attrOf "Topic" "Arn").construct, dependsOn := some (.one "Topic") })] }⟩],
    .relocate ⟨"infra", "Queue"⟩ ⟨"services", "Queue"⟩,
    .ingestDocument ⟨"services", { resources := [("Reader", { kind := "reader", properties := some (Reference.node "Queue").construct })] }⟩,
    .removeNode ⟨"infra", "Alarm"⟩, .removeNode ⟨"infra", "Alarm"⟩, .setProperties ⟨"services", "Reader"⟩ .emptyRecord]

theorem placed_performAll_queue :
    (performAll {} queueOperations).edges =
      [.between ⟨"services", "Queue"⟩ ⟨"infra", "Topic"⟩ .imported (some "Arn"),
        .between ⟨"services", "Reader"⟩ ⟨"services", "Queue"⟩ .value none] ∧
    ∀ e ∈ (performAll {} queueOperations).edges, (e.source.group ≠ e.target.group → e.kind = .imported) ∧
      (e.kind = .value → e.attr = none) ∧ (e.kind = .attrOf → ∃ attr, e.attr = some attr) :=
  ⟨by decide, placed_performAll {} queueOperations (by decide)⟩

end Store

end Regroup
