/-
  Regroup.Proofs.Admission — which documents are read, and why others are refused.

  Publishing never fails, and what a reference implies leads to a node that is there. So documents
  are refused for two reasons only: an address that is taken, in the store or by an earlier
  resource, and a stated predecessor that is no node. All addresses are looked at before any
  predecessor, and of either the first in document order is reported
  (`ingest_admits_or_refuses`). The store then stays as it was.
-/

import Regroup.Proofs.Consistency
import Regroup.Proofs.Reproduction

namespace Regroup

/-! ## Documents -/

namespace Document

def addresses (d : Document) : List Address := d.declared.map (·.1)

/-- What is stated to come after what. -/
def orderings (d : Document) : List (Address × Address) :=
  d.declared.flatMap fun (id, resource) => resource.predecessors.map fun before => (id, ⟨id.group, before⟩)

theorem map_id_nodes (documents : List Document) :
    (documents.flatMap nodes).map (·.id) = documents.flatMap addresses := by
  rw [List.map_flatMap]
  refine List.flatMap_congr fun d _ => ?_
  simp only [addresses, declared, nodes, List.map_map]
  rfl

end Document

namespace Store

variable {s : Store} {documents : List Document} {err : StoreError}

/-! ## The first failure -/

/-- The steps in front of the first one that fails succeed, those behind it are not taken. -/
theorem foldlM_eq_error_iff {α σ ε : Type} {f : σ → α → Except ε σ} {xs : List α} {start : σ} {err : ε} :
    xs.foldlM f start = .error err ↔ ∃ front x back state, xs = front ++ x :: back ∧
      front.foldlM f start = .ok state ∧ f state x = .error err := by
  induction xs generalizing start with
  | nil =>
    refine iff_of_false (fun h => by cases h) ?_
    rintro ⟨front, x, back, _, h, _⟩
    exact List.append_ne_nil_of_right_ne_nil front (List.cons_ne_nil x back) h.symm
  | cons y xs ih =>
    rw [List.foldlM_cons]
    constructor
    · intro h
      rcases hy : f start y with e | next
      · rw [hy] at h
        exact ⟨[], y, xs, start, rfl, rfl, hy.trans h⟩
      · rw [hy] at h
        obtain ⟨front, x, back, state, rfl, hfront, hx⟩ := ih.mp h
        refine ⟨y :: front, x, back, state, rfl, ?_, hx⟩
        rw [List.foldlM_cons, hy]
        exact hfront
    · rintro ⟨front, x, back, state, heq, hfront, hx⟩
      cases front with
      | nil =>
        cases heq
        cases hfront
        rw [hx]
        rfl
      | cons z front =>
        cases heq
        rw [List.foldlM_cons] at hfront
        rcases hy : f start y with e | next
        · rw [hy] at hfront
          cases hfront
        · rw [hy] at hfront
          exact ih.mpr ⟨front, x, back, state, rfl, hfront, hx⟩

theorem addNodes_eq_error_iff (hids : s.ids.Nodup) {nodes : List Node} : s.addNodes nodes = .error err ↔
    ∃ front id back, nodes.map (·.id) = front ++ id :: back ∧ (s.ids ++ front).Nodup ∧ id ∈ s.ids ++ front ∧
      err = .alreadyExists id := by
  have hstep : ∀ (front : List Node) (node : Node), { s with nodes := s.nodes ++ front }.addNode node = .error err ↔
      node.id ∈ s.ids ++ front.map (·.id) ∧ err = .alreadyExists node.id := by
    intro front node
    have hids : { s with nodes := s.nodes ++ front }.ids = s.ids ++ front.map (·.id) := List.map_append
    rw [← hids, ← has_iff, addNode]
    split
    · rename_i hhas
      rw [and_iff_right hhas, Except.error.injEq, eq_comm]
    · rename_i hhas
      exact iff_of_false (fun h => by cases h) fun h => hhas h.1
  rw [addNodes, foldlM_eq_error_iff]
  constructor
  · rintro ⟨front, node, back, state, rfl, hfront, hnode⟩
    obtain ⟨hnodup, rfl⟩ := (addNodes_eq_ok_iff hids front).mp hfront
    exact ⟨_, _, _, List.map_append, hnodup, (hstep front node).mp hnode⟩
  · rintro ⟨front, id, back, heq, hnodup, hid⟩
    obtain ⟨front, rest, rfl, rfl, hrest⟩ := List.map_eq_append_iff.mp heq
    obtain ⟨node, back, rfl, rfl, rfl⟩ := List.map_eq_cons_iff.mp hrest
    exact ⟨front, node, back, _, rfl, (addNodes_eq_ok_iff hids front).mpr ⟨hnodup, rfl⟩, (hstep front node).mpr hid⟩

/-- An end of the edge is missing. -/
def dangles (s : Store) (e : Edge) : Bool := !(s.has e.source && s.has e.target)

theorem addEdges_eq_error_iff {edges : List Edge} : s.addEdges edges = .error err ↔
    ∃ e, edges.find? s.dangles = some e ∧ err = .danglingEdge e.source e.target := by
  have hends : ∀ e : Edge, (!s.dangles e) = true ↔ s.has e.source = true ∧ s.has e.target = true := by
    simp [dangles]
  have hstep : ∀ (front : List Edge) (e : Edge), { s with edges := s.edges ++ front.map Edge.refreshed }.addEdge e = .error err ↔
      s.dangles e = true ∧ err = .danglingEdge e.source e.target := by
    intro front e
    show (if s.has e.source && s.has e.target then Except.ok _ else _) = _ ↔ _
    by_cases hknown : (s.has e.source && s.has e.target) = true
    · simp [dangles, hknown]
    · simp [dangles, hknown, eq_comm]
  rw [addEdges, foldlM_eq_error_iff]
  simp only [List.find?_eq_some_iff_append, hends]
  constructor
  · rintro ⟨front, e, back, state, rfl, hfront, he⟩
    obtain ⟨hknown, rfl⟩ := (addEdges_eq_ok_iff front).mp hfront
    obtain ⟨hdangles, rfl⟩ := (hstep front e).mp he
    exact ⟨e, ⟨hdangles, front, back, rfl, hknown⟩, rfl⟩
  · rintro ⟨e, ⟨hdangles, front, back, rfl, hknown⟩, rfl⟩
    exact ⟨front, e, back, _, rfl, (addEdges_eq_ok_iff front).mpr ⟨hknown, rfl⟩, (hstep front e).mpr ⟨hdangles, rfl⟩⟩

theorem ingest_eq_error_iff (hids : s.ids.Nodup) : s.ingest documents = .error err ↔
    s.addNodes (documents.flatMap Document.nodes) = .error err ∨ (s.published documents).ids.Nodup ∧
      (s.published documents).addEdges (documents.flatMap (s.published documents).documentEdges) = .error err := by
  by_cases hnodup : (s.published documents).ids.Nodup
  · have hadd : s.addNodes (documents.flatMap Document.nodes) =
        .ok { s with nodes := s.nodes ++ documents.flatMap Document.nodes } := by
      rw [ids_published] at hnodup
      exact (addNodes_eq_ok_iff hids _).mpr ⟨hnodup, rfl⟩
    rw [ingest_eq_addEdges hids hnodup, hadd, and_iff_right hnodup]
    exact ⟨Or.inr, fun h => h.resolve_left (fun h => by cases h)⟩
  · rw [ingest_eq]
    rcases hadd : s.addNodes (documents.flatMap Document.nodes) with e | s₁
    · exact ⟨Or.inl, fun h => h.resolve_right fun h => hnodup h.1⟩
    · rw [ids_published] at hnodup
      exact absurd ((addNodes_eq_ok_iff hids _).mp hadd).1 hnodup

/-! ## Predecessors -/

/-- What is implied never dangles, so the first edge that does is a stated predecessor. -/
theorem find?_dangles_declaredEdges {source : Address} {resource : Resource} (hsource : s.has source = true)
    (hexports : ∀ ex ∈ s.exports, s.has ex.source = true) : (s.declaredEdges source resource).find? s.dangles =
      ((resource.predecessors.map fun before => (source, (⟨source.group, before⟩ : Address))).find?
        fun o => !s.has o.2).map fun o => .between o.1 o.2 .structural none := by
  have himplied : ((resource.properties.elim [] Tree.scan).filterMap (s.impliedEdge? source)).eraseDups.find? s.dangles = none := by
    refine List.find?_eq_none.mpr fun e he => ?_
    obtain ⟨r, _, he⟩ := List.mem_filterMap.mp (List.mem_eraseDups.mp he)
    obtain ⟨hfrom, hto⟩ := ends_of_impliedEdge? he hexports
    simp [dangles, hfrom, hsource, hto]
  have hstated : s.dangles ∘ (fun before => Edge.between source ⟨source.group, before⟩ .structural none) =
      (fun o : Address × Address => !s.has o.2) ∘ fun before => (source, ⟨source.group, before⟩) := by
    funext before
    simp [dangles, Edge.between, hsource]
  rw [declaredEdges, List.find?_append, himplied, Option.or_none, List.find?_map, List.find?_map, Option.map_map, hstated]
  rfl

theorem find?_dangles_flatMap {declared : List (Address × Resource)} (hsources : ∀ p ∈ declared, s.has p.1 = true)
    (hexports : ∀ ex ∈ s.exports, s.has ex.source = true) :
    (declared.flatMap fun (id, resource) => s.declaredEdges id resource).find? s.dangles =
      ((declared.flatMap fun (id, resource) => resource.predecessors.map fun before => (id, (⟨id.group, before⟩ : Address))).find?
        fun o => !s.has o.2).map fun o => .between o.1 o.2 .structural none := by
  induction declared with
  | nil => rfl
  | cons p declared ih =>
    rw [List.forall_mem_cons] at hsources
    rw [List.flatMap_cons, List.flatMap_cons, List.find?_append, List.find?_append, Option.map_or, ih hsources.2,
      find?_dangles_declaredEdges hsources.1 hexports]

theorem has_published_iff {id : Address} :
    (s.published documents).has id = true ↔ id ∈ s.ids ∨ id ∈ documents.flatMap Document.addresses := by
  rw [has_iff, ids_published, Document.map_id_nodes, List.mem_append]

theorem find?_dangles_documentEdges (hsources : ∀ e ∈ s.exports, e.source ∈ s.ids) :
    (documents.flatMap (s.published documents).documentEdges).find? (s.published documents).dangles =
      ((documents.flatMap Document.orderings).find? fun o => !(s.published documents).has o.2).map
        fun o => .between o.1 o.2 .structural none := by
  have hedges : documents.flatMap (s.published documents).documentEdges =
      (documents.flatMap Document.declared).flatMap fun (id, resource) => (s.published documents).declaredEdges id resource := by
    rw [List.flatMap_assoc]
    refine List.flatMap_congr fun d _ => ?_
    rw [Document.declared, List.flatMap_map]
    rfl
  have horderings : documents.flatMap Document.orderings = (documents.flatMap Document.declared).flatMap
      fun (id, resource) => resource.predecessors.map fun before => (id, ⟨id.group, before⟩) := List.flatMap_assoc.symm
  rw [hedges, horderings]
  apply find?_dangles_flatMap
  · intro p hp
    obtain ⟨d, hd, hin⟩ := List.mem_flatMap.mp hp
    exact has_published_iff.mpr (Or.inr (List.mem_flatMap.mpr ⟨d, hd, List.mem_map_of_mem hin⟩))
  · intro ex hex
    rcases mem_putAll hex with hex | hex
    · exact has_published_iff.mpr (Or.inl (hsources ex hex))
    · obtain ⟨d, _, hex⟩ := List.mem_flatMap.mp hex
      obtain ⟨_, _, _, source, _, hsource, hex⟩ := mem_exports.mp hex
      rw [hex]
      exact (has_of_publisher? hsource).1

/-! ## Admission -/

/-- Pairwise different addresses that no node has. -/
structure Vacant (s : Store) (ids : List Address) : Prop where
  distinct : ids.Nodup
  absent : ∀ id ∈ ids, id ∉ s.ids

instance (s : Store) (ids : List Address) : Decidable (s.Vacant ids) :=
  decidable_of_iff (ids.Nodup ∧ ∀ id ∈ ids, id ∉ s.ids) ⟨fun h => ⟨h.1, h.2⟩, fun h => ⟨h.distinct, h.absent⟩⟩

theorem vacant_iff (hids : s.ids.Nodup) {ids : List Address} : s.Vacant ids ↔ (s.ids ++ ids).Nodup := by
  rw [List.nodup_append, and_iff_right hids]
  constructor
  · intro h
    exact ⟨h.distinct, fun a ha b hb heq => h.absent b hb (heq ▸ ha)⟩
  · intro h
    exact ⟨h.1, fun id hid hin => h.2 id hin id hid rfl⟩

/-- A node of the store, or one that the documents declare. -/
def Knows (s : Store) (documents : List Document) (id : Address) : Prop :=
  id ∈ s.ids ∨ id ∈ documents.flatMap Document.addresses

instance (s : Store) (documents : List Document) (id : Address) : Decidable (s.Knows documents id) :=
  inferInstanceAs (Decidable (_ ∨ _))

/-- Nothing stands against the documents. -/
structure Admits (s : Store) (documents : List Document) : Prop where
  vacant : s.Vacant (documents.flatMap Document.addresses)
  known : ∀ o ∈ documents.flatMap Document.orderings, s.Knows documents o.2

instance (s : Store) (documents : List Document) : Decidable (s.Admits documents) :=
  decidable_of_iff (s.Vacant (documents.flatMap Document.addresses) ∧
    ∀ o ∈ documents.flatMap Document.orderings, s.Knows documents o.2) ⟨fun h => ⟨h.1, h.2⟩, fun h => ⟨h.vacant, h.known⟩⟩

/-- The first thing that stands against the documents. -/
inductive Refuses (s : Store) (documents : List Document) : StoreError → Prop where
  /-- The first address that is taken, by a node or by a resource before it. -/
  | taken (front : List Address) (id : Address) (back : List Address)
      (hfirst : documents.flatMap Document.addresses = front ++ id :: back) (hfront : s.Vacant front)
      (hid : id ∈ s.ids ∨ id ∈ front) : Refuses s documents (.alreadyExists id)
  /-- The first stated predecessor that is not known, when no address is taken. -/
  | unknown (front : List (Address × Address)) (source target : Address) (back : List (Address × Address))
      (hvacant : s.Vacant (documents.flatMap Document.addresses))
      (hfirst : documents.flatMap Document.orderings = front ++ (source, target) :: back)
      (hfront : ∀ o ∈ front, s.Knows documents o.2) (htarget : ¬s.Knows documents target) :
      Refuses s documents (.danglingEdge source target)

theorem vacant_addresses_iff (hids : s.ids.Nodup) :
    s.Vacant (documents.flatMap Document.addresses) ↔ (s.published documents).ids.Nodup := by
  rw [vacant_iff hids, ids_published, Document.map_id_nodes]

theorem exists_ingest_iff (hs : s.Consistent) : (∃ s', s.ingest documents = .ok s') ↔ s.Admits documents := by
  have hedges : (∀ e ∈ documents.flatMap (s.published documents).documentEdges,
        (s.published documents).has e.source = true ∧ (s.published documents).has e.target = true) ↔
      ∀ o ∈ documents.flatMap Document.orderings, s.Knows documents o.2 := by
    have hnone : (documents.flatMap (s.published documents).documentEdges).find? (s.published documents).dangles = none ↔
        (documents.flatMap Document.orderings).find? (fun o => !(s.published documents).has o.2) = none := by
      rw [find?_dangles_documentEdges hs.sources, Option.map_eq_none_iff]
    rw [List.find?_eq_none, List.find?_eq_none] at hnone
    simpa only [dangles, Bool.not_eq_true', Bool.not_eq_false, Bool.and_eq_true, has_published_iff, Knows] using hnone
  simp only [ingest_eq_ok_iff hs.ids, exists_and_left, exists_eq, and_true, hedges, ← vacant_addresses_iff hs.ids]
  exact ⟨fun h => ⟨h.1, h.2⟩, fun h => ⟨h.vacant, h.known⟩⟩

theorem addNodes_refuses_iff (hids : s.ids.Nodup) : s.addNodes (documents.flatMap Document.nodes) = .error err ↔
    ∃ front id back, documents.flatMap Document.addresses = front ++ id :: back ∧ s.Vacant front ∧
      (id ∈ s.ids ∨ id ∈ front) ∧ err = .alreadyExists id := by
  simp only [addNodes_eq_error_iff hids, Document.map_id_nodes, vacant_iff hids, List.mem_append]

theorem addEdges_refuses_iff (hsources : ∀ e ∈ s.exports, e.source ∈ s.ids) :
    (s.published documents).addEdges (documents.flatMap (s.published documents).documentEdges) = .error err ↔
      ∃ front source target back, documents.flatMap Document.orderings = front ++ (source, target) :: back ∧
        (∀ o ∈ front, s.Knows documents o.2) ∧ ¬s.Knows documents target ∧ err = .danglingEdge source target := by
  rw [addEdges_eq_error_iff, find?_dangles_documentEdges hsources]
  simp only [Option.map_eq_some_iff, List.find?_eq_some_iff_append, Bool.not_eq_true', ← Bool.not_eq_true,
    not_not, has_published_iff]
  constructor
  · rintro ⟨e, ⟨o, ⟨hunknown, front, back, hfirst, hfront⟩, rfl⟩, rfl⟩
    exact ⟨front, o.1, o.2, back, hfirst, hfront, hunknown, rfl⟩
  · rintro ⟨front, source, target, back, hfirst, hfront, hunknown, rfl⟩
    exact ⟨_, ⟨(source, target), ⟨hunknown, front, back, hfirst, hfront⟩, rfl⟩, rfl⟩

/--
Documents are read exactly if their addresses are vacant and every stated predecessor is known.
Otherwise the error names the first address that is taken or, if none is, the first predecessor that
is unknown, and the store is left alone.
-/
theorem ingest_admits_or_refuses (hs : s.Consistent) (documents : List Document) :
    ((∃ s', s.ingest documents = .ok s') ↔ s.Admits documents) ∧
      (∀ err, s.ingest documents = .error err ↔ s.Refuses documents err) ∧
      (¬s.Admits documents → s.perform (.ingest documents) = s) := by
  refine ⟨exists_ingest_iff hs, fun err => ?_, fun hnot => ?_⟩
  · rw [ingest_eq_error_iff hs.ids, addNodes_refuses_iff hs.ids, addEdges_refuses_iff hs.sources,
      ← vacant_addresses_iff hs.ids]
    constructor
    · rintro (⟨front, id, back, hfirst, hfront, hid, rfl⟩ |
        ⟨hvacant, front, source, target, back, hfirst, hfront, htarget, rfl⟩)
      · exact .taken front id back hfirst hfront hid
      · exact .unknown front source target back hvacant hfirst hfront htarget
    · intro h
      cases h with
      | taken front id back hfirst hfront hid => exact Or.inl ⟨front, id, back, hfirst, hfront, hid, rfl⟩
      | unknown front source target back hvacant hfirst hfront htarget =>
        exact Or.inr ⟨hvacant, front, source, target, back, hfirst, hfront, htarget, rfl⟩
  · rcases hingest : s.ingest documents with err | s'
    · show (s.ingest documents).toOption.getD s = s
      rw [hingest]
      rfl
    · exact absurd ((exists_ingest_iff hs).mp ⟨s', hingest⟩) hnot

/-- A published ledger. -/
def ledgerStore : Store where
  nodes := [.new ⟨"bank", "Ledger"⟩ "table"]
  exports := [⟨"ledger", ⟨"bank", "Ledger"⟩, none, none⟩]

/-- A reader of the ledger, and a document whose last resource is named `name` and comes after `before`. -/
def ledgerDocuments (name before : String) : List Document :=
  [⟨"desk", { resources := [("Clerk", { kind := "reader", properties := some (Reference.imported "ledger").construct })] }⟩,
    ⟨"bank", { resources := [("Vault", { kind := "table", dependsOn := some (.one "Ledger") }),
      (name, { kind := "table", dependsOn := some (.many ["Vault", before, "Attic"]) })] }⟩]

/-- The ledger cannot be declared again, which is noticed before the predecessors that are unknown.
    Of those the first one is reported. -/
theorem ingest_admits_or_refuses_ledger :
    (∃ s', ledgerStore.ingest (ledgerDocuments "Attic" "Ledger") = .ok s') ∧
      ledgerStore.ingest (ledgerDocuments "Ledger" "Cellar") = .error (.alreadyExists ⟨"bank", "Ledger"⟩) ∧
      ledgerStore.ingest (ledgerDocuments "Safe" "Cellar") = .error (.danglingEdge ⟨"bank", "Safe"⟩ ⟨"bank", "Cellar"⟩) ∧
      ledgerStore.perform (.ingest (ledgerDocuments "Safe" "Cellar")) = ledgerStore := by
  have hs : ledgerStore.Consistent := by decide
  obtain ⟨hadmits, -, -⟩ := ingest_admits_or_refuses hs (ledgerDocuments "Attic" "Ledger")
  obtain ⟨-, htaken, -⟩ := ingest_admits_or_refuses hs (ledgerDocuments "Ledger" "Cellar")
  obtain ⟨-, hunknown, hkept⟩ := ingest_admits_or_refuses hs (ledgerDocuments "Safe" "Cellar")
  have hfirst : ledgerStore.Refuses (ledgerDocuments "Ledger" "Cellar") (.alreadyExists ⟨"bank", "Ledger"⟩) :=
    .taken [⟨"desk", "Clerk"⟩, ⟨"bank", "Vault"⟩] _ [] rfl (by decide) (by decide)
  have hsecond : ledgerStore.Refuses (ledgerDocuments "Safe" "Cellar") (.danglingEdge ⟨"bank", "Safe"⟩ ⟨"bank", "Cellar"⟩) :=
    .unknown [(⟨"bank", "Vault"⟩, ⟨"bank", "Ledger"⟩), (⟨"bank", "Safe"⟩, ⟨"bank", "Vault"⟩)] _ _
      [(⟨"bank", "Safe"⟩, ⟨"bank", "Attic"⟩)] (by decide) rfl (by decide) (by decide)
  exact ⟨hadmits.mpr (by decide), (htaken _).mpr hfirst, (hunknown _).mpr hsecond, hkept (by decide)⟩

end Store

end Regroup
