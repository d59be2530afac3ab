/-
  Regroup.Proofs.Ingested — the store that documents make.

  Ingestion either fails or makes one store, and both can be said without running it:
  `ingest_eq_ok_iff` gives the store (`ingested`) and when it comes about. The nodes must have
  different addresses and the edges their endpoints; publishing never fails.
-/

import Mathlib.Data.List.Nodup
import Regroup.Proofs.Views
import Regroup.Template.Ingestion

namespace Regroup

namespace Store

variable {s s' : Store}

/-! ## Nodes -/

theorem addNodes_eq_ok_iff (hs : s.ids.Nodup) (nodes : List Node) :
    s.addNodes nodes = .ok s' ↔ (s.ids ++ nodes.map (·.id)).Nodup ∧ s' = { s with nodes := s.nodes ++ nodes } := by
  induction nodes generalizing s with
  | nil =>
    rw [List.map_nil, List.append_nil, List.append_nil]
    exact ⟨fun h => ⟨hs, (Except.ok.inj h).symm⟩, fun ⟨_, h⟩ => h ▸ rfl⟩
  | cons node nodes ih =>
    rw [addNodes, List.foldlM_cons, addNode]
    split
    · rename_i hhas
      have hmem := has_iff.mp hhas
      simp only [bind, Except.bind, reduceCtorEq, false_iff, not_and]
      intro hnodup
      exact absurd rfl (List.nodup_append.mp hnodup |>.2.2 _ hmem _ (List.mem_cons_self ..))
    · rename_i hfree
      have hids : { s with nodes := s.nodes ++ [node] }.ids = s.ids ++ [node.id] := by simp [ids]
      have hnodup : { s with nodes := s.nodes ++ [node] }.ids.Nodup := by
        rw [hids, ← List.concat_eq_append]
        exact hs.concat fun h => hfree (has_iff.mpr h)
      have := ih hnodup
      rw [hids, addNodes, List.append_assoc] at this
      simpa [bind, Except.bind, List.append_assoc] using this

theorem foldlM_flatMap {α β γ ε : Type} (g : α → List β) (f : γ → β → Except ε γ) (xs : List α) (c : γ) :
    xs.foldlM (fun c x => (g x).foldlM f c) c = (xs.flatMap g).foldlM f c := by
  induction xs generalizing c with
  | nil => rfl
  | cons x xs ih => simp only [List.foldlM_cons, List.flatMap_cons, List.foldlM_append, ih]

/-! ## Exports -/

theorem has_of_publisher? {d : Document} {value : Tree} {id : Address} (h : d.publisher? s value = some id) :
    s.has id = true ∧ id.group = d.group := by
  refine ⟨List.find?_some h, ?_⟩
  obtain ⟨r, _, hr⟩ := List.mem_filterMap.mp (List.mem_of_find?_eq_some h)
  obtain ⟨name, _, rfl⟩ := Option.map_eq_some_iff.mp hr
  rfl

theorem mem_exports {d : Document} {e : Export} : e ∈ d.exports s ↔ ∃ outputId output, (outputId, output) ∈ d.template.outputs ∧
    ∃ source, output.exportName.bind Tree.asText? = some e.name ∧ d.publisher? s output.value = some source ∧
      e = ⟨e.name, source, some outputId, some output.value⟩ := by
  simp only [Document.exports, List.mem_filterMap, Prod.exists]
  refine exists_congr fun outputId => exists_congr fun output => and_congr_right fun _ => ?_
  constructor
  · intro h
    obtain ⟨name, hname, h⟩ := Option.bind_eq_some_iff.mp h
    obtain ⟨source, hsource, h⟩ := Option.bind_eq_some_iff.mp h
    cases h
    exact ⟨source, hname, hsource, rfl⟩
  · rintro ⟨source, hname, hsource, he⟩
    rw [hname, hsource, he]
    rfl

/-- The exports with each of `es` in its place. -/
def putAll (exports es : List Export) : List Export := es.foldl (fun exports e => putExport e exports) exports

theorem registerAll_eq (es : List Export) (h : ∀ e ∈ es, s.has e.source = true) :
    s.registerAll es = .ok { s with exports := putAll s.exports es } := by
  induction es generalizing s with
  | nil => rfl
  | cons e es ih =>
    rw [registerAll, List.foldlM_cons, register, if_pos (h e (List.mem_cons_self ..))]
    exact ih fun e' he' => h e' (List.mem_cons_of_mem _ he')

theorem registerDocuments_eq (documents : List Document) : documents.foldlM (fun s d => s.registerAll (d.exports s)) s =
    .ok { s with exports := putAll s.exports (documents.flatMap (·.exports s)) } := by
  induction documents generalizing s with
  | nil => rfl
  | cons d documents ih =>
    have hhas : ∀ e ∈ d.exports s, s.has e.source = true := by
      intro e he
      obtain ⟨_, _, _, source, _, hsource, he⟩ := mem_exports.mp he
      rw [he]
      exact (has_of_publisher? hsource).1
    have happend : putAll s.exports ((d :: documents).flatMap (·.exports s)) =
        putAll (putAll s.exports (d.exports s)) (documents.flatMap (·.exports s)) := by
      rw [List.flatMap_cons, putAll, List.foldl_append]
      rfl
    rw [List.foldlM_cons, registerAll_eq _ hhas, happend]
    exact ih

theorem mem_putExport {e e' : Export} {es : List Export} (h : e' ∈ putExport e es) : e' = e ∨ e' ∈ es := by
  induction es with
  | nil => exact Or.inl (List.mem_singleton.mp h)
  | cons d es ih =>
    rw [putExport] at h
    split at h
    · exact (List.mem_cons.mp h).imp_right (List.mem_cons_of_mem _)
    · rcases List.mem_cons.mp h with rfl | h
      · exact Or.inr (List.mem_cons_self ..)
      · exact (ih h).imp_right (List.mem_cons_of_mem _)

theorem mem_putAll {e' : Export} {exports es : List Export} (h : e' ∈ putAll exports es) : e' ∈ exports ∨ e' ∈ es := by
  induction es generalizing exports with
  | nil => exact Or.inl h
  | cons e es ih =>
    rcases ih h with h | h
    · rcases mem_putExport h with rfl | h
      · exact Or.inr (List.mem_cons_self ..)
      · exact Or.inl h
    · exact Or.inr (List.mem_cons_of_mem _ h)

theorem names_putExport (e : Export) (es : List Export) : (putExport e es).map (·.name) =
    if e.name ∈ es.map (·.name) then es.map (·.name) else es.map (·.name) ++ [e.name] := by
  induction es with
  | nil => rfl
  | cons d es ih =>
    rw [putExport]
    by_cases h : d.name = e.name
    · simp [h]
    · have h' : ¬e.name = d.name := fun heq => h heq.symm
      rw [if_neg h, List.map_cons, ih]
      simp only [List.map_cons, List.mem_cons, h', false_or]
      split <;> rfl

theorem nodup_names_putExport {e : Export} {es : List Export} (h : (es.map (·.name)).Nodup) :
    ((putExport e es).map (·.name)).Nodup := by
  rw [names_putExport]
  split
  · exact h
  · rename_i hnot
    rw [← List.concat_eq_append]
    exact h.concat hnot

theorem nodup_names_putAll {exports es : List Export} (h : (exports.map (·.name)).Nodup) :
    ((putAll exports es).map (·.name)).Nodup := by
  induction es generalizing exports with
  | nil => exact h
  | cons e es ih => exact ih (nodup_names_putExport h)

/-! ## Edges -/

theorem addEdges_eq_ok_iff (edges : List Edge) : s.addEdges edges = .ok s' ↔
    (∀ e ∈ edges, s.has e.source = true ∧ s.has e.target = true) ∧
      s' = { s with edges := s.edges ++ edges.map Edge.refreshed } := by
  induction edges generalizing s with
  | nil =>
    rw [List.map_nil, List.append_nil]
    exact ⟨fun h => ⟨by simp, (Except.ok.inj h).symm⟩, fun ⟨_, h⟩ => h ▸ rfl⟩
  | cons e edges ih =>
    rw [addEdges, List.foldlM_cons, addEdge]
    split
    · rename_i hends
      rw [Bool.and_eq_true] at hends
      have happend : s.edges ++ (e :: edges).map Edge.refreshed = s.edges ++ [e.refreshed] ++ edges.map Edge.refreshed := by
        rw [List.append_assoc]
        rfl
      rw [List.forall_mem_cons, and_iff_right hends, happend]
      exact ih (s := { s with edges := s.edges ++ [e.refreshed] })
    · rename_i hends
      simp only [bind, Except.bind, reduceCtorEq, false_iff, not_and]
      intro hall
      exact absurd (hall e (List.mem_cons_self ..)) (by simpa using hends)

/-- The edges that a document declares. -/
def documentEdges (s : Store) (d : Document) : List Edge :=
  d.template.resources.flatMap fun (name, resource) => s.declaredEdges ⟨d.group, name⟩ resource

theorem mem_declaredEdges {source : Address} {resource : Resource} {e : Edge} : e ∈ s.declaredEdges source resource ↔
    (∃ name ∈ resource.dependsOn.elim [] DependsOn.names, e = .between source ⟨source.group, name⟩ .structural none) ∨
    (∃ r ∈ resource.properties.elim [] Tree.scan, s.impliedEdge? source r = some e) := by
  simp only [declaredEdges, List.mem_append, List.mem_map, List.mem_eraseDups, List.mem_filterMap, eq_comm]

theorem impliedEdge?_imported {x : String} {ex : Export} (h : s.export? x = some ex) (source : Address) :
    s.impliedEdge? source (.imported x) = some (.between source ex.source .imported ex.exposure.attr?) := by
  rw [impliedEdge?, h, Option.map_some]

theorem impliedEdge?_ofTarget (s : Store) (source : Address) (name : String) (attr : Option String) :
    s.impliedEdge? source (.ofTarget name attr) = if (⟨source.group, name⟩ : Address) = source ∨ ¬s.has ⟨source.group, name⟩ then none
      else some (.between source ⟨source.group, name⟩ (.ofAttr attr) attr) := by
  cases attr <;> rfl

/-- An implied edge leads to the source of the imported export, or to another node of the group. -/
theorem impliedEdge?_cases {source : Address} {r : Reference} {e : Edge} (h : s.impliedEdge? source r = some e) :
    (∃ x ex, r = .imported x ∧ s.export? x = some ex ∧ e = .between source ex.source .imported ex.exposure.attr?) ∨
    (∃ name attr, r = .ofTarget name attr ∧ ⟨source.group, name⟩ ≠ source ∧ s.has ⟨source.group, name⟩ = true ∧
      e = .between source ⟨source.group, name⟩ (.ofAttr attr) attr) := by
  rcases r.eq_imported_or_ofTarget with ⟨x, rfl⟩ | ⟨name, attr, rfl⟩
  · obtain ⟨ex, hex, rfl⟩ := Option.map_eq_some_iff.mp h
    exact Or.inl ⟨x, ex, rfl, hex, rfl⟩
  · rw [impliedEdge?_ofTarget, Option.ite_none_left_eq_some, Option.some.injEq, not_or, not_not] at h
    obtain ⟨⟨hother, hknown⟩, rfl⟩ := h
    exact Or.inr ⟨name, attr, rfl, hother, hknown, rfl⟩

theorem refreshed_impliedEdge? {source : Address} {r : Reference} {e : Edge} (h : s.impliedEdge? source r = some e) :
    e.refreshed = e := by
  rcases impliedEdge?_cases h with ⟨_, _, _, _, rfl⟩ | ⟨_, _, _, _, _, rfl⟩ <;> rfl

theorem refreshed_documentEdges (s : Store) (d : Document) : (s.documentEdges d).map Edge.refreshed = s.documentEdges d := by
  refine (List.map_congr_left fun e he => ?_).trans (List.map_id _)
  obtain ⟨⟨name, resource⟩, _, he⟩ := List.mem_flatMap.mp he
  rcases mem_declaredEdges.mp he with ⟨_, _, rfl⟩ | ⟨r, _, h⟩
  · rfl
  · exact refreshed_impliedEdge? h

/-- What a document declares does not change by the edges of those before it. -/
theorem addDocumentEdges_eq (documents : List Document) :
    documents.foldlM (fun s d => s.addEdges (s.documentEdges d)) s = s.addEdges (documents.flatMap s.documentEdges) := by
  induction documents generalizing s with
  | nil => rfl
  | cons d documents ih =>
    have happend : s.addEdges (s.documentEdges d ++ documents.flatMap s.documentEdges) =
        (s.addEdges (s.documentEdges d)).bind fun s₁ => s₁.addEdges (documents.flatMap s.documentEdges) := by
      rw [addEdges, List.foldlM_append]
      rfl
    rw [List.foldlM_cons, List.flatMap_cons, happend]
    rcases hadd : s.addEdges (s.documentEdges d) with err | s₁
    · rfl
    · obtain ⟨_, rfl⟩ := (addEdges_eq_ok_iff _).mp hadd
      exact ih

/-! ## The store -/

/-- The store with the nodes and the exports of the documents. -/
def published (s : Store) (documents : List Document) : Store :=
  let s := { s with nodes := s.nodes ++ documents.flatMap Document.nodes }
  { s with exports := putAll s.exports (documents.flatMap (·.exports s)) }

/-- The store that the documents make. -/
def ingested (s : Store) (documents : List Document) : Store :=
  { s.published documents with edges := s.edges ++ documents.flatMap (s.published documents).documentEdges }

/-- Publishing never fails, so there are two passes that may. -/
theorem ingest_eq (s : Store) (documents : List Document) : s.ingest documents =
    (s.addNodes (documents.flatMap Document.nodes)).bind fun s =>
      let s : Store := { s with exports := putAll s.exports (documents.flatMap (·.exports s)) }
      s.addEdges (documents.flatMap s.documentEdges) := by
  have hnodes : documents.foldlM (fun s d => s.addNodes d.nodes) s = s.addNodes (documents.flatMap Document.nodes) :=
    foldlM_flatMap Document.nodes addNode documents s
  rw [ingest, hnodes]
  rcases s.addNodes (documents.flatMap Document.nodes) with err | s₁
  · rfl
  · simp only [bind, Except.bind, registerDocuments_eq]
    exact addDocumentEdges_eq documents

theorem ids_published (s : Store) (documents : List Document) :
    (s.published documents).ids = s.ids ++ (documents.flatMap Document.nodes).map (·.id) := by
  simp [published, ids]

theorem ingest_eq_addEdges (hs : s.ids.Nodup) {documents : List Document} (h : (s.published documents).ids.Nodup) :
    s.ingest documents = (s.published documents).addEdges (documents.flatMap (s.published documents).documentEdges) := by
  rw [ids_published] at h
  rw [ingest_eq, (addNodes_eq_ok_iff hs _).mpr ⟨h, rfl⟩]
  rfl

theorem ingest_eq_ok_iff (hs : s.ids.Nodup) (documents : List Document) : s.ingest documents = .ok s' ↔
    (s.published documents).ids.Nodup ∧
      (∀ e ∈ documents.flatMap (s.published documents).documentEdges,
        (s.published documents).has e.source = true ∧ (s.published documents).has e.target = true) ∧
      s' = s.ingested documents := by
  have hdeclared : (documents.flatMap (s.published documents).documentEdges).map Edge.refreshed =
      documents.flatMap (s.published documents).documentEdges := by
    rw [List.map_flatMap]
    exact List.flatMap_congr fun d _ => refreshed_documentEdges _ d
  by_cases hnodup : (s.published documents).ids.Nodup
  · rw [ingest_eq_addEdges hs hnodup, addEdges_eq_ok_iff, hdeclared, and_iff_right hnodup]
    rfl
  · refine iff_of_false (fun h => hnodup ?_) (fun h => hnodup h.1)
    rw [ingest_eq] at h
    rcases hadd : s.addNodes (documents.flatMap Document.nodes) with err | s₁
    · rw [hadd] at h
      cases h
    · rw [ids_published]
      exact ((addNodes_eq_ok_iff hs _).mp hadd).1

/-! ## From nothing -/

theorem mem_nodes_document {documents : List Document} {node : Node} :
    node ∈ documents.flatMap Document.nodes ↔ ∃ d ∈ documents, ∃ name resource, (name, resource) ∈ d.template.resources ∧
      node = ⟨⟨d.group, name⟩, resource.kind, resource.properties.getD .emptyRecord,
        if resource.extra.isEmpty then none else some resource.extra⟩ := by
  simp only [List.mem_flatMap, Document.nodes, List.mem_map, Prod.exists, eq_comm]

theorem scan_getD_emptyRecord (properties : Option Tree) :
    (properties.getD .emptyRecord).scan = properties.elim [] Tree.scan := by
  cases properties <;> rfl

section Ingested

variable {naming : Naming} {documents : List Document} (hs : ({ naming } : Store).ingest documents = .ok s)

include hs

theorem nodes_ingest : s.nodes = documents.flatMap Document.nodes := by
  obtain ⟨_, _, rfl⟩ := (ingest_eq_ok_iff (s := { naming }) List.nodup_nil documents).mp hs
  exact List.nil_append _

theorem edges_ingest : s.edges = documents.flatMap s.documentEdges := by
  obtain ⟨_, _, rfl⟩ := (ingest_eq_ok_iff (s := { naming }) List.nodup_nil documents).mp hs
  exact List.nil_append _

/-- From nothing, every edge is a stated predecessor or what a reference in a tree implies. -/
theorem mem_edges_ingest_iff {e : Edge} : e ∈ s.edges ↔
      (∃ d ∈ documents, ∃ name resource, (name, resource) ∈ d.template.resources ∧
        ∃ before ∈ resource.dependsOn.elim [] DependsOn.names, e = .between ⟨d.group, name⟩ ⟨d.group, before⟩ .structural none) ∨
      ∃ node ∈ s.nodes, ∃ r ∈ node.properties.scan, s.impliedEdge? node.id r = some e := by
  simp only [edges_ingest hs, nodes_ingest hs, documentEdges, List.mem_flatMap, Prod.exists, mem_declaredEdges]
  constructor
  · intro h
    obtain ⟨d, hd, name, resource, hres, hstated | ⟨r, hr, he⟩⟩ := h
    · exact Or.inl ⟨d, hd, name, resource, hres, hstated⟩
    · have hn := mem_nodes_document.mpr ⟨d, hd, name, resource, hres, rfl⟩
      exact Or.inr ⟨_, List.mem_flatMap.mp hn, r, by rwa [scan_getD_emptyRecord], he⟩
  · intro h
    rcases h with ⟨d, hd, name, resource, hres, hstated⟩ | ⟨node, hn, r, hr, he⟩
    · exact ⟨d, hd, name, resource, hres, Or.inl hstated⟩
    · obtain ⟨d, hd, name, resource, hres, rfl⟩ := mem_nodes_document.mp (List.mem_flatMap.mpr hn)
      exact ⟨d, hd, name, resource, hres, Or.inr ⟨r, by rwa [scan_getD_emptyRecord] at hr, he⟩⟩

end Ingested

end Store

end Regroup
