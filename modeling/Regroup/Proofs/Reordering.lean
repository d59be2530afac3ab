/-
  Regroup.Proofs.Reordering — documents in another order make the same store.

  A pass of the ingestion sees only what the passes before it made of all documents, and looks
  that up by address or by name. What the second pass publishes therefore does not depend on the
  order of the documents (`exports_congr`), nor does what the third pass adds
  (`documentEdges_congr`). Only two outputs with the same name would compete for it; without such
  the exports are the same under every name (`export?_published`), those that the store had
  before included. So the documents fail in every order or in none, and where they succeed the
  stores are `Alike` (`ingest_perm`).
-/

import Mathlib.Data.List.Flatten
import Regroup.Proofs.Consistency

namespace Regroup

/-- Elements with different keys are found in every order. -/
theorem find?_key_perm {α β : Type} [DecidableEq β] {key : α → β} {xs ys : List α} (hkeys : (xs.map key).Nodup)
    (h : xs.Perm ys) (k : β) : xs.find? (key · == k) = ys.find? (key · == k) := by
  refine List.find?_eq_find?_of_perm h fun x hx y hy => List.inj_on_of_nodup_map hkeys hx.1 hy.1 ?_
  exact (beq_iff_eq.mp hx.2).trans (beq_iff_eq.mp hy.2).symm

namespace Document

/-- The names that the outputs are to be published under. -/
def exportNames (d : Document) : List String :=
  d.template.outputs.filterMap fun (_, output) => output.exportName.bind Tree.asText?

theorem sublist_exportNames (d : Document) (s : Store) : ((d.exports s).map (·.name)).Sublist d.exportNames := by
  unfold exports exportNames
  induction d.template.outputs with
  | nil => exact List.Sublist.refl _
  | cons output outputs ih =>
    rcases hname : output.2.exportName.bind Tree.asText? with _ | name
    · simpa [List.filterMap_cons, hname] using ih
    · rcases hsource : d.publisher? s output.2.value with _ | source
      · simpa [List.filterMap_cons, hname, hsource] using ih.cons name
      · simpa [List.filterMap_cons, hname, hsource] using ih

variable {s t : Store} (hhas : ∀ id, t.has id = s.has id)

include hhas

theorem exports_congr (d : Document) : d.exports t = d.exports s := by
  unfold exports publisher?
  rw [funext hhas]

end Document

namespace Store

variable {s s' t : Store} {name : String} {documents documents' : List Document}

/-- Two stores in which the same is found under each address and each name, and that have the same
    edges as often. -/
structure Alike (s t : Store) : Prop where
  nodes : ∀ id, s.node? id = t.node? id
  exports : ∀ name, s.export? name = t.export? name
  edges : s.edges.Perm t.edges

/-! ## Exports -/

theorem find?_putExport (e : Export) (es : List Export) (name : String) : (putExport e es).find? (·.name == name) =
    if e.name = name then some e else es.find? (·.name == name) := by
  induction es with
  | nil => by_cases he : e.name = name <;> simp [putExport, he]
  | cons d es ih =>
    rw [putExport]
    by_cases he : e.name = name
    · by_cases hd : d.name = e.name
      · simp [hd, he]
      · have hne : d.name ≠ name := fun h => hd (h.trans he.symm)
        simp [he, hne, ih]
    · by_cases hd : d.name = e.name
      · simp [hd, he]
      · simp [List.find?_cons, hd, he, ih]

/-- Exports with different names do not compete, so each is found, and else what was there. -/
theorem find?_putAll {es : List Export} (h : (es.map (·.name)).Nodup) (exports : List Export) (name : String) :
    (putAll exports es).find? (·.name == name) = (es.find? (·.name == name)).or (exports.find? (·.name == name)) := by
  induction es generalizing exports with
  | nil => rfl
  | cons e es ih =>
    obtain ⟨hnew, hrest⟩ := List.nodup_cons.mp h
    change (putAll (putExport e exports) es).find? _ = _
    rw [ih hrest, find?_putExport]
    by_cases he : e.name = name
    · have hnone : es.find? (·.name == name) = none := by
        rw [List.find?_eq_none]
        intro e' he' hname
        exact hnew (List.mem_map.mpr ⟨e', he', (beq_iff_eq.mp hname).trans he.symm⟩)
      simp [he, hnone]
    · simp [he]

/-! ## Edges -/

section Lookups

variable (hhas : ∀ id, t.has id = s.has id) (hexport : ∀ name, t.export? name = s.export? name)

include hhas hexport

theorem impliedEdge?_congr (source : Address) (r : Reference) : t.impliedEdge? source r = s.impliedEdge? source r := by
  unfold impliedEdge?
  simp only [hhas, hexport]

theorem documentEdges_congr (d : Document) : t.documentEdges d = s.documentEdges d := by
  unfold documentEdges declaredEdges
  rw [funext fun source => funext fun r => impliedEdge?_congr hhas hexport source r]

end Lookups

/-! ## The store -/

section Permuted

variable (hperm : documents.Perm documents')

include hperm

theorem perm_nodes_published (s : Store) : (s.published documents).nodes.Perm (s.published documents').nodes :=
  (hperm.flatMap_right _).append_left _

theorem perm_ids_published (s : Store) : (s.published documents).ids.Perm (s.published documents').ids :=
  (perm_nodes_published hperm s).map _

theorem has_published (s : Store) (id : Address) : (s.published documents').has id = (s.published documents).has id := by
  rw [Bool.eq_iff_iff, has_iff, has_iff]
  exact (perm_ids_published hperm s).mem_iff.symm

theorem export?_published (hnames : (documents.flatMap Document.exportNames).Nodup) (s : Store) (name : String) :
    (s.published documents').export? name = (s.published documents).export? name := by
  let nodesOf (documents : List Document) : Store := { s with nodes := s.nodes ++ documents.flatMap Document.nodes }
  have hexports : (documents'.flatMap (·.exports (nodesOf documents'))).Perm
      (documents.flatMap (·.exports (nodesOf documents))) := by
    have hcongr : (·.exports (nodesOf documents')) = fun d : Document => d.exports (nodesOf documents) :=
      funext (Document.exports_congr (has_published hperm s))
    rw [hcongr]
    exact hperm.symm.flatMap_right _
  have hnodup : ((documents.flatMap (·.exports (nodesOf documents))).map (·.name)).Nodup := by
    rw [List.map_flatMap]
    exact (List.Sublist.flatMap_right documents fun d _ => d.sublist_exportNames _).nodup hnames
  have hnodup' := ((hexports.map (·.name)).nodup_iff).mpr hnodup
  change (putAll s.exports _).find? _ = (putAll s.exports _).find? _
  rw [find?_putAll hnodup, find?_putAll hnodup', find?_key_perm hnodup' hexports name]

theorem perm_documentEdges_published (hnames : (documents.flatMap Document.exportNames).Nodup) (s : Store) :
    (documents.flatMap (s.published documents).documentEdges).Perm
      (documents'.flatMap (s.published documents').documentEdges) := by
  have hcongr : (s.published documents').documentEdges = (s.published documents).documentEdges :=
    funext (documentEdges_congr (has_published hperm s) (export?_published hperm hnames s))
  rw [hcongr]
  exact hperm.flatMap_right _

/-- Documents that can be read can be read in any order, and make a store in which the same is
    found. -/
theorem exists_ingest_of_perm (hs : s.ids.Nodup) (hnames : (documents.flatMap Document.exportNames).Nodup)
    (h : s.ingest documents = .ok s') : ∃ t, s.ingest documents' = .ok t ∧ s'.Alike t := by
  obtain ⟨hids, hends, rfl⟩ := (ingest_eq_ok_iff hs documents).mp h
  have hedges := perm_documentEdges_published hperm hnames s
  refine ⟨s.ingested documents', (ingest_eq_ok_iff hs documents').mpr ⟨?_, fun e he => ?_, rfl⟩, ?_⟩
  · exact (perm_ids_published hperm s).nodup_iff.mp hids
  · rw [has_published hperm, has_published hperm]
    exact hends e (hedges.mem_iff.mpr he)
  · exact ⟨fun id => find?_key_perm hids (perm_nodes_published hperm s) id,
      fun name => (export?_published hperm hnames s name).symm, hedges.append_left _⟩

end Permuted

/-- Where no name is to be published twice, documents can be read in every order or in none. Every
    order that they can be read in makes a store in which the same is found. -/
theorem ingest_perm (hs : s.Consistent) (hnames : (documents.flatMap Document.exportNames).Nodup)
    (hperm : documents.Perm documents') :
    ((∃ s₁, s.ingest documents = .ok s₁) ↔ ∃ s₂, s.ingest documents' = .ok s₂) ∧
      ∀ s₁ s₂, s.ingest documents = .ok s₁ → s.ingest documents' = .ok s₂ → s₁.Alike s₂ := by
  have hnames' : (documents'.flatMap Document.exportNames).Nodup := ((hperm.flatMap_right _).nodup_iff).mp hnames
  refine ⟨⟨?_, ?_⟩, fun s₁ s₂ h₁ h₂ => ?_⟩
  · rintro ⟨s₁, h₁⟩
    obtain ⟨s₂, h₂, _⟩ := exists_ingest_of_perm hperm hs.ids hnames h₁
    exact ⟨s₂, h₂⟩
  · rintro ⟨s₂, h₂⟩
    obtain ⟨s₁, h₁, _⟩ := exists_ingest_of_perm hperm.symm hs.ids hnames' h₂
    exact ⟨s₁, h₁⟩
  · obtain ⟨t, ht, halike⟩ := exists_ingest_of_perm hperm hs.ids hnames h₁
    rw [h₂] at ht
    cases ht
    exact halike

/-- A store that publishes a topic already. -/
def topicStore : Store where
  nodes := [.new ⟨"legacy", "Topic"⟩ "topic"]
  exports := [⟨"topic", ⟨"legacy", "Topic"⟩, none, none⟩]

/-- A reader, and a group in two parts of which the first publishes a topic of the second. -/
def partedDocuments : List Document :=
  [⟨"services", { resources := [("Reader", {
      kind := "reader"
      properties := some (.record [("From", (Reference.imported "queue").construct),
        ("Filter", (Reference.imported "topic").construct)]) })] }⟩,
   ⟨"infra", { outputs := [("TopicRef", { value := (Reference.node "Topic").construct, exportName := some (.text "topic") })] }⟩,
   ⟨"infra", { resources := [("Topic", { kind := "topic" }), ("Queue", {
                kind := "queue"
                properties := some (Tree.call "Source" (Reference.attrOf "Topic" "Arn").construct)
                dependsOn := some (.one "Topic") })]
               outputs := [("QueueRef", { value := (Reference.node "Queue").construct, exportName := some (.text "queue") })] }⟩]

/-- Read from the last to the first they make a store with the edges in another order. -/
theorem ingest_perm_parted : ∃ s₁ s₂, topicStore.ingest partedDocuments = .ok s₁ ∧
    topicStore.ingest partedDocuments.reverse = .ok s₂ ∧ s₁.Alike s₂ ∧ s₁.edges ≠ s₂.edges := by
  have hs : topicStore.Consistent := by decide
  obtain ⟨hboth, halike⟩ := @ingest_perm topicStore partedDocuments partedDocuments.reverse hs (by decide)
    (List.reverse_perm _).symm
  obtain ⟨s₂, h₂⟩ := hboth.mp ⟨_, rfl⟩
  refine ⟨_, s₂, rfl, h₂, halike _ s₂ rfl h₂, ?_⟩
  cases h₂
  decide

end Store

end Regroup
