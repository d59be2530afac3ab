/-
  Regroup.Proofs.Declarations — the edges that documents add.

  `Implies` says which dependency a reference stands for: a local one that on another node of the
  group, if there is one of its name, and an import that on the source of the export. Other
  references, to parameters say, stand for none. Ingestion adds to each resource its stated
  predecessors and then what its references imply, each dependency once and where it first comes up
  (`ImpliedInOrder`); the edges that were there stay in front (`dependencies_ingest_implied`).
-/

import Regroup.Proofs.Consistency
import Regroup.Proofs.Reproduction

namespace Regroup.Store

variable {s s' : Store} {source : Address} {r : Reference} {e : Edge} {documents : List Document}

/-! ## References -/

/-- The dependency that a reference in the tree of the node at `source` stands for. -/
inductive Implies (s : Store) (source : Address) : Reference → Edge → Prop where
  | node {name : String} (hother : name ≠ source.name) (hknown : ⟨source.group, name⟩ ∈ s.ids) :
      Implies s source (.node name) (.between source ⟨source.group, name⟩ .value none)
  | attrOf {name attr : String} (hother : name ≠ source.name) (hknown : ⟨source.group, name⟩ ∈ s.ids) :
      Implies s source (.attrOf name attr) (.between source ⟨source.group, name⟩ .attrOf (some attr))
  | imported {ex : Export} (hpublished : ex ∈ s.exports) :
      Implies s source (.imported ex.name) (.between source ex.source .imported ex.exposure.attr?)

theorem implies_ofTarget {name : String} (attr : Option String) (hother : name ≠ source.name)
    (hknown : ⟨source.group, name⟩ ∈ s.ids) :
    s.Implies source (.ofTarget name attr) (.between source ⟨source.group, name⟩ (.ofAttr attr) attr) := by
  cases attr with
  | none => exact .node hother hknown
  | some attr => exact .attrOf hother hknown

theorem implies_iff (hnames : s.exportNames.Nodup) : s.Implies source r e ↔ s.impliedEdge? source r = some e := by
  have hlocal : ∀ (name : String) (attr : Option String), name ≠ source.name → ⟨source.group, name⟩ ∈ s.ids →
      s.impliedEdge? source (.ofTarget name attr) = some (.between source ⟨source.group, name⟩ (.ofAttr attr) attr) := by
    intro name attr hother hknown
    rw [impliedEdge?_ofTarget, if_neg]
    rintro (hself | hunknown)
    · exact hother (congrArg Address.name hself)
    · exact hunknown (has_iff.mpr hknown)
  constructor
  · intro h
    cases h with
    | node hother hknown => exact hlocal _ none hother hknown
    | attrOf hother hknown => exact hlocal _ (some _) hother hknown
    | imported hpublished => exact impliedEdge?_imported (export?_of_mem hnames hpublished) source
  · intro h
    rcases impliedEdge?_cases h with ⟨x, ex, rfl, hex, rfl⟩ | ⟨name, attr, rfl, hother, hknown, rfl⟩
    · obtain ⟨hpublished, rfl⟩ := mem_of_export? hex
      exact .imported hpublished
    · exact implies_ofTarget attr (fun hname => hother (Address.ext rfl hname)) (has_iff.mp hknown)

/-- Of an implied edge, all but the target, the kind and the attribute is known. -/
theorem eq_between_of_impliedEdge? (h : s.impliedEdge? source r = some e) : e = .between source e.target e.kind e.attr := by
  rcases impliedEdge?_cases h with ⟨_, _, _, _, rfl⟩ | ⟨_, _, _, _, _, rfl⟩ <;> rfl

/-! ## Resources -/

/-- What the references imply, each dependency once. What the first of them imply comes first. -/
structure ImpliedInOrder (s : Store) (source : Address) (rs : List Reference) (es : List Edge) : Prop where
  distinct : (es.map fun e => (e.target, e.kind, e.attr)).Nodup
  mem_iff : ∀ e, e ∈ es ↔ ∃ r ∈ rs, s.Implies source r e
  ordered : ∀ front, front <+: rs → ∃ first, first <+: es ∧ ∀ e, e ∈ first ↔ ∃ r ∈ front, s.Implies source r e

theorem impliedInOrder (hnames : s.exportNames.Nodup) (source : Address) (rs : List Reference) :
    s.ImpliedInOrder source rs (rs.filterMap (s.impliedEdge? source)).eraseDups := by
  have hmem : ∀ (rs : List Reference) (e : Edge),
      e ∈ (rs.filterMap (s.impliedEdge? source)).eraseDups ↔ ∃ r ∈ rs, s.Implies source r e := by
    intro rs e
    simp only [List.mem_eraseDups, List.mem_filterMap, implies_iff hnames]
  refine ⟨?_, hmem rs, fun front hfront => ?_⟩
  · refine (List.nodup_map_iff_inj_on (nodup_eraseDups _)).mpr fun e he e' he' heq => ?_
    obtain ⟨r, _, h⟩ := List.mem_filterMap.mp (List.mem_eraseDups.mp he)
    obtain ⟨r', _, h'⟩ := List.mem_filterMap.mp (List.mem_eraseDups.mp he')
    rw [Prod.mk.injEq, Prod.mk.injEq] at heq
    rw [eq_between_of_impliedEdge? h, eq_between_of_impliedEdge? h', heq.1, heq.2.1, heq.2.2]
  · obtain ⟨back, rfl⟩ := hfront
    refine ⟨(front.filterMap (s.impliedEdge? source)).eraseDups, ?_, hmem front⟩
    rw [List.filterMap_append, List.eraseDups_append]
    exact List.prefix_append _ _

/-- The edges that were there stay in front of those that are added. Each resource comes to have its
    stated predecessors, and then what its references imply. -/
theorem dependencies_ingest_implied (hs : s.Consistent) (h : s.ingest documents = .ok s') :
    (∃ added, s'.edges = s.edges ++ added ∧ ∀ e ∈ added, ∃ d ∈ documents, ∃ name resource,
      (name, resource) ∈ d.template.resources ∧ e.source = ⟨d.group, name⟩) ∧
    ∀ d ∈ documents, ∀ name resource, (name, resource) ∈ d.template.resources → ∃ implied,
      s'.dependencies ⟨d.group, name⟩ = (resource.predecessors.map fun before =>
        .between ⟨d.group, name⟩ ⟨d.group, before⟩ .structural none) ++ implied ∧
      s'.ImpliedInOrder ⟨d.group, name⟩ (resource.properties.elim [] Tree.scan) implied := by
  refine ⟨⟨_, edges_declared hs.ids h, fun e he => ?_⟩, fun d hd name resource hres => ?_⟩
  · obtain ⟨⟨id, resource⟩, hdeclared, he⟩ := List.mem_flatMap.mp he
    obtain ⟨d, hd, hin⟩ := List.mem_flatMap.mp hdeclared
    obtain ⟨⟨name, _⟩, hres, heq⟩ := List.mem_map.mp hin
    cases heq
    exact ⟨d, hd, name, resource, hres, source_of_mem_declaredEdges he⟩
  · refine ⟨_, dependencies_declared hs.ids h (fun e he => (hs.ends e he).1) hd hres, ?_⟩
    exact impliedInOrder (hs.ingest h).names _ _

/-- A name that is published already. -/
def sharedStore : Store where
  nodes := [.new ⟨"a", "Old"⟩ "topic"]
  exports := [⟨"shared", ⟨"a", "Old"⟩, none, none⟩]

/-- Two documents of one group, the second of which publishes the shared name anew, and one that
    imports it. Some references come twice, and some are to no other node. -/
def sharedDocuments : List Document := [
  ⟨"a", {
    resources := [("Topic", { kind := "topic" }), ("Queue", {
      kind := "queue"
      properties := some (.record [("Name", (Reference.attrOf "Topic" "Name").construct),
        ("Topic", (Reference.node "Topic").construct), ("Again", (Reference.attrOf "Topic" "Name").construct),
        ("Self", (Reference.node "Queue").construct), ("Region", (Reference.node "Region").construct)])
      dependsOn := some (.many ["Topic", "Old"]) })]
    outputs := [("Arn", { value := (Reference.attrOf "Topic" "Arn").construct, exportName := some (.text "arn") })] }⟩,
  ⟨"a", {
    resources := [("Alarm", { kind := "alarm", properties := some (Reference.node "Old").construct })]
    outputs := [("Shared", {
      value := .list [.text "topic", (Reference.node "Topic").construct]
      exportName := some (.text "shared") })] }⟩,
  ⟨"b", {
    resources := [("Reader", {
      kind := "reader"
      properties := some (.record [("Shared", (Reference.imported "shared").construct),
        ("Unknown", (Reference.imported "unknown").construct), ("Arn", (Reference.imported "arn").construct)]) })] }⟩]

theorem dependencies_ingest_implied_shared : ∃ s', sharedStore.ingest sharedDocuments = .ok s' ∧
    (s'.dependencies ⟨"a", "Queue"⟩).map (fun e => (e.target.name, e.kind, e.attr)) =
      [("Topic", .structural, none), ("Old", .structural, none), ("Topic", .attrOf, some "Name"), ("Topic", .value, none)] ∧
    (s'.dependencies ⟨"b", "Reader"⟩).map (fun e => (e.target.name, e.kind, e.attr)) =
      [("Topic", .imported, none), ("Topic", .imported, some "Arn")] ∧
    (∃ added, s'.edges = sharedStore.edges ++ added ∧ ∀ e ∈ added, ∃ d ∈ sharedDocuments, ∃ name resource,
      (name, resource) ∈ d.template.resources ∧ e.source = ⟨d.group, name⟩) ∧
    ∀ d ∈ sharedDocuments, ∀ name resource, (name, resource) ∈ d.template.resources → ∃ implied,
      s'.dependencies ⟨d.group, name⟩ = (resource.predecessors.map fun before =>
        .between ⟨d.group, name⟩ ⟨d.group, before⟩ .structural none) ++ implied ∧
      s'.ImpliedInOrder ⟨d.group, name⟩ (resource.properties.elim [] Tree.scan) implied := by
  have hs : sharedStore.Consistent := by decide
  exact ⟨sharedStore.ingested sharedDocuments, rfl, by decide, by decide,
    @dependencies_ingest_implied sharedStore _ sharedDocuments hs rfl⟩

end Regroup.Store
