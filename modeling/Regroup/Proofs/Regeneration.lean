/-
  Regroup.Proofs.Regeneration — the store that the generated documents make.

  The documents of a store hold its nodes, each once, and name no predecessor that is not among
  them, so they can be read again (`ingest_documents`). Where every published expression says of
  itself what its source is, the store that comes out is known from the first one
  (`Grounded.ingest_documents`): it has the same nodes with their localized trees, the same
  exports under the same output values, and an edge between two groups for each import that is
  written in the documents (`Regenerated.mem_edges_iff`).
-/

import Regroup.Proofs.Documents
import Regroup.Proofs.Transit

namespace Regroup

/-- Induction along the removal of duplicates: the first element, then the rest without it. -/
@[elab_as_elim]
theorem eraseDups_induction {α : Type} [BEq α] {motive : List α → Prop} (nil : motive [])
    (cons : ∀ x rest, motive (rest.filter fun y => !(y == x)) → motive (x :: rest)) (xs : List α) : motive xs := by
  match xs with
  | [] => exact nil
  | x :: rest => exact cons x rest (eraseDups_induction nil cons _)
termination_by xs.length
decreasing_by exact Nat.lt_succ_of_le (List.length_filter_le _ _)

theorem nodup_eraseDups {α : Type} [BEq α] [LawfulBEq α] (keys : List α) : keys.eraseDups.Nodup := by
  induction keys using eraseDups_induction with
  | nil => exact List.nodup_nil
  | cons k rest ih =>
    rw [List.eraseDups_cons, List.nodup_cons, List.mem_eraseDups]
    exact ⟨by simp, ih⟩

/-- Elements taken group by group are all the elements, each once. -/
theorem flatMap_filter_perm {α : Type} (key : α → String) {keys : List String} (hkeys : keys.Nodup) {xs : List α}
    (h : ∀ x ∈ xs, key x ∈ keys) : (keys.flatMap fun k => xs.filter (key · == k)).Perm xs := by
  induction keys generalizing xs with
  | nil =>
    rw [List.eq_nil_iff_forall_not_mem.mpr fun x hx => List.not_mem_nil (h x hx)]
    exact List.Perm.nil
  | cons k keys ih =>
    obtain ⟨hnot, hkeys⟩ := List.nodup_cons.mp hkeys
    -- The elements of the other groups are among those that are not of the first one.
    have hothers : ∀ k' ∈ keys, xs.filter (key · == k') = (xs.filter fun x => !(key x == k)).filter (key · == k') := by
      intro k' hk'
      have hne : k' ≠ k := ne_of_mem_of_not_mem hk' hnot
      rw [List.filter_filter]
      refine List.filter_congr fun x _ => ?_
      by_cases hx : key x = k' <;> simp [hx, hne]
    have hrest : ∀ x ∈ xs.filter fun x => !(key x == k), key x ∈ keys := by
      intro x hx
      obtain ⟨hx, hne⟩ := List.mem_filter.mp hx
      exact (List.mem_cons.mp (h x hx)).resolve_left (by simpa using hne)
    rw [List.flatMap_cons, List.flatMap_congr hothers]
    exact ((ih hkeys hrest).append_left _).trans (List.filter_append_perm _ _)

theorem Tree.scan_of_isEmpty {tree : Tree} (h : tree.isEmpty = true) : tree.scan = [] := by
  unfold isEmpty at h
  split at h
  · rfl
  · rw [List.isEmpty_iff] at h
    subst h
    rfl
  · cases h

namespace Export

/-- The export as its output tells it, whatever the output is called. -/
def told (e : Export) : Export := ⟨e.name, e.source, none, some e.expression⟩

theorem exposure_told (e : Export) : e.told.exposure = e.exposure := by
  rw [exposure_eq, exposure_eq]
  rfl

theorem map_name_told (es : List Export) : (es.map told).map (·.name) = es.map (·.name) := by
  rw [List.map_map]
  rfl

theorem eq_of_told {e e' : Export} (h : e'.told = e.told) :
    e'.name = e.name ∧ e'.source = e.source ∧ e'.expression = e.expression ∧ e'.exposure = e.exposure := by
  have hexposure : e'.exposure = e.exposure := by rw [← exposure_told, h, exposure_told]
  injection h with hname hsource _ hvalue
  exact ⟨hname, hsource, Option.some.inj hvalue, hexposure⟩

end Export

namespace Store

variable {s : Store} {group : String}

/-- The templates of all groups. -/
def documents (s : Store) : List Document := s.groups.map fun group => ⟨group, s.generate group⟩

/-! ## Nodes -/

/-- The node of a generated document. -/
def rewritten (s : Store) (node : Node) : Node :=
  ⟨node.id, node.kind, ((s.resourceFor node.id.group node).properties).getD .emptyRecord,
    if (node.metadata.getD []).isEmpty then none else some (node.metadata.getD [])⟩

theorem scan_rewritten (s : Store) (node : Node) :
    (s.rewritten node).properties.scan = (s.localizedProperties node.id.group node).scan := by
  unfold rewritten resourceFor
  by_cases hempty : (s.localizedProperties node.id.group node).isEmpty = true
  · simp only [hempty, if_true, Option.getD_none, Tree.scan_of_isEmpty hempty]
    rfl
  · simp [hempty]

theorem nodes_generate (hids : s.ids.Nodup) (group : String) :
    (⟨group, s.generate group⟩ : Document).nodes = (s.members group).map s.rewritten := by
  rw [Document.nodes, resources_generate hids, List.map_map]
  refine List.map_congr_left fun node hn => ?_
  have hgroup : node.id.group = group := by simpa using (List.mem_filter.mp hn).2
  subst hgroup
  rfl

theorem nodes_documents (hids : s.ids.Nodup) : (s.documents.flatMap Document.nodes).Perm (s.nodes.map s.rewritten) := by
  have hnodes : s.documents.flatMap Document.nodes = (s.groups.flatMap s.members).map s.rewritten := by
    rw [documents, List.flatMap_map, List.map_flatMap]
    exact List.flatMap_congr fun group _ => nodes_generate hids group
  rw [hnodes]
  refine (flatMap_filter_perm (fun node : Node => node.id.group) (nodup_eraseDups _) fun node hn => ?_).map _
  exact List.mem_eraseDups.mpr (List.mem_map_of_mem hn)

theorem ids_documents (hids : s.ids.Nodup) : ((s.documents.flatMap Document.nodes).map (·.id)).Perm s.ids := by
  refine ((nodes_documents hids).map _).trans (List.Perm.of_eq ?_)
  rw [List.map_map]
  rfl

/-! ## Exports -/

/-- Every expression says of itself what its source is. -/
def Attributed (s : Store) : Prop :=
  ∀ e ∈ s.exports, Document.publisher? ⟨e.source.group, {}⟩ s e.expression = some e.source

theorem publisher?_congr {t : Store} (hhas : ∀ id, t.has id = s.has id) (d : Document) (value : Tree) :
    d.publisher? t value = Document.publisher? ⟨d.group, {}⟩ s value := by
  rw [Document.publisher?, funext hhas]
  rfl

theorem exports_generate {t : Store} (hhas : ∀ id, t.has id = s.has id) (h : s.Attributed) (group : String) :
    ((⟨group, s.generate group⟩ : Document).exports t).map Export.told = (s.exportsIn group).map Export.told := by
  -- Each output publishes the export that it was made for.
  have houtputs : ∀ (outputs : Fields Output) (es : List Export),
      outputs.map (·.2) = (es.map fun e => { value := e.expression, exportName := some (.text e.name) }) →
      (∀ e ∈ es, Document.publisher? ⟨group, s.generate group⟩ t e.expression = some e.source) →
      ((⟨group, { outputs }⟩ : Document).exports t).map Export.told = es.map Export.told := by
    intro outputs es heq hpub
    induction outputs generalizing es with
    | nil =>
      rw [List.map_eq_nil_iff.mp heq.symm]
      rfl
    | cons output outputs ih =>
      cases es with
      | nil => cases heq
      | cons e es =>
        injection heq with hfirst hrest
        have htail := ih es hrest fun e' he' => hpub e' (List.mem_cons_of_mem _ he')
        obtain ⟨id, output⟩ := output
        subst hfirst
        have hsource := hpub e (List.mem_cons_self ..)
        simp only [Document.publisher?] at hsource
        simp only [Document.exports, Document.publisher?, List.filterMap_cons, Option.bind_some, Tree.asText?, hsource,
          List.map_cons] at htail ⊢
        exact congrArg (e.told :: ·) htail
  refine houtputs _ _ (outputs_generate s group) fun e he => ?_
  obtain ⟨hmem, hgroup⟩ := List.mem_filter.mp he
  rw [publisher?_congr hhas]
  have := h e hmem
  rwa [beq_iff_eq.mp hgroup] at this

theorem exports_documents {t : Store} (hhas : ∀ id, t.has id = s.has id) (h : s.Attributed) (hs : s.Grounded) :
    ((s.documents.flatMap (·.exports t)).map Export.told).Perm (s.exports.map Export.told) := by
  have hexports : (s.documents.flatMap (·.exports t)).map Export.told = (s.groups.flatMap s.exportsIn).map Export.told := by
    rw [documents, List.flatMap_map, List.map_flatMap, List.map_flatMap]
    exact List.flatMap_congr fun group _ => exports_generate hhas h group
  -- A group that publishes something has a node.
  have hgroups : ∀ e ∈ s.exports, e.source.group ∈ s.groups := by
    intro e he
    obtain ⟨node, hn, hid⟩ := List.mem_map.mp (hs.sources e he)
    exact List.mem_eraseDups.mpr (hid ▸ List.mem_map_of_mem hn)
  have hnodup : s.groups.Nodup := nodup_eraseDups _
  rw [hexports]
  exact (flatMap_filter_perm (fun e : Export => e.source.group) hnodup hgroups).map _

/-! ## Reading the documents -/

theorem putExport_of_not_mem {e : Export} {es : List Export} (h : e.name ∉ es.map (·.name)) : putExport e es = es ++ [e] := by
  induction es with
  | nil => rfl
  | cons d es ih =>
    rw [List.map_cons, List.mem_cons, not_or] at h
    rw [putExport, if_neg (Ne.symm h.1), ih h.2]
    rfl

theorem putAll_of_nodup {exports es : List Export} (h : ((exports ++ es).map (·.name)).Nodup) :
    putAll exports es = exports ++ es := by
  induction es generalizing exports with
  | nil => exact (List.append_nil exports).symm
  | cons e es ih =>
    have hassoc : exports ++ e :: es = exports ++ [e] ++ es := by simp
    have hnew : e.name ∉ exports.map (·.name) := by
      rw [List.map_append] at h
      exact fun hin => (List.nodup_append.mp h).2.2 _ hin _ (List.mem_cons_self ..) rfl
    rw [hassoc] at h ⊢
    rw [← ih h, ← putExport_of_not_mem hnew]
    rfl

theorem ends_of_impliedEdge? {source : Address} {r : Reference} {e : Edge} (h : s.impliedEdge? source r = some e)
    (hexports : ∀ ex ∈ s.exports, s.has ex.source = true) : e.source = source ∧ s.has e.target = true := by
  rcases impliedEdge?_cases h with ⟨x, ex, _, hex, rfl⟩ | ⟨_, _, _, _, hknown, rfl⟩
  · exact ⟨rfl, hexports ex (mem_of_export? hex).1⟩
  · exact ⟨rfl, hknown⟩

theorem mem_predecessors_iff {id : Address} {name : String} : name ∈ s.predecessors group id ↔
    ∃ e ∈ s.edges, e.kind = .structural ∧ e.source = id ∧ e.target = ⟨group, name⟩ := by
  simp only [predecessors, dependencies, List.mem_eraseDups, List.mem_map, List.mem_filter, Bool.and_eq_true, beq_iff_eq]
  constructor
  · rintro ⟨e, ⟨⟨he, hsource⟩, hkind, htarget⟩, rfl⟩
    exact ⟨e, he, hkind, hsource, Address.ext htarget rfl⟩
  · rintro ⟨e, he, hkind, hsource, htarget⟩
    exact ⟨e, ⟨⟨he, hsource⟩, hkind, congrArg Address.group htarget⟩, congrArg Address.name htarget⟩

theorem mem_dependsOn_resourceFor_iff {name : String} {node : Node} :
    name ∈ (s.resourceFor group node).dependsOn.elim [] DependsOn.names ↔ name ∈ s.predecessors group node.id := by
  have hnames := DependsOn.names_ofNames? (s.predecessors group node.id)
  simp only [resourceFor]
  rcases hd : DependsOn.ofNames? (s.predecessors group node.id) with _ | dependsOn
  · rw [hd] at hnames
    exact hnames ▸ Iff.rfl
  · rw [hd] at hnames
    exact hnames ▸ Iff.rfl

section Documents

variable (hids : s.ids.Nodup)

include hids

/-- The resources of the generated documents are what is made of the nodes. -/
theorem exists_resource_iff {name : String} {resource : Resource} :
    (∃ d ∈ s.documents, d.group = group ∧ (name, resource) ∈ d.template.resources) ↔
      ∃ node ∈ s.nodes, node.id = ⟨group, name⟩ ∧ s.resourceFor group node = resource := by
  constructor
  · rintro ⟨d, hd, rfl, hres⟩
    obtain ⟨group, _, rfl⟩ := List.mem_map.mp hd
    rw [resources_generate hids] at hres
    obtain ⟨node, hn, hpair⟩ := List.mem_map.mp hres
    obtain ⟨hn, hgroup⟩ := List.mem_filter.mp hn
    cases hpair
    exact ⟨node, hn, Address.ext (beq_iff_eq.mp hgroup) rfl, rfl⟩
  · rintro ⟨node, hn, hid, rfl⟩
    have hgroup : node.id.group = group := congrArg Address.group hid
    refine ⟨⟨group, s.generate group⟩, List.mem_map_of_mem (List.mem_eraseDups.mpr ?_), rfl, ?_⟩
    · exact hgroup ▸ List.mem_map_of_mem hn
    · rw [resources_generate hids]
      exact List.mem_map.mpr ⟨node, List.mem_filter.mpr ⟨hn, by simpa using hgroup⟩, by rw [hid]⟩

variable (hends : ∀ e ∈ s.edges, e.source ∈ s.ids ∧ e.target ∈ s.ids)

include hends

/-- No edge of the generated documents leads out of the store. -/
theorem ends_documents {t : Store} (hhas : ∀ id, t.has id = s.has id) (hexports : ∀ ex ∈ t.exports, t.has ex.source = true)
    {e : Edge} (he : e ∈ s.documents.flatMap t.documentEdges) : t.has e.source = true ∧ t.has e.target = true := by
  obtain ⟨d, hd, he⟩ := List.mem_flatMap.mp he
  obtain ⟨⟨name, resource⟩, hres, he⟩ := List.mem_flatMap.mp he
  obtain ⟨node, hn, hid, rfl⟩ := (exists_resource_iff hids).mp ⟨d, hd, rfl, hres⟩
  have hsource : t.has ⟨d.group, name⟩ = true := by
    rw [hhas, ← hid]
    exact has_iff.mpr (List.mem_map_of_mem hn)
  rcases mem_declaredEdges.mp he with ⟨before, hbefore, rfl⟩ | ⟨r, _, he⟩
  · obtain ⟨e, he, _, _, htarget⟩ := mem_predecessors_iff.mp (mem_dependsOn_resourceFor_iff.mp hbefore)
    have hknown := has_iff.mpr (hends e he).2
    rw [htarget, ← hhas] at hknown
    exact ⟨hsource, hknown⟩
  · obtain ⟨hfrom, hto⟩ := ends_of_impliedEdge? he hexports
    exact ⟨hfrom ▸ hsource, hto⟩

/-- The generated documents can be read, in whatever order they come. -/
theorem ingest_documents (naming : Naming) {documents : List Document} (horder : documents.Perm s.documents) :
    ({ naming } : Store).ingest documents = .ok (({ naming } : Store).ingested documents) := by
  have hnodes : ((documents.flatMap Document.nodes).map (·.id)).Perm s.ids :=
    ((horder.flatMap_right _).map _).trans (ids_documents hids)
  have hhas : ∀ id, (({ naming } : Store).published documents).has id = s.has id := by
    intro id
    rw [Bool.eq_iff_iff, has_iff, has_iff, ids_published]
    exact hnodes.mem_iff
  refine (ingest_eq_ok_iff (s := { naming }) List.nodup_nil documents).mpr ⟨?_, fun e he => ?_, rfl⟩
  · rw [ids_published]
    exact hnodes.nodup_iff.mpr hids
  · refine ends_documents hids hends hhas (fun ex hex => ?_) ((horder.flatMap_right _).mem_iff.mp he)
    rcases mem_putAll hex with hex | hex
    · cases hex
    · obtain ⟨d, _, hex⟩ := List.mem_flatMap.mp hex
      obtain ⟨_, _, _, source, _, hpub, hex⟩ := mem_exports.mp hex
      rw [hex]
      exact (has_of_publisher? hpub).1

end Documents

/-- They give the same nodes with their localized trees, and the same exports. -/
theorem Grounded.ingest_documents (hs : s.Grounded) (h : s.Attributed) (naming : Naming) :
    ∃ fresh, ({ naming } : Store).ingest s.documents = .ok fresh ∧ fresh.nodes.Perm (s.nodes.map s.rewritten) ∧
      (fresh.exports.map Export.told).Perm (s.exports.map Export.told) := by
  refine ⟨_, Store.ingest_documents hs.ids hs.ends naming (List.Perm.refl _), nodes_documents hs.ids, ?_⟩
  let read : Store := { naming, nodes := s.documents.flatMap Document.nodes }
  have hhas : ∀ id, read.has id = s.has id := by
    intro id
    rw [Bool.eq_iff_iff, has_iff, has_iff]
    exact (ids_documents hs.ids).mem_iff
  have htold := exports_documents hhas h hs
  -- No name is published twice, so no export gives way to a later one.
  have hput : putAll [] (s.documents.flatMap (·.exports read)) = s.documents.flatMap (·.exports read) := by
    refine putAll_of_nodup ?_
    rw [List.nil_append, ← Export.map_name_told]
    refine ((htold.map _).nodup_iff).mpr ?_
    rw [Export.map_name_told]
    exact hs.names
  have hexports : (({ naming } : Store).ingested s.documents).exports = putAll [] (s.documents.flatMap (·.exports read)) := rfl
  rw [hexports, hput]
  exact htold

/-! ## What comes out -/

/-- `fresh` is what the generated documents of `s` make. -/
structure Regenerated (s fresh : Store) : Prop where
  documents : ∃ naming, ({ naming } : Store).ingest s.documents = .ok fresh
  nodes : fresh.nodes.Perm (s.nodes.map s.rewritten)
  exports : (fresh.exports.map Export.told).Perm (s.exports.map Export.told)

namespace Regenerated

variable {fresh : Store} (h : s.Regenerated fresh) (hs : s.Grounded)

include h hs

theorem export?_told (name : String) : (fresh.export? name).map Export.told = (s.export? name).map Export.told := by
  have hperm : fresh.exportNames.Perm s.exportNames := by
    rw [exportNames, exportNames, ← Export.map_name_told fresh.exports, ← Export.map_name_told s.exports]
    exact h.exports.map _
  rcases hex : s.export? name with _ | e
  · have hno : fresh.export? name = none :=
      export?_eq_none_iff.mpr fun hin => export?_eq_none_iff.mp hex (hperm.mem_iff.mp hin)
    rw [hno]
  · obtain ⟨hmem, rfl⟩ := mem_of_export? hex
    obtain ⟨e', he', htold⟩ := List.mem_map.mp (h.exports.mem_iff.mpr (List.mem_map_of_mem hmem))
    have hfound := export?_of_mem (hperm.nodup_iff.mpr hs.names) he'
    rw [(Export.eq_of_told htold).1] at hfound
    rw [hfound, Option.map_some, Option.map_some, htold]

/-- Edges between groups are the imports that are written in the documents. -/
theorem mem_edges_iff {source target : Address} (hgroup : source.group ≠ target.group) (attr : Option String) :
    (∃ e ∈ fresh.edges, e.source = source ∧ e.target = target ∧ e.attr = attr) ↔
      ∃ node ∈ s.nodes, node.id = source ∧ ∃ ex ∈ s.exports, ex.source = target ∧ ex.exposure.attr? = attr ∧
        .imported ex.name ∈ (s.localizedProperties source.group node).scan := by
  obtain ⟨naming, hingest⟩ := h.documents
  constructor
  · intro hedge
    obtain ⟨e, he, rfl, rfl, rfl⟩ := hedge
    rcases (mem_edges_ingest_iff hingest).mp he with ⟨d, _, name, resource, _, before, _, rfl⟩ | ⟨node', hn', r, hr, hin⟩
    · exact absurd rfl hgroup
    obtain ⟨node, hn, rfl⟩ := List.mem_map.mp (h.nodes.mem_iff.mp hn')
    rw [scan_rewritten] at hr
    rcases impliedEdge?_cases hin with ⟨x, ex', rfl, hex', rfl⟩ | ⟨_, _, _, _, _, rfl⟩
    · have hsame := h.export?_told hs x
      rw [hex'] at hsame
      obtain ⟨ex, hex, htold⟩ := Option.map_eq_some_iff.mp hsame.symm
      obtain ⟨hmem, rfl⟩ := mem_of_export? hex
      obtain ⟨_, hsource, _, hexposure⟩ := Export.eq_of_told htold
      exact ⟨node, hn, rfl, ex, hmem, hsource, congrArg Exposure.attr? hexposure, hr⟩
    · exact absurd rfl hgroup
  · intro himport
    obtain ⟨node, hn, rfl, ex, hex, rfl, rfl, hin⟩ := himport
    have htold := h.export?_told hs ex.name
    rw [export?_of_mem hs.names hex] at htold
    obtain ⟨ex', hex', htold⟩ := Option.map_eq_some_iff.mp htold
    obtain ⟨_, hsource, _, hexposure⟩ := Export.eq_of_told htold
    have hn' := h.nodes.mem_iff.mpr (List.mem_map_of_mem hn)
    rw [← scan_rewritten] at hin
    refine ⟨_, (mem_edges_ingest_iff hingest).mpr (Or.inr ⟨_, hn', _, hin, impliedEdge?_imported hex' _⟩), rfl, hsource, ?_⟩
    exact congrArg Exposure.attr? hexposure

end Regenerated

end Store

end Regroup
