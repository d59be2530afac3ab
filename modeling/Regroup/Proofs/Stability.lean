/-
  Regroup.Proofs.Stability — generated trees generate themselves.

  What `localize` answers it leaves alone: a reference that became local names a node of the
  group, and one that became an import names an export of another group. A generated tree refers
  to nothing but answers, since no answer is written where it would be read as something else. So
  the trees of a store can be replaced by those it generates, and every group still gives the
  same template (`generate_settled`).
-/

import Regroup.Proofs.Consistency
import Regroup.Proofs.Documents

namespace Regroup

/-! ## Trees -/

/-- Where answers are their own answers, redirecting once is enough. -/
theorem Tree.redirect_redirect {f : Reference → Option Reference} {tree : Tree}
    (hwritable : ∀ sub ∈ tree.substitutions, sub.Writable f)
    (hanswers : ∀ r ∈ tree.scan, (r.answer f).answer f = r.answer f) :
    ((tree.redirect f).result.redirect f).result = (tree.redirect f).result := by
  apply redirectAs_unchanged
  rw [changed_redirectAs]
  refine List.countP_eq_zero.mpr fun r' hr' => ?_
  obtain ⟨r, hr, rfl⟩ := exists_of_mem_scan_redirect hr' (Or.inr hwritable)
  simp [hanswers r hr]

namespace Store

variable {s : Store} {group : String}

/-! ## Answers -/

theorem Consistent.answer_answer_localize (hs : s.Consistent) (references : List Edge) (r : Reference) :
    (r.answer (s.localize group references)).answer (s.localize group references) =
      r.answer (s.localize group references) := by
  rcases r.eq_imported_or_ofTarget with ⟨x, rfl⟩ | ⟨name, attr, rfl⟩
  · rcases answer_localize_import references x with hstay | ⟨e, attr, he, hgroup, _, hlocal⟩
    · rw [hstay, hstay]
    · have hsource : (⟨group, e.source.name⟩ : Address) = e.source := Address.ext hgroup.symm rfl
      have hhas : s.has ⟨group, e.source.name⟩ = true := by
        rw [hsource]
        exact has_iff.mpr (hs.sources e (mem_of_export? he).1)
      rw [hlocal, Reference.answer_eq, localize_ofTarget, if_pos hhas]
      rfl
  · rcases answer_localize_ofTarget references name attr with hstay | ⟨edge, _, haway, _, e, he, himport⟩
    · rw [hstay, hstay]
    · obtain ⟨hmem, hsource, _⟩ := mem_of_exportOf? he
      have hgroup : e.source.group ≠ group := by
        rw [hsource]
        exact haway
      rw [himport, Reference.answer_eq, localize, export?_of_mem hs.names hmem]
      simp [hgroup]

/-! ## The store with the generated trees -/

/-- What the template of its group gives as the properties of a node, nothing being an empty record. -/
def emitted (s : Store) (id : Address) : Tree :=
  ((Fields.find? (s.generate id.group).resources id.name).bind Resource.properties).getD .emptyRecord

/-- The store in which each node has its generated tree. -/
def settled (s : Store) : Store := s.mapTrees fun id _ => s.emitted id

theorem emitted_eq (hids : s.ids.Nodup) {node : Node} (hn : node ∈ s.nodes) :
    s.emitted node.id = (s.resourceFor node.id.group node).properties.getD .emptyRecord := by
  have hmember : node ∈ s.members node.id.group := List.mem_filter.mpr ⟨hn, by simp⟩
  have hkeys : (Fields.keys (s.generate node.id.group).resources).Nodup := by
    rw [resources_generate hids, Fields.keys, List.map_map]
    exact nodup_names_members hids _
  have hin : (node.id.name, s.resourceFor node.id.group node) ∈ (s.generate node.id.group).resources := by
    rw [resources_generate hids]
    exact List.mem_map_of_mem hmember
  rw [emitted, Fields.find?_of_mem hkeys hin]
  rfl

theorem has_settled (s : Store) (id : Address) : s.settled.has id = s.has id := by
  have hids : s.settled.ids = s.ids := ids_congr (headers_mapTrees s fun id _ => s.emitted id)
  rw [Bool.eq_iff_iff, has_iff, has_iff, hids]

/-- What a reference becomes does not depend on the trees. -/
theorem localize_settled (s : Store) (references : List Edge) :
    s.settled.localize group references = s.localize group references := by
  funext r
  rcases r.eq_imported_or_ofTarget with ⟨x, rfl⟩ | ⟨name, attr, rfl⟩
  · rfl
  · rw [localize_ofTarget, localize_ofTarget, has_settled]
    rfl

theorem Consistent.localizedProperties_settled (hs : s.Consistent) {node : Node} (hn : node ∈ s.nodes) :
    s.settled.localizedProperties node.id.group { node with properties := s.emitted node.id } = s.emitted node.id := by
  show ((s.emitted node.id).redirect (s.settled.localize node.id.group _)).result = _
  rw [localize_settled, emitted_eq hs.ids hn, resourceFor]
  by_cases hempty : (s.localizedProperties node.id.group node).isEmpty
  · simp only [hempty, if_true, Option.getD_none]
    rfl
  · simp only [hempty, Bool.false_eq_true, if_false, Option.getD_some]
    exact Tree.redirect_redirect (fun sub _ => writable_localize _ sub) fun r _ => hs.answer_answer_localize _ r

/-- The same resource, whether a tree that says nothing is there or not. -/
theorem Consistent.resourceFor_settled (hs : s.Consistent) {node : Node} (hn : node ∈ s.nodes) :
    s.settled.resourceFor node.id.group { node with properties := s.emitted node.id } =
      s.resourceFor node.id.group node := by
  have hproperties : (if (s.emitted node.id).isEmpty then none else some (s.emitted node.id)) =
      (s.resourceFor node.id.group node).properties := by
    rw [emitted_eq hs.ids hn, resourceFor]
    by_cases hempty : (s.localizedProperties node.id.group node).isEmpty
    · simp only [hempty, if_true, Option.getD_none]
      rfl
    · simp [hempty]
  rw [← hs.localizedProperties_settled hn] at hproperties
  exact congrArg (fun properties => { s.resourceFor node.id.group node with properties }) hproperties

theorem outputsFrom_settled (s : Store) (done : Fields Output) (es : List Export) :
    s.settled.outputsFrom done es = s.outputsFrom done es := by
  induction es generalizing done with
  | nil => rfl
  | cons e es ih => exact ih _

/-- With its generated trees in place of its own, a store generates the same templates. -/
theorem generate_settled (hs : s.Consistent) (group : String) : s.settled.generate group = s.generate group := by
  have hmembers : s.settled.members group =
      (s.members group).map fun node => { node with properties := s.emitted node.id } := List.filter_map
  have hresources : (s.settled.members group).map (fun node => (node.id.name, s.settled.resourceFor group node)) =
      (s.members group).map fun node => (node.id.name, s.resourceFor group node) := by
    rw [hmembers, List.map_map]
    refine List.map_congr_left fun node hn => ?_
    obtain ⟨hnode, hgroup⟩ := List.mem_filter.mp hn
    obtain rfl : node.id.group = group := by simpa using hgroup
    exact congrArg (Prod.mk node.id.name) (hs.resourceFor_settled hnode)
  have houtputs : s.settled.outputsFrom [] (s.settled.exportsIn group) = s.outputsFrom [] (s.exportsIn group) :=
    outputsFrom_settled s [] _
  rw [generate, hresources, houtputs, generate]

/-- Two readers of a topic in another group, one of which also imports what its own group
    publishes, and a node without a tree. -/
def unsettledStore : Store where
  nodes := [.new ⟨"a", "Topic"⟩ "topic", .new ⟨"b", "Queue"⟩ "queue",
    { Node.new ⟨"b", "Reader"⟩ "reader" with
      properties := .call Reference.subKey (.text "$\x7bTopic.Arn\x7d $\x7bQueue\x7d") },
    { Node.new ⟨"b", "Watcher"⟩ "watcher" with
      properties := .list [(Reference.attrOf "Topic" "Arn").construct, (Reference.imported "queue").construct] },
    { Node.new ⟨"b", "Idle"⟩ "idle" with properties := .null }]
  edges := ["Reader", "Watcher"].map fun name => .between ⟨"b", name⟩ ⟨"a", "Topic"⟩ .imported (some "Arn")
  exports := [⟨"arn", ⟨"a", "Topic"⟩, none, some (Reference.attrOf "Topic" "Arn").construct⟩, ⟨"queue", ⟨"b", "Queue"⟩, none, none⟩]

/-- Both trees change, and no further. -/
theorem generate_settled_unsettled :
    (unsettledStore.emitted ⟨"b", "Reader"⟩).scan = [.node "Queue", .imported "arn"] ∧
      (unsettledStore.emitted ⟨"b", "Watcher"⟩).scan = [.imported "arn", .node "Queue"] ∧
      unsettledStore.settled.generate "b" = unsettledStore.generate "b" := by
  have hs : unsettledStore.Consistent := by decide
  exact ⟨by decide, by decide, generate_settled hs "b"⟩

end Store

end Regroup
