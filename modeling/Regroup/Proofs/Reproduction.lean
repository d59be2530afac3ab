/-
  Regroup.Proofs.Reproduction — what is generated from a store that documents just made.

  Each group gives back the resources its document declared, in order, with their predecessors
  each once, and with trees that at most say locally what the group imported from itself. There
  is one exception: a local name that the group does not know, a parameter say, is looked up
  among what its tree imports. The tree comes back unless the first import from another group
  with that name and attribute shows what is published there (`Store.Captures`); then the
  reference becomes an import of it (`reproduced_generate_iff`).
-/

import Regroup.Proofs.Regeneration
import Regroup.Proofs.Restatement

namespace Regroup

/-! ## Lists -/

/-- Elements that are tagged with the key of what they come from can be told apart again. -/
theorem filter_flatMap_of_nodup {α β κ : Type} [DecidableEq κ] {key : α → κ} {tag : β → κ} {g : α → List β} {xs : List α}
    (hkeys : (xs.map key).Nodup) (htag : ∀ x ∈ xs, ∀ y ∈ g x, tag y = key x) {x : α} (hx : x ∈ xs) :
    (xs.flatMap g).filter (tag · == key x) = g x := by
  induction xs with
  | nil => cases hx
  | cons first rest ih =>
    obtain ⟨hnot, hrest⟩ := List.nodup_cons.mp hkeys
    obtain ⟨hfirst, htags⟩ := List.forall_mem_cons.mp htag
    rw [List.flatMap_cons, List.filter_append]
    rcases List.mem_cons.mp hx with rfl | hx
    · have hkept : (g x).filter (tag · == key x) = g x := List.filter_eq_self.mpr fun y hy => by simp [hfirst y hy]
      have hgone : (rest.flatMap g).filter (tag · == key x) = [] := by
        refine List.filter_eq_nil_iff.mpr fun y hy => ?_
        obtain ⟨x', hx', hy⟩ := List.mem_flatMap.mp hy
        rw [htags x' hx' y hy, beq_iff_eq]
        exact fun heq => hnot (heq ▸ List.mem_map_of_mem hx')
      rw [hkept, hgone, List.append_nil]
    · have hgone : (g first).filter (tag · == key x) = [] := by
        refine List.filter_eq_nil_iff.mpr fun y hy => ?_
        rw [hfirst y hy, beq_iff_eq]
        exact fun heq => hnot (heq ▸ List.mem_map_of_mem hx)
      rw [hgone, List.nil_append, ih hrest htags hx]

theorem find?_eraseDups {α : Type} [BEq α] [LawfulBEq α] (p : α → Bool) (xs : List α) : xs.eraseDups.find? p = xs.find? p := by
  induction xs using eraseDups_induction with
  | nil => rfl
  | cons x rest ih =>
    rw [List.eraseDups_cons]
    by_cases hx : p x = true
    · rw [List.find?_cons_of_pos hx, List.find?_cons_of_pos hx]
    · rw [List.find?_cons_of_neg hx, List.find?_cons_of_neg hx, ih, List.find?_filter]
      -- What is the same as `x` is not looked for either.
      congr 1
      funext y
      by_cases hy : y = x <;> simp [hy, hx]

theorem count_lt_count_map {α : Type} [BEq α] [LawfulBEq α] {g : α → α} {a b : α} {xs : List α} (ha : g a = a) (hb : b ∈ xs)
    (hne : b ≠ a) (hgb : g b = a) : xs.count a < (xs.map g).count a := by
  have hmono : ∀ ys : List α, ys.count a ≤ (ys.map g).count a := by
    intro ys
    have := List.count_le_count_map (f := g) (x := a) (l := ys)
    rwa [ha] at this
  obtain ⟨front, back, rfl⟩ := List.append_of_mem hb
  rw [List.map_append, List.map_cons, hgb, List.count_append, List.count_append, List.count_cons_of_ne hne,
    List.count_cons_self]
  exact Nat.add_lt_add_of_le_of_lt (hmono front) (Nat.lt_succ_of_le (hmono back))

/-! ## Resources -/

namespace Resource

/-- The declared properties; a tree that says nothing counts as none. -/
def tree? (r : Resource) : Option Tree := r.properties.filter (!·.isEmpty)

def predecessors (r : Resource) : List String := r.dependsOn.elim [] DependsOn.names

/-- All but the properties come back, the predecessors each once. -/
structure Reproduced (declared generated : Resource) : Prop where
  kind : generated.kind = declared.kind
  extra : generated.extra = declared.extra
  dependsOn : generated.dependsOn = DependsOn.ofNames? declared.predecessors.eraseDups

end Resource

/-- The resources of a document under their addresses. -/
def Document.declared (d : Document) : List (Address × Resource) :=
  d.template.resources.map fun (name, resource) => (⟨d.group, name⟩, resource)

namespace Store

variable {s : Store} {naming : Naming} {documents : List Document} {d : Document} {name : String} {resource : Resource}

theorem isReference_of_impliedEdge? {source : Address} {r : Reference} {e : Edge} (h : s.impliedEdge? source r = some e) :
    e.source = source ∧ e.kind.isReference = true ∧ e.kind ≠ .structural := by
  rcases impliedEdge?_cases h with ⟨_, _, _, _, rfl⟩ | ⟨_, attr, _, _, _, rfl⟩
  · exact ⟨rfl, rfl, by simp [Edge.between]⟩
  · cases attr <;> exact ⟨rfl, rfl, by simp [Edge.between, EdgeKind.ofAttr]⟩

theorem source_of_mem_declaredEdges {source : Address} {e : Edge} (h : e ∈ s.declaredEdges source resource) :
    e.source = source := by
  rcases mem_declaredEdges.mp h with ⟨_, _, rfl⟩ | ⟨r, _, h⟩
  · rfl
  · exact (isReference_of_impliedEdge? h).1

section Ingest

variable {s' : Store} (hids : s.ids.Nodup) (h : s.ingest documents = .ok s')

include hids h

theorem ids_declared : s'.ids = s.ids ++ (documents.flatMap Document.declared).map (·.1) := by
  simp only [ids_ingest hids h, List.map_flatMap, Document.declared, Document.nodes, List.map_map]
  rfl

/-- The edges that were there stay, and behind them come those of each resource in turn. -/
theorem edges_declared : s'.edges = s.edges ++ (documents.flatMap Document.declared).flatMap fun (id, resource) =>
    s'.declaredEdges id resource := by
  obtain ⟨_, _, rfl⟩ := (ingest_eq_ok_iff hids documents).mp h
  rw [List.flatMap_assoc]
  refine congrArg (s.edges ++ ·) (List.flatMap_congr fun d _ => ?_)
  rw [Document.declared, List.flatMap_map]
  rfl

/-- The edges of a resource are those it declares. -/
theorem dependencies_declared (hends : ∀ e ∈ s.edges, e.source ∈ s.ids) (hd : d ∈ documents)
    (hres : (name, resource) ∈ d.template.resources) :
    s'.dependencies ⟨d.group, name⟩ = s'.declaredEdges ⟨d.group, name⟩ resource := by
  have hnodup := nodup_ids_ingest hids h
  rw [ids_declared hids h, List.nodup_append] at hnodup
  obtain ⟨_, hkeys, hapart⟩ := hnodup
  have hdeclared : ((⟨d.group, name⟩, resource) : Address × Resource) ∈ documents.flatMap Document.declared :=
    List.mem_flatMap.mpr ⟨d, hd, List.mem_map_of_mem hres⟩
  have hnone : s.edges.filter (·.source == ⟨d.group, name⟩) = [] := by
    refine List.filter_eq_nil_iff.mpr fun e he => ?_
    rw [beq_iff_eq]
    exact hapart _ (hends e he) _ (List.mem_map_of_mem hdeclared)
  rw [dependencies, edges_declared hids h, List.filter_append, hnone, List.nil_append]
  exact filter_flatMap_of_nodup hkeys (fun _ _ e he => source_of_mem_declaredEdges he) hdeclared

end Ingest

section Ingested

variable (hs : ({ naming } : Store).ingest documents = .ok s)

include hs

theorem members_ingest (hgroups : (documents.map (·.group)).Nodup) (hd : d ∈ documents) : s.members d.group = d.nodes := by
  rw [members, nodes_ingest hs]
  refine filter_flatMap_of_nodup hgroups (fun d _ node hn => ?_) hd
  obtain ⟨_, _, rfl⟩ := List.mem_map.mp hn
  rfl

variable (hd : d ∈ documents) (hres : (name, resource) ∈ d.template.resources)

include hd hres

theorem dependencies_ingest : s.dependencies ⟨d.group, name⟩ = s.declaredEdges ⟨d.group, name⟩ resource :=
  dependencies_declared (s := { naming }) List.nodup_nil hs (by simp) hd hres

theorem predecessors_ingest : s.predecessors d.group ⟨d.group, name⟩ = resource.predecessors.eraseDups := by
  let stated := resource.predecessors.map fun before => Edge.between ⟨d.group, name⟩ ⟨d.group, before⟩ .structural none
  let implied := ((resource.properties.elim [] Tree.scan).filterMap (s.impliedEdge? ⟨d.group, name⟩)).eraseDups
  have hedges : s.dependencies ⟨d.group, name⟩ = stated ++ implied := dependencies_ingest hs hd hres
  have hstated : stated.filter (fun e => e.kind == .structural && e.target.group == d.group) = stated := by
    refine List.filter_eq_self.mpr fun e he => ?_
    obtain ⟨_, _, rfl⟩ := List.mem_map.mp he
    simp [Edge.between]
  have himplied : implied.filter (fun e => e.kind == .structural && e.target.group == d.group) = [] := by
    refine List.filter_eq_nil_iff.mpr fun e he => ?_
    obtain ⟨r, _, he⟩ := List.mem_filterMap.mp (List.mem_eraseDups.mp he)
    simp [(isReference_of_impliedEdge? he).2.2]
  have hnames : stated.map (·.target.name) = resource.predecessors := by
    rw [List.map_map]
    exact List.map_id _
  rw [predecessors, hedges, List.filter_append, hstated, himplied, List.append_nil, hnames]

theorem references_ingest : (s.dependencies ⟨d.group, name⟩).filter (·.kind.isReference) =
    ((resource.properties.elim [] Tree.scan).filterMap (s.impliedEdge? ⟨d.group, name⟩)).eraseDups := by
  rw [dependencies_ingest hs hd hres, declaredEdges, List.filter_append, List.filter_eq_nil_iff.mpr, List.nil_append,
    List.filter_eq_self.mpr]
  · intro e he
    obtain ⟨r, _, he⟩ := List.mem_filterMap.mp (List.mem_eraseDups.mp he)
    exact (isReference_of_impliedEdge? he).2.1
  · intro e he
    obtain ⟨_, _, rfl⟩ := List.mem_map.mp he
    exact Bool.false_ne_true

end Ingested

/-! ## Captured references -/

/-- The export that a reference imports. -/
def imported? (s : Store) : Reference → Option Export
  | .imported x => s.export? x
  | .node _ | .attrOf _ _ => none

/-- What the tree imports, in order. -/
def importsOf (s : Store) (tree : Tree) : List Export := tree.scan.filterMap s.imported?

/-- The first import from another group of a node `name` by this attribute. -/
def importNamed? (s : Store) (group : String) (tree : Tree) (name : String) (attr : Option String) : Option Export :=
  (s.importsOf tree).find? fun ex => ex.source.name == name && ex.source.group != group && ex.exposure.attr? == attr

/-- The local reference `r` is taken for an import. The group has no node of its name, but the tree
    takes one so named by this attribute from another group, and the first of them has an export that
    shows the attribute. -/
def Captures (s : Store) (group : String) (tree : Tree) (r : Reference) : Prop :=
  ∃ name ∈ r.targetName?, ⟨group, name⟩ ∉ s.ids ∧
    ∃ ex ∈ s.importNamed? group tree name r.attributeName?, (s.exportOf? ex.source r.attributeName?).isSome = true

instance (s : Store) (group : String) (tree : Tree) (r : Reference) : Decidable (s.Captures group tree r) :=
  inferInstanceAs (Decidable (∃ name ∈ r.targetName?, ⟨group, name⟩ ∉ s.ids ∧
    ∃ ex ∈ s.importNamed? group tree name r.attributeName?, (s.exportOf? ex.source r.attributeName?).isSome = true))

theorem captures_ofTarget {group : String} {tree : Tree} {attr : Option String} : s.Captures group tree (.ofTarget name attr) ↔
    ⟨group, name⟩ ∉ s.ids ∧ ∃ ex ∈ s.importNamed? group tree name attr, (s.exportOf? ex.source attr).isSome = true := by
  cases attr <;> simp [Captures, Reference.ofTarget, Reference.targetName?, Reference.attributeName?]

/-- The import `x` of the group's own can be said as a reference to `attr` of `name`. -/
def Localizes (s : Store) (group x name : String) (attr : Option String) : Prop :=
  ∃ e, s.export? x = some e ∧ e.source = ⟨group, name⟩ ∧ e.exposure = .ofAttr attr

/-- Only imports imply edges to other groups. -/
theorem find?_impliedEdge? (s : Store) (id : Address) (rs : List Reference) (name : String) (attr : Option String) :
    ((rs.filterMap (s.impliedEdge? id)).find? fun e => e.target.name == name && e.target.group != id.group && e.attr == attr) =
      ((rs.filterMap s.imported?).find? fun ex => ex.source.name == name && ex.source.group != id.group &&
        ex.exposure.attr? == attr).map fun ex => .between id ex.source .imported ex.exposure.attr? := by
  induction rs with
  | nil => rfl
  | cons r rs ih =>
    rcases r.eq_imported_or_ofTarget with ⟨x, rfl⟩ | ⟨n, a, rfl⟩
    · rcases hex : s.export? x with _ | ex
      · rw [List.filterMap_cons_none (by rw [impliedEdge?, hex]; rfl), List.filterMap_cons_none (by rw [imported?, hex]), ih]
      · rw [List.filterMap_cons_some (impliedEdge?_imported hex id), List.filterMap_cons_some (by rw [imported?, hex])]
        cases hfits : ex.source.name == name && ex.source.group != id.group && ex.exposure.attr? == attr with
        | true => simp only [List.find?_cons, Edge.between, hfits, Option.map_some]
        | false => simpa only [List.find?_cons, Edge.between, hfits] using ih
    · have hlocal : s.imported? (.ofTarget n a) = none := by cases a <;> rfl
      rw [List.filterMap_cons_none hlocal, ← ih]
      rcases himplied : s.impliedEdge? id (.ofTarget n a) with _ | e
      · rw [List.filterMap_cons_none himplied]
      · rw [List.filterMap_cons_some himplied, List.find?_cons_of_neg]
        rw [impliedEdge?_ofTarget, Option.ite_none_left_eq_some, Option.some.injEq] at himplied
        simp [← himplied.2, Edge.between]

/-- How the node's references are written in the template of its group. -/
def localizing (s : Store) (node : Node) : Reference → Option Reference :=
  s.localize node.id.group ((s.dependencies node.id).filter (·.kind.isReference))

section Localized

variable {node : Node} (hreferences : (s.dependencies node.id).filter (·.kind.isReference) =
  (node.properties.scan.filterMap (s.impliedEdge? node.id)).eraseDups)

include hreferences

/-- A captured reference becomes an import from the other group. -/
theorem Captures.answer {attr : Option String} (h : s.Captures node.id.group node.properties (.ofTarget name attr)) :
    ∃ ex ∈ s.exports, ex.source.group ≠ node.id.group ∧
      (Reference.ofTarget name attr).answer (s.localizing node) = .imported ex.name := by
  obtain ⟨hunknown, first, hfirst, hshown⟩ := captures_ofTarget.mp h
  obtain ⟨ex, hex⟩ := Option.isSome_iff_exists.mp hshown
  obtain ⟨hmem, hsource, _⟩ := mem_of_exportOf? hex
  have hgroup : first.source.group ≠ node.id.group := by
    have := List.find?_some hfirst
    simp only [Bool.and_eq_true, bne_iff_ne] at this
    exact this.1.2
  refine ⟨ex, hmem, hsource ▸ hgroup, ?_⟩
  rw [Reference.answer_eq, localizing, localize_ofTarget, if_neg (by simpa [has_iff] using hunknown), hreferences, find?_eraseDups,
    find?_impliedEdge?]
  rw [importNamed?, importsOf, Option.mem_def] at hfirst
  rw [hfirst]
  simp [Edge.between, hex]

theorem answer_of_not_captures {attr : Option String} (h : ¬s.Captures node.id.group node.properties (.ofTarget name attr)) :
    (Reference.ofTarget name attr).answer (s.localizing node) = .ofTarget name attr := by
  rw [Reference.answer_eq, localizing, localize_ofTarget]
  split
  · rfl
  · rename_i hunknown
    rw [hreferences, find?_eraseDups, find?_impliedEdge?]
    rcases hfirst : (node.properties.scan.filterMap s.imported?).find? _ with _ | first
    · rfl
    · have hnone : s.exportOf? first.source attr = none := by
        rw [← Option.not_isSome_iff_eq_none]
        exact fun hshown => h (captures_ofTarget.mpr ⟨by simpa [has_iff] using hunknown, first, hfirst, hshown⟩)
      simp [Edge.between, hnone]

/-- The localized tree restates the tree unless one of its references is captured. -/
theorem restated_localizedProperties_iff (hnames : s.exportNames.Nodup) :
    node.properties.Restated (s.Localizes node.id.group) (s.localizedProperties node.id.group node) ↔
      ∀ r ∈ node.properties.scan, ¬s.Captures node.id.group node.properties r := by
  constructor
  · intro h r hin hcaptured
    obtain ⟨x, rfl⟩ | ⟨name, attr, rfl⟩ := r.eq_imported_or_ofTarget
    · obtain ⟨_, hname, _⟩ := hcaptured
      cases hname
    obtain ⟨ex, hex, hgroup, hanswer⟩ := hcaptured.answer hreferences
    -- The import of what captures it stays, so the localized tree has it once more.
    have hstay : (Reference.imported ex.name).answer (s.localizing node) = .imported ex.name := by
      rcases answer_localize_import _ ex.name with hstay | ⟨e, _, he, hmember, _, _⟩
      · exact hstay
      · rw [export?_of_mem hnames hex, Option.some.injEq] at he
        exact absurd (he ▸ hmember) hgroup
    have himports : (s.localizedProperties node.id.group node).scan.count (.imported ex.name) =
        (node.properties.scan.map (Reference.answer (s.localizing node))).count (.imported ex.name) := by
      have := (Tree.imports_redirectAs (s.localizing node) .value node.properties).count_eq (.imported ex.name)
      rwa [List.count_filter rfl, List.count_filter rfl] at this
    have hmore := count_lt_count_map hstay hin (by cases attr <;> simp [Reference.ofTarget]) hanswer
    rw [← himports] at hmore
    exact absurd h.count_import_le (Nat.not_le_of_lt hmore)
  · intro h
    refine Tree.restated_redirectAs fun r hr => ?_
    rcases r.eq_imported_or_ofTarget with ⟨x, rfl⟩ | ⟨name, attr, rfl⟩
    · rcases answer_localize_import _ x with hstay | ⟨e, attr, he, hgroup, hexposure, hanswer⟩
      · exact Or.inl hstay
      · exact Or.inr ⟨x, e.source.name, attr, rfl, ⟨e, he, Address.ext hgroup rfl, hexposure⟩, hanswer⟩
    · exact Or.inl (answer_of_not_captures hreferences (h _ hr))

end Localized

/-! ## Generated resources -/

theorem mem_tree?_iff {tree : Tree} : tree ∈ resource.tree? ↔ resource.properties = some tree ∧ tree.isEmpty = false := by
  simp [Resource.tree?, Option.mem_def, Option.filter_eq_some_iff]

theorem tree?_resourceFor (s : Store) (group : String) (node : Node) : (s.resourceFor group node).tree? =
    if (s.localizedProperties group node).isEmpty then none else some (s.localizedProperties group node) := by
  rw [Resource.tree?, resourceFor]
  split <;> simp [*]

/-- Trees that say nothing count as none on both sides, so the others are those to be restated. -/
theorem rel_tree?_iff {own : String → String → Option String → Prop} {group : String} {node : Node}
    (hnode : node.properties = resource.properties.getD .emptyRecord) :
    Option.Rel (Tree.Restated own) resource.tree? (s.resourceFor group node).tree? ↔
      ∀ tree ∈ resource.tree?, tree.Restated own (s.localizedProperties group node) := by
  rw [tree?_resourceFor]
  rcases htree : resource.tree? with _ | tree
  · have hempty : node.properties.isEmpty = true := by
      rw [hnode]
      rcases hproperties : resource.properties with _ | tree
      · rfl
      · simpa [Resource.tree?, hproperties, Option.filter_eq_none_iff] using htree
    have hrestated : node.properties.Restated own (s.localizedProperties group node) :=
      Tree.restated_redirectAs fun r hr => by
        rw [← Tree.scan, Tree.scan_of_isEmpty hempty] at hr
        cases hr
    rw [if_pos (hrestated.isEmpty_eq.trans hempty)]
    exact iff_of_true .none (by simp)
  · obtain ⟨hproperties, hsome⟩ := mem_tree?_iff.mp htree
    simp only [Option.mem_def, Option.some.injEq, forall_eq']
    constructor
    · intro h
      split at h
      · cases h
      · cases h
        assumption
    · intro h
      rw [if_neg (by rw [h.isEmpty_eq, hsome]; exact Bool.false_ne_true)]
      exact .some h

/-- A document's group gives back its resources, with the trees restated where no reference of
    theirs is captured, and only there. -/
theorem reproduced_generate_iff (hgroups : (documents.map (·.group)).Nodup)
    (hs : ({ naming } : Store).ingest documents = .ok s) (hd : d ∈ documents) :
    List.Forall₂ (fun declared generated => generated.1 = declared.1 ∧ declared.2.Reproduced generated.2 ∧
        (Option.Rel (Tree.Restated (s.Localizes d.group)) declared.2.tree? generated.2.tree? ↔
          ∀ tree ∈ declared.2.tree?, ∀ r ∈ tree.scan, ¬s.Captures d.group tree r))
      d.template.resources (s.generate d.group).resources := by
  have hids : s.ids.Nodup := nodup_ids_ingest (s := { naming }) List.nodup_nil hs
  have hnames : s.exportNames.Nodup := nodup_exportNames_ingest (s := { naming }) List.nodup_nil hs List.nodup_nil
  rw [resources_generate hids, members_ingest hs hgroups hd, Document.nodes, List.map_map, List.forall₂_map_right_iff,
    List.forall₂_same]
  rintro ⟨name, resource⟩ hres
  let node : Node := ⟨⟨d.group, name⟩, resource.kind, resource.properties.getD .emptyRecord,
    if resource.extra.isEmpty then none else some resource.extra⟩
  refine ⟨rfl, ⟨rfl, ?_, ?_⟩, ?_⟩
  · change node.metadata.getD [] = resource.extra
    by_cases hextra : resource.extra.isEmpty = true
    · simp [node, List.isEmpty_iff.mp hextra]
    · simp [node, hextra]
  · exact congrArg DependsOn.ofNames? (predecessors_ingest hs hd hres)
  · have hreferences : (s.dependencies node.id).filter (·.kind.isReference) =
        (node.properties.scan.filterMap (s.impliedEdge? node.id)).eraseDups := by
      rw [references_ingest hs hd hres, scan_getD_emptyRecord]
    have hproperties : node.properties = resource.properties.getD .emptyRecord := rfl
    refine (rel_tree?_iff hproperties).trans (forall₂_congr fun tree htree => ?_)
    have htree : node.properties = tree := by rw [hproperties, (mem_tree?_iff.mp htree).1, Option.getD_some]
    rw [← htree]
    exact restated_localizedProperties_iff hreferences hnames

/-- A subscription that refers to the parameter `parameter`, to what another group publishes of its
    `Topic`, and to what its own group publishes. -/
def subscriptionDocument (parameter : String) : Document :=
  ⟨"a", { resources := [("Queue", { kind := "queue" }),
            ("Subscription", {
              kind := "subscription"
              properties := some (.record [("Filter", (Reference.node parameter).construct),
                ("From", (Reference.imported "topic").construct), ("To", (Reference.imported "queue").construct)])
              dependsOn := some (.many ["Queue", "Queue"]) })]
          outputs := [("QueueRef", { value := (Reference.node "Queue").construct, exportName := some (.text "queue") })] }⟩

def subscriptionDocuments (parameter : String) : List Document :=
  [subscriptionDocument parameter,
   ⟨"b", { resources := [("Topic", { kind := "topic" })]
           outputs := [("TopicRef", { value := (Reference.node "Topic").construct, exportName := some (.text "topic") })] }⟩]

theorem reproduced_generate_subscription : ∃ s, ({} : Store).ingest (subscriptionDocuments "Email") = .ok s ∧
    List.Forall₂ (fun declared generated => generated.1 = declared.1 ∧ declared.2.Reproduced generated.2 ∧
        Option.Rel (Tree.Restated (s.Localizes "a")) declared.2.tree? generated.2.tree?)
      (subscriptionDocument "Email").template.resources (s.generate "a").resources := by
  let s := ({} : Store).ingested (subscriptionDocuments "Email")
  have hfree : ∀ declared ∈ (subscriptionDocument "Email").template.resources,
      ∀ tree ∈ declared.2.tree?, ∀ r ∈ tree.scan, ¬s.Captures "a" tree r := by decide
  have hback := @reproduced_generate_iff s {} (subscriptionDocuments "Email") (subscriptionDocument "Email") (by decide) rfl
    (List.mem_cons_self ..)
  refine ⟨s, rfl, ((List.forall₂_and_left ..).mpr ⟨hfree, hback⟩).imp fun declared generated h => ?_⟩
  obtain ⟨hfree, hname, hsame, htree⟩ := h
  exact ⟨hname, hsame, htree.mpr hfree⟩

/-- A parameter called as the imported topic becomes an import of it. -/
theorem generate_captures_parameter : ∃ s, ({} : Store).ingest (subscriptionDocuments "Topic") = .ok s ∧
    ¬List.Forall₂ (fun declared generated => Option.Rel (Tree.Restated (s.Localizes "a")) declared.2.tree? generated.2.tree?)
      (subscriptionDocument "Topic").template.resources (s.generate "a").resources := by
  refine ⟨({} : Store).ingested (subscriptionDocuments "Topic"), rfl, fun h => ?_⟩
  obtain ⟨_, hrest⟩ := List.forall₂_cons.mp h
  obtain ⟨hsubscription, _⟩ := List.forall₂_cons.mp hrest
  exact absurd (Tree.count_import_le_of_rel hsubscription "topic") (by decide)

end Store

end Regroup
