/-
  Regroup.Proofs.Moves — a move as a whole.

  What a move does to a tree is said of each reference on its own: a reference may be converted
  to an import, an import may give way to the references of an expression, and a reference to
  the moved node may take its new name. `tree?_move` says that nothing else happens;
  `exports_converted`, `exports_move` and `edges_move` say the same of the exports and the edges.
-/

import Regroup.Proofs.Restoration

namespace Regroup.Store

variable {s : Store} {origin destination a : Address}

/-! ## References -/

/-- What becomes of a reference in the tree at `a` when references are converted. -/
def conversionAt (s : Store) (origin destination a : Address) : Reference → Reference :=
  Underway.conversion origin destination (s.converted origin destination).store
    (s.departed origin destination).report.converted a

/-- What becomes of it when imports are restored. -/
def restorationAt (s : Store) (origin destination a : Address) : Reference → List Reference :=
  Restoring.restoration (s.converted origin destination).store (s.departed origin destination).report.restored a

/-- What becomes of it when the other members of the group learn the new name. -/
def renamingAt (origin destination a : Address) (r : Reference) : Reference :=
  if origin.group = destination.group ∧ a.group = destination.group ∧ a ≠ destination then
    r.answer (Reference.renamed origin.name destination.name)
  else r

/-- What becomes of it by the whole move. -/
def carriedTo (s : Store) (origin destination a : Address) (r : Reference) : List Reference :=
  (s.restorationAt origin destination a (s.conversionAt origin destination a r)).map (renamingAt origin destination a)

/-- In the tree at `a` the move puts the published expression in the place of its imports. -/
def Inlines (s : Store) (origin destination a : Address) (ex : Export) : Prop :=
  ∃ c ∈ (s.departed origin destination).report.restored, c.source = a ∧ c.target = ex.source

/-! ## Nodes -/

theorem headers_restored (s : Store) (origin destination : Address) :
    (s.restored origin destination).store.headers = (s.departed origin destination).store.headers := by
  rw [restored, Restoring.headers_restoreAll]
  exact Underway.headers_convertAll _ _

/-- All nodes stay in their places, and only the moved one gets another address. -/
theorem headers_move (s : Store) (origin destination : Address) :
    (s.move origin destination).store.headers = s.headers.map fun header => (header.1.moved origin destination, header.2) := by
  have hpruned : (s.pruned origin destination).store.headers = (s.departed origin destination).store.headers := by
    rw [pruned, headers, (Underway.frame_pruneAll _ _).1, ← headers, headers_restored]
  rw [move_eq]
  split
  · rw [Underway.renameIn_eq, headers_mapTrees, hpruned, headers_departed]
  · rw [hpruned, headers_departed]

theorem ids_move (s : Store) (origin destination : Address) :
    (s.move origin destination).store.ids = s.ids.map (·.moved origin destination) := by
  rw [ids_eq_headers, headers_move, ids_eq_headers, List.map_map, List.map_map]
  rfl

/-- What holds of every name and of the new one holds of every name after the move. -/
theorem forall_names_move {P : String → Prop} (h : ∀ id ∈ s.ids, P id.name) (hd : P destination.name) :
    ∀ id ∈ (s.move origin destination).store.ids, P id.name := by
  intro id hid
  rw [ids_move] at hid
  obtain ⟨id₀, hid₀, rfl⟩ := List.mem_map.mp hid
  unfold Address.moved
  split
  · exact hd
  · exact h id₀ hid₀

/-! ## The report -/

/-- Once the edges have their fates, only exports and changes in the trees are reported. -/
theorem report_move (s : Store) (origin destination : Address) :
    { (s.move origin destination).report with created := [], pruned := [], redirected := 0 } =
      (s.departed origin destination).report := by
  let edges (r : Relocation) : Relocation := { r with created := [], pruned := [], redirected := 0 }
  have hpruned := congrArg edges (Underway.frame_pruneAll (s.restored origin destination).idle
    (s.restored origin destination).toUnderway).2.2
  have hrestored := congrArg edges (Restoring.report_restoreAll (s.departed origin destination).report.restored
    { toUnderway := s.converted origin destination })
  calc edges (s.move origin destination).report
    _ = edges (s.pruned origin destination).report := by
        rw [move_eq]
        split <;> rfl
    _ = edges (s.restored origin destination).report := hpruned
    _ = edges (s.converted origin destination).report := hrestored
    _ = (s.departed origin destination).report :=
        congrArg edges (Underway.report_convertAll (s.departed origin destination).report.converted (s.departed origin destination))

/-! ## Exports -/

/-- Before pruning: the exports as they followed, and those that were made. -/
theorem exports_converted (s : Store) (origin destination : Address) :
    ∃ made, (s.converted origin destination).store.exports = (s.departed origin destination).store.exports ++ made ∧
      (s.move origin destination).report.created = made.map (·.name) ∧
      ∀ e ∈ made, ∃ edge ∈ (s.departed origin destination).report.converted, IsMade edge.target edge.attr e := by
  obtain ⟨made, hexports, hcreated, hmade⟩ := Underway.exports_convertAll origin destination
    (s.departed origin destination).report.converted (s.departed origin destination)
  refine ⟨made, hexports, ?_, hmade⟩
  have hpruned : (s.pruned origin destination).report.created = made.map (·.name) := by
    have hprune := congrArg Relocation.created (Underway.frame_pruneAll (s.restored origin destination).idle
      (s.restored origin destination).toUnderway).2.2
    exact hprune.trans ((congrArg Relocation.created (Restoring.report_restoreAll _ _)).trans hcreated)
  rw [move_eq]
  split
  · exact hpruned
  · exact hpruned

theorem nodup_exportNames_converted (h : s.exportNames.Nodup) : (s.converted origin destination).store.exportNames.Nodup := by
  have hdeparted : (s.departed origin destination).store.exportNames.Nodup := by rwa [exportNames_departed]
  exact Underway.exports_convertAll_induction (P := fun es => (es.map Export.name).Nodup) _ _
    (fun _ target attr h => nodup_exportNames_materialize h target attr) hdeparted

theorem exports_move_eq (s : Store) (origin destination : Address) :
    (s.move origin destination).store.exports = (s.pruned origin destination).store.exports := by
  rw [move_eq]
  split
  · rw [Underway.renameIn_eq, mapTrees]
  · rfl

/-- Pruning leaves some of the exports, and all of those that a tree imports. -/
theorem exports_move (s : Store) (origin destination : Address) :
    (s.move origin destination).store.exports.Sublist (s.converted origin destination).store.exports ∧
      ∀ e ∈ (s.converted origin destination).store.exports, ∀ a t, (s.pruned origin destination).store.tree? a = some t →
        .imported e.name ∈ t.scan → e ∈ (s.move origin destination).store.exports := by
  have hexports : (s.restored origin destination).store.exports = (s.converted origin destination).store.exports :=
    Restoring.exports_restoreAll _ _
  obtain ⟨hsub, hkept⟩ := Underway.exports_pruneAll (s.restored origin destination).idle (s.restored origin destination).toUnderway
  rw [exports_move_eq, ← hexports]
  refine ⟨hsub, fun e he a t ht hin => hkept e he ?_⟩
  rw [pruned, Underway.tree?_pruneAll] at ht
  obtain ⟨node, hn, _, rfl⟩ := exists_of_tree? ht
  exact ⟨node, hn, hin⟩

theorem exportNames_converted (s : Store) (origin destination : Address) :
    (s.converted origin destination).store.exportNames = s.exportNames ++ (s.move origin destination).report.created := by
  obtain ⟨made, hexports, hcreated, _⟩ := exports_converted s origin destination
  rw [exportNames, hexports, List.map_append, ← exportNames, exportNames_departed, hcreated]

/-- The exports that go are those reported as pruned. -/
theorem exports_move_filter (s : Store) (origin destination : Address) :
    (∀ x ∈ (s.move origin destination).report.pruned, x ∈ (s.converted origin destination).store.exportNames) ∧
      (s.move origin destination).store.exports = (s.converted origin destination).store.exports.filter
        fun e => decide (e.name ∉ (s.move origin destination).report.pruned) := by
  have hexports : (s.restored origin destination).store.exports = (s.converted origin destination).store.exports :=
    Restoring.exports_restoreAll _ _
  obtain ⟨gone, hpruned, hold, hfilter⟩ := Underway.exists_pruneAll (s.restored origin destination).idle
    (s.restored origin destination).toUnderway
  have hnone : (s.restored origin destination).report.pruned = [] := by
    rw [restored]
    exact (congrArg Relocation.pruned (Restoring.report_restoreAll _ _)).trans
      (congrArg Relocation.pruned (Underway.report_convertAll _ _))
  have hreport : (s.move origin destination).report.pruned = gone := by
    have : (s.pruned origin destination).report.pruned = gone := by
      rw [pruned, hpruned, hnone, List.nil_append]
    rw [move_eq]
    split <;> exact this
  rw [hreport, exports_move_eq, pruned, hfilter, hexports]
  rw [exportNames, hexports] at hold
  exact ⟨hold, rfl⟩

theorem mem_exports_move_iff {e : Export} : e ∈ (s.move origin destination).store.exports ↔
    e ∈ (s.converted origin destination).store.exports ∧ e.name ∉ (s.move origin destination).report.pruned := by
  rw [(exports_move_filter s origin destination).2, List.mem_filter, decide_eq_true_eq]

/-- An export stays unless it may be idle and nothing uses it. -/
theorem mem_exports_move_iff_consumed (hnames : s.exportNames.Nodup) {e : Export} :
    e ∈ (s.move origin destination).store.exports ↔ e ∈ (s.converted origin destination).store.exports ∧
      (e.name ∈ (s.restored origin destination).idle → (s.restored origin destination).store.isConsumed e = true) := by
  have hexports : (s.restored origin destination).store.exports = (s.converted origin destination).store.exports :=
    Restoring.exports_restoreAll _ _
  have hnames' : (s.restored origin destination).store.exportNames.Nodup := by
    rw [exportNames, hexports]
    exact nodup_exportNames_converted hnames
  rw [exports_move_eq, pruned, Underway.mem_exports_pruneAll_iff _ hnames', hexports]

/-- What a moved tree imports is published, if it was before pruning. -/
theorem mem_exports_move_of_import {e : Export} (he : e ∈ (s.converted origin destination).store.exports) {t : Tree}
    (ht : (s.move origin destination).store.tree? a = some t) (hin : .imported e.name ∈ t.scan) :
    e ∈ (s.move origin destination).store.exports := by
  obtain ⟨_, hkept⟩ := exports_move s origin destination
  rw [move_eq] at ht
  split at ht
  · rw [Underway.tree?_renameIn] at ht
    split at ht
    · obtain ⟨t₀, ht₀, rfl⟩ := Option.map_eq_some_iff.mp ht
      exact hkept e he _ _ ht₀ ((Tree.import_mem_rename _ _ _).mp hin)
    · exact hkept e he _ _ ht hin
  · exact hkept e he _ _ ht hin

theorem nodup_exportNames_move (h : s.exportNames.Nodup) : (s.move origin destination).store.exportNames.Nodup :=
  ((exports_move s origin destination).1.map _).nodup (nodup_exportNames_converted h)

/-! ## Edges -/

theorem edges_move_eq (s : Store) (origin destination : Address) :
    (s.move origin destination).store.edges = (s.restored origin destination).store.edges := by
  have hpruned : (s.pruned origin destination).store.edges = (s.restored origin destination).store.edges :=
    (Underway.frame_pruneAll _ _).2.1
  rw [move_eq]
  split
  · rw [Underway.renameIn_eq]
    exact hpruned
  · exact hpruned

/-- The edges after their fates, and orderings along the restored ones. -/
theorem edges_move (s : Store) (origin destination : Address) :
    ∃ added, (s.move origin destination).store.edges = (s.departed origin destination).store.edges ++ added ∧
      ∀ edge ∈ added, ∃ e ∈ (s.departed origin destination).report.restored,
        edge = .between e.source e.target .structural none := by
  obtain ⟨added, hedges, hadded⟩ := Restoring.edges_restoreAll (s.departed origin destination).report.restored
    { toUnderway := s.converted origin destination }
  refine ⟨added, ?_, hadded⟩
  rw [edges_move_eq, restored, hedges]
  exact congrArg (· ++ added) (Underway.edges_convertAll _ _)

/-- An export is not pruned while an edge imports what it shows. -/
theorem mem_exports_move_of_edge (hnames : s.exportNames.Nodup) {ex : Export}
    (hex : ex ∈ (s.converted origin destination).store.exports) {e : Edge} (he : e ∈ (s.move origin destination).store.edges)
    (hk : e.kind = .imported) (h : ex.exposes e.target e.attr = true) : ex ∈ (s.move origin destination).store.exports := by
  refine (mem_exports_move_iff_consumed hnames).mpr ⟨hex, fun _ => ?_⟩
  rw [edges_move_eq] at he
  rw [isConsumed, Bool.or_eq_true, List.any_eq_true]
  exact Or.inl ⟨e, he, by simp [hk, h]⟩

/-! ## Trees -/

section Trees

variable (Q₁ Q₂ : Tree → Prop) (hd : destination ∉ s.ids) (hnames : s.exportNames.Nodup)
  (htorn : (∃ c ∈ (s.departed origin destination).report.converted, c.source = a.moved origin destination) →
    ∀ t, Q₁ t → t.Clear ∧ ∀ f, KeepsLocals f → Q₁ (t.redirect f).result)
  (hQ : ∀ t, Q₁ t → Q₂ t)
  (hkey : (∃ c ∈ (s.departed origin destination).report.restored, c.source = a.moved origin destination) →
    ∀ t, Q₂ t → t.NoImportKey)
  (hinlined : ∀ ex ∈ (s.converted origin destination).store.exports,
    s.Inlines origin destination (a.moved origin destination) ex → ex.Replaces Q₂)

include hd hnames htorn hQ hkey hinlined

/-- Before the renaming. The tree may be of any kind `Q₁` of trees that making imports does not
    lead out of, where it has any to make, and then of any kind `Q₂` that inlining does not. -/
theorem tree?_pruned {t : Tree} (ht : s.tree? a = some t) (hq : Q₁ t) :
    ∃ t', (s.pruned origin destination).store.tree? (a.moved origin destination) = some t' ∧ Q₂ t' ∧
      t'.scan.Perm ((t.scan.map (s.conversionAt origin destination (a.moved origin destination))).flatMap
        (s.restorationAt origin destination (a.moved origin destination))) := by
  have ha : a ≠ destination := ne_of_mem_of_not_mem (mem_ids_of_tree? ht) hd
  have ht₀ : (s.departed origin destination).store.tree? (a.moved origin destination) = some t := (tree?_departed hd ha).trans ht
  obtain ⟨t₁, ht₁, hq₁, hperm₁⟩ := Underway.tree?_convertAll _ _
    (fun h t hq => (htorn h t hq).1) (fun h f t hf hq => (htorn h t hq).2 f hf) ht₀ hq
  obtain ⟨t₂, ht₂, hq₂, hscan₂⟩ := Restoring.tree?_restoreAll (s := (s.converted origin destination).store)
    (nodup_exportNames_converted hnames) (s.departed origin destination).report.restored hkey hinlined
    (r := { toUnderway := s.converted origin destination }) rfl (fun _ hp => absurd hp List.not_mem_nil) ht₁ (hQ t₁ hq₁)
  refine ⟨t₂, by rw [pruned, Underway.tree?_pruneAll]; exact ht₂, hq₂, ?_⟩
  rw [hscan₂]
  exact hperm₁.flatMap_right _

/-- A moved tree refers to what its references have become, each on its own. -/
theorem tree?_move (hrename : origin.group = destination.group → a.group = origin.group → a ≠ origin → ∀ t, Q₂ t →
      t.Renamable origin.name destination.name ∧ Q₂ (t.rename origin.name destination.name).result)
    {t : Tree} (ht : s.tree? a = some t) (hq : Q₁ t) :
    ∃ t', (s.move origin destination).store.tree? (a.moved origin destination) = some t' ∧ Q₂ t' ∧
      t'.scan.Perm (t.scan.flatMap (s.carriedTo origin destination (a.moved origin destination))) := by
  have hcarried : t.scan.flatMap (s.carriedTo origin destination (a.moved origin destination)) =
      ((t.scan.map (s.conversionAt origin destination (a.moved origin destination))).flatMap
        (s.restorationAt origin destination (a.moved origin destination))).map
          (renamingAt origin destination (a.moved origin destination)) := by
    rw [List.flatMap_map, List.map_flatMap]
    rfl
  rw [hcarried]
  obtain ⟨t', ht', hq, hperm⟩ := tree?_pruned Q₁ Q₂ hd hnames htorn hQ hkey hinlined ht hq
  rw [move_eq]
  split
  · rename_i hgroup
    rw [Underway.tree?_renameIn, ht']
    by_cases hmember : (a.moved origin destination).group = destination.group ∧ a.moved origin destination ≠ destination
    · rw [if_pos hmember]
      have hother : a ≠ origin := by
        intro h
        exact hmember.2 (by rw [h, Address.moved_origin])
      have hin : a.group = origin.group := by
        rw [hgroup, ← hmember.1, Address.moved_of_ne hother]
      obtain ⟨hrenamable, hq'⟩ := hrename hgroup hin hother t' hq
      refine ⟨_, rfl, hq', hrenamable.scan_rename.trans ?_⟩
      have hrenaming : renamingAt origin destination (a.moved origin destination) =
          Reference.answer (Reference.renamed origin.name destination.name) := by
        funext r
        rw [renamingAt, if_pos ⟨hgroup, hmember⟩]
      rw [hrenaming]
      exact hperm.map _
    · rw [if_neg hmember]
      have hrenaming : renamingAt origin destination (a.moved origin destination) = id := by
        funext r
        rw [renamingAt, if_neg fun h => hmember h.2, id]
      rw [hrenaming, List.map_id]
      exact ⟨t', rfl, hq, hperm⟩
  · rename_i hgroup
    have hrenaming : renamingAt origin destination (a.moved origin destination) = id := by
      funext r
      rw [renamingAt, if_neg fun h => hgroup h.1, id]
    rw [hrenaming, List.map_id]
    exact ⟨t', ht', hq, hperm⟩

end Trees

/-! ## Every tree -/

section Every

variable {P : Tree → Prop}

/-- `P` holds of every tree of the store. -/
def Trees (P : Tree → Prop) (s : Store) : Prop := ∀ a t, s.tree? a = some t → P t

/-- A tree is still a `P` when published expressions take the place of imports. -/
def Inlining (P : Tree → Prop) (s : Store) : Prop :=
  ∀ e ∈ s.exports, ∀ t x, P t → P (t.substitute (.imported x) e.expression).1

theorem forall_map_tree {t? : Option Tree} {g : Tree → Tree} (h : ∀ t, t? = some t → P t) (hg : ∀ t, P t → P (g t)) :
    ∀ t, t?.map g = some t → P t := by
  intro t ht
  obtain ⟨t₀, ht₀, rfl⟩ := Option.map_eq_some_iff.mp ht
  exact hg t₀ (h t₀ ht₀)

theorem Trees.departed (h : s.Trees P) (hd : destination ∉ s.ids) : (s.departed origin destination).store.Trees P := by
  intro b t hb
  have hmem := mem_ids_of_tree? hb
  rw [ids_departed] at hmem
  obtain ⟨a, ha, rfl⟩ := List.mem_map.mp hmem
  rw [tree?_departed hd (ne_of_mem_of_not_mem ha hd)] at hb
  exact h a t hb

theorem Trees.convertAll {u : Underway} (h : u.store.Trees P) (hredirect : ∀ f t, P t → P (t.redirect f).result) (es : List Edge) :
    (es.foldl (Underway.convert origin destination) u).store.Trees P := by
  induction es generalizing u with
  | nil => exact h
  | cons e es ih =>
    refine ih fun a => ?_
    rw [Underway.tree?_convert]
    split
    · exact forall_map_tree (h a) (hredirect _)
    · exact h a

theorem Trees.inlineExport (h : s.Trees P) (hP : s.Inlining P) (source : Address) (name : String) :
    (s.inlineExport source name).1.Trees P := by
  intro a
  rcases he : s.export? name with _ | e
  · rw [Store.inlineExport, he]
    exact h a
  · rw [inlineExport_eq_mapTrees he, tree?_mapTrees]
    refine forall_map_tree (h a) fun t ht => ?_
    split
    · exact hP e (mem_of_export? he).1 t name ht
    · exact ht

theorem Trees.inlineAll {r : Restoring} (h : r.store.Trees P) (hP : r.store.Inlining P) (source : Address) (names : List String) :
    (names.foldl (Restoring.inlineOne source) r).store.Trees P := by
  induction names generalizing r with
  | nil => exact h
  | cons name names ih =>
    have hexports : (r.inlineOne source name).store.exports = r.store.exports := exports_inlineExport _ _ _
    refine ih (h.inlineExport hP source name) fun e he => hP e ?_
    rwa [hexports] at he

theorem Trees.restoreAll {r : Restoring} (h : r.store.Trees P) (hP : r.store.Inlining P) (es : List Edge) :
    (es.foldl Restoring.restore r).store.Trees P := by
  induction es generalizing r with
  | nil => exact h
  | cons e es ih =>
    have horder : (r.store.orderAfter e.source e.target).Trees P := by
      intro a
      rw [Restoring.tree?_orderAfter]
      exact h a
    have hinlining : (r.store.orderAfter e.source e.target).Inlining P := by
      intro ex hex
      rw [Restoring.exports_orderAfter] at hex
      exact hP ex hex
    refine ih (r := r.restore e) ?_ fun ex hex => hP ex ?_
    · rw [Restoring.restore_eq]
      split
      · exact horder
      · exact horder.inlineAll hinlining _ _
    · rwa [Restoring.exports_restore] at hex

/-- Only exports are pruned, and only some trees are renamed. -/
theorem Trees.move_of_restored (h : (s.restored origin destination).store.Trees P)
    (hrename : ∀ t, P t → P (t.rename origin.name destination.name).result) : (s.move origin destination).store.Trees P := by
  have hpruned : (s.pruned origin destination).store.Trees P := by
    intro a
    rw [pruned, Underway.tree?_pruneAll]
    exact h a
  rw [move_eq]
  split
  · intro a
    rw [Underway.tree?_renameIn]
    split
    · exact forall_map_tree (hpruned a) hrename
    · exact hpruned a
  · exact hpruned

end Every

end Regroup.Store
