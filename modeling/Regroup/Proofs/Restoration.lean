/-
  Regroup.Proofs.Restoration — imports that become references, and what goes with them.

  A restored edge puts the published expressions of its target in the place of its source's
  imports of them. A tree is done once for each target, and an expression that imports nothing
  is not touched again, so a whole run inlines each import once (`restoration`,
  `tree?_restoreAll`). After that exports that nothing uses are pruned (`exists_pruneAll`)
  and, within a group, the other members call the node by its new name (`tree?_renameIn`).
-/

import Regroup.Proofs.Conversion

namespace Regroup

/-- The published expression is a record that refers to nodes only. -/
structure Export.Standalone (e : Export) : Prop where
  record : ∃ fields, e.expression = .record fields
  no_imports : ∀ name, .imported name ∉ e.expression.scan

/-- The published expression can take the place of imports in trees of the kind `Q`. -/
structure Export.Replaces (Q : Tree → Prop) (e : Export) : Prop extends e.Standalone where
  keeps : ∀ t x, Q t → Q (t.substitute (.imported x) e.expression).1

namespace Store

variable {s : Store} {a source target : Address} {name : String}

/-! ## One expression -/

theorem exports_inlineExport (s : Store) (source : Address) (name : String) :
    (s.inlineExport source name).1.exports = s.exports := by
  unfold inlineExport
  split <;> rfl

theorem edges_inlineExport (s : Store) (source : Address) (name : String) :
    (s.inlineExport source name).1.edges = s.edges := by
  unfold inlineExport
  split <;> rfl

theorem inlineExport_eq_mapTrees {e : Export} (h : s.export? name = some e) (source : Address) :
    (s.inlineExport source name).1 = s.mapTrees fun a =>
      if a = source then fun t => (t.substitute (.imported name) e.expression).1 else fun t => t := by
  rw [inlineExport, h]
  exact updateNode_eq_mapTrees s source fun t => (t.substitute (.imported name) e.expression).1

theorem headers_inlineExport (s : Store) (source : Address) (name : String) :
    (s.inlineExport source name).1.headers = s.headers := by
  rcases h : s.export? name with _ | e
  · rw [inlineExport, h]
  · rw [inlineExport_eq_mapTrees h, headers_mapTrees]

theorem tree?_inlineExport_of_ne (h : a ≠ source) : (s.inlineExport source name).1.tree? a = s.tree? a := by
  rcases he : s.export? name with _ | e
  · rw [inlineExport, he]
  · rw [inlineExport_eq_mapTrees he, tree?_mapTrees, if_neg h]
    exact Option.map_id'

theorem tree?_inlineExport {e : Export} (he : s.export? name = some e) {t : Tree} (ht : s.tree? a = some t) :
    (s.inlineExport a name).1.tree? a = some (t.substitute (.imported name) e.expression).1 := by
  rw [inlineExport_eq_mapTrees he, tree?_mapTrees, if_pos rfl, ht]
  rfl

/-- What stands for a reference after the expressions of `names` were inlined. -/
def inlinedAll (s : Store) (names : List String) : Reference → List Reference
  | .imported x => if x ∈ names then ((s.export? x).map (·.expression.scan)).getD [.imported x] else [.imported x]
  | r => [r]

theorem inlinedAll_of_local {names : List String} {r : Reference} (h : r.isImport = false) : s.inlinedAll names r = [r] := by
  cases r <;> first | rfl | cases h

theorem flatMap_inlinedAll {names : List String} {rs : List Reference} (h : ∀ x, .imported x ∉ rs) :
    rs.flatMap (s.inlinedAll names) = rs := by
  have hsame : rs.flatMap (s.inlinedAll names) = rs.flatMap fun r => [r] := by
    refine List.flatMap_congr fun r hr => inlinedAll_of_local ?_
    cases r with
    | imported x => exact absurd hr (h x)
    | _ => rfl
  rw [hsame, List.flatMap_singleton']

theorem export?_congr {s' : Store} (h : s'.exports = s.exports) (name : String) : s'.export? name = s.export? name := by
  rw [export?, h, export?]

theorem inlinedAll_cons {e : Export} (he : s.export? name = some e) (halone : e.Standalone) (names : List String)
    (r : Reference) :
    (Tree.inlined name e.expression r).flatMap (s.inlinedAll names) = s.inlinedAll (name :: names) r := by
  unfold Tree.inlined
  split
  · rename_i hr
    subst hr
    rw [flatMap_inlinedAll halone.no_imports]
    simp [inlinedAll, he]
  · rename_i hr
    rw [List.flatMap_singleton]
    cases r with
    | imported x =>
      have hx : x ≠ name := fun h => hr (h ▸ rfl)
      simp [inlinedAll, hx]
    | _ => rfl

namespace Restoring

variable {r : Restoring}

/-! ## One edge -/

section Names

variable (names : List String) (r : Restoring) (source : Address)

theorem exports_inlineAll : (names.foldl (inlineOne source) r).store.exports = r.store.exports := by
  induction names generalizing r with
  | nil => rfl
  | cons name names ih => rw [List.foldl_cons, ih]; exact exports_inlineExport _ _ _

theorem edges_inlineAll : (names.foldl (inlineOne source) r).store.edges = r.store.edges := by
  induction names generalizing r with
  | nil => rfl
  | cons name names ih => rw [List.foldl_cons, ih]; exact edges_inlineExport _ _ _

theorem headers_inlineAll : (names.foldl (inlineOne source) r).store.headers = r.store.headers := by
  induction names generalizing r with
  | nil => rfl
  | cons name names ih => rw [List.foldl_cons, ih]; exact headers_inlineExport _ _ _

theorem handled_inlineAll : (names.foldl (inlineOne source) r).handled = r.handled := by
  induction names generalizing r with
  | nil => rfl
  | cons name names ih => rw [List.foldl_cons, ih]; rfl

/-- Only what is changed in the trees is reported. -/
theorem report_inlineAll : { (names.foldl (inlineOne source) r).report with redirected := 0 } = { r.report with redirected := 0 } := by
  induction names generalizing r with
  | nil => rfl
  | cons name names ih => rw [List.foldl_cons, ih]; rfl

theorem tree?_inlineAll_of_ne (h : a ≠ source) : (names.foldl (inlineOne source) r).store.tree? a = r.store.tree? a := by
  induction names generalizing r with
  | nil => rfl
  | cons name names ih => rw [List.foldl_cons, ih]; exact tree?_inlineExport_of_ne h

theorem tree?_inlineAll {Q : Tree → Prop} (hkey : ∀ t, Q t → t.NoImportKey)
    (hall : ∀ name ∈ names, ∀ e, s.export? name = some e → e.Replaces Q) (hs : r.store.exports = s.exports) {t : Tree} (ht : r.store.tree? source = some t) (hq : Q t) :
    ∃ t', (names.foldl (inlineOne source) r).store.tree? source = some t' ∧ Q t' ∧
      t'.scan = t.scan.flatMap (s.inlinedAll names) := by
  induction names generalizing r t with
  | nil =>
    have hsame : t.scan.flatMap (s.inlinedAll []) = t.scan.flatMap fun q => [q] :=
      List.flatMap_congr fun q _ => by cases q <;> simp [inlinedAll]
    exact ⟨t, ht, hq, by rw [hsame, List.flatMap_singleton']⟩
  | cons name names ih =>
    have hexports : (inlineOne source r name).store.exports = s.exports := (exports_inlineExport _ _ _).trans hs
    have hlater : ∀ name ∈ names, ∀ e, s.export? name = some e → e.Replaces Q :=
      fun other hother => hall other (List.mem_cons_of_mem _ hother)
    rcases he : s.export? name with _ | e
    · have htree : (inlineOne source r name).store.tree? source = some t := by
        change (r.store.inlineExport source name).1.tree? source = some t
        rw [inlineExport, export?_congr hs, he, ht]
      obtain ⟨t', ht', hq', hscan⟩ := ih _ hlater hexports htree hq
      refine ⟨t', ht', hq', hscan.trans (List.flatMap_congr fun q _ => ?_)⟩
      cases q with
      | imported x =>
        by_cases hx : x = name
        · subst hx
          simp [inlinedAll, he]
        · simp [inlinedAll, hx]
      | _ => rfl
    · have htree := tree?_inlineExport (by rw [export?_congr hs, he]) ht
      have hreplaces := hall name (List.mem_cons_self ..) e he
      obtain ⟨fields, hfields⟩ := hreplaces.record
      obtain ⟨t', ht', hq', hscan⟩ := ih (inlineOne source r name) hlater hexports htree (hreplaces.keeps t name hq)
      refine ⟨t', ht', hq', ?_⟩
      rw [hscan, hfields, Tree.scan_substitute (hkey t hq), ← hfields, List.flatMap_assoc]
      exact List.flatMap_congr fun q _ => inlinedAll_cons he hreplaces.toStandalone names q

end Names

/-! ## All edges -/

/-- What stands for a reference in the tree at `a` after the edges were restored. -/
def restoration (s : Store) (es : List Edge) (a : Address) : Reference → List Reference
  | .imported x =>
    match s.export? x with
    | some ex => if ∃ e ∈ es, e.source = a ∧ e.target = ex.source then ex.expression.scan else [.imported x]
    | none => [.imported x]
  | r => [r]

theorem restoration_of_local {es : List Edge} {q : Reference} (h : q.isImport = false) : restoration s es a q = [q] := by
  cases q <;> first | rfl | cases h

theorem restoration_of_exports {es : List Edge} {x : String} {ex : Export} (h : s.export? x = some ex) :
    restoration s es a (.imported x) =
      if ∃ e ∈ es, e.source = a ∧ e.target = ex.source then ex.expression.scan else [.imported x] := by
  simp only [restoration, h]

theorem restoration_of_unknown {es : List Edge} {x : String} (h : s.export? x = none) :
    restoration s es a (.imported x) = [.imported x] := by
  simp only [restoration, h]

theorem flatMap_restoration {es : List Edge} {rs : List Reference} (h : ∀ x, .imported x ∉ rs) :
    rs.flatMap (restoration s es a) = rs := by
  have hsame : rs.flatMap (restoration s es a) = rs.flatMap fun q => [q] := by
    refine List.flatMap_congr fun q hq => restoration_of_local ?_
    cases q with
    | imported x => exact absurd hq (h x)
    | _ => rfl
  rw [hsame, List.flatMap_singleton']

theorem restoration_cons_of_ne {es : List Edge} {e : Edge} {q : Reference}
    (h : ∀ x ex, q = .imported x → s.export? x = some ex → ¬(e.source = a ∧ e.target = ex.source)) :
    restoration s (e :: es) a q = restoration s es a q := by
  cases q with
  | imported x =>
    rcases he : s.export? x with _ | ex
    · rw [restoration_of_unknown he, restoration_of_unknown he]
    · rw [restoration_of_exports he, restoration_of_exports he]
      have := h x ex rfl he
      simp [this]
  | _ => rfl

/-- What is still imported was imported before, and from no target of the edges. -/
theorem import_mem_restoration {es : List Edge}
    (halone : ∀ ex ∈ s.exports, (∃ e ∈ es, e.source = a ∧ e.target = ex.source) → ex.Standalone) {q : Reference} {x : String}
    (h : .imported x ∈ restoration s es a q) :
    q = .imported x ∧ ∀ ex, s.export? x = some ex → ¬∃ e ∈ es, e.source = a ∧ e.target = ex.source := by
  cases q with
  | imported y =>
    rcases he : s.export? y with _ | ey
    · rw [restoration_of_unknown he, List.mem_singleton, Reference.imported.injEq] at h
      subst h
      exact ⟨rfl, by simp [he]⟩
    · rw [restoration_of_exports he] at h
      split at h
      · rename_i hrestored
        exact absurd h ((halone ey (mem_of_export? he).1 hrestored).no_imports x)
      · rename_i hno
        rw [List.mem_singleton, Reference.imported.injEq] at h
        subst h
        refine ⟨rfl, fun ex hex => ?_⟩
        rw [he, Option.some.injEq] at hex
        exact hex ▸ hno
  | _ => rw [restoration_of_local rfl, List.mem_singleton] at h; cases h

/-- Taking the edges one at a time comes to the same. -/
theorem restoration_cons {e : Edge} (halone : ∀ ex ∈ s.exports, e.source = a ∧ e.target = ex.source → ex.Standalone)
    (es : List Edge) (q : Reference) :
    (restoration s [e] a q).flatMap (restoration s es a) = restoration s (e :: es) a q := by
  cases q with
  | imported x =>
    rcases he : s.export? x with _ | ex
    · rw [restoration_of_unknown he, List.flatMap_singleton, restoration_of_unknown he, restoration_of_unknown he]
    · rw [restoration_of_exports he, restoration_of_exports he]
      by_cases h : e.source = a ∧ e.target = ex.source
      · simp [h, flatMap_restoration (halone ex (mem_of_export? he).1 h).no_imports]
      · simp [h, restoration_of_exports he]
  | _ => rfl

end Restoring

/-- The tree at `a` imports `x`. -/
def Imports (s : Store) (a : Address) (x : String) : Prop := ∃ t, s.tree? a = some t ∧ .imported x ∈ t.scan

/-- `consumed` names what the tree imports of the target; if that is nothing, the export of the value. -/
theorem mem_consumed_iff {attr : Option String} {x : String} : x ∈ s.consumed source target attr ↔
    (s.Imports source x ∧ (s.export? x).map (·.source) = some target) ∨
    ((∀ y, s.Imports source y → (s.export? y).map (·.source) ≠ some target) ∧
      ∃ ex, s.exportOf? target attr = some ex ∧ ex.name = x) := by
  have himports : ∀ y, y ∈ ((s.node? source).elim [] fun node => node.properties.scan.filterMap fun
      | .imported name => if (s.export? name).map (·.source) = some target then some name else none
      | _ => none).eraseDups ↔ s.Imports source y ∧ (s.export? y).map (·.source) = some target := by
    intro y
    rw [List.mem_eraseDups]
    rcases hn : s.node? source with _ | node
    · simp [Imports, tree?, hn]
    · have htree : s.tree? source = some node.properties := by rw [tree?, hn, Option.map_some]
      simp only [Option.elim, List.mem_filterMap, Imports, htree, Option.some.injEq, exists_eq_left']
      constructor
      · rintro ⟨q, hq, hy⟩
        cases q with
        | imported name =>
          simp only [Option.ite_none_right_eq_some, Option.some.injEq] at hy
          obtain ⟨hs, rfl⟩ := hy
          exact ⟨hq, hs⟩
        | _ => cases hy
      · rintro ⟨hq, hs⟩
        exact ⟨.imported y, hq, by simp [hs]⟩
  rw [consumed]
  split
  · rename_i hnil
    have hno : ∀ y, s.Imports source y → (s.export? y).map (·.source) ≠ some target := by
      intro y hy hs
      have hmem : y ∈ ([] : List String) := by
        rw [← hnil]
        exact (himports y).mpr ⟨hy, hs⟩
      cases hmem
    rw [Option.mem_toList, Option.map_eq_some_iff, or_iff_right fun h => hno x h.1 h.2]
    exact (and_iff_right hno).symm
  · rename_i hsome
    refine (himports x).trans (or_iff_left ?_).symm
    rintro ⟨hno, _⟩
    obtain ⟨y, hy⟩ := List.exists_mem_of_ne_nil _ hsome
    obtain ⟨himport, hs⟩ := (himports y).mp hy
    exact hno y himport hs

/-- All that `consumed` names is published of the target. -/
theorem source_of_mem_consumed {attr : Option String} (hnames : s.exportNames.Nodup) {x : String} {ex : Export}
    (hx : x ∈ s.consumed source target attr) (he : s.export? x = some ex) : ex.source = target := by
  rcases mem_consumed_iff.mp hx with ⟨_, hs⟩ | ⟨_, ex', hex', rfl⟩
  · rw [he] at hs
    exact Option.some.inj hs
  · obtain ⟨hmem, hsource, _⟩ := mem_of_exportOf? hex'
    rw [export?_of_mem hnames hmem, Option.some.injEq] at he
    exact he ▸ hsource

/-- Of the exports that a tree imports, `consumed` names those of the target. -/
theorem mem_consumed (target : Address) (attr : Option String) (hnames : s.exportNames.Nodup) {t : Tree}
    (ht : s.tree? source = some t) {x : String} {ex : Export} (hx : .imported x ∈ t.scan) (he : s.export? x = some ex) :
    x ∈ s.consumed source target attr ↔ ex.source = target := by
  refine ⟨fun h => source_of_mem_consumed hnames h he, fun h => mem_consumed_iff.mpr (Or.inl ⟨⟨t, ht, hx⟩, ?_⟩)⟩
  rw [he, Option.map_some, h]

namespace Restoring

section Step

variable (e : Edge) (r : Restoring)

theorem restore_eq : r.restore e =
    if (e.source, e.target) ∈ r.handled then { r with store := r.store.orderAfter e.source e.target }
    else ((r.store.orderAfter e.source e.target).consumed e.source e.target e.attr).foldl (inlineOne e.source)
      { r with store := r.store.orderAfter e.source e.target, handled := r.handled ++ [(e.source, e.target)] } := rfl

theorem exports_orderAfter (s : Store) (source target : Address) : (s.orderAfter source target).exports = s.exports := by
  unfold orderAfter
  split <;> rfl

theorem nodes_orderAfter (s : Store) (source target : Address) : (s.orderAfter source target).nodes = s.nodes := by
  unfold orderAfter
  split <;> rfl

theorem tree?_orderAfter (s : Store) (source target a : Address) : (s.orderAfter source target).tree? a = s.tree? a := by
  rw [tree?, node?, nodes_orderAfter, tree?, node?]

/-- The edges stay, and an ordering may be added. -/
theorem edges_orderAfter (s : Store) (source target : Address) : (s.orderAfter source target).edges = s.edges ∨
    (s.orderAfter source target).edges = s.edges ++ [.between source target .structural none] := by
  unfold orderAfter
  split
  · exact Or.inl rfl
  · exact Or.inr rfl

theorem exports_restore : (r.restore e).store.exports = r.store.exports := by
  rw [restore_eq]
  split
  · exact exports_orderAfter _ _ _
  · rw [exports_inlineAll]
    exact exports_orderAfter _ _ _

theorem headers_restore : (r.restore e).store.headers = r.store.headers := by
  have horder : (r.store.orderAfter e.source e.target).headers = r.store.headers := by rw [headers, nodes_orderAfter, headers]
  rw [restore_eq]
  split
  · exact horder
  · rw [headers_inlineAll]
    exact horder

theorem edges_restore : (r.restore e).store.edges = (r.store.orderAfter e.source e.target).edges := by
  rw [restore_eq]
  split
  · rfl
  · rw [edges_inlineAll]

theorem report_restore : { (r.restore e).report with redirected := 0 } = { r.report with redirected := 0 } := by
  rw [restore_eq]
  split
  · rfl
  · exact report_inlineAll _ _ _

theorem tree?_restore_of_ne (h : a ≠ e.source) : (r.restore e).store.tree? a = r.store.tree? a := by
  rw [restore_eq]
  split
  · exact tree?_orderAfter _ _ _ _
  · rw [tree?_inlineAll_of_ne _ _ _ h]
    exact tree?_orderAfter _ _ _ _

theorem handled_restore (p : Address × Address) :
    p ∈ (r.restore e).handled ↔ p ∈ r.handled ∨ p = (e.source, e.target) := by
  rw [restore_eq]
  split
  · rename_i h
    constructor
    · exact Or.inl
    · rintro (hp | rfl)
      · exact hp
      · exact h
  · rw [handled_inlineAll, List.mem_append, List.mem_singleton]

/-- Of no target that `a` was done for does its tree `t` import anything. -/
def DoneWith (s : Store) (r : Restoring) (a : Address) (t : Tree) : Prop :=
  ∀ target, (a, target) ∈ r.handled → ∀ x ex, .imported x ∈ t.scan → s.export? x = some ex → ex.source ≠ target

theorem doneWith_restore {s : Store} {a : Address} {t : Tree} (h : DoneWith s r a t)
    (hnow : a = e.source → ∀ x ex, .imported x ∈ t.scan → s.export? x = some ex → ex.source ≠ e.target) :
    DoneWith s (r.restore e) a t := by
  intro target hp
  rcases (handled_restore e r _).mp hp with hp | hp
  · exact h target hp
  · obtain ⟨rfl, rfl⟩ := Prod.mk.inj hp
    exact hnow rfl

end Step

section Run

theorem exports_restoreAll (es : List Edge) (r : Restoring) : (es.foldl restore r).store.exports = r.store.exports := by
  induction es generalizing r with
  | nil => rfl
  | cons e es ih => rw [List.foldl_cons, ih, exports_restore]

theorem headers_restoreAll (es : List Edge) (r : Restoring) : (es.foldl restore r).store.headers = r.store.headers := by
  induction es generalizing r with
  | nil => rfl
  | cons e es ih => rw [List.foldl_cons, ih, headers_restore]

theorem report_restoreAll (es : List Edge) (r : Restoring) :
    { (es.foldl restore r).report with redirected := 0 } = { r.report with redirected := 0 } := by
  induction es generalizing r with
  | nil => rfl
  | cons e es ih => rw [List.foldl_cons, ih, report_restore]

/-- The edges stay, and orderings along the restored ones may come behind them. -/
theorem edges_restoreAll (es : List Edge) (r : Restoring) : ∃ added, (es.foldl restore r).store.edges = r.store.edges ++ added ∧
    ∀ edge ∈ added, ∃ e ∈ es, edge = .between e.source e.target .structural none := by
  induction es generalizing r with
  | nil => exact ⟨[], (List.append_nil _).symm, by simp⟩
  | cons e es ih =>
    obtain ⟨added, hedges, hadded⟩ := ih (r.restore e)
    have hlift : ∀ edge ∈ added, ∃ e' ∈ e :: es, edge = .between e'.source e'.target .structural none := by
      intro edge hedge
      obtain ⟨e', he', h⟩ := hadded edge hedge
      exact ⟨e', List.mem_cons_of_mem _ he', h⟩
    rw [List.foldl_cons, hedges, edges_restore]
    rcases edges_orderAfter r.store e.source e.target with h | h
    · exact ⟨added, by rw [h], hlift⟩
    · refine ⟨.between e.source e.target .structural none :: added, ?_, ?_⟩
      · rw [h, List.append_assoc, List.singleton_append]
      · exact List.forall_mem_cons.mpr ⟨⟨e, List.mem_cons_self .., rfl⟩, hlift⟩

theorem tree?_restoreAll_of_ne (es : List Edge) (h : ∀ e ∈ es, e.source ≠ a) (r : Restoring) :
    (es.foldl restore r).store.tree? a = r.store.tree? a := by
  induction es generalizing r with
  | nil => rfl
  | cons e es ih =>
    have hne : a ≠ e.source := Ne.symm (h e (List.mem_cons_self ..))
    rw [List.foldl_cons, ih fun e' he' => h e' (List.mem_cons_of_mem _ he')]
    exact tree?_restore_of_ne e r hne

variable {Q : Tree → Prop} (hnames : s.exportNames.Nodup)

include hnames

theorem tree?_restore {e : Edge} {r : Restoring} (hkey : ∀ t, Q t → t.NoImportKey)
    (hall : ∀ ex ∈ s.exports, ex.source = e.target → ex.Replaces Q) (hs : r.store.exports = s.exports)
    (hnew : (e.source, e.target) ∉ r.handled) {t : Tree} (ht : r.store.tree? e.source = some t) (hq : Q t) :
    ∃ t', (r.restore e).store.tree? e.source = some t' ∧ Q t' ∧ t'.scan = t.scan.flatMap (restoration s [e] e.source) := by
  have hexports : (r.store.orderAfter e.source e.target).exports = s.exports := (exports_orderAfter _ _ _).trans hs
  have htree : (r.store.orderAfter e.source e.target).tree? e.source = some t := by rw [tree?_orderAfter, ht]
  have hnames' : (r.store.orderAfter e.source e.target).exportNames.Nodup := by rwa [exportNames, hexports]
  have hnamed : ∀ x ∈ (r.store.orderAfter e.source e.target).consumed e.source e.target e.attr, ∀ ex, s.export? x = some ex →
      ex.Replaces Q := fun x hx ex hex => hall ex (mem_of_export? hex).1
    (source_of_mem_consumed hnames' hx ((export?_congr hexports x).trans hex))
  obtain ⟨t', ht', hq', hscan⟩ := tree?_inlineAll
    ((r.store.orderAfter e.source e.target).consumed e.source e.target e.attr)
    { r with store := r.store.orderAfter e.source e.target, handled := r.handled ++ [(e.source, e.target)] }
    e.source hkey hnamed hexports htree hq
  refine ⟨t', by rw [restore_eq, if_neg hnew, ht'], hq', hscan.trans (List.flatMap_congr fun q hin => ?_)⟩
  cases q with
  | imported x =>
    rcases he : s.export? x with _ | ex
    · rw [restoration_of_unknown he]
      simp [inlinedAll, he]
    · have hmem := mem_consumed e.target e.attr hnames' htree hin ((export?_congr hexports x).trans he)
      rw [restoration_of_exports he]
      simp [inlinedAll, he, hmem, eq_comm]
  | _ => rfl

/-- After all edges were restored the tree refers to what its references have become. Where it
    was done for a target, it imports nothing of it any more, so it need not be done again. -/
theorem tree?_restoreAll (es : List Edge) (hkey : (∃ e ∈ es, e.source = a) → ∀ t, Q t → t.NoImportKey)
    (hall : ∀ ex ∈ s.exports, (∃ e ∈ es, e.source = a ∧ e.target = ex.source) → ex.Replaces Q)
    {r : Restoring} (hs : r.store.exports = s.exports) {t : Tree} (hdone : r.DoneWith s a t)
    (ht : r.store.tree? a = some t) (hq : Q t) :
    ∃ t', (es.foldl restore r).store.tree? a = some t' ∧ Q t' ∧ t'.scan = t.scan.flatMap (restoration s es a) := by
  induction es generalizing r t with
  | nil =>
    have hsame : t.scan.flatMap (restoration s [] a) = t.scan.flatMap fun q => [q] := by
      refine List.flatMap_congr fun q _ => ?_
      cases q with
      | imported x =>
        rcases he : s.export? x with _ | ex
        · exact restoration_of_unknown he
        · simp [restoration_of_exports he]
      | _ => rfl
    exact ⟨t, ht, hq, by rw [hsame, List.flatMap_singleton']⟩
  | cons e es ih =>
    have hkey' : (∃ e' ∈ es, e'.source = a) → ∀ t, Q t → t.NoImportKey :=
      fun ⟨e', he', h⟩ => hkey ⟨e', List.mem_cons_of_mem _ he', h⟩
    have hall' : ∀ ex ∈ s.exports, (∃ e' ∈ es, e'.source = a ∧ e'.target = ex.source) → ex.Replaces Q :=
      fun ex hex ⟨e', he', h⟩ => hall ex hex ⟨e', List.mem_cons_of_mem _ he', h⟩
    have hexports : (r.restore e).store.exports = s.exports := (exports_restore e r).trans hs
    by_cases ha : a = e.source
    · subst ha
      have hfirst : ∀ ex ∈ s.exports, ex.source = e.target → ex.Replaces Q :=
        fun ex hex h => hall ex hex ⟨e, List.mem_cons_self .., rfl, h.symm⟩
      by_cases hh : (e.source, e.target) ∈ r.handled
      · have htree : (r.restore e).store.tree? e.source = some t := by
          rw [restore_eq, if_pos hh]
          exact (tree?_orderAfter _ _ _ _).trans ht
        obtain ⟨t', ht', hq', hscan⟩ := ih hkey' hall' hexports (doneWith_restore e r hdone fun _ => hdone _ hh) htree hq
        refine ⟨t', ht', hq', hscan.trans (List.flatMap_congr fun q hin => (restoration_cons_of_ne ?_).symm)⟩
        rintro x ex rfl hex ⟨_, htarget⟩
        exact hdone _ hh x ex hin hex htarget.symm
      · obtain ⟨t₁, ht₁, hq₁, hscan₁⟩ := tree?_restore hnames (hkey ⟨e, List.mem_cons_self .., rfl⟩) hfirst hs hh ht hq
        have halone : ∀ ex ∈ s.exports, (∃ e' ∈ [e], e'.source = e.source ∧ e'.target = ex.source) → ex.Standalone := by
          intro ex hex h
          obtain ⟨_, he', _, htarget⟩ := h
          exact (hfirst ex hex (List.mem_singleton.mp he' ▸ htarget.symm)).toStandalone
        have hleft : ∀ x, .imported x ∈ t₁.scan → .imported x ∈ t.scan ∧ ∀ ex, s.export? x = some ex → ex.source ≠ e.target := by
          intro x hx
          rw [hscan₁] at hx
          obtain ⟨q, hin, hx⟩ := List.mem_flatMap.mp hx
          obtain ⟨rfl, hno⟩ := import_mem_restoration halone hx
          exact ⟨hin, fun ex hex h => hno ex hex ⟨e, List.mem_singleton_self e, rfl, h.symm⟩⟩
        have hdone' : (r.restore e).DoneWith s e.source t₁ :=
          doneWith_restore e r (fun target hp x ex hx => hdone target hp x ex (hleft x hx).1) fun _ x ex hx => (hleft x hx).2 ex
        obtain ⟨t', ht', hq', hscan⟩ := ih hkey' hall' hexports hdone' ht₁ hq₁
        refine ⟨t', ht', hq', ?_⟩
        rw [hscan, hscan₁, List.flatMap_assoc]
        exact List.flatMap_congr fun q _ => restoration_cons (fun ex hex h => (hfirst ex hex h.2.symm).toStandalone) es q
    · obtain ⟨t', ht', hq', hscan⟩ := ih hkey' hall' hexports (doneWith_restore e r hdone fun h => absurd h ha)
        ((tree?_restore_of_ne e r ha).trans ht) hq
      refine ⟨t', ht', hq', hscan.trans (List.flatMap_congr fun q _ => (restoration_cons_of_ne ?_).symm)⟩
      rintro x ex _ _ ⟨rfl, _⟩
      exact ha rfl

end Run

end Restoring

/-! ## Pruning -/

namespace Underway

variable {origin destination : Address}

/-- An export goes only when no edge and no tree uses it. -/
theorem prune_cases (u : Underway) (name : String) : u.prune name = u ∨
    (∃ e, u.store.export? name = some e ∧ u.store.isConsumed e = false) ∧
      (u.prune name).store = { u.store with exports := u.store.exports.filter (·.name != name) } ∧
      (u.prune name).report = { u.report with pruned := u.report.pruned ++ [name] } := by
  unfold prune Store.prune
  rcases he : u.store.export? name with _ | e
  · exact Or.inl rfl
  · cases hc : u.store.isConsumed e with
    | true => exact Or.inl (by simp [hc])
    | false => exact Or.inr ⟨⟨e, rfl, hc⟩, by simp [hc], by simp [hc]⟩

theorem not_imported_of_not_consumed {e : Export} (h : s.isConsumed e = false) :
    ∀ node ∈ s.nodes, .imported e.name ∉ node.properties.scan := by
  intro node hn hin
  rw [isConsumed, Bool.or_eq_false_iff, List.any_eq_false] at h
  exact List.any_eq_false.mp h.2 node hn (by simpa using hin)

theorem frame_prune (u : Underway) (name : String) :
    (u.prune name).store.nodes = u.store.nodes ∧ (u.prune name).store.edges = u.store.edges ∧
      { (u.prune name).report with pruned := [] } = { u.report with pruned := [] } := by
  rcases u.prune_cases name with h | ⟨_, hs, hr⟩
  · rw [h]
    exact ⟨rfl, rfl, rfl⟩
  · rw [hs, hr]
    exact ⟨rfl, rfl, rfl⟩

theorem frame_pruneAll (names : List String) (u : Underway) :
    (names.foldl prune u).store.nodes = u.store.nodes ∧ (names.foldl prune u).store.edges = u.store.edges ∧
      { (names.foldl prune u).report with pruned := [] } = { u.report with pruned := [] } := by
  induction names generalizing u with
  | nil => exact ⟨rfl, rfl, rfl⟩
  | cons name names ih =>
    obtain ⟨hn, he, hr⟩ := u.frame_prune name
    obtain ⟨hn', he', hr'⟩ := ih (u.prune name)
    exact ⟨hn'.trans hn, he'.trans he, hr'.trans hr⟩

theorem tree?_pruneAll (names : List String) (u : Underway) (a : Address) :
    (names.foldl prune u).store.tree? a = u.store.tree? a := by
  rw [tree?, node?, (frame_pruneAll names u).1, tree?, node?]

/-- Pruning leaves some of the exports, and all of those that a tree imports. -/
theorem exports_pruneAll (names : List String) (u : Underway) :
    (names.foldl prune u).store.exports.Sublist u.store.exports ∧
      ∀ e ∈ u.store.exports, (∃ node ∈ u.store.nodes, .imported e.name ∈ node.properties.scan) →
        e ∈ (names.foldl prune u).store.exports := by
  induction names generalizing u with
  | nil => exact ⟨List.Sublist.refl _, fun e he _ => he⟩
  | cons name names ih =>
    obtain ⟨hsub, hkept⟩ := ih (u.prune name)
    rcases u.prune_cases name with h | ⟨⟨ex, hex, hidle⟩, hs, _⟩
    · rw [h] at hsub hkept
      rw [List.foldl_cons, h]
      exact ⟨hsub, hkept⟩
    · have hfilter : (u.prune name).store.exports = u.store.exports.filter (·.name != name) := by rw [hs]
      rw [List.foldl_cons]
      refine ⟨hsub.trans (hfilter ▸ List.filter_sublist), fun e he himport => ?_⟩
      rw [← (u.frame_prune name).1] at himport
      refine hkept e ?_ himport
      rw [hfilter, List.mem_filter]
      refine ⟨he, ?_⟩
      rw [(u.frame_prune name).1] at himport
      obtain ⟨node, hn, hin⟩ := himport
      have hne : e.name ≠ name := by
        rintro rfl
        rw [← (mem_of_export? hex).2] at hin
        exact not_imported_of_not_consumed hidle node hn hin
      simpa using hne

theorem isConsumed_prune (u : Underway) (name : String) (e : Export) :
    (u.prune name).store.isConsumed e = u.store.isConsumed e := by
  obtain ⟨hn, he, _⟩ := u.frame_prune name
  rw [isConsumed, hn, he, isConsumed]

/-- An export goes exactly when it is named and nothing uses it. -/
theorem mem_exports_prune_iff {u : Underway} (hnames : u.store.exportNames.Nodup) {name : String} {e : Export} :
    e ∈ (u.prune name).store.exports ↔ e ∈ u.store.exports ∧ (e.name = name → u.store.isConsumed e = true) := by
  unfold prune Store.prune
  rcases hex : u.store.export? name with _ | ex
  · refine (and_iff_left_of_imp fun he hname => ?_).symm
    exact absurd (List.mem_map_of_mem he) (hname ▸ export?_eq_none_iff.mp hex)
  · have hsame : e ∈ u.store.exports → e.name = name → e = ex := by
      intro he hname
      have := export?_of_mem hnames he
      rw [hname, hex] at this
      exact (Option.some.inj this).symm
    cases hc : u.store.isConsumed ex with
    | true =>
      simp only [hc, if_true]
      exact (and_iff_left_of_imp fun he hname => hsame he hname ▸ hc).symm
    | false =>
      simp only [hc, Bool.false_eq_true, if_false, List.mem_filter, bne_iff_ne]
      refine and_congr_right fun he => ⟨fun hne hname => absurd hname hne, fun hkept hname => ?_⟩
      have hused := hkept hname
      rw [hsame he hname, hc] at hused
      cases hused

theorem mem_exports_pruneAll_iff (names : List String) {u : Underway} (hnames : u.store.exportNames.Nodup) {e : Export} :
    e ∈ (names.foldl prune u).store.exports ↔ e ∈ u.store.exports ∧ (e.name ∈ names → u.store.isConsumed e = true) := by
  induction names generalizing u with
  | nil => simp
  | cons name names ih =>
    have hnames' : (u.prune name).store.exportNames.Nodup :=
      ((exports_pruneAll [name] u).1.map Export.name).nodup hnames
    rw [List.foldl_cons, ih hnames', mem_exports_prune_iff hnames, isConsumed_prune, List.mem_cons, or_imp, and_assoc]

/-- The exports that are reported as pruned were there, and they are those that go. -/
theorem exists_pruneAll (names : List String) (u : Underway) : ∃ gone,
    (names.foldl prune u).report.pruned = u.report.pruned ++ gone ∧ (∀ x ∈ gone, x ∈ u.store.exportNames) ∧
      (names.foldl prune u).store.exports = u.store.exports.filter fun e => decide (e.name ∉ gone) := by
  induction names generalizing u with
  | nil => exact ⟨[], (List.append_nil _).symm, by simp, by simp⟩
  | cons name names ih =>
    obtain ⟨gone, hpruned, hold, hexports⟩ := ih (u.prune name)
    rcases u.prune_cases name with h | ⟨⟨e, he, _⟩, hs, hr⟩
    · rw [h] at hpruned hold hexports
      rw [List.foldl_cons, h]
      exact ⟨gone, hpruned, hold, hexports⟩
    · obtain ⟨hmem, hname⟩ := mem_of_export? he
      refine ⟨name :: gone, ?_, List.forall_mem_cons.mpr ⟨hname ▸ List.mem_map_of_mem hmem, fun x hx => ?_⟩, ?_⟩
      · rw [List.foldl_cons, hpruned, hr, List.append_assoc, List.singleton_append]
      · obtain ⟨e', he', rfl⟩ := List.mem_map.mp (hold x hx)
        rw [hs] at he'
        exact List.mem_map_of_mem (List.mem_filter.mp he').1
      · rw [List.foldl_cons, hexports, hs, List.filter_filter]
        refine List.filter_congr fun e' _ => ?_
        rw [Bool.eq_iff_iff, Bool.and_eq_true, decide_eq_true_eq, decide_eq_true_eq, bne_iff_ne, List.mem_cons, not_or,
          and_comm]

/-! ## The other members -/

theorem renameIn_eq (u : Underway) : (u.renameIn origin destination).store = u.store.mapTrees fun a =>
    if a.group = destination.group ∧ a ≠ destination then fun t => (t.rename origin.name destination.name).result
    else fun t => t := by
  simp only [renameIn, mapTrees]
  congr 2
  funext node
  by_cases h : node.id.group = destination.group ∧ node.id ≠ destination
  · simp [h.1, h.2]
  · have htouched : (node.id.group == destination.group && node.id != destination) = false := by simpa using h
    simp only [htouched, Bool.false_eq_true, if_false, if_neg h]

theorem tree?_renameIn (u : Underway) (a : Address) : (u.renameIn origin destination).store.tree? a =
    if a.group = destination.group ∧ a ≠ destination then
      (u.store.tree? a).map fun t => (t.rename origin.name destination.name).result
    else u.store.tree? a := by
  rw [renameIn_eq, tree?_mapTrees]
  split
  · rfl
  · exact Option.map_id'

end Underway

end Store

end Regroup
