/-
  Regroup.Proofs.Accounting — what a move changes is what it reports.

  A move goes through nodes, exports, edges and trees, and later steps read what earlier ones
  wrote. `Accounted` says of the whole that nothing else is touched and that the report is exact:
  - The nodes stay in their places, and the moved one has its new address (`headers_move`).
  - A tree changes only where an edge of its node was converted or restored, or where it names a
    node that is renamed in its group (`tree?_move_cases`).
  - The dropped edges are reported and gone, and all others stay in order (`carried_departed`,
    `not_mem_of_severed`); those of other nodes as they are (`filter_touches_move`).
  - The names of the exports are those from before and those reported as created, without those
    reported as pruned. What is created has a new name and stays, what is pruned had an old one
    (`mem_exportNames_of_pruned`), and the exports of other nodes stay as they are.
-/

import Regroup.Proofs.Consistency

namespace Regroup

variable {origin destination : Address}

/-! ## Edges -/

namespace Edge

/-- The move drops the edge: an ordering whose ends come to lie in different groups. -/
def Severed (origin destination : Address) (e : Edge) : Prop :=
  e.touches origin = true ∧ e.kind = .structural ∧ e.Apart origin destination

instance (origin destination : Address) (e : Edge) : Decidable (e.Severed origin destination) :=
  inferInstanceAs (Decidable (_ ∧ _ ∧ (_ ≠ _)))

/-- The edge `e'` is `e` with its ends where they are after the move. Its kind is the same, unless
    it is reported as converted or restored. -/
structure Carried (origin destination : Address) (r : Relocation) (e e' : Edge) : Prop where
  source : e'.source = e.source.moved origin destination
  target : e'.target = e.target.moved origin destination
  attr : e'.attr = e.attr
  kind : e'.kind = e.kind ∨ e' ∈ r.converted ∨ e' ∈ r.restored
  untouched : e.touches origin = false → e' = e

theorem dropped?_eq (e : Edge) : (e.fate origin destination).dropped? =
    if e.Severed origin destination then some (e.moved origin destination) else none := by
  split
  · rename_i h
    exact dropped?_fate.mpr ⟨h.1, h.2.1, h.2.2, rfl⟩
  · rename_i h
    rw [Option.eq_none_iff_forall_ne_some]
    intro e' he'
    obtain ⟨ht, hk, ha, _⟩ := dropped?_fate.mp he'
    exact h ⟨ht, hk, ha⟩

theorem remaining?_eq_none_iff {e : Edge} : (e.fate origin destination).remaining? = none ↔ e.Severed origin destination := by
  have hdropped : (e.fate origin destination).dropped? =
      if e.Severed origin destination then some (e.moved origin destination) else none := dropped?_eq e
  cases hf : e.fate origin destination <;> simp_all [Fate.remaining?, Fate.dropped?]

theorem touches_moved {e : Edge} (hs : e.source ≠ destination) (ht : e.target ≠ destination) {e' : Edge}
    (hsource : e'.source = e.source.moved origin destination) (htarget : e'.target = e.target.moved origin destination) :
    e'.touches destination = e.touches origin := by
  rw [Bool.eq_iff_iff, touches_iff, touches_iff, hsource, htarget, Address.moved_eq_destination hs,
    Address.moved_eq_destination ht]

end Edge

/-- A tree that does not use a name has nothing to rename. -/
theorem Tree.rename_of_not_names {tree : Tree} {old : String} (h : ¬tree.Names old) (new : String) :
    (tree.rename old new).result = tree := by
  refine redirectAs_unchanged ((changed_redirectAs tree).trans (List.countP_eq_zero.mpr fun r hr => ?_))
  rw [decide_eq_true_eq, not_not]
  exact Reference.answer_renamed_of_ne fun ht => h ⟨r, hr, ht⟩

namespace Store

variable {s s' : Store} {a : Address}

theorem carried_of_remaining? {e e' : Edge} (he : e ∈ s.edges) (h : (e.fate origin destination).remaining? = some e') :
    e.Carried origin destination (s.departed origin destination).report e' := by
  obtain ⟨hsource, htarget, hattr, _⟩ := Edge.remaining?_fate h
  refine ⟨hsource, htarget, hattr, ?_, fun ht => ?_⟩
  · rcases e.fate_cases origin destination with
      ⟨_, hf⟩ | ⟨_, _, _, hf⟩ | ⟨_, _, hf⟩ | ⟨ht, hk, ha, hf⟩ | ⟨ht, hk, ha, hf⟩ <;> rw [hf] at h <;> cases h
    · exact Or.inl rfl
    · exact Or.inl rfl
    · exact Or.inr (Or.inl (mem_report_converted.mpr ⟨e, he, ht, hk, ha, rfl⟩))
    · exact Or.inr (Or.inr (mem_report_restored.mpr ⟨e, he, ht, hk, ha, rfl⟩))
  · rw [Edge.fate, ht] at h
    exact (Option.some.inj h).symm

/-- The edges that stay follow one another as before. -/
theorem forall₂_carried {es : List Edge} (hes : ∀ e ∈ es, e ∈ s.edges) :
    List.Forall₂ (Edge.Carried origin destination (s.departed origin destination).report)
      (es.filter fun e => !decide (e.Severed origin destination))
      ((es.map (Edge.fate origin destination)).filterMap Fate.remaining?) := by
  induction es with
  | nil => exact .nil
  | cons e es ih =>
    rw [List.forall_mem_cons] at hes
    rw [List.map_cons]
    rcases hr : (e.fate origin destination).remaining? with _ | e'
    · have hsevered := Edge.remaining?_eq_none_iff.mp hr
      rw [List.filterMap_cons_none hr, List.filter_cons_of_neg (by simpa using hsevered)]
      exact ih hes.2
    · have hsevered : ¬e.Severed origin destination := by
        rw [← Edge.remaining?_eq_none_iff, hr]
        exact Option.some_ne_none e'
      rw [List.filterMap_cons_some hr, List.filter_cons_of_pos (by simpa using hsevered)]
      exact .cons (carried_of_remaining? hes.1 hr) (ih hes.2)

theorem carried_departed (s : Store) (origin destination : Address) :
    List.Forall₂ (Edge.Carried origin destination (s.departed origin destination).report)
      (s.edges.filter fun e => !decide (e.Severed origin destination)) (s.departed origin destination).store.edges :=
  forall₂_carried fun _ he => he

theorem dropped_departed (s : Store) (origin destination : Address) : (s.departed origin destination).report.dropped =
    (s.edges.filter fun e => decide (e.Severed origin destination)).map (·.moved origin destination) := by
  have hdropped : (s.departed origin destination).report.dropped =
      s.edges.filterMap fun e => (e.fate origin destination).dropped? := List.filterMap_map ..
  rw [hdropped]
  induction s.edges with
  | nil => rfl
  | cons e es ih =>
    by_cases h : e.Severed origin destination
    · rw [List.filterMap_cons_some (by rw [Edge.dropped?_eq, if_pos h]), ih, List.filter_cons_of_pos (by simpa using h),
        List.map_cons]
    · rw [List.filterMap_cons_none (by rw [Edge.dropped?_eq, if_neg h]), ih, List.filter_cons_of_neg (by simpa using h)]

section Ends

variable (hends : ∀ e ∈ s.edges, e.source ∈ s.ids ∧ e.target ∈ s.ids) (hd : destination ∉ s.ids)

include hends hd

/-- No other edge takes the place of a dropped one, and no ordering that is added does. -/
theorem not_mem_of_severed {e : Edge} (he : e ∈ s.edges) (h : e.Severed origin destination) :
    e.moved origin destination ∉ (s.move origin destination).store.edges := by
  have hinj : ∀ {e₁ : Edge}, e₁ ∈ s.edges → (e.moved origin destination).source = e₁.source.moved origin destination →
      (e.moved origin destination).target = e₁.target.moved origin destination →
      e.source = e₁.source ∧ e.target = e₁.target := by
    intro e₁ he₁ hsource htarget
    exact ⟨(Address.moved_inj (ne_of_mem_of_not_mem (hends e he).1 hd) (ne_of_mem_of_not_mem (hends e₁ he₁).1 hd)).mp hsource,
      (Address.moved_inj (ne_of_mem_of_not_mem (hends e he).2 hd) (ne_of_mem_of_not_mem (hends e₁ he₁).2 hd)).mp htarget⟩
  intro hin
  rcases mem_edges_move hin with ⟨e₁, he₁, hr⟩ | ⟨e₁, he₁, hwhole, heq⟩
  · obtain ⟨hsource, htarget, _, hkind⟩ := Edge.remaining?_fate hr
    obtain ⟨hs, ht⟩ := hinj he₁ hsource htarget
    obtain ⟨htouches, hapart⟩ := Edge.apart_congr origin destination hs ht
    -- An ordering between the same ends has the same fate.
    have hsame : e.kind = e₁.kind := by
      rcases hkind with ⟨hkind, _⟩ | ⟨hkind, _⟩ | ⟨hkind, _⟩
      · exact hkind
      · exact absurd (h.2.1.symm.trans hkind) (by decide)
      · exact absurd (hkind.symm.trans h.2.1) (EdgeKind.isLocal_ofAttr e₁.attr).ne.1
    have hsevered : e₁.Severed origin destination := ⟨htouches ▸ h.1, hsame ▸ h.2.1, hapart.mp h.2.2⟩
    rw [Edge.remaining?_eq_none_iff.mpr hsevered] at hr
    cases hr
  · obtain ⟨hs, ht⟩ := hinj he₁ (congrArg Edge.source heq) (congrArg Edge.target heq)
    exact hwhole ((Edge.apart_congr origin destination hs ht).2.mp h.2.2)

theorem filter_touches_of_carried {r : Relocation} {es es' : List Edge} (hes : ∀ e ∈ es, e ∈ s.edges)
    (h : List.Forall₂ (Edge.Carried origin destination r) es es') :
    es'.filter (!·.touches destination) = es.filter (!·.touches origin) := by
  induction h with
  | nil => rfl
  | @cons e e' es es' hcarried _ ih =>
    rw [List.forall_mem_cons] at hes
    have htouches := Edge.touches_moved (ne_of_mem_of_not_mem (hends e hes.1).1 hd)
      (ne_of_mem_of_not_mem (hends e hes.1).2 hd) hcarried.source hcarried.target
    rw [List.filter_cons, List.filter_cons, htouches, ih hes.2]
    cases ht : e.touches origin with
    | true => rfl
    | false => rw [hcarried.untouched ht]

/-- The edges of the other nodes stay as they are, and none is added to them. -/
theorem filter_touches_move : (s.move origin destination).store.edges.filter (!·.touches destination) =
    s.edges.filter (!·.touches origin) := by
  obtain ⟨added, hedges, hadded⟩ := edges_move s origin destination
  have hnone : added.filter (!·.touches destination) = [] := by
    refine List.filter_eq_nil_iff.mpr fun edge hedge => ?_
    obtain ⟨c, hc, rfl⟩ := hadded edge hedge
    obtain ⟨e, he, ht, _, _, rfl⟩ := mem_report_restored.mp hc
    have haway : (Edge.between (e.toReference origin destination).source (e.toReference origin destination).target
        .structural none).touches destination = e.touches origin :=
      Edge.touches_moved (ne_of_mem_of_not_mem (hends e he).1 hd) (ne_of_mem_of_not_mem (hends e he).2 hd) rfl rfl
    simp [haway, ht]
  have hkept : ∀ e : Edge, (!e.touches origin && !decide (e.Severed origin destination)) = !e.touches origin := by
    intro e
    by_cases ht : e.touches origin = true <;> simp [Edge.Severed, ht]
  rw [hedges, List.filter_append, hnone, List.append_nil,
    filter_touches_of_carried hends hd (fun e he => (List.mem_filter.mp he).1) (carried_departed s origin destination),
    List.filter_filter]
  exact List.filter_congr fun e _ => hkept e

end Ends

/-! ## Trees -/

/-- What a tree that is not as before has undergone. -/
theorem tree?_move_cases (hd : destination ∉ s.ids) (ha : a ≠ destination) :
    (s.move origin destination).store.tree? (a.moved origin destination) = s.tree? a ∨
    (∃ e, (e ∈ (s.departed origin destination).report.converted ∨ e ∈ (s.departed origin destination).report.restored) ∧
      e.source = a.moved origin destination) ∨
    (origin.group = destination.group ∧ a.group = origin.group ∧ a ≠ origin ∧
      ∃ t, (s.restored origin destination).store.tree? a = some t ∧ t.Names origin.name) := by
  by_cases hend : ∃ e, (e ∈ (s.departed origin destination).report.converted ∨
      e ∈ (s.departed origin destination).report.restored) ∧ e.source = a.moved origin destination
  · exact Or.inr (Or.inl hend)
  have hrestored : (s.restored origin destination).store.tree? (a.moved origin destination) = s.tree? a := by
    rw [restored, Restoring.tree?_restoreAll_of_ne _ fun e he hsource => hend ⟨e, Or.inr he, hsource⟩]
    change (s.converted origin destination).store.tree? _ = _
    rw [converted, Underway.tree?_convertAll_of_ne _ _ fun e he hsource => hend ⟨e, Or.inl he, hsource⟩]
    exact tree?_departed hd ha
  have hpruned : (s.pruned origin destination).store.tree? (a.moved origin destination) = s.tree? a := by
    rw [pruned, Underway.tree?_pruneAll, hrestored]
  rw [move_eq]
  split
  · rename_i hgroup
    rw [Underway.tree?_renameIn, hpruned]
    split
    · rename_i hmember
      have hother : a ≠ origin := by
        rintro rfl
        exact hmember.2 (Address.moved_origin ..)
      rw [Address.moved_of_ne hother] at hmember hrestored
      rcases ht : s.tree? a with _ | t
      · exact Or.inl rfl
      · by_cases hnames : t.Names origin.name
        · exact Or.inr (Or.inr ⟨hgroup, hmember.1.trans hgroup.symm, hother, t, hrestored.trans ht, hnames⟩)
        · refine Or.inl ?_
          rw [Option.map_some, Tree.rename_of_not_names hnames]
    · exact Or.inl rfl
  · exact Or.inl hpruned

/-! ## Exports -/

/-- An export that was made in this move is not pruned by it: the edge it was made for uses it. -/
theorem mem_exportNames_of_pruned (hs : s.Consistent) {x : String} (hx : x ∈ (s.move origin destination).report.pruned) :
    x ∈ s.exportNames := by
  have hin := (exports_move_filter s origin destination).1 x hx
  rw [exportNames_converted, List.mem_append] at hin
  refine hin.resolve_right fun hcreated => ?_
  obtain ⟨made, hexports, hreport, hmade⟩ := exports_converted s origin destination
  rw [hreport] at hcreated
  obtain ⟨ex, hex, rfl⟩ := List.mem_map.mp hcreated
  obtain ⟨c, hc, hshows⟩ := hmade ex hex
  obtain ⟨e, he, ht, hk, ha, rfl⟩ := mem_report_converted.mp hc
  have hin : ex ∈ (s.converted origin destination).store.exports := hexports ▸ List.mem_append_right _ hex
  have hstays := mem_exports_move_of_edge hs.names hin (remaining_mem_move he (Edge.remaining?_toImport ht hk ha)) rfl hshows.exposes
  exact (mem_exports_move_iff.mp hstays).2 hx

/-! ## The whole move -/

/-- The store `s'` is `s` after a move that is reported as `r`, and nothing is changed that the
    report does not tell. -/
structure Accounted (s : Store) (origin destination : Address) (r : Relocation) (s' : Store) : Prop where
  nodes : s'.headers = s.headers.map fun header => (header.1.moved origin destination, header.2)
  trees : ∀ a ∈ s.ids, s'.tree? (a.moved origin destination) = s.tree? a ∨
    (∃ e, (e ∈ r.converted ∨ e ∈ r.restored) ∧ e.source = a.moved origin destination) ∨
    (origin.group = destination.group ∧ a.group = origin.group ∧ a ≠ origin ∧
      ∃ t, (s.restored origin destination).store.tree? a = some t ∧ t.Names origin.name)
  untouched : s'.edges.filter (!·.touches destination) = s.edges.filter (!·.touches origin)
  dropped : r.dropped = (s.edges.filter fun e => decide (e.Severed origin destination)).map (·.moved origin destination)
  gone : ∀ e ∈ r.dropped, e ∉ s'.edges
  carried : ∃ carried added, s'.edges = carried ++ added ∧
    List.Forall₂ (Edge.Carried origin destination r) (s.edges.filter fun e => !decide (e.Severed origin destination)) carried ∧
    ∀ edge ∈ added, ∃ e ∈ r.restored, edge = .between e.source e.target .structural none
  names : s'.exportNames = (s.exportNames ++ r.created).filter fun x => decide (x ∉ r.pruned)
  created : (s.exportNames ++ r.created).Nodup
  pruned : ∀ x ∈ r.pruned, x ∈ s.exportNames
  exports : ∀ e ∈ s.exports, e.source ≠ origin → e.name ∈ s'.exportNames → s'.export? e.name = some e

theorem Consistent.accounted_move (hs : s.Consistent) (hd : destination ∉ s.ids) :
    s.Accounted origin destination (s.move origin destination).report (s.move origin destination).store := by
  have hconverted : (s.move origin destination).report.converted = (s.departed origin destination).report.converted := by
    rw [← report_move]
  have hrestored : (s.move origin destination).report.restored = (s.departed origin destination).report.restored := by
    rw [← report_move]
  have hdropped : (s.move origin destination).report.dropped =
      (s.edges.filter fun e => decide (e.Severed origin destination)).map (·.moved origin destination) :=
    (congrArg Relocation.dropped (report_move s origin destination)).trans (dropped_departed s origin destination)
  have hnames : (s.move origin destination).store.exportNames =
      (s.exportNames ++ (s.move origin destination).report.created).filter
        fun x => decide (x ∉ (s.move origin destination).report.pruned) := by
    rw [← exportNames_converted, exportNames, (exports_move_filter s origin destination).2, exportNames, List.filter_map]
    rfl
  constructor
  case nodes => exact headers_move s origin destination
  case trees =>
    intro a ha
    rw [hconverted, hrestored]
    exact tree?_move_cases hd (ne_of_mem_of_not_mem ha hd)
  case untouched => exact filter_touches_move hs.ends hd
  case dropped => exact hdropped
  case gone =>
    rw [hdropped]
    intro e' he'
    obtain ⟨e, he, rfl⟩ := List.mem_map.mp he'
    rw [List.mem_filter, decide_eq_true_eq] at he
    exact not_mem_of_severed hs.ends hd he.1 he.2
  case carried =>
    obtain ⟨added, hedges, hadded⟩ := edges_move s origin destination
    refine ⟨_, added, hedges, ?_, hrestored ▸ hadded⟩
    refine (carried_departed s origin destination).imp fun e e' he => ⟨he.source, he.target, he.attr, ?_, he.untouched⟩
    rw [hconverted, hrestored]
    exact he.kind
  case names => exact hnames
  case created =>
    rw [← exportNames_converted]
    exact nodup_exportNames_converted hs.names
  case pruned => exact fun x hx => mem_exportNames_of_pruned hs hx
  case exports =>
    intro e he hsource hname
    obtain ⟨made, hexports, _⟩ := exports_converted s origin destination
    rw [hnames, List.mem_filter, decide_eq_true_eq] at hname
    refine export?_of_mem (nodup_exportNames_move hs.names) (mem_exports_move_iff.mpr ⟨?_, hname.2⟩)
    rw [hexports]
    exact List.mem_append_left _ (mem_rekeyExportList he hsource _ _)

/-- A relocation changes nothing but what it reports, and everything that it reports. -/
theorem accounted_relocate {r : Relocation} (hs : s.Consistent) (hne : origin ≠ destination)
    (h : s.relocate origin destination = .ok (r, s')) : s.Accounted origin destination r s' := by
  rcases relocate_eq_ok h with ⟨heq, _⟩ | ⟨_, _, hd, rfl, rfl⟩
  · exact absurd heq hne
  · exact hs.accounted_move hd

/-- A queue after a topic it refers to, and a reader in another group that imports the queue. -/
def queueStore : Store where
  nodes := [.new ⟨"a", "Topic"⟩ "topic", { Node.new ⟨"a", "Queue"⟩ "queue" with properties := (Reference.node "Topic").construct },
    { Node.new ⟨"b", "Reader"⟩ "reader" with properties := (Reference.imported "queue").construct }]
  edges := [.between ⟨"a", "Queue"⟩ ⟨"a", "Topic"⟩ .structural none, .between ⟨"a", "Queue"⟩ ⟨"a", "Topic"⟩ .value none,
    .between ⟨"b", "Reader"⟩ ⟨"a", "Queue"⟩ .imported none]
  exports := [⟨"queue", ⟨"a", "Queue"⟩, some "QueueRef", none⟩]

/-- The queue joins its reader: an ordering goes, a reference is converted to the import of a new
    export, and an import is restored, whose export goes. -/
theorem accounted_relocate_queue : ∃ r s', queueStore.relocate ⟨"a", "Queue"⟩ ⟨"b", "Queue"⟩ = .ok (r, s') ∧
    r.dropped.length = 1 ∧ r.converted.length = 1 ∧ r.restored.length = 1 ∧ r.created.length = 1 ∧ r.pruned = ["queue"] ∧
    queueStore.Accounted ⟨"a", "Queue"⟩ ⟨"b", "Queue"⟩ r s' := by
  have hs : queueStore.Consistent := by decide
  exact ⟨_, _, rfl, by decide, by decide, by decide, by decide, by decide, @accounted_relocate _ _ queueStore _ _ hs (by decide) rfl⟩

end Store

end Regroup
