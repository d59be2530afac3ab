/-
  Regroup.Proofs.Grounded — what holds of every store that documents make and moves change.

  In a grounded store nothing is about a node that is not there, and a reference within a group
  stays in it. Documents make such stores (`Grounded.ingest`) and moves keep them so
  (`Grounded.move`). Since the ends of an edge are nodes, the edges say which references of
  a tree a move changes:
  - `conversionAt_cases`: a reference is converted when an edge that is torn apart stands for it.
  - `restorationAt_imported`: an import is restored when its edge comes to lie within a group.
-/

import Regroup.Proofs.Ingested
import Regroup.Proofs.Moves

namespace Regroup.Store

variable {s s' : Store} {origin destination a : Address}

structure Grounded (s : Store) : Prop where
  ids : s.ids.Nodup
  names : s.exportNames.Nodup
  ends : ∀ e ∈ s.edges, e.source ∈ s.ids ∧ e.target ∈ s.ids
  within : ∀ e ∈ s.edges, e.Within
  sources : ∀ e ∈ s.exports, e.source ∈ s.ids

theorem grounded_empty (naming : Naming) : Grounded { naming } :=
  ⟨List.nodup_nil, List.nodup_nil, by simp, by simp, by simp⟩

theorem Grounded.in_group (hs : s.Grounded) {e : Edge} (he : e ∈ s.edges) (hk : e.kind.IsLocal) :
    e.source.group = e.target.group := (hs.within e he).2 hk.ne.2

/-! ## Ingestion -/

theorem within_of_impliedEdge? {source : Address} {r : Reference} {e : Edge} (h : s.impliedEdge? source r = some e) :
    e.Within := by
  rcases impliedEdge?_cases h with ⟨_, _, _, _, rfl⟩ | ⟨_, attr, _, _, _, rfl⟩
  · exact ⟨by simp [Edge.between], fun hi => absurd rfl hi⟩
  · exact ⟨by cases attr <;> simp [Edge.between, EdgeKind.ofAttr], fun _ => rfl⟩

theorem within_of_mem_documentEdges {d : Document} {e : Edge} (h : e ∈ s.documentEdges d) : e.Within := by
  obtain ⟨⟨name, resource⟩, _, he⟩ := List.mem_flatMap.mp h
  rcases mem_declaredEdges.mp he with ⟨_, _, rfl⟩ | ⟨r, _, hr⟩
  · exact ⟨by simp [Edge.between], fun _ => rfl⟩
  · exact within_of_impliedEdge? hr

section Ingest

variable (hids : s.ids.Nodup) {documents : List Document} (h : s.ingest documents = .ok s')

include hids h

theorem ids_ingest : s'.ids = s.ids ++ (documents.flatMap Document.nodes).map (·.id) := by
  obtain ⟨_, _, rfl⟩ := (ingest_eq_ok_iff hids documents).mp h
  exact ids_published s documents

theorem nodup_ids_ingest : s'.ids.Nodup := by
  obtain ⟨hnodup, _, rfl⟩ := (ingest_eq_ok_iff hids documents).mp h
  exact hnodup

theorem nodup_exportNames_ingest (hnames : s.exportNames.Nodup) : s'.exportNames.Nodup := by
  obtain ⟨_, _, rfl⟩ := (ingest_eq_ok_iff hids documents).mp h
  exact nodup_names_putAll hnames

/-- The edges stay, and those that the documents declare come behind them. -/
theorem mem_edges_ingested {e : Edge} : e ∈ s'.edges ↔
    e ∈ s.edges ∨ ∃ d ∈ documents, e ∈ (s.published documents).documentEdges d := by
  obtain ⟨_, _, rfl⟩ := (ingest_eq_ok_iff hids documents).mp h
  rw [ingested, List.mem_append, List.mem_flatMap]

theorem ends_ingest (hends : ∀ e ∈ s.edges, e.source ∈ s.ids ∧ e.target ∈ s.ids) :
    ∀ e ∈ s'.edges, e.source ∈ s'.ids ∧ e.target ∈ s'.ids := by
  intro e he
  have hids' := ids_ingest hids h
  obtain ⟨_, hdeclared, rfl⟩ := (ingest_eq_ok_iff hids documents).mp h
  rcases List.mem_append.mp he with he | he
  · rw [hids']
    exact ⟨List.mem_append_left _ (hends e he).1, List.mem_append_left _ (hends e he).2⟩
  · exact ⟨has_iff.mp (hdeclared e he).1, has_iff.mp (hdeclared e he).2⟩

theorem sources_ingest (hsources : ∀ e ∈ s.exports, e.source ∈ s.ids) : ∀ e ∈ s'.exports, e.source ∈ s'.ids := by
  intro e he
  have hids' := ids_ingest hids h
  obtain ⟨_, _, rfl⟩ := (ingest_eq_ok_iff hids documents).mp h
  rcases mem_putAll he with he | he
  · rw [hids']
    exact List.mem_append_left _ (hsources e he)
  · obtain ⟨d, _, he⟩ := List.mem_flatMap.mp he
    obtain ⟨_, _, _, source, _, hsource, he⟩ := mem_exports.mp he
    rw [he]
    exact has_iff.mp (has_of_publisher? hsource).1

end Ingest

theorem Grounded.ingest (hs : s.Grounded) {documents : List Document} (h : s.ingest documents = .ok s') : s'.Grounded := by
  refine ⟨nodup_ids_ingest hs.ids h, nodup_exportNames_ingest hs.ids h hs.names, ends_ingest hs.ids h hs.ends, ?_,
    sources_ingest hs.ids h hs.sources⟩
  intro e he
  rcases (mem_edges_ingested hs.ids h).mp he with he | ⟨d, _, he⟩
  · exact hs.within e he
  · exact within_of_mem_documentEdges he

/-- The store after the documents of each batch in turn. -/
def ingestAll (s : Store) (batches : List (List Document)) : Except StoreError Store := batches.foldlM ingest s

theorem Grounded.ingestAll (hs : s.Grounded) {batches : List (List Document)} (h : s.ingestAll batches = .ok s') :
    s'.Grounded := by
  induction batches generalizing s with
  | nil =>
    cases h
    exact hs
  | cons documents batches ih =>
    rw [Store.ingestAll, List.foldlM_cons] at h
    rcases hfirst : s.ingest documents with _ | s₁
    · rw [hfirst] at h
      cases h
    · rw [hfirst] at h
      exact ih (hs.ingest hfirst) h

/-! ## Moves -/

/-- Before pruning an export has followed its source, or was made for a converted edge. -/
theorem mem_exports_converted {e' : Export} (h : e' ∈ (s.converted origin destination).store.exports) :
    (∃ e ∈ s.exports, e.Follows origin destination e') ∨
    (∃ e ∈ s.edges, e.touches origin = true ∧ e.kind.IsLocal ∧ e.Apart origin destination ∧
      IsMade (e.target.moved origin destination) e.attr e') := by
  obtain ⟨made, hexports, _, hmade⟩ := exports_converted s origin destination
  rw [hexports] at h
  rcases List.mem_append.mp h with h | h
  · exact Or.inl (exists_followed h)
  · obtain ⟨edge, hedge, hm⟩ := hmade e' h
    obtain ⟨e, he, ht, hk, ha, rfl⟩ := mem_report_converted.mp hedge
    exact Or.inr ⟨e, he, ht, hk, ha, hm⟩

/-- A rename within the group tears no reference apart. -/
theorem Grounded.converted_eq_nil (hs : s.Grounded) (h : origin.group = destination.group) :
    (s.departed origin destination).report.converted = [] := by
  refine List.eq_nil_iff_forall_not_mem.mpr fun c hc => ?_
  obtain ⟨e, he, ht, hk, hap, _⟩ := mem_report_converted.mp hc
  exact ((Edge.apart_iff (hs.in_group he hk) ht).mp hap).2 h

/-- An export that follows its source is found under its name until exports are pruned. -/
theorem exists_follower_converted {e : Export} (origin destination : Address) (h : e ∈ s.exports) :
    ∃ e' ∈ (s.converted origin destination).store.exports, e.Follows origin destination e' := by
  obtain ⟨made, hexports, _, _⟩ := exports_converted s origin destination
  obtain ⟨e', he', hf⟩ := exists_follower origin destination h
  exact ⟨e', hexports ▸ List.mem_append_left _ he', hf⟩

/-- It stays unless it is pruned. -/
theorem exists_follower_move {origin destination : Address} {e : Export} (he : e ∈ s.exports)
    (hkept : e.name ∉ (s.move origin destination).report.pruned) :
    ∃ e' ∈ (s.move origin destination).store.exports, e.Follows origin destination e' := by
  obtain ⟨e', he', hf⟩ := exists_follower_converted origin destination he
  exact ⟨e', mem_exports_move_iff.mpr ⟨he', hf.name ▸ hkept⟩, hf⟩

/-- An edge after a move has had its fate, or is an ordering along an edge that was there. -/
theorem mem_edges_move {e' : Edge} (h : e' ∈ (s.move origin destination).store.edges) :
    (∃ e ∈ s.edges, (e.fate origin destination).remaining? = some e') ∨
    (∃ e ∈ s.edges, ¬e.Apart origin destination ∧
      e' = .between (e.source.moved origin destination) (e.target.moved origin destination) .structural none) := by
  obtain ⟨added, hedges, hadded⟩ := edges_move s origin destination
  rw [hedges] at h
  rcases List.mem_append.mp h with h | h
  · exact Or.inl (mem_edges_departed.mp h)
  · obtain ⟨edge, hedge, rfl⟩ := hadded e' h
    obtain ⟨e, he, _, _, hwhole, rfl⟩ := mem_report_restored.mp hedge
    exact Or.inr ⟨e, he, hwhole, rfl⟩

theorem remaining_mem_move {e e' : Edge} (h : e ∈ s.edges) (hr : (e.fate origin destination).remaining? = some e') :
    e' ∈ (s.move origin destination).store.edges := by
  obtain ⟨added, hedges, _⟩ := edges_move s origin destination
  rw [hedges]
  exact List.mem_append_left _ (mem_edges_departed.mpr ⟨e, h, hr⟩)

theorem mem_ids_move {id : Address} (h : id ∈ s.ids) (origin destination : Address) :
    id.moved origin destination ∈ (s.move origin destination).store.ids := by
  rw [ids_move]
  exact List.mem_map_of_mem h

theorem nodup_ids_move (hids : s.ids.Nodup) (hd : destination ∉ s.ids) : (s.move origin destination).store.ids.Nodup := by
  rw [ids_move]
  exact nodup_map_moved hids hd

section Move

variable (hends : ∀ e ∈ s.edges, e.source ∈ s.ids ∧ e.target ∈ s.ids)

include hends

theorem ends_move : ∀ e ∈ (s.move origin destination).store.edges,
    e.source ∈ (s.move origin destination).store.ids ∧ e.target ∈ (s.move origin destination).store.ids := by
  intro e' he'
  rcases mem_edges_move he' with ⟨e, he, hr⟩ | ⟨e, he, _, rfl⟩
  · obtain ⟨hsource, htarget, _⟩ := Edge.remaining?_fate hr
    rw [hsource, htarget]
    exact ⟨mem_ids_move (hends e he).1 _ _, mem_ids_move (hends e he).2 _ _⟩
  · exact ⟨mem_ids_move (hends e he).1 _ _, mem_ids_move (hends e he).2 _ _⟩

theorem sources_move (hsources : ∀ e ∈ s.exports, e.source ∈ s.ids) :
    ∀ e ∈ (s.move origin destination).store.exports, e.source ∈ (s.move origin destination).store.ids := by
  intro e' he'
  rcases mem_exports_converted ((exports_move s origin destination).1.subset he') with ⟨e, he, hf⟩ | ⟨e, he, _, _, _, hm⟩
  · rw [hf.source]
    exact mem_ids_move (hsources e he) _ _
  · rw [hm.1]
    exact mem_ids_move (hends e he).2 _ _

end Move

theorem Grounded.move (hs : s.Grounded) (hd : destination ∉ s.ids) : (s.move origin destination).store.Grounded := by
  refine ⟨nodup_ids_move hs.ids hd, nodup_exportNames_move hs.names, ends_move hs.ends, ?_, sources_move hs.ends hs.sources⟩
  intro e' he'
  rcases mem_edges_move he' with ⟨e, he, hr⟩ | ⟨e, _, hwhole, rfl⟩
  · exact (hs.within e he).remaining hr
  · exact ⟨by simp [Edge.between], fun _ => not_not.mp hwhole⟩

/-! ## Runs -/

/-- The store after each move in turn, as long as they succeed. -/
def relocateAll (s : Store) (moves : List (Address × Address)) : Except StoreError Store :=
  moves.foldlM (fun s move => (s.relocate move.1 move.2).map (·.2)) s

theorem relocateAll_cons {move : Address × Address} {moves : List (Address × Address)}
    (h : s.relocateAll (move :: moves) = .ok s') :
    ∃ r s₁, s.relocate move.1 move.2 = .ok (r, s₁) ∧ s₁.relocateAll moves = .ok s' := by
  rw [relocateAll, List.foldlM_cons] at h
  rcases hr : s.relocate move.1 move.2 with _ | ⟨r, s₁⟩
  · rw [hr] at h
    cases h
  · rw [hr] at h
    exact ⟨r, s₁, rfl, h⟩

/-- What every move to an empty address keeps holds after a run of them. -/
theorem relocateAll_induction {P : Store → Prop} {moves : List (Address × Address)} (h : s.relocateAll moves = .ok s')
    (hmove : ∀ {s : Store} {origin destination : Address}, destination ∉ s.ids → P s → P (s.move origin destination).store)
    (hs : P s) : P s' := by
  induction moves generalizing s with
  | nil =>
    cases h
    exact hs
  | cons move moves ih =>
    obtain ⟨r, s₁, hr, hrest⟩ := relocateAll_cons h
    refine ih hrest ?_
    rcases relocate_eq_ok hr with ⟨_, rfl, _⟩ | ⟨_, _, hd, _, rfl⟩
    · exact hs
    · exact hmove hd hs

/-! ## References -/

section References

variable (hs : s.Grounded) (hd : destination ∉ s.ids) (ha : a ∈ s.ids)

include hs hd

/-- A converted edge stands for the reference that the tree held before the move. -/
theorem Grounded.written_toImport {e : Edge} (he : e ∈ s.edges) :
    written origin destination (e.toImport origin destination) = .ofTarget e.target.name e.attr := by
  have htarget : (e.toImport origin destination).target = e.target.moved origin destination := rfl
  have hne : e.target ≠ destination := ne_of_mem_of_not_mem (hs.ends e he).2 hd
  simp only [written, Edge.writtenName, htarget, Address.moved_eq_destination hne]
  split
  · rename_i heq
    rw [heq]
    rfl
  · rename_i heq
    rw [Address.moved_of_ne heq]
    rfl

include ha

theorem Grounded.conversionAt_cases (r : Reference) :
    (s.conversionAt origin destination (a.moved origin destination) r = r ∧ ∀ e ∈ s.edges, e.source = a →
      e.touches origin = true → e.kind.IsLocal → e.Apart origin destination → Reference.ofTarget e.target.name e.attr ≠ r) ∨
    (∃ e ∈ s.edges, e.source = a ∧ e.touches origin = true ∧ e.kind.IsLocal ∧ e.Apart origin destination ∧
      Reference.ofTarget e.target.name e.attr = r ∧ ∃ ex ∈ (s.converted origin destination).store.exports,
        ex.source = e.target.moved origin destination ∧ ex.exposure = .ofAttr e.attr ∧
        s.conversionAt origin destination (a.moved origin destination) r = .imported ex.name) := by
  have hne : a ≠ destination := ne_of_mem_of_not_mem ha hd
  unfold conversionAt Underway.conversion
  split
  · rename_i c hc
    obtain ⟨e, he, ht, hk, hap, rfl⟩ := mem_report_converted.mp (List.mem_of_find?_eq_some hc)
    have hmatch := List.find?_some hc
    simp only [decide_eq_true_eq, hs.written_toImport hd he] at hmatch
    have hsource : e.source = a := (Address.moved_inj (ne_of_mem_of_not_mem (hs.ends e he).1 hd) hne).mp hmatch.1
    obtain ⟨ex, hex⟩ := Underway.exists_exportOf?_convertAll _ (s.departed origin destination)
      (List.mem_of_find?_eq_some hc)
    obtain ⟨hmem, hexsource, hexposure⟩ := mem_of_exportOf? hex
    refine Or.inr ⟨e, he, hsource, ht, hk, hap, hmatch.2, ex, hmem, hexsource, hexposure, ?_⟩
    rw [Underway.importOf, converted, hex]
    rfl
  · rename_i hnone
    refine Or.inl ⟨rfl, fun e he hsource ht hk hap hr => ?_⟩
    have hno := List.find?_eq_none.mp hnone (e.toImport origin destination) (mem_report_converted.mpr ⟨e, he, ht, hk, hap, rfl⟩)
    refine hno ?_
    rw [decide_eq_true_eq, hs.written_toImport hd he]
    exact ⟨congrArg (·.moved origin destination) hsource, hr⟩

omit hs hd ha in
theorem conversionAt_imported (s : Store) (origin destination a : Address) (x : String) :
    s.conversionAt origin destination a (.imported x) = .imported x := Underway.conversion_imported _ _ _ _

/-- An expression is inlined when an import edge comes to lie within a group. -/
theorem Grounded.inlines_iff {ex : Export} : s.Inlines origin destination (a.moved origin destination) ex ↔
    ∃ e ∈ s.edges, e.source = a ∧ e.target.moved origin destination = ex.source ∧ e.touches origin = true ∧
      e.kind = .imported ∧ ¬e.Apart origin destination := by
  constructor
  · intro h
    obtain ⟨c, hc, hsource, htarget⟩ := h
    obtain ⟨e, he, ht, hk, hap, rfl⟩ := mem_report_restored.mp hc
    have hsource : e.source = a :=
      (Address.moved_inj (ne_of_mem_of_not_mem (hs.ends e he).1 hd) (ne_of_mem_of_not_mem ha hd)).mp hsource
    exact ⟨e, he, hsource, htarget, ht, hk, hap⟩
  · intro h
    obtain ⟨e, he, hsource, htarget, ht, hk, hap⟩ := h
    exact ⟨e.toReference origin destination, mem_report_restored.mpr ⟨e, he, ht, hk, hap, rfl⟩,
      congrArg (·.moved origin destination) hsource, htarget⟩

omit hd ha in
theorem Grounded.restorationAt_imported {ex : Export} (h : ex ∈ (s.converted origin destination).store.exports) :
    (s.Inlines origin destination a ex ∧ s.restorationAt origin destination a (.imported ex.name) = ex.expression.scan) ∨
    (¬s.Inlines origin destination a ex ∧ s.restorationAt origin destination a (.imported ex.name) = [.imported ex.name]) := by
  rw [restorationAt, Restoring.restoration_of_exports (export?_of_mem (nodup_exportNames_converted hs.names) h)]
  split
  · rename_i hin
    exact Or.inl ⟨hin, rfl⟩
  · rename_i hno
    exact Or.inr ⟨hno, rfl⟩

end References

/-- Where the move leaves a reference in its group, it names its target as that is called then. -/
theorem renamingAt_ofTarget {t : Address} (ha : a ≠ destination) (hgroup : a.group = t.group) (hne : t ≠ a)
    (hnear : t = origin → (a.moved origin destination).group = destination.group) (attr : Option String) :
    renamingAt origin destination (a.moved origin destination) (.ofTarget t.name attr) =
      .ofTarget (t.moved origin destination).name attr := by
  unfold renamingAt
  by_cases ht : t = origin
  · have hstay : a.moved origin destination = a := Address.moved_of_ne fun h => hne (ht.trans h.symm)
    have hmember := hnear ht
    rw [hstay] at hmember ⊢
    rw [if_pos ⟨by rw [← hmember, hgroup, ht], hmember, ha⟩, Reference.answer_renamed_ofTarget, ht, if_pos rfl,
      Address.moved_origin]
  · rw [Address.moved_of_ne ht]
    split
    · rename_i hmember
      obtain ⟨hsame, hin, hother⟩ := hmember
      have hao : a ≠ origin := by
        intro h
        rw [h, Address.moved_origin] at hother
        exact hother rfl
      rw [Address.moved_of_ne hao] at hin
      have hname : t.name ≠ origin.name := fun h => ht (Address.ext (by rw [← hgroup, hin, hsame]) h)
      rw [Reference.answer_renamed_ofTarget, if_neg hname]
    · rfl

theorem restorationAt_of_local {r : Reference} (h : r.isImport = false) : s.restorationAt origin destination a r = [r] :=
  Restoring.restoration_of_local h

end Regroup.Store
