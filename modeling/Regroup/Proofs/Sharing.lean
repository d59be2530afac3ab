/-
  Regroup.Proofs.Sharing — one export for each imported value.

  A conversion makes no second export for a value that has one, and what an edge still imports is
  not pruned. So in a `Shared` store each import has exactly one export of its value, and moves
  keep a store shared (`Shared.move`). A store in which no edge leads to another group is shared
  to begin with (`Consistent.shared`), so that each import which moves make of its edges has one
  export and never two (`length_exposing_relocateAll`).
-/

import Regroup.Proofs.Consistency
import Regroup.Proofs.Transit

namespace Regroup

variable {origin destination : Address}

namespace Export

/-- What the export publishes. -/
def shown (e : Export) : Address × Exposure := (e.source, e.exposure)

theorem exposes_iff {e : Export} {id : Address} {attr : Option String} :
    e.exposes id attr = true ↔ e.shown = (id, .ofAttr attr) := by
  simp [exposes, shown]

/-- An export shows the same of its source after the move. -/
theorem Shows.exposes_follows {e e' : Export} {attr attr' : Option String} {id : Address} (h : e.Shows attr)
    (hf : e.Follows origin destination e') (he : e.exposes id attr' = true) :
    e'.exposes (id.moved origin destination) attr' = true := by
  rw [exposes_iff, shown, Prod.mk.injEq] at he ⊢
  rw [(h.follows hf).exposure, ← h.exposure, hf.source, he.1]
  exact ⟨rfl, he.2⟩

end Export

namespace Store

variable {s s' : Store}

/-! ## Showings -/

/-- What the exports publish, in order. -/
def showings (s : Store) : List (Address × Exposure) := s.exports.map Export.shown

theorem nodup_showings_materialize (h : s.showings.Nodup) (target : Address) (attr : Option String) :
    (s.materialize target attr).2.2.showings.Nodup := by
  rcases s.materialize_cases target attr with ⟨_, _, hm⟩ | ⟨hnone, e, hmade, _, hm⟩
  · rw [hm]
    exact h
  · rw [hm, showings, List.map_append, List.map_singleton, ← List.concat_eq_append]
    refine h.concat fun hin => ?_
    rw [Export.exposes_iff.mp hmade.exposes] at hin
    obtain ⟨e', he', hshown⟩ := List.mem_map.mp hin
    exact List.find?_eq_none.mp hnone e' he' (Export.exposes_iff.mpr hshown)

/-- Where no value has two exports, every export is found by what it shows. -/
theorem exportOf?_of_mem (h : s.showings.Nodup) {ex : Export} (hex : ex ∈ s.exports) {id : Address} {attr : Option String}
    (hshown : ex.exposes id attr = true) : s.exportOf? id attr = some ex := by
  have hsome : (s.exportOf? id attr).isSome := List.find?_isSome.mpr ⟨ex, hex, hshown⟩
  obtain ⟨found, hf⟩ := Option.isSome_iff_exists.mp hsome
  obtain ⟨hmem, hsource, hexposure⟩ := mem_of_exportOf? hf
  have hsame : found.shown = ex.shown := (Prod.ext hsource hexposure).trans (Export.exposes_iff.mp hshown).symm
  rw [hf, List.inj_on_of_nodup_map h hmem hex hsame]

/-! ## Shared stores -/

/-- No value has two exports, and what is imported has one. -/
structure Shared (s : Store) : Prop extends Consistent s where
  shows : ∀ e ∈ s.exports, ∃ attr, e.Shows attr
  distinct : s.showings.Nodup
  imported : ∀ e ∈ s.edges, e.kind = .imported →
    e.source.group ≠ e.target.group ∧ ∃ ex ∈ s.exports, ex.exposes e.target e.attr = true

/-- The export of a value is the only one. -/
theorem Shared.length_exposing (hs : s.Shared) {ex : Export} (hex : ex ∈ s.exports) {id : Address} {attr : Option String}
    (h : ex.exposes id attr = true) : (s.exports.filter (·.exposes id attr)).length = 1 := by
  have hsame : ∀ e, e ∈ s.exports.filter (·.exposes id attr) ↔ e ∈ [ex] := by
    intro e
    rw [List.mem_filter, List.mem_singleton]
    constructor
    · rintro ⟨he, hshown⟩
      exact List.inj_on_of_nodup_map hs.distinct he hex
        ((Export.exposes_iff.mp hshown).trans (Export.exposes_iff.mp h).symm)
    · rintro rfl
      exact ⟨hex, h⟩
  have hnodup : (s.exports.filter (·.exposes id attr)).Nodup := (List.Nodup.of_map _ hs.distinct).filter _
  exact ((List.perm_ext_iff_of_nodup hnodup (List.nodup_singleton ex)).mpr hsame).length_eq

section Move

variable (hs : s.Shared) (hd : destination ∉ s.ids)

include hs

theorem Shared.shows_converted : ∀ e ∈ (s.converted origin destination).store.exports, ∃ attr, e.Shows attr := by
  intro e' he'
  rcases mem_exports_converted he' with ⟨e, he, hf⟩ | ⟨_, _, _, _, _, hm⟩
  · obtain ⟨attr, hattr⟩ := hs.shows e he
    exact ⟨attr, hattr.follows hf⟩
  · exact ⟨_, hm.shows⟩

include hd

theorem Shared.distinct_converted : (s.converted origin destination).store.showings.Nodup := by
  refine Underway.exports_convertAll_induction (P := fun es => (es.map Export.shown).Nodup) _ _
    (fun _ target attr h => nodup_showings_materialize h target attr) ?_
  -- The exports that follow their sources show the same of them.
  have hfollow : ∀ {es es' : List Export}, List.Forall₂ (Export.Follows origin destination) es es' →
      (∀ e ∈ es, e ∈ s.exports) →
      es'.map Export.shown = (es.map Export.shown).map fun shown => (shown.1.moved origin destination, shown.2) := by
    intro es es' h hmem
    induction h with
    | nil => rfl
    | @cons e e' es es' hf _ ih =>
      rw [List.forall_mem_cons] at hmem
      obtain ⟨attr, hattr⟩ := hs.shows e hmem.1
      rw [List.map_cons, List.map_cons, List.map_cons, ih hmem.2, Export.shown, Export.shown, hf.source,
        (hattr.follows hf).exposure, hattr.exposure]
  rw [hfollow (exports_departed s origin destination) fun _ he => he]
  refine (List.nodup_map_iff_inj_on hs.distinct).mpr fun shown hin other hother heq => ?_
  obtain ⟨e, he, rfl⟩ := List.mem_map.mp hin
  obtain ⟨e', he', rfl⟩ := List.mem_map.mp hother
  rw [Prod.mk.injEq] at heq
  have hsource := (Address.moved_inj (ne_of_mem_of_not_mem (hs.sources e he) hd)
    (ne_of_mem_of_not_mem (hs.sources e' he') hd)).mp heq.1
  exact Prod.ext hsource heq.2

omit hd in
/-- An import after a move was one that stays apart, or a reference that was torn apart. -/
theorem Shared.imported_move {e' : Edge} (he' : e' ∈ (s.move origin destination).store.edges) (hk : e'.kind = .imported) :
    e'.source.group ≠ e'.target.group ∧ ∃ ex ∈ (s.converted origin destination).store.exports,
      ex.exposes e'.target e'.attr = true := by
  rcases mem_edges_move he' with ⟨e, he, hr⟩ | ⟨_, _, _, rfl⟩
  · obtain ⟨hsource, htarget, hattr, hfate⟩ := Edge.remaining?_fate hr
    rw [hsource, htarget, hattr]
    rcases hfate with ⟨hkind, _, hapart⟩ | ⟨_, ht, hl, hap⟩ | ⟨hkind, _⟩
    · obtain ⟨hgroup, ex, hex, hshown⟩ := hs.imported e he (hkind ▸ hk)
      obtain ⟨_, hshows⟩ := hs.shows ex hex
      obtain ⟨ex', hex', hf⟩ := exists_follower_converted origin destination hex
      refine ⟨?_, ex', hex', hshows.exposes_follows hf hshown⟩
      cases ht : e.touches origin with
      | true => exact hapart ht (hkind ▸ hk)
      | false =>
        have hstay := Edge.moved_of_not_touches ht destination
        rw [← hstay] at hgroup
        exact hgroup
    · have hconverted := mem_report_converted.mpr ⟨e, he, ht, hl, hap, rfl⟩
      obtain ⟨ex, hex⟩ := Underway.exists_exportOf?_convertAll _ (s.departed origin destination) hconverted
      obtain ⟨hmem, hexsource, hexposure⟩ := mem_of_exportOf? hex
      exact ⟨hap, ex, hmem, Export.exposes_iff.mpr (Prod.ext hexsource hexposure)⟩
    · exact absurd (hkind.symm.trans hk) (EdgeKind.isLocal_ofAttr e.attr).ne.2
  · cases hk

theorem Shared.move : (s.move origin destination).store.Shared := by
  refine ⟨hs.toConsistent.move hd, fun e he => hs.shows_converted e (mem_exports_move_iff.mp he).1, ?_, fun e' he' hk => ?_⟩
  · exact ((exports_move s origin destination).1.map _).nodup (hs.distinct_converted hd)
  · obtain ⟨hgroup, ex, hex, hshown⟩ := hs.imported_move he' hk
    exact ⟨hgroup, ex, mem_exports_move_of_edge hs.names hex he' hk hshown, hshown⟩

end Move

/-! ## Runs -/

theorem Shared.relocateAll (hs : s.Shared) {moves : List (Address × Address)} (h : s.relocateAll moves = .ok s') :
    s'.Shared := relocateAll_induction h (fun hd hs => hs.move hd) hs

/-- Nothing is published, and no edge leads to another group. -/
structure Unlinked (s : Store) : Prop where
  exports : s.exports = []
  edges : ∀ e ∈ s.edges, e.kind ≠ .imported ∧ e.source.group = e.target.group

theorem Consistent.shared (hs : s.Consistent) (hstart : s.Unlinked) : s.Shared := by
  have hnone : ∀ e, e ∉ s.exports := fun e he => by
    rw [hstart.exports] at he
    cases he
  refine ⟨hs, fun e he => absurd he (hnone e), ?_, fun e he hk => absurd hk (hstart.edges e he).1⟩
  rw [showings, hstart.exports]
  exact List.nodup_nil

/-- However the nodes of a store without exports are moved, each import leads to another group, and
    one export publishes what is imported, never none and never two. -/
theorem length_exposing_relocateAll {moves : List (Address × Address)} (hs : s.Consistent) (hstart : s.Unlinked)
    (h : s.relocateAll moves = .ok s') : ∀ e ∈ s'.edges, e.kind = .imported →
      e.source.group ≠ e.target.group ∧ (s'.exports.filter (·.exposes e.target e.attr)).length = 1 := by
  intro e he hk
  have hs' := (hs.shared hstart).relocateAll h
  obtain ⟨hgroup, ex, hex, hshown⟩ := hs'.imported e he hk
  exact ⟨hgroup, hs'.length_exposing hex hshown⟩

/-- A topic and two nodes that read one attribute of it. -/
def watchedStore : Store where
  nodes := ["Topic", "First", "Second"].map fun name => .new ⟨"a", name⟩ "node"
  edges := ["First", "Second"].map fun name => .between ⟨"a", name⟩ ⟨"a", "Topic"⟩ .attrOf (some "Arn")

/-- The readers leave the topic's group, and the topic gets another name. -/
def watchedMoves : List (Address × Address) :=
  [(⟨"a", "First"⟩, ⟨"b", "First"⟩), (⟨"a", "Second"⟩, ⟨"c", "Second"⟩), (⟨"a", "Topic"⟩, ⟨"a", "News"⟩)]

/-- Both of them import the attribute then, and use one export. -/
theorem length_exposing_relocateAll_watched : ∃ s', watchedStore.relocateAll watchedMoves = .ok s' ∧
    (s'.edges.filter (·.kind == .imported)).length = 2 ∧ ∀ e ∈ s'.edges, e.kind = .imported →
      e.source.group ≠ e.target.group ∧ (s'.exports.filter (·.exposes e.target e.attr)).length = 1 := by
  have hs : watchedStore.Consistent := by decide
  exact ⟨_, rfl, by decide, @length_exposing_relocateAll watchedStore _ watchedMoves hs ⟨rfl, by decide⟩ rfl⟩

end Store

end Regroup
