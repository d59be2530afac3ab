/-
  Regroup.Proofs.Orphans — exports that nothing imports any more.

  A tree imports only what an edge from its node imports (`Tended.backed`), so an export is pruned
  exactly when it may be idle and no edge imports it. What may be idle is what the restored edges
  yield: the exports that their trees import, or for a tree that imports none of the target's the
  export of one edge, the first of those between the same nodes. An export that is still unused
  then is left behind, so a move leaves no orphan exactly when it `Releases` what its restored
  edges used (`Tended.orphanFree_move_iff`, `orphanFreeAlong_relocateAll_iff`). Where no node refers
  to another in two ways every move does.
-/

import Regroup.Proofs.Consumers
import Regroup.Proofs.Sharing

namespace Regroup

namespace Store

variable {s s' : Store} {origin destination a : Address} {x : String}

/-- Every export is imported along an edge. -/
def OrphanFree (s : Store) : Prop := ∀ ex ∈ s.exports, ∃ e ∈ s.edges, e.kind = .imported ∧ ex.exposes e.target e.attr = true

instance (s : Store) : Decidable s.OrphanFree := inferInstanceAs (Decidable (∀ ex ∈ s.exports, ∃ e ∈ s.edges, _ ∧ _))

/-- A shared store whose trees import what the edges import. -/
structure Tended (s : Store) : Prop extends Shared s where
  backed : ∀ a x, s.Imports a x → ∃ ex ∈ s.exports, ex.name = x ∧
    ∃ e ∈ s.edges, e.kind = .imported ∧ e.source = a ∧ ex.exposes e.target e.attr = true

/-! ## Restored edges -/

/-- The first import that leads from one node to another. -/
def firstImport? (s : Store) (source target : Address) : Option Edge :=
  s.edges.find? fun e => e.kind = .imported ∧ e.source = source ∧ e.target = target

/-- The node at `source` yields the export when its imports of the export's source are restored: its
    tree imports it, or imports none of that source and the first edge is of what the export shows. -/
def Yields (s : Store) (source : Address) (ex : Export) : Prop :=
  s.Imports source ex.name ∨ (∀ other ∈ s.exports, other.source = ex.source → ¬s.Imports source other.name) ∧
    ∃ e, s.firstImport? source ex.source = some e ∧ ex.exposure = .ofAttr e.attr

/-- Every export that a restored edge used is still imported after the move, or is yielded. -/
def Releases (s : Store) (origin destination : Address) : Prop :=
  ∀ ex ∈ s.exports, (∃ e ∈ s.edges, e.Restored origin destination ∧ ex.exposes e.target e.attr = true) →
    (∃ e ∈ (s.move origin destination).store.edges, e.kind = .imported ∧
      e.target = ex.source.moved origin destination ∧ ex.exposure = .ofAttr e.attr) ∨
    ∃ c ∈ s.edges, c.Restored origin destination ∧ c.target = ex.source ∧ s.Yields c.source ex

theorem mem_of_firstImport? {source target : Address} {e : Edge} (h : s.firstImport? source target = some e) :
    e ∈ s.edges ∧ e.kind = .imported ∧ e.source = source ∧ e.target = target :=
  ⟨List.mem_of_find?_eq_some h, by simpa using List.find?_some h⟩

theorem exists_firstImport? {e : Edge} (he : e ∈ s.edges) (hk : e.kind = .imported) :
    ∃ first, s.firstImport? e.source e.target = some first :=
  Option.isSome_iff_exists.mp (List.find?_isSome.mpr ⟨e, he, by simp [hk]⟩)

theorem mem_report_restored_iff {e' : Edge} : e' ∈ (s.departed origin destination).report.restored ↔
    ∃ e ∈ s.edges, e.Restored origin destination ∧ e' = e.toReference origin destination := by
  rw [mem_report_restored]
  refine exists_congr fun e => and_congr_right fun _ => ?_
  exact ⟨fun ⟨ht, hk, ha, h⟩ => ⟨⟨ht, hk, ha⟩, h⟩, fun ⟨h, heq⟩ => ⟨h.touches, h.imported, h.near, heq⟩⟩

section Move

variable (hs : s.Tended) (hd : destination ∉ s.ids)

include hs in
/-- An export is found under its name until exports are pruned. -/
theorem Tended.export?_converted {ex : Export} (hex : ex ∈ (s.converted origin destination).store.exports) :
    (s.converted origin destination).store.export? ex.name = some ex :=
  export?_of_mem (nodup_exportNames_converted hs.names) hex

theorem imports_departed (ha : a ≠ destination) (hd : destination ∉ s.ids) :
    (s.departed origin destination).store.Imports (a.moved origin destination) x ↔ s.Imports a x := by
  rw [Imports, tree?_departed hd ha, Imports]

section Restored

variable {c : Edge} (hc : c ∈ s.edges) (hrestored : c.Restored origin destination)

include hs hd hc hrestored

/-- The first restored edge between two nodes was the first import between them. -/
theorem Tended.find?_restored : (s.departed origin destination).report.restored.find? (fun e =>
      e.source = c.source.moved origin destination ∧ e.target = c.target.moved origin destination) =
    (s.firstImport? c.source c.target).map (Edge.toReference origin destination) := by
  have hmoved : ∀ e ∈ s.edges, (((e.toReference origin destination).source = c.source.moved origin destination ∧
      (e.toReference origin destination).target = c.target.moved origin destination) ↔
        e.source = c.source ∧ e.target = c.target) := fun e he =>
    and_congr (Address.moved_inj (ne_of_mem_of_not_mem (hs.ends e he).1 hd) (ne_of_mem_of_not_mem (hs.ends c hc).1 hd))
      (Address.moved_inj (ne_of_mem_of_not_mem (hs.ends e he).2 hd) (ne_of_mem_of_not_mem (hs.ends c hc).2 hd))
  have hall : ∀ es : List Edge, (∀ e ∈ es, e ∈ s.edges) →
      ((es.map (Edge.fate origin destination)).filterMap Fate.restored?).find? (fun e =>
        e.source = c.source.moved origin destination ∧ e.target = c.target.moved origin destination) =
      (es.find? fun e => e.kind = .imported ∧ e.source = c.source ∧ e.target = c.target).map
        (Edge.toReference origin destination) := by
    intro es hes
    induction es with
    | nil => rfl
    | cons e es ih =>
      rw [List.forall_mem_cons] at hes
      have hsame := hmoved e hes.1
      by_cases hr : e.Restored origin destination
      · rw [List.map_cons, List.filterMap_cons_some (Edge.restored?_fate.mpr ⟨hr.touches, hr.imported, hr.near, rfl⟩)]
        by_cases heq : e.source = c.source ∧ e.target = c.target
        · rw [List.find?_cons_of_pos (by simpa using hsame.mpr heq),
            List.find?_cons_of_pos (by simpa [hr.imported] using heq)]
          rfl
        · rw [List.find?_cons_of_neg (by simpa using fun h => heq (hsame.mp h)),
            List.find?_cons_of_neg (by simpa [hr.imported] using heq)]
          exact ih hes.2
      · have hnone : (e.fate origin destination).restored? = none := by
          refine Option.eq_none_iff_forall_not_mem.mpr fun e' he' => hr ?_
          obtain ⟨ht, hk, ha, _⟩ := Edge.restored?_fate.mp he'
          exact ⟨ht, hk, ha⟩
        rw [List.map_cons, List.filterMap_cons_none hnone, List.find?_cons_of_neg]
        · exact ih hes.2
        · intro h
          obtain ⟨hk, hsource, htarget⟩ := of_decide_eq_true h
          exact hr (hrestored.congr hk hsource htarget)
  exact hall s.edges fun _ he => he

/-- No conversion adds an import between the nodes of a restored edge. -/
theorem Tended.imports_of_converted {ex : Export} (hex : ex ∈ (s.converted origin destination).store.exports)
    (hsource : ex.source = c.target.moved origin destination)
    (h : (s.converted origin destination).store.Imports (c.source.moved origin destination) ex.name) :
    s.Imports c.source ex.name := by
  rcases Underway.imports_convertAll _ h with h | ⟨e', he', hfrom, ex', hex', hname⟩
  · exact (imports_departed (ne_of_mem_of_not_mem (hs.ends c hc).1 hd) hd).mp h
  · obtain ⟨e, he, _, _, hap, rfl⟩ := mem_report_converted.mp he'
    obtain ⟨hmem, hto, _⟩ := mem_of_exportOf? hex'
    have hsame : ex' = ex := List.inj_on_of_nodup_map (nodup_exportNames_converted hs.names) hmem hex hname
    have htarget : (e.toImport origin destination).target = c.target.moved origin destination := by
      rw [← hsource, ← hsame, hto]
    have hsources := (Address.moved_inj (ne_of_mem_of_not_mem (hs.ends e he).1 hd)
      (ne_of_mem_of_not_mem (hs.ends c hc).1 hd)).mp hfrom.symm
    have htargets := (Address.moved_inj (ne_of_mem_of_not_mem (hs.ends e he).2 hd)
      (ne_of_mem_of_not_mem (hs.ends c hc).2 hd)).mp htarget
    exact absurd ((Edge.apart_congr origin destination hsources htargets).2.mp hap) hrestored.near

/-- What a restored edge consumes, said of the store before the move. -/
theorem Tended.mem_consumed_converted {ex : Export} (hex : ex ∈ s.exports) (attr : Option String) :
    ex.name ∈ (s.converted origin destination).store.consumed (c.source.moved origin destination)
        (c.target.moved origin destination) attr ↔
      c.target = ex.source ∧ (s.Imports c.source ex.name ∨
        (∀ other ∈ s.exports, other.source = ex.source → ¬s.Imports c.source other.name) ∧ ex.exposure = .ofAttr attr) := by
  obtain ⟨ex', hex', hf⟩ := exists_follower_converted origin destination hex
  have hfound : (s.converted origin destination).store.export? ex.name = some ex' := hf.name ▸ hs.export?_converted hex'
  have htarget : ex'.source = c.target.moved origin destination ↔ c.target = ex.source := by
    rw [hf.source, Address.moved_inj (ne_of_mem_of_not_mem (hs.sources ex hex) hd)
      (ne_of_mem_of_not_mem (hs.ends c hc).2 hd), eq_comm]
  have himports : ∀ {y}, s.Imports c.source y →
      (s.converted origin destination).store.Imports (c.source.moved origin destination) y := fun h =>
    Underway.imports_convertAll_of_imports _
      ((imports_departed (ne_of_mem_of_not_mem (hs.ends c hc).1 hd) hd).mpr h)
  obtain ⟨attr', hattr⟩ := hs.shows ex hex
  have hexposure : ex'.exposure = ex.exposure := (hattr.follows hf).exposure.trans hattr.exposure.symm
  rw [mem_consumed_iff]
  constructor
  · rintro (⟨himport, hsource⟩ | ⟨hno, ex₁, hex₁, hname⟩)
    · rw [hfound, Option.map_some, Option.some.injEq] at hsource
      have := hs.imports_of_converted hd hc hrestored hex' hsource (hf.name ▸ himport)
      exact ⟨htarget.mp hsource, Or.inl (hf.name ▸ this)⟩
    · obtain ⟨hmem, hsource, hshown⟩ := mem_of_exportOf? hex₁
      have hsame : ex₁ = ex' :=
        List.inj_on_of_nodup_map (nodup_exportNames_converted hs.names) hmem hex' (hname.trans hf.name.symm)
      rw [hsame] at hsource hshown
      refine ⟨htarget.mp hsource, Or.inr ⟨fun other hother hsources himport => ?_, hexposure ▸ hshown⟩⟩
      obtain ⟨other', hother', hfo⟩ := exists_follower_converted origin destination hother
      refine hno other.name (himports himport) ?_
      rw [← hfo.name, hs.export?_converted hother', Option.map_some, hfo.source, hsources, ← hsource, hf.source]
  · rintro ⟨hsource, himport | ⟨hno, hshown⟩⟩
    · exact Or.inl ⟨himports himport, by rw [hfound, Option.map_some, htarget.mpr hsource]⟩
    · refine Or.inr ⟨fun y himport hy => ?_, ex', ?_, hf.name⟩
      · obtain ⟨ey, hey, hysource⟩ := Option.map_eq_some_iff.mp hy
        obtain ⟨hmem, rfl⟩ := mem_of_export? hey
        have himport₀ := hs.imports_of_converted hd hc hrestored hmem hysource himport
        -- The tree imported it before the move, so that it was published then.
        obtain ⟨other, hother, hname, _⟩ := hs.backed _ _ himport₀
        obtain ⟨other', hother', hfo⟩ := exists_follower_converted origin destination hother
        have hsame : other' = ey :=
          List.inj_on_of_nodup_map (nodup_exportNames_converted hs.names) hother' hmem (hfo.name.trans hname)
        rw [← hsame, hfo.source, Address.moved_inj (ne_of_mem_of_not_mem (hs.sources other hother) hd)
          (ne_of_mem_of_not_mem (hs.ends c hc).2 hd)] at hysource
        exact hno other hother (hysource.trans hsource) (hname ▸ himport₀)
      · refine exportOf?_of_mem (hs.distinct_converted hd) hex' (Export.exposes_iff.mpr (Prod.ext ?_ ?_))
        · exact htarget.mpr hsource
        · exact hexposure.trans hshown

end Restored

include hs hd

/-- The exports that may be idle after a move are those that its restored edges yield. -/
theorem Tended.mem_idle_iff {ex : Export} (hex : ex ∈ s.exports) : ex.name ∈ (s.restored origin destination).idle ↔
    ∃ c ∈ s.edges, c.Restored origin destination ∧ c.target = ex.source ∧ s.Yields c.source ex := by
  have hsettled : Restoring.Settled { toUnderway := s.converted origin destination } :=
    fun p hp => absurd hp List.not_mem_nil
  rw [restored, hsettled.mem_idle_restoreAll (hs.shows_converted) (nodup_exportNames_converted hs.names)]
  constructor
  · rintro (h | ⟨c', hfirst, _, hconsumed⟩)
    · cases h
    · obtain ⟨c, hc, hrestored, rfl⟩ := mem_report_restored_iff.mp (List.mem_of_find?_eq_some hfirst)
      have hfound := hs.find?_restored hd hc hrestored
      obtain ⟨htarget, hyields⟩ := (hs.mem_consumed_converted hd hc hrestored hex _).mp hconsumed
      obtain ⟨first, hone, hsame⟩ := Option.map_eq_some_iff.mp (hfound.symm.trans hfirst)
      have hattr : (first.toReference origin destination).attr = (c.toReference origin destination).attr := by rw [hsame]
      refine ⟨c, hc, hrestored, htarget, hyields.imp_right fun h => ⟨h.1, first, htarget ▸ hone, ?_⟩⟩
      exact h.2.trans (congrArg Exposure.ofAttr hattr.symm)
  · rintro ⟨c, hc, hrestored, htarget, hyields⟩
    obtain ⟨first, hone⟩ := exists_firstImport? hc hrestored.imported
    obtain ⟨_, _, hsource, hto⟩ := mem_of_firstImport? hone
    have hfound := hs.find?_restored hd hc hrestored
    rw [hone, Option.map_some] at hfound
    refine Or.inr ⟨first.toReference origin destination, ?_, List.not_mem_nil, ?_⟩
    · change List.find? (fun e : Edge => e.source = first.source.moved origin destination ∧
        e.target = first.target.moved origin destination) _ = _
      rwa [hsource, hto]
    · change ex.name ∈ (s.converted origin destination).store.consumed (first.source.moved origin destination)
        (first.target.moved origin destination) first.attr
      rw [hsource, hto, hs.mem_consumed_converted hd hc hrestored hex]
      refine ⟨htarget, hyields.imp_right fun h => ⟨h.1, ?_⟩⟩
      obtain ⟨e, he, hshown⟩ := h.2
      rw [← htarget, hone, Option.some.injEq] at he
      rw [he]
      exact hshown

/-! ## Uses -/

/-- After the restoration a tree imports only what the edges import then. -/
theorem Tended.backed_restored {b : Address} (h : (s.restored origin destination).store.Imports b x) :
    ∃ ex ∈ (s.converted origin destination).store.exports, ex.name = x ∧
      ∃ e ∈ (s.move origin destination).store.edges, e.kind = .imported ∧ e.source = b ∧ ex.exposes e.target e.attr = true := by
  have hsettled : Restoring.Settled { toUnderway := s.converted origin destination } :=
    fun p hp => absurd hp List.not_mem_nil
  rw [restored, hsettled.imports_restoreAll hs.shows_converted (nodup_exportNames_converted hs.names)] at h
  obtain ⟨himport, hleft⟩ := h
  rcases Underway.imports_convertAll _ himport with himport | ⟨e', he', rfl, ex, hex, rfl⟩
  · -- The edge that backed the import was not restored with it.
    obtain ⟨t, ht, _⟩ := id himport
    have hb := mem_ids_of_tree? ht
    rw [ids_departed] at hb
    obtain ⟨a, ha, rfl⟩ := List.mem_map.mp hb
    rw [imports_departed (ne_of_mem_of_not_mem ha hd) hd] at himport
    obtain ⟨ex, hex, rfl, e, he, hk, hsource, hshown⟩ := hs.backed a x himport
    obtain ⟨_, hattr⟩ := hs.shows ex hex
    obtain ⟨ex', hex', hf⟩ := exists_follower_converted origin destination hex
    have hstay : ¬e.Restored origin destination := by
      intro hr
      refine hleft _ (mem_report_restored_iff.mpr ⟨e, he, hr, rfl⟩) (congrArg (·.moved origin destination) hsource.symm) ?_
      rw [← hf.name, hs.export?_converted hex', Option.map_some, hf.source, (Prod.mk.inj (Export.exposes_iff.mp hshown)).1]
      rfl
    obtain ⟨e', hfate, hk', hsource', htarget', hattr'⟩ := Edge.remaining_of_imported hk hstay
    refine ⟨ex', hex', hf.name, e', remaining_mem_move he hfate, hk', by rw [hsource', hsource], ?_⟩
    rw [htarget', hattr']
    exact hattr.exposes_follows hf hshown
  · obtain ⟨e, he, ht, hk, hap, rfl⟩ := mem_report_converted.mp he'
    obtain ⟨hmem, hsource, hexposure⟩ := mem_of_exportOf? hex
    exact ⟨ex, hmem, rfl, _, remaining_mem_move he (Edge.remaining?_toImport ht hk hap), rfl, rfl,
      Export.exposes_iff.mpr (Prod.ext hsource hexposure)⟩

/-- An export that may be idle stays exactly when an edge imports it: trees alone use none. -/
theorem Tended.mem_exports_move_iff {ex : Export} (hex : ex ∈ (s.converted origin destination).store.exports) :
    ex ∈ (s.move origin destination).store.exports ↔ (ex.name ∈ (s.restored origin destination).idle →
      ∃ e ∈ (s.move origin destination).store.edges, e.kind = .imported ∧ ex.exposes e.target e.attr = true) := by
  rw [mem_exports_move_iff_consumed hs.names, and_iff_right hex]
  refine forall_congr' fun _ => ?_
  rw [isConsumed, Bool.or_eq_true, List.any_eq_true, ← edges_move_eq]
  simp only [Bool.and_eq_true, beq_iff_eq]
  refine or_iff_left_of_imp fun h => ?_
  obtain ⟨node, hn, hin⟩ := List.any_eq_true.mp h
  have hids : (s.restored origin destination).store.ids.Nodup := by
    rw [ids_congr (headers_restored s origin destination), ids_departed]
    exact nodup_map_moved hs.ids hd
  obtain ⟨ex', hex', hname, e, he, hk, _, hshown⟩ := hs.backed_restored hd
    ⟨node.properties, tree?_of_mem hids hn, by simpa using hin⟩
  have hsame : ex' = ex := List.inj_on_of_nodup_map (nodup_exportNames_converted hs.names) hex' hex hname
  exact ⟨e, he, hk, hsame ▸ hshown⟩

omit hs hd in
theorem imports_move {b : Address} :
    (s.move origin destination).store.Imports b x ↔ (s.restored origin destination).store.Imports b x := by
  have hpruned : (s.pruned origin destination).store.Imports b x ↔ (s.restored origin destination).store.Imports b x :=
    imports_congr (Underway.tree?_pruneAll _ _ _)
  rw [move_eq, ← hpruned]
  split
  · rw [Imports, Underway.tree?_renameIn]
    split
    · simp [Imports, Tree.import_mem_rename]
    · rfl
  · rfl

theorem Tended.move : (s.move origin destination).store.Tended := by
  refine ⟨hs.toShared.move hd, fun b x h => ?_⟩
  obtain ⟨ex, hex, hname, e, he, hk, hsource, hshown⟩ := hs.backed_restored hd (imports_move.mp h)
  exact ⟨ex, mem_exports_move_of_edge hs.names hex he hk hshown, hname, e, he, hk, hsource, hshown⟩

/-- A move leaves no orphan exactly when it releases what its restored edges used. -/
theorem Tended.orphanFree_move_iff (hfree : s.OrphanFree) :
    (s.move origin destination).store.OrphanFree ↔ s.Releases origin destination := by
  constructor
  · intro h ex hex _
    obtain ⟨ex', hex', hf⟩ := exists_follower_converted origin destination hex
    by_cases hkept : ex' ∈ (s.move origin destination).store.exports
    · obtain ⟨e, he, hk, hshown⟩ := h ex' hkept
      obtain ⟨hsource, hexposure⟩ := Prod.mk.inj (Export.exposes_iff.mp hshown)
      obtain ⟨_, hattr⟩ := hs.shows ex hex
      refine Or.inl ⟨e, he, hk, hsource.symm.trans hf.source, ?_⟩
      rw [← hexposure, (hattr.follows hf).exposure, hattr.exposure]
    · rw [hs.mem_exports_move_iff hd hex', Classical.not_imp, hf.name] at hkept
      exact Or.inr ((hs.mem_idle_iff hd hex).mp hkept.1)
  · intro h ex' hex'
    have hconverted := (mem_exports_move_iff_consumed hs.names).mp hex' |>.1
    rcases mem_exports_converted hconverted with ⟨ex, hex, hf⟩ | ⟨e, he, ht, hk, hap, hm⟩
    · obtain ⟨e, he, hk, hshown⟩ := hfree ex hex
      obtain ⟨_, hattr⟩ := hs.shows ex hex
      by_cases hr : e.Restored origin destination
      · rcases h ex hex ⟨e, he, hr, hshown⟩ with ⟨e', he', hk', htarget, hexposure⟩ | hyields
        · refine ⟨e', he', hk', Export.exposes_iff.mpr (Prod.ext (hf.source.trans htarget.symm) ?_)⟩
          exact ((hattr.follows hf).exposure.trans hattr.exposure.symm).trans hexposure
        · refine (hs.mem_exports_move_iff hd hconverted).mp hex' ?_
          rw [hf.name]
          exact (hs.mem_idle_iff hd hex).mpr hyields
      · obtain ⟨e', hfate, hk', _, htarget, hattr'⟩ := Edge.remaining_of_imported hk hr
        refine ⟨e', remaining_mem_move he hfate, hk', ?_⟩
        rw [htarget, hattr']
        exact hattr.exposes_follows hf hshown
    · exact ⟨_, remaining_mem_move he (Edge.remaining?_toImport ht hk hap), rfl, hm.exposes⟩

end Move

theorem Tended.relocate (hs : s.Tended) {r : Relocation} (h : s.relocate origin destination = .ok (r, s')) : s'.Tended := by
  rcases relocate_eq_ok h with ⟨_, rfl, _⟩ | ⟨_, _, hd, _, rfl⟩
  · exact hs
  · exact hs.move hd

/-! ## One way to refer to a node -/

/-- No node refers to another in two ways. -/
def Unambiguous (s : Store) : Prop := ∀ e ∈ s.edges, ∀ e' ∈ s.edges, e.kind.isReference = true → e'.kind.isReference = true →
  e.source = e'.source → e.target = e'.target → e.attr = e'.attr

instance (s : Store) : Decidable s.Unambiguous :=
  inferInstanceAs (Decidable (∀ e ∈ s.edges, ∀ e' ∈ s.edges, _ → _ → _ → _ → _))

/-- A reference after a move was one before. -/
theorem exists_reference_move {e' : Edge} (he' : e' ∈ (s.move origin destination).store.edges)
    (hk : e'.kind.isReference = true) : ∃ e ∈ s.edges, e.kind.isReference = true ∧
      e'.source = e.source.moved origin destination ∧ e'.target = e.target.moved origin destination ∧ e'.attr = e.attr := by
  rcases mem_edges_move he' with ⟨e, he, hfate⟩ | ⟨_, _, _, rfl⟩
  · obtain ⟨hsource, htarget, hattr, hkind⟩ := Edge.remaining?_fate hfate
    refine ⟨e, he, ?_, hsource, htarget, hattr⟩
    rcases hkind with ⟨hsame, _⟩ | ⟨_, _, hl | hl, _⟩ | ⟨_, _, hi, _⟩
    · rwa [hsame] at hk
    · rw [hl]
      rfl
    · rw [hl]
      rfl
    · rw [hi]
      rfl
  · cases hk

theorem Unambiguous.move (h : s.Unambiguous) (hends : ∀ e ∈ s.edges, e.source ∈ s.ids ∧ e.target ∈ s.ids)
    (hd : destination ∉ s.ids) : (s.move origin destination).store.Unambiguous := by
  intro e₁ he₁ e₂ he₂ hk₁ hk₂ hsource htarget
  obtain ⟨e, he, hk, hsource₁, htarget₁, hattr₁⟩ := exists_reference_move he₁ hk₁
  obtain ⟨e', he', hk', hsource₂, htarget₂, hattr₂⟩ := exists_reference_move he₂ hk₂
  rw [hsource₁, hsource₂, Address.moved_inj (ne_of_mem_of_not_mem (hends e he).1 hd)
    (ne_of_mem_of_not_mem (hends e' he').1 hd)] at hsource
  rw [htarget₁, htarget₂, Address.moved_inj (ne_of_mem_of_not_mem (hends e he).2 hd)
    (ne_of_mem_of_not_mem (hends e' he').2 hd)] at htarget
  rw [hattr₁, hattr₂, h e he e' he' hk hk' hsource htarget]

/-- The restored edge yields what it used, by the tree or by itself. -/
theorem Tended.releases (hs : s.Tended) (h : s.Unambiguous) (origin destination : Address) : s.Releases origin destination := by
  intro ex hex hused
  obtain ⟨e, he, hr, hshown⟩ := hused
  obtain ⟨hsource, hexposure⟩ := Prod.mk.inj (Export.exposes_iff.mp hshown)
  refine Or.inr ⟨e, he, hr, hsource.symm, ?_⟩
  by_cases himport : s.Imports e.source ex.name
  · exact Or.inl himport
  refine Or.inr ⟨fun other hother hsame hin => himport ?_, ?_⟩
  · -- What the tree imports of the same source has an edge, which can only be of the same value.
    obtain ⟨ex', hex', hname, e', he', hk', hfrom, hshown'⟩ := hs.backed _ _ hin
    have heq : ex' = other := List.inj_on_of_nodup_map hs.names hex' hother hname
    obtain ⟨hsource', hexposure'⟩ := Prod.mk.inj (Export.exposes_iff.mp hshown')
    have htarget : e'.target = e.target := by rw [← hsource', heq, hsame, hsource]
    have hattr := h e' he' e he (by rw [hk']; rfl) (by rw [hr.imported]; rfl) hfrom htarget
    have : ex' = ex := List.inj_on_of_nodup_map hs.distinct hex' hex
      (Prod.ext (hsource'.trans (htarget.trans hsource.symm))
        ((hexposure'.trans (congrArg Exposure.ofAttr hattr)).trans hexposure.symm))
    rwa [← this, heq]
  · obtain ⟨first, hfirst⟩ := exists_firstImport? he hr.imported
    obtain ⟨hmem, hk, hfrom, hto⟩ := mem_of_firstImport? hfirst
    refine ⟨first, hsource ▸ hfirst, ?_⟩
    rw [h first hmem e he (by rw [hk]; rfl) (by rw [hr.imported]; rfl) hfrom hto]
    exact hexposure

/-! ## Runs -/

/-- No orphan is left at any point of the run. -/
def OrphanFreeAlong (s : Store) : List (Address × Address) → Prop
  | [] => s.OrphanFree
  | move :: moves => s.OrphanFree ∧ ∀ r s', s.relocate move.1 move.2 = .ok (r, s') → s'.OrphanFreeAlong moves

/-- Each move of the run releases what its restored edges used. -/
def ReleasesAll (s : Store) : List (Address × Address) → Prop
  | [] => True
  | move :: moves => ∀ r s', s.relocate move.1 move.2 = .ok (r, s') →
      (move.1 ≠ move.2 → s.Releases move.1 move.2) ∧ s'.ReleasesAll moves

theorem OrphanFreeAlong.first {moves : List (Address × Address)} (h : s.OrphanFreeAlong moves) : s.OrphanFree := by
  cases moves with
  | nil => exact h
  | cons => exact h.1

theorem OrphanFreeAlong.last {moves : List (Address × Address)} (h : s.OrphanFreeAlong moves)
    (hmoves : s.relocateAll moves = .ok s') : s'.OrphanFree := by
  induction moves generalizing s with
  | nil =>
    cases hmoves
    exact h
  | cons move moves ih =>
    obtain ⟨r, s₁, hr, hrest⟩ := relocateAll_cons hmoves
    exact ih (h.2 r s₁ hr) hrest

theorem Tended.orphanFreeAlong_iff (hs : s.Tended) (hfree : s.OrphanFree) {moves : List (Address × Address)} :
    s.OrphanFreeAlong moves ↔ s.ReleasesAll moves := by
  induction moves generalizing s with
  | nil => exact iff_of_true hfree trivial
  | cons move moves ih =>
    rw [OrphanFreeAlong, and_iff_right hfree]
    refine forall_congr' fun r => forall_congr' fun s₁ => forall_congr' fun hr => ?_
    rcases relocate_eq_ok hr with ⟨heq, rfl, _⟩ | ⟨hne, _, hd, _, rfl⟩
    · rw [ih hs hfree]
      exact (and_iff_right fun hne => absurd heq hne).symm
    · rw [← hs.orphanFree_move_iff hd hfree]
      constructor
      · exact fun h => ⟨fun _ => h.first, (ih (hs.move hd) h.first).mp h⟩
      · exact fun h => (ih (hs.move hd) (h.1 hne)).mpr h.2

theorem Tended.releasesAll (hs : s.Tended) (h : s.Unambiguous) (moves : List (Address × Address)) : s.ReleasesAll moves := by
  induction moves generalizing s with
  | nil => trivial
  | cons move moves ih =>
    intro r s₁ hr
    refine ⟨fun _ => hs.releases h _ _, ih (hs.relocate hr) ?_⟩
    rcases relocate_eq_ok hr with ⟨_, rfl, _⟩ | ⟨_, _, hd, _, rfl⟩
    · exact h
    · exact h.move hs.ends hd

/-- Moves of a store without exports and imports leave no orphan, at any point, exactly when each of
    them releases what its restored edges used; and they do so where no node refers to another in
    two ways. Then nothing is published any more when no edge leads to another group. -/
theorem orphanFreeAlong_relocateAll_iff {moves : List (Address × Address)} (hs : s.Consistent) (hstart : s.Unlinked)
    (hnone : ∀ node ∈ s.nodes, ∀ x, .imported x ∉ node.properties.scan) :
    (s.OrphanFreeAlong moves ↔ s.ReleasesAll moves) ∧ (s.Unambiguous → s.ReleasesAll moves) ∧
      (s.ReleasesAll moves → ∀ s', s.relocateAll moves = .ok s' →
        s'.OrphanFree ∧ ((∀ e ∈ s'.edges, e.source.group = e.target.group) → s'.exports = [])) := by
  have htended : s.Tended := by
    refine ⟨hs.shared hstart, fun a x h => ?_⟩
    obtain ⟨t, ht, hin⟩ := h
    obtain ⟨node, hn, _, rfl⟩ := exists_of_tree? ht
    exact absurd hin (hnone node hn x)
  have hfree : s.OrphanFree := by
    intro ex hex
    rw [hstart.exports] at hex
    cases hex
  have hiff : s.OrphanFreeAlong moves ↔ s.ReleasesAll moves := htended.orphanFreeAlong_iff hfree
  refine ⟨hiff, fun h => htended.releasesAll h moves, fun h s' hmoves => ?_⟩
  have hlast := (hiff.mpr h).last hmoves
  refine ⟨hlast, fun hgroups => List.eq_nil_iff_forall_not_mem.mpr fun ex hex => ?_⟩
  obtain ⟨e, he, hk, _⟩ := hlast ex hex
  exact ((htended.toShared.relocateAll hmoves).imported e he hk).1 (hgroups e he)

/-- A node that refers to some attributes of another one, which its tree does not tell. -/
def readingStore (attrs : List String) : Store where
  nodes := [.new ⟨"a", "Reader"⟩ "node", .new ⟨"a", "Topic"⟩ "node"]
  edges := attrs.map fun attr => .between ⟨"a", "Reader"⟩ ⟨"a", "Topic"⟩ .attrOf (some attr)

/-- The topic leaves the group and comes back. -/
def returningMoves : List (Address × Address) := [(⟨"a", "Topic"⟩, ⟨"b", "Topic"⟩), (⟨"b", "Topic"⟩, ⟨"a", "Topic"⟩)]

/-- With one attribute nothing is published in the end. -/
theorem orphanFreeAlong_relocateAll_returning : ∃ s', (readingStore ["Arn"]).relocateAll returningMoves = .ok s' ∧
    s'.OrphanFree ∧ s'.exports = [] := by
  have hs : (readingStore ["Arn"]).Consistent := by decide
  obtain ⟨_, hreleases, hempty⟩ := @orphanFreeAlong_relocateAll_iff (readingStore ["Arn"]) returningMoves hs
    ⟨rfl, by decide⟩ (by simp [readingStore, Node.new, Tree.emptyRecord, Tree.scan, Tree.scanAs, Tree.scanFields])
  obtain ⟨hfree, hnone⟩ := hempty (hreleases (by decide)) _ rfl
  exact ⟨_, rfl, hfree, hnone (by decide)⟩

/-- With two, only the export of the first one is pruned, and the other one stays without a use. -/
theorem relocateAll_leaves_orphan : ∃ s', (readingStore ["Arn", "Name"]).Consistent ∧ (readingStore ["Arn", "Name"]).Unlinked ∧
    (∀ node ∈ (readingStore ["Arn", "Name"]).nodes, ∀ r ∈ node.properties.scan, r.isImport = false) ∧
    (readingStore ["Arn", "Name"]).relocateAll returningMoves = .ok s' ∧ ¬s'.OrphanFree ∧
    s'.exports ≠ [] ∧ ∀ e ∈ s'.edges, e.source.group = e.target.group :=
  ⟨_, by decide, ⟨rfl, by decide⟩, by decide, rfl, by decide, by decide, by decide⟩

end Store

end Regroup
