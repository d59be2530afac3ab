/-
  Regroup.Proofs.Agreement — the graph and the documents that are generated from it.

  The documents of a coherent store can be read again, and what comes out agrees with the store
  (`Coherent.agree`): the same names are published for the same nodes, and the same edges lead
  from group to group. Moves keep a store coherent as long as they are harmless, so the
  documents stay in agreement over a whole run (`agree_relocateAll`).

  Otherwise they may come apart. A published expression that refers to its source in another way
  than it shows it has no edge of the right attribute once it stands in the place of an import,
  and the next move leaves its reference behind (`relocateAll_disagrees`).
-/

import Regroup.Proofs.Coherence
import Regroup.Proofs.Regeneration

namespace Regroup.Store

variable {s s' : Store} {free : String → Prop}

/-! ## Agreement -/

/-- Source, target and attribute of the edges between different groups. -/
def crossings (s : Store) : List (Address × Address × Option String) :=
  (s.edges.filter fun e => e.source.group != e.target.group).map fun e => (e.source, e.target, e.attr)

/-- The same names are published for the same nodes, and the same edges lead from group to group. -/
structure Agree (s fresh : Store) : Prop where
  sources : ∀ name, (fresh.export? name).map (·.source) = (s.export? name).map (·.source)
  crossings : ∀ crossing, crossing ∈ fresh.crossings ↔ crossing ∈ s.crossings

/-- Only the names and the crossings of the two stores matter. -/
theorem agree_iff {fresh : Store} : s.Agree fresh ↔
    (∀ name ∈ fresh.exportNames ++ s.exportNames, (fresh.export? name).map (·.source) = (s.export? name).map (·.source)) ∧
      (∀ crossing ∈ fresh.crossings, crossing ∈ s.crossings) ∧ ∀ crossing ∈ s.crossings, crossing ∈ fresh.crossings := by
  constructor
  · exact fun h => ⟨fun name _ => h.sources name, fun _ => (h.crossings _).mp, fun _ => (h.crossings _).mpr⟩
  · intro h
    refine ⟨fun name => ?_, fun crossing => ⟨h.2.1 crossing, h.2.2 crossing⟩⟩
    by_cases hname : name ∈ fresh.exportNames ++ s.exportNames
    · exact h.1 name hname
    · rw [List.mem_append, not_or] at hname
      rw [export?_eq_none_iff.mpr hname.1, export?_eq_none_iff.mpr hname.2]

instance (s fresh : Store) : Decidable (s.Agree fresh) := decidable_of_iff' _ agree_iff

theorem mem_crossings_iff {source target : Address} {attr : Option String} : (source, target, attr) ∈ s.crossings ↔
    source.group ≠ target.group ∧ ∃ e ∈ s.edges, e.source = source ∧ e.target = target ∧ e.attr = attr := by
  simp only [crossings, List.mem_map, List.mem_filter, bne_iff_ne, Prod.mk.injEq]
  constructor
  · intro h
    obtain ⟨e, ⟨he, hgroup⟩, rfl, rfl, rfl⟩ := h
    exact ⟨hgroup, e, he, rfl, rfl, rfl⟩
  · intro h
    obtain ⟨hgroup, e, he, rfl, rfl, rfl⟩ := h
    exact ⟨e, ⟨he, hgroup⟩, rfl, rfl, rfl⟩

/-- The first known node among the named ones is the one that only unknown names precede. -/
theorem find?_source {names : List String} {source : Address} (hsource : s.has source = true) (hin : source.name ∈ names)
    (hbefore : ∀ name ∈ names.takeWhile (· ≠ source.name), s.has ⟨source.group, name⟩ ≠ true) :
    (names.map fun name => (⟨source.group, name⟩ : Address)).find? s.has = some source := by
  induction names with
  | nil => cases hin
  | cons name names ih =>
    by_cases hname : name = source.name
    · subst hname
      exact List.find?_cons_of_pos hsource
    · rw [List.takeWhile_cons_of_pos (by simpa using hname)] at hbefore
      have hlater := ih ((List.mem_cons.mp hin).resolve_left (Ne.symm hname)) fun n hn => hbefore n (List.mem_cons_of_mem _ hn)
      rw [List.map_cons, List.find?_cons_of_neg (hbefore name (List.mem_cons_self ..))]
      exact hlater

/-! ## Coherent stores -/

section Coherent

variable (hs : s.Coherent free)

include hs

theorem Coherent.attributed : s.Attributed := by
  intro ex hex
  obtain ⟨⟨r, hr, hname⟩, hpreamble⟩ := hs.sourced ex hex
  have hfound := find?_source (has_iff.mpr (hs.sources ex hex)) (List.mem_filterMap.mpr ⟨r, hr, hname⟩)
    fun name hin hhas => hs.not_free _ (has_iff.mp hhas) (hpreamble name hin)
  rwa [List.map_filterMap] at hfound

/-- An import that is written in a generated document has its edge. -/
theorem Coherent.exists_edge {node : Node} (hn : node ∈ s.nodes) {ex : Export} (hex : ex ∈ s.exports)
    (hin : .imported ex.name ∈ (s.localizedProperties node.id.group node).scan) :
    ∃ e ∈ s.edges, e.source = node.id ∧ e.target = ex.source ∧ e.attr = ex.exposure.attr? := by
  obtain ⟨r, hr, hanswer⟩ := Tree.exists_of_mem_scan_redirect hin (Or.inl rfl)
  rcases r.eq_imported_or_ofTarget with ⟨x, rfl⟩ | ⟨name, attr, rfl⟩
  · rcases answer_localize_import _ x with hstay | ⟨_, attr, _, _, _, hlocal⟩
    · rw [hstay] at hanswer
      obtain ⟨e, he, _, hsource, htarget, hattr⟩ := hs.imported _ _ (tree?_of_mem hs.ids hn) ex hex (hanswer ▸ hr)
      exact ⟨e, he, hsource, htarget, hattr⟩
    · rw [hlocal] at hanswer
      cases attr <;> cases hanswer
  · rcases answer_localize_ofTarget _ name attr with hstay | ⟨e, he, _, hattr, ex', hex', himport⟩
    · rw [hstay] at hanswer
      cases attr <;> cases hanswer
    · rw [himport, Reference.imported.injEq] at hanswer
      obtain ⟨hmem, hsource, hexposure⟩ := mem_of_exportOf? hex'
      have hsame : ex' = ex := List.inj_on_of_nodup_map hs.names hmem hex hanswer
      obtain ⟨he, _⟩ := List.mem_filter.mp he
      obtain ⟨he, hfrom⟩ := List.mem_filter.mp he
      subst hsame
      refine ⟨e, he, by simpa using hfrom, hsource.symm, ?_⟩
      rw [hattr, hexposure, Exposure.attr?_ofAttr]

/-- An edge to another group is written in the generated document as an import. -/
theorem Coherent.exists_import {e : Edge} (he : e ∈ s.edges) (hgroup : e.source.group ≠ e.target.group) :
    ∃ node ∈ s.nodes, node.id = e.source ∧ ∃ ex ∈ s.exports, ex.source = e.target ∧ ex.exposure.attr? = e.attr ∧
      .imported ex.name ∈ (s.localizedProperties e.source.group node).scan := by
  have hkind : e.kind = .imported := not_not.mp fun hi => hgroup ((hs.within e he).2 hi)
  obtain ⟨t, ht, r, hr, hstated⟩ := hs.stated e he (fun hl => absurd hkind hl.ne.2) (by rw [hkind]; decide)
  obtain ⟨node, hn, hid, rfl⟩ := exists_of_tree? ht
  rcases hstated with ⟨hl, _⟩ | ⟨_, ex, hex, hsource, hexposure, rfl⟩
  · exact absurd hkind hl.ne.2
  refine ⟨node, hn, hid, ex, hex, hsource, hexposure, ?_⟩
  -- The export is of another group, so that its import is left as it is.
  have hstay : (Reference.imported ex.name).answer (s.localize e.source.group
      ((s.dependencies node.id).filter (·.kind.isReference))) = .imported ex.name := by
    rcases answer_localize_import _ ex.name with hstay | ⟨ex', _, hex', hmember, _, _⟩
    · exact hstay
    · rw [export?_of_mem hs.names hex, Option.some.injEq] at hex'
      subst hex'
      exact absurd (hmember.symm.trans (congrArg Address.group hsource)) hgroup
  have hin := Tree.import_mem_scan_redirect hr (by rw [hstay]; rfl)
  rwa [hstay] at hin

/-- What the documents of a coherent store make agrees with the store. -/
theorem Coherent.agree (naming : Naming) : ∃ fresh, ({ naming } : Store).ingest s.documents = .ok fresh ∧ s.Agree fresh := by
  obtain ⟨fresh, hfresh, hnodes, hexports⟩ := hs.ingest_documents hs.attributed naming
  have hregenerated : s.Regenerated fresh := ⟨⟨naming, hfresh⟩, hnodes, hexports⟩
  refine ⟨fresh, hfresh, fun name => ?_, fun crossing => ?_⟩
  · have htold := congrArg (Option.map (·.source)) (hregenerated.export?_told hs.toGrounded name)
    rwa [Option.map_map, Option.map_map] at htold
  · obtain ⟨source, target, attr⟩ := crossing
    rw [mem_crossings_iff, mem_crossings_iff]
    refine and_congr_right fun hgroup => ?_
    rw [hregenerated.mem_edges_iff hs.toGrounded hgroup]
    constructor
    · intro h
      obtain ⟨node, hn, rfl, ex, hex, rfl, rfl, hin⟩ := h
      exact hs.exists_edge hn hex hin
    · intro h
      obtain ⟨e, he, rfl, rfl, rfl⟩ := h
      exact hs.exists_import he hgroup

end Coherent

/-- The documents that are generated after any run of moves make a store that agrees with the one
    they come from. The published expressions refer to what they show, and to nothing unknown
    before; no move captures a placeholder or makes an export that a tree imports already. -/
theorem agree_relocateAll {naming : Naming} {documents : List Document} {moves : List (Address × Address)}
    (hs : ({ naming } : Store).ingest documents = .ok s)
    (hunknown : ∀ ex ∈ s.exports, ∀ name ∈ ex.preamble, (∀ id ∈ s.ids, id.name ≠ name) ∧ ∀ move ∈ moves, move.2.name ≠ name)
    (hharm : s.HarmlessAll moves) (hmoves : s.relocateAll moves = .ok s') (naming' : Naming) :
    ∃ fresh, ({ naming := naming' } : Store).ingest s'.documents = .ok fresh ∧ s'.Agree fresh := by
  have hcoherent := coherent_ingest hs hunknown fun id hid hf => hf.1 id hid rfl
  exact (hcoherent.relocateAll hharm (fun move hm hf => hf.2 move hm rfl) hmoves).agree naming'

/-- One group publishes `value`, and the reader in another one imports it. -/
def objectsDocuments (value : Tree) : List Document :=
  [⟨"a", { resources := [("Store", { kind := "store" })]
           outputs := [("Objects", { value, exportName := some (.text "objects") })] }⟩,
   ⟨"b", { resources := [("Reader", { kind := "reader", properties := some (.record
             [("From", (Reference.imported "objects").construct)]) })] }⟩]

/-- The reader visits the other group. -/
def visitingMoves : List (Address × Address) := [(⟨"b", "Reader"⟩, ⟨"a", "Reader"⟩), (⟨"a", "Reader"⟩, ⟨"b", "Reader"⟩)]

theorem agree_relocateAll_objects : ∃ s s', ({} : Store).ingest (objectsDocuments (Reference.attrOf "Store" "Arn").construct) = .ok s ∧
    s.relocateAll visitingMoves = .ok s' ∧ ∃ fresh, ({} : Store).ingest s'.documents = .ok fresh ∧ s'.Agree fresh := by
  let s := ({} : Store).ingested (objectsDocuments (Reference.attrOf "Store" "Arn").construct)
  let s₁ := (s.move ⟨"b", "Reader"⟩ ⟨"a", "Reader"⟩).store
  have hplain : ∀ t ∈ [s, s₁], (∀ node ∈ t.nodes, node.properties.substitutions.isEmpty = true) ∧
      ∀ ex ∈ t.exports, ex.expression.reference? = some (.ofTarget ex.source.name (some "Arn")) := by decide
  have hsubstitutions : ∀ t ∈ [s, s₁], ∀ node ∈ t.nodes, node.properties.substitutions = [] :=
    fun t ht node hn => List.isEmpty_iff.mp ((hplain t ht).1 node hn)
  have hshows : ∀ t ∈ [s, s₁], ∀ ex ∈ t.exports, ∃ attr, ex.Shows attr := fun t ht ex hex => ⟨_, (hplain t ht).2 ex hex⟩
  have hharm : s.HarmlessAll visitingMoves := by
    refine ⟨fun _ => harmless_of_plain (hsubstitutions s (by simp)) (hshows s (by simp)) (by decide), fun r t h => ?_⟩
    obtain rfl : s₁ = t := by
      cases h
      rfl
    refine ⟨fun _ => harmless_of_plain (hsubstitutions s₁ (by simp)) (hshows s₁ (by simp)) (by decide), fun _ _ _ => trivial⟩
  exact ⟨s, _, rfl, rfl, @agree_relocateAll s _ {} (objectsDocuments (Reference.attrOf "Store" "Arn").construct) visitingMoves rfl (by decide) hharm rfl {}⟩

/-- The reader comes home with the published expression in its tree, and what it refers to stays behind. -/
theorem relocateAll_disagrees : ∃ s s' fresh,
    ({} : Store).ingest (objectsDocuments (.call "Fn::Join" (.list [.text "", .list [(Reference.attrOf "Store" "Arn").construct,
      .text "/*"]]))) = .ok s ∧
    s.relocateAll visitingMoves = .ok s' ∧ ({} : Store).ingest s'.documents = .ok fresh ∧ ¬s'.Agree fresh :=
  ⟨_, _, _, rfl, rfl, rfl, by decide⟩

end Regroup.Store
