/-
  Regroup.Proofs.Coherence — edges and trees that say the same.

  Between groups an edge is written as an import in its source's tree, within a group as a local
  reference. In a `Coherent` store each edge has its reference, and each import of what is
  published has its edge. Documents make such stores (`coherent_ingest`), and a move keeps them
  so as long as it is `Harmless` (`Coherent.move`): as long as it gives no placeholder a name
  that a variable has, and makes no export that some tree imports already.
-/

import Mathlib.Data.List.TakeWhile
import Regroup.Proofs.Transit

namespace Regroup

variable {free : String → Prop} {origin destination : Address}

/-! ## Expressions -/

theorem Tree.filterMap_targetName?_locals (rs : List Reference) :
    (rs.filter (!·.isImport)).filterMap (·.targetName?) = rs.filterMap (·.targetName?) := by
  rw [List.filterMap_filter]
  refine List.filterMap_congr fun r _ => ?_
  cases r <;> rfl

/-- The names that the local references of the tree name, in order. -/
def Tree.localNames (tree : Tree) : List String := tree.scan.filterMap (·.targetName?)

/-- Where a rename captures nothing, the names stay in order. -/
theorem Tree.Renamable.localNames_rename {tree : Tree} {old new : String} (h : tree.Renamable old new) :
    (tree.rename old new).result.localNames = tree.localNames.map fun name => if name = old then new else name := by
  have hanswer : ∀ r : Reference, (r.answer (Reference.renamed old new)).targetName? =
      r.targetName?.map fun name => if name = old then new else name := by
    intro r
    rcases r.eq_imported_or_ofTarget with ⟨x, rfl⟩ | ⟨name, attr, rfl⟩
    · rfl
    · rw [Reference.answer_renamed_ofTarget, Reference.targetName?_ofTarget, Reference.targetName?_ofTarget, Option.map_some]
  have hlocals : (tree.rename old new).result.scan.filter (!·.isImport) =
      (tree.scan.map (Reference.answer (Reference.renamed old new))).filter (!·.isImport) :=
    locals_redirectAs_eq (fun sub hs => (h sub hs).writable) fun sub hs => (h sub hs).uncaptured
  rw [localNames, ← filterMap_targetName?_locals, hlocals, filterMap_targetName?_locals, List.filterMap_map, localNames,
    List.map_filterMap]
  exact List.filterMap_congr fun r _ => hanswer r

theorem mem_takeWhile_mono {α : Type} {p q : α → Bool} (h : ∀ x, p x = true → q x = true) {x : α} {xs : List α}
    (hx : x ∈ xs.takeWhile p) : x ∈ xs.takeWhile q := by
  induction xs with
  | nil => cases hx
  | cons y xs ih =>
    rw [List.takeWhile_cons] at hx
    split at hx
    · rename_i hy
      rw [List.takeWhile_cons_of_pos (h y hy)]
      exact (List.mem_cons.mp hx).elim (fun h => h ▸ List.mem_cons_self ..) fun hx => List.mem_cons_of_mem _ (ih hx)
    · cases hx

namespace Export

/-- The names in the published expression before the first one of the source. -/
def preamble (e : Export) : List String := e.expression.localNames.takeWhile (· ≠ e.source.name)

/-- The published expression names the source, and before it nothing but what is free. -/
structure Sourced (free : String → Prop) (e : Export) : Prop where
  names : e.expression.Names e.source.name
  preamble : ∀ name ∈ e.preamble, free name

theorem Shows.not_mem_substitutions {e : Export} {attr : Option String} (h : e.Shows attr) (sub : Substitution) :
    sub ∉ e.expression.substitutions := by
  intro hsub
  rw [Tree.substitutions, Tree.substitutionsAs_of_reference? h] at hsub
  cases hsub

theorem Shows.sourced {e : Export} {attr : Option String} (h : e.Shows attr) : e.Sourced free := by
  refine ⟨h.evident.names, fun name hname => ?_⟩
  simp [Export.preamble, Tree.localNames, h.scan] at hname

theorem Sourced.follows {e e' : Export} (h : e.Sourced free) (hf : e.Follows origin destination e')
    (hren : e.source = origin → e.expression.Renamable origin.name destination.name) : e'.Sourced free := by
  have hexpression := hf.expression
  refine ⟨hf.names hren h.names, fun name hname => ?_⟩
  by_cases hs : e.source = origin
  · rw [if_pos hs] at hexpression
    rw [Export.preamble, hexpression, (hren hs).localNames_rename, List.takeWhile_map, hf.source, hs,
      Address.moved_origin] at hname
    obtain ⟨name₀, hname₀, rfl⟩ := List.mem_map.mp hname
    -- What does not become the name of the source was not its name.
    have hpreamble : name₀ ∈ e.preamble := by
      refine mem_takeWhile_mono (fun n hn => ?_) hname₀
      rw [decide_eq_true_eq, hs]
      rintro rfl
      simp at hn
    have hother : name₀ ≠ origin.name := by
      have := List.mem_takeWhile_imp hpreamble
      rwa [hs, decide_eq_true_eq] at this
    rw [if_neg hother]
    exact h.preamble name₀ hpreamble
  · rw [if_neg hs] at hexpression
    rw [Export.preamble, hexpression, hf.source, Address.moved_of_ne hs] at hname
    exact h.preamble name hname

end Export

namespace Store

variable {s s' : Store} {a : Address}

/-! ## Coherence -/

/-- Edges and trees say the same. A `free` name is one that no node ever has. -/
structure Coherent (s : Store) (free : String → Prop) : Prop extends s.Grounded where
  sourced : ∀ ex ∈ s.exports, ex.Sourced free
  imported : ∀ a t, s.tree? a = some t → ∀ ex ∈ s.exports, .imported ex.name ∈ t.scan →
    ∃ e ∈ s.edges, e.kind = .imported ∧ e.source = a ∧ e.target = ex.source ∧ e.attr = ex.exposure.attr?
  stated : ∀ e ∈ s.edges, (e.kind.IsLocal → e.target ≠ e.source) → e.kind ≠ .structural →
    ∃ t, s.tree? e.source = some t ∧ ∃ r ∈ t.scan, e.Stated s.exports r
  not_free : ∀ id ∈ s.ids, ¬free id.name

/-- A move that loses no reference and makes no export that some tree imports already.
    - `clear`: where references become imports, no placeholder is captured by a variable;
    - `members`, `exports`: where they are renamed, none is captured by the new name;
    - `inlined`: what takes the place of imports is a record that refers to nodes only, among them
      to what the export shows of its source. -/
structure Harmless (s : Store) (origin destination : Address) : Prop where
  clear : ∀ e ∈ s.edges, e.touches origin = true → e.kind.IsLocal → e.Apart origin destination →
    ∀ node ∈ s.nodes, node.id = e.source → node.properties.Clear
  members : origin.group = destination.group → ∀ node ∈ s.members origin.group, node.id ≠ origin →
    node.properties.Renamable origin.name destination.name
  exports : ∀ ex ∈ s.exports, ex.source = origin → ex.expression.Renamable origin.name destination.name
  inlined : ∀ e ∈ s.edges, e.touches origin = true → e.kind = .imported → ¬e.Apart origin destination →
    (∀ node ∈ s.nodes, node.id = e.source → node.properties.NoImportKey) ∧
      ∀ ex ∈ s.exports, ex.source = e.target → ex.Standalone ∧ ex.Evident ∧ ex.expression.NoImportKey
  unforeseen : ∀ x ∈ (s.move origin destination).report.created, ∀ node ∈ s.nodes, .imported x ∉ node.properties.scan

/-- Where no tree holds a template and every export is a reference to its source, the only harm
    is to make an export that some tree imports already. -/
theorem harmless_of_plain (htrees : ∀ node ∈ s.nodes, node.properties.substitutions = [])
    (hshows : ∀ ex ∈ s.exports, ∃ attr, ex.Shows attr)
    (hunforeseen : ∀ x ∈ (s.move origin destination).report.created, ∀ node ∈ s.nodes, .imported x ∉ node.properties.scan) :
    s.Harmless origin destination := by
  have htree : ∀ node ∈ s.nodes, ∀ sub, sub ∉ node.properties.substitutions := by
    intro node hn sub hsub
    rw [htrees node hn] at hsub
    cases hsub
  have hexport : ∀ ex ∈ s.exports, ∀ sub, sub ∉ ex.expression.substitutions := by
    intro ex hex
    obtain ⟨attr, hshown⟩ := hshows ex hex
    exact hshown.not_mem_substitutions
  constructor
  case clear => exact fun _ _ _ _ _ node hn _ sub hsub => absurd hsub (htree node hn sub)
  case members => exact fun _ node hn _ sub hsub => absurd hsub (htree node (List.mem_filter.mp hn).1 sub)
  case exports => exact fun ex hex _ sub hsub => absurd hsub (hexport ex hex sub)
  case inlined =>
    refine fun _ _ _ _ _ => ⟨fun node hn _ sub hsub => absurd hsub (htree node hn sub), fun ex hex _ => ?_⟩
    obtain ⟨attr, hshown⟩ := hshows ex hex
    exact ⟨hshown.standalone, hshown.evident, fun sub hsub => absurd hsub (hexport ex hex sub)⟩
  case unforeseen => exact hunforeseen

section Move

variable (hs : s.Coherent free) (hd : destination ∉ s.ids) (hharm : s.Harmless origin destination)

include hs hharm

theorem Coherent.sourced_converted {e' : Export} (he' : e' ∈ (s.converted origin destination).store.exports) :
    e'.Sourced free := by
  rcases mem_exports_converted he' with ⟨e, he, hf⟩ | ⟨_, _, _, _, _, hm⟩
  · exact (hs.sourced e he).follows hf (hharm.exports e he)
  · exact hm.shows.sourced

include hd

/-- What is known of an expression when it takes the place of imports. Those of the moved node
    have its new name by then. -/
theorem Coherent.inlined (ha : a ∈ s.ids) {ex : Export} (hex : ex ∈ (s.converted origin destination).store.exports)
    (hin : s.Inlines origin destination (a.moved origin destination) ex) : ex.Standalone ∧ ex.Evident ∧
      ex.expression.NoImportKey ∧ (a ≠ origin → ex.expression.Renamable origin.name destination.name) := by
  obtain ⟨e, he, hsource, htarget, ht, hk, hwhole⟩ := (hs.inlines_iff hd ha).mp hin
  rcases mem_exports_converted hex with ⟨ex₀, hex₀, hf⟩ | ⟨_, _, _, _, _, hm⟩
  · have hshown : ex₀.source = e.target := by
      rw [hf.source] at htarget
      exact ((Address.moved_inj (ne_of_mem_of_not_mem (hs.ends e he).2 hd)
        (ne_of_mem_of_not_mem (hs.sources ex₀ hex₀) hd)).mp htarget).symm
    obtain ⟨halone, hevident, hkey⟩ := (hharm.inlined e he ht hk hwhole).2 ex₀ hex₀ hshown
    refine ⟨hf.standalone halone, hf.evident (hharm.exports ex₀ hex₀) hevident, ?_, fun hother => ?_⟩
    · rw [hf.expression]
      split
      · exact hkey.redirect
      · exact hkey
    · have horigin : ex₀.source = origin :=
        hshown.trans ((Edge.touches_iff.mp ht).resolve_left fun h => hother (hsource.symm.trans h))
      rw [hf.expression, if_pos horigin]
      exact (hharm.exports ex₀ hex₀ horigin).rename
  · have hnone := hm.shows.not_mem_substitutions
    exact ⟨hm.shows.standalone, hm.shows.evident, fun sub hsub => absurd hsub (hnone sub),
      fun _ sub hsub => absurd hsub (hnone sub)⟩

/-- A moved tree refers to what its references are carried to. -/
theorem Coherent.tree?_move {t : Tree} (ht : s.tree? a = some t) :
    ∃ t', (s.move origin destination).store.tree? (a.moved origin destination) = some t' ∧
      t'.scan.Perm (t.scan.flatMap (s.carriedTo origin destination (a.moved origin destination))) := by
  have ha := mem_ids_of_tree? ht
  have haway : ∀ id ∈ s.ids, id ≠ destination := fun id hid => ne_of_mem_of_not_mem hid hd
  let Torn := ∃ c ∈ (s.departed origin destination).report.converted, c.source = a.moved origin destination
  let Restored := ∃ c ∈ (s.departed origin destination).report.restored, c.source = a.moved origin destination
  let Member := origin.group = destination.group ∧ a.group = origin.group ∧ a ≠ origin
  let Kept (t : Tree) := (Restored → t.NoImportKey) ∧ (Member → t.Renamable origin.name destination.name)
  have htorn : Torn → ∀ t, ((Torn → t.Clear) ∧ Kept t) → t.Clear ∧
      ∀ f, KeepsLocals f → (Torn → (t.redirect f).result.Clear) ∧ Kept (t.redirect f).result := by
    intro h t hq
    obtain ⟨c, hc, _⟩ := id h
    -- Where references become imports, nothing is renamed.
    have hacross : ¬Member := fun hmember => List.ne_nil_of_mem hc (hs.converted_eq_nil hmember.1)
    exact ⟨hq.1 h, fun f hf => ⟨fun _ => (hq.1 h).redirect hf, fun hr => (hq.2.1 hr).redirect, fun hmember => absurd hmember hacross⟩⟩
  have hinlined : ∀ ex ∈ (s.converted origin destination).store.exports,
      s.Inlines origin destination (a.moved origin destination) ex → ex.Replaces Kept := by
    intro ex hex hin
    obtain ⟨halone, _, hkey, hrenamable⟩ := hs.inlined hd hharm ha hex hin
    obtain ⟨c, hc, hsource, _⟩ := hin
    have hrestored : Restored := ⟨c, hc, hsource⟩
    obtain ⟨fields, hfields⟩ := halone.record
    refine ⟨halone, fun t x h => ?_⟩
    rw [hfields] at hkey hrenamable ⊢
    exact ⟨fun _ => (h.1 hrestored).substitute hkey,
      fun hmember => (h.2 hmember).substitute (h.1 hrestored) (hrenamable hmember.2.2)⟩
  have hq : (Torn → t.Clear) ∧ Kept t := by
    obtain ⟨node, hn, rfl, rfl⟩ := exists_of_tree? ht
    refine ⟨fun h => ?_, fun h => ?_, fun hmember => ?_⟩
    · obtain ⟨c, hc, hsource⟩ := h
      obtain ⟨e, he, htouches, hk, hap, rfl⟩ := mem_report_converted.mp hc
      have hsame := (Address.moved_inj (haway _ (hs.ends e he).1) (haway _ ha)).mp hsource
      exact hharm.clear e he htouches hk hap node hn hsame.symm
    · obtain ⟨c, hc, hsource⟩ := h
      obtain ⟨e, he, htouches, hk, hwhole, rfl⟩ := mem_report_restored.mp hc
      have hsame := (Address.moved_inj (haway _ (hs.ends e he).1) (haway _ ha)).mp hsource
      exact (hharm.inlined e he htouches hk hwhole).1 node hn hsame.symm
    · exact hharm.members hmember.1 node (List.mem_filter.mpr ⟨hn, by simpa using hmember.2.1⟩) hmember.2.2
  obtain ⟨t', ht', _, hperm⟩ := Store.tree?_move (fun t => (Torn → t.Clear) ∧ Kept t) Kept hd hs.names htorn (fun _ h => h.2)
    (fun hr _ h => h.1 hr) hinlined (fun hgroup hin hother t h => ⟨h.2 ⟨hgroup, hin, hother⟩,
      fun hr => (h.1 hr).redirect, fun hmember => (h.2 hmember).rename⟩) ht hq
  exact ⟨t', ht', hperm⟩

/-- An import in a moved tree has its edge: it was there with one, or an edge was torn apart. -/
theorem Coherent.imported_move {t : Tree} (ht : s.tree? a = some t) {ex : Export}
    (hex : ex ∈ (s.move origin destination).store.exports)
    (hin : .imported ex.name ∈ t.scan.flatMap (s.carriedTo origin destination (a.moved origin destination))) :
    ∃ e ∈ (s.move origin destination).store.edges, e.kind = .imported ∧ e.source = a.moved origin destination ∧
      e.target = ex.source ∧ e.attr = ex.exposure.attr? := by
  have hex' := (mem_exports_move_iff.mp hex).1
  obtain ⟨r, hr, hin⟩ := List.mem_flatMap.mp hin
  have ha := mem_ids_of_tree? ht
  rcases hs.import_mem_carriedTo hd ha (fun e he hin => (hs.inlined hd hharm ha he hin).1) hex' hin with
    ⟨rfl, hout⟩ | ⟨e, he, hsource, ht', hk, hap, htarget, hexposure⟩
  · obtain ⟨made, hexports, hcreated, _⟩ := exports_converted s origin destination
    rw [hexports] at hex'
    rcases List.mem_append.mp hex' with hfollowed | hmade
    · obtain ⟨ex₀, hex₀, hf⟩ := exists_followed hfollowed
      obtain ⟨e, he, hk, hsource, htarget, hattr⟩ := hs.imported a t ht ex₀ hex₀ (hf.name ▸ hr)
      have hmoved : e.target.moved origin destination = ex.source := by rw [hf.source, htarget]
      have hstay : ¬e.Restored origin destination := fun h =>
        hout ((hs.inlines_iff hd ha).mpr ⟨e, he, hsource, hmoved, h.touches, hk, h.near⟩)
      obtain ⟨e', hfate, hk', hsource', htarget', hattr'⟩ := Edge.remaining_of_imported hk hstay
      refine ⟨e', remaining_mem_move he hfate, hk', by rw [hsource', hsource], by rw [htarget', hmoved], ?_⟩
      rw [hattr', hattr, hf.exposure (hs.sourced ex₀ hex₀).names]
    · -- Nothing imports an export before it is made.
      obtain ⟨node, hn, _, rfl⟩ := exists_of_tree? ht
      have hname : ex.name ∈ (s.move origin destination).report.created := by
        rw [hcreated]
        exact List.mem_map_of_mem hmade
      exact absurd hr (hharm.unforeseen _ hname node hn)
  · refine ⟨_, remaining_mem_move he (Edge.remaining?_toImport ht' hk hap), rfl, ?_, htarget.symm, ?_⟩
    · exact congrArg (·.moved origin destination) hsource
    · rw [hexposure, Exposure.attr?_ofAttr]
      rfl

/-- An edge that is no ordering is stated in its source's tree after the move as it was before. -/
theorem Coherent.stated_move (hne : origin ≠ destination) {e' : Edge} (he' : e' ∈ (s.move origin destination).store.edges)
    (hother : e'.kind.IsLocal → e'.target ≠ e'.source) (hkind : e'.kind ≠ .structural) :
    ∃ t', (s.move origin destination).store.tree? e'.source = some t' ∧
      ∃ r' ∈ t'.scan, e'.Stated (s.move origin destination).store.exports r' := by
  rcases mem_edges_move he' with ⟨e, he, hfate⟩ | ⟨e, _, _, rfl⟩
  · obtain ⟨hsource', htarget', _, hfates⟩ := Edge.remaining?_fate hfate
    have hother₀ : e.kind.IsLocal → e.target ≠ e.source := by
      intro hk heq
      rcases hfates with ⟨h, _⟩ | ⟨_, _, _, hap⟩ | ⟨_, _, hi, _⟩
      · exact hother (h ▸ hk) (by rw [hsource', htarget', heq])
      · exact hap (by simp only [Edge.moved, heq])
      · exact absurd hi hk.ne.2
    have hkind₀ : e.kind ≠ .structural := by
      intro hk
      rcases hfates with ⟨h, _⟩ | ⟨_, _, hl, _⟩ | ⟨_, _, hi, _⟩
      · exact hkind (h.trans hk)
      · exact hl.ne.1 hk
      · rw [hk] at hi
        cases hi
    obtain ⟨t, ht, r, hr, hstated⟩ := hs.stated e he hother₀ hkind₀
    obtain ⟨t', ht', hperm⟩ := hs.tree?_move hd hharm ht
    obtain ⟨r', hr', hstated'⟩ := hs.toGrounded.stated_move hd hne (fun ex hex => (hs.sourced ex hex).names)
      (fun ex hex hin => (hs.inlined hd hharm (hs.ends e he).1 hex hin).2.1) he hother₀ hstated hfate
    have hin := hperm.mem_iff.mpr (List.mem_flatMap.mpr ⟨r, hr, hr'⟩)
    refine ⟨t', by rw [hsource', ht'], r', hin, ?_⟩
    rcases hstated' with h | ⟨hk, ex, hex, hexsource, hexposure, rfl⟩
    · exact Or.inl h
    · exact Or.inr ⟨hk, ex, mem_exports_move_of_import hex ht' hin, hexsource, hexposure, rfl⟩
  · exact absurd rfl hkind

theorem Coherent.move (hne : origin ≠ destination) (hfree : ¬free destination.name) :
    (s.move origin destination).store.Coherent free := by
  refine ⟨hs.toGrounded.move hd, fun ex hex => hs.sourced_converted hharm (mem_exports_move_iff.mp hex).1, ?_,
    fun e he => hs.stated_move hd hharm hne he, forall_names_move (P := fun name => ¬free name) hs.not_free hfree⟩
  intro b t' hb ex hex hin
  have hmem := mem_ids_of_tree? hb
  rw [ids_move] at hmem
  obtain ⟨a, ha, rfl⟩ := List.mem_map.mp hmem
  obtain ⟨t, ht⟩ := exists_tree?_iff.mpr ha
  obtain ⟨t'', ht'', hperm⟩ := hs.tree?_move hd hharm ht
  rw [hb, Option.some.injEq] at ht''
  subst ht''
  exact hs.imported_move hd hharm ht hex (hperm.mem_iff.mp hin)

end Move

/-! ## Documents -/

/-- A published expression names its source. -/
theorem names_of_publisher? {d : Document} {value : Tree} {source : Address} (h : d.publisher? s value = some source) :
    value.Names source.name := by
  obtain ⟨r, hr, hsource⟩ := List.mem_filterMap.mp (List.mem_of_find?_eq_some h)
  obtain ⟨name, hname, rfl⟩ := Option.map_eq_some_iff.mp hsource
  exact ⟨r, hr, hname⟩

theorem coherent_ingest {naming : Naming} {documents : List Document} (hs : ({ naming } : Store).ingest documents = .ok s)
    (hpreamble : ∀ ex ∈ s.exports, ∀ name ∈ ex.preamble, free name) (hfree : ∀ id ∈ s.ids, ¬free id.name) :
    s.Coherent free := by
  have hground := (grounded_empty naming).ingest hs
  refine ⟨hground, fun ex hex => ⟨?_, hpreamble ex hex⟩, ?_, ?_, hfree⟩
  · obtain ⟨_, _, rfl⟩ := (ingest_eq_ok_iff (s := { naming }) List.nodup_nil documents).mp hs
    rcases mem_putAll hex with hex | hex
    · cases hex
    obtain ⟨d, _, hex⟩ := List.mem_flatMap.mp hex
    obtain ⟨_, _, _, source, _, hpublisher, hex⟩ := mem_exports.mp hex
    rw [hex]
    exact names_of_publisher? hpublisher
  · intro a t ht ex hex hin
    obtain ⟨node, hn, rfl, rfl⟩ := exists_of_tree? ht
    have himplied := impliedEdge?_imported (export?_of_mem hground.names hex) node.id
    exact ⟨_, (mem_edges_ingest_iff hs).mpr (Or.inr ⟨node, hn, _, hin, himplied⟩), rfl, rfl, rfl, rfl⟩
  · intro e he _ hkind
    rcases (mem_edges_ingest_iff hs).mp he with ⟨_, _, _, _, _, _, _, rfl⟩ | ⟨node, hn, r, hr, himplied⟩
    · exact absurd rfl hkind
    have htree := tree?_of_mem hground.ids hn
    rcases impliedEdge?_cases himplied with ⟨x, ex, rfl, hex, rfl⟩ | ⟨name, attr, rfl, _, _, rfl⟩
    · obtain ⟨hmem, rfl⟩ := mem_of_export? hex
      exact ⟨_, htree, _, hr, Or.inr ⟨rfl, ex, hmem, rfl, rfl, rfl⟩⟩
    · exact ⟨_, htree, _, hr, Or.inl ⟨EdgeKind.isLocal_ofAttr attr, rfl⟩⟩

/-! ## Runs -/

/-- Each move of the run is harmless when it is made. -/
def HarmlessAll (s : Store) : List (Address × Address) → Prop
  | [] => True
  | move :: moves => (move.1 ≠ move.2 → s.Harmless move.1 move.2) ∧
      ∀ r s', s.relocate move.1 move.2 = .ok (r, s') → s'.HarmlessAll moves

theorem Coherent.relocateAll (hs : s.Coherent free) {moves : List (Address × Address)} (hharm : s.HarmlessAll moves)
    (hfree : ∀ move ∈ moves, ¬free move.2.name) (h : s.relocateAll moves = .ok s') : s'.Coherent free := by
  induction moves generalizing s with
  | nil =>
    cases h
    exact hs
  | cons move moves ih =>
    obtain ⟨r, s₁, hr, hrest⟩ := relocateAll_cons h
    obtain ⟨hfirst, hlater⟩ := hharm
    refine ih ?_ (hlater r s₁ hr) (fun m hm => hfree m (List.mem_cons_of_mem _ hm)) hrest
    rcases relocate_eq_ok hr with ⟨_, rfl, _⟩ | ⟨hne, _, hd, _, rfl⟩
    · exact hs
    · exact hs.move hd (hfirst hne) hne (hfree move (List.mem_cons_self ..))

end Store

end Regroup
