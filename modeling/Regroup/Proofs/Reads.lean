/-
  Regroup.Proofs.Reads — what the resources read, wherever they are moved.

  A local reference reads a node of the group or an attribute of it, an import what the export
  of that name shows (`Reading`). The statement is about stores whose trees make no
  substitutions and whose exports are plain references. There every reference that reads
  something has an edge that says so (`Linked`), and each move takes a linked reference to one
  that reads the same node at its new address (`Wired.move`).
-/

import Mathlib.Data.Multiset.MapFold
import Regroup.Proofs.Transit

namespace Regroup

/-! ## Plain trees -/

theorem Tree.substitutions_redirect_eq_nil (f : Reference → Option Reference) {tree : Tree} (h : tree.substitutions = []) :
    (tree.redirect f).result.substitutions = [] := by
  refine List.eq_nil_iff_forall_not_mem.mpr fun sub hsub => ?_
  obtain ⟨sub₀, hsub₀, _⟩ := substitutionsAs_redirectAs hsub
  rw [← substitutions, h] at hsub₀
  cases hsub₀

/-- A plain reference can take the place of imports in trees that make no substitutions. -/
theorem Export.Shows.replaces {e : Export} {attr : Option String} (h : e.Shows attr) :
    e.Replaces fun tree => tree.substitutions = [] := by
  refine ⟨h.standalone, fun t x ht => List.eq_nil_iff_forall_not_mem.mpr fun sub hsub => ?_⟩
  have hkeys : ∀ sub ∈ t.substitutions, Reference.importKey ∉ Fields.keys sub.vars := by
    intro sub hsub
    rw [ht] at hsub
    cases hsub
  obtain ⟨fields, hfields⟩ := h.standalone.record
  rw [hfields] at hsub
  rcases Tree.substitutionsAs_substitute hkeys hsub with ⟨sub₀, hsub₀, _⟩ | hsub
  · rw [← Tree.substitutions, ht] at hsub₀
    cases hsub₀
  · rw [← hfields, Tree.substitutions, Tree.substitutionsAs_of_reference? h] at hsub
    cases hsub

/-- The address that `id` has after the moves. -/
def Address.movedAll (id : Address) (moves : List (Address × Address)) : Address :=
  moves.foldl (fun id move => id.moved move.1 move.2) id

/-! ## Readings -/

/-- What a reference reads: a node or an attribute of it; else it stands for itself. -/
inductive Reading where
  | value (source : Address) (attr : Option String)
  | unresolved (r : Reference)
  deriving DecidableEq, Repr

def Reading.source? : Reading → Option Address
  | .value source _ => some source
  | .unresolved _ => none

/-- The same reading with the address of its source changed. -/
def Reading.mapSource (f : Address → Address) : Reading → Reading
  | .value source attr => .value (f source) attr
  | .unresolved r => .unresolved r

namespace Store

/-- What a reference in a tree of the group reads. -/
def resolve (s : Store) (group : String) (r : Reference) : Reading :=
  match r with
  | .imported name => (s.export? name).elim (.unresolved r) fun e => .value e.source e.exposure.attr?
  | .node name | .attrOf name _ => if s.has ⟨group, name⟩ then .value ⟨group, name⟩ r.attributeName? else .unresolved r

/-- What the node's tree reads, as often as it reads it. -/
def reads (s : Store) (node : Node) : Multiset Reading := node.properties.scan.map (s.resolve node.id.group)

variable {s s' : Store} {origin destination a : Address} {attr : Option String}

theorem resolve_ofTarget (s : Store) (group name : String) (attr : Option String) :
    s.resolve group (.ofTarget name attr) =
      if s.has ⟨group, name⟩ then .value ⟨group, name⟩ attr else .unresolved (.ofTarget name attr) := by
  cases attr <;> rfl

/-- What a reference says with an edge is what it reads. -/
theorem Grounded.resolve_stated (hs : s.Grounded) {e : Edge} (he : e ∈ s.edges) {r : Reference} (hr : e.Stated s.exports r) :
    s.resolve e.source.group r = .value e.target e.attr := by
  rcases hr with ⟨hk, rfl⟩ | ⟨_, ex, hex, hsource, hexposure, rfl⟩
  · have htarget : (⟨e.source.group, e.target.name⟩ : Address) = e.target := by rw [hs.in_group he hk]
    rw [resolve_ofTarget, htarget, if_pos (has_iff.mpr (hs.ends e he).2)]
  · rw [resolve, export?_of_mem hs.names hex, Option.elim, hsource, hexposure]

/-! ## The invariant -/

/-- An edge says what the reference in the tree at `a` reads, or its name is `free`. -/
inductive Linked (s : Store) (free : String → Prop) (a : Address) : Reference → Prop
  | stated {e : Edge} {r : Reference} (he : e ∈ s.edges) (hsource : e.source = a) (hother : e.target ≠ a)
      (hr : e.Stated s.exports r) : Linked s free a r
  | free {r : Reference} {name : String} (hname : r.targetName? = some name) (hfree : free name) : Linked s free a r

/-- Every reference of the store is linked, and no node is called by a `free` name. -/
structure Wired (s : Store) (free : String → Prop) : Prop extends s.Grounded where
  shows : ∀ e ∈ s.exports, ∃ attr, e.Shows attr
  plain : ∀ a t, s.tree? a = some t → t.substitutions = []
  linked : ∀ a t, s.tree? a = some t → ∀ r ∈ t.scan, s.Linked free a r
  not_free : ∀ id ∈ s.ids, ¬free id.name

section Step

variable {free : String → Prop} (hs : s.Wired free) (hne : origin ≠ destination) (hd : destination ∉ s.ids)
  (hfree : ¬free destination.name) (ha : a ∈ s.ids)

include hs hd ha

/-- A free name is none that the move looks for. -/
theorem Linked.carried_free {r : Reference} {name : String} (ho : origin ∈ s.ids) (hname : r.targetName? = some name)
    (hf : free name) : s.carriedTo origin destination (a.moved origin destination) r = [r] := by
  have hlocal : r.isImport = false := by
    cases r <;> first | rfl | cases hname
  have hconv : s.conversionAt origin destination (a.moved origin destination) r = r := by
    rcases hs.conversionAt_cases hd ha r with ⟨h, _⟩ | ⟨e, he, _, _, _, _, hr, _⟩
    · exact h
    · have : e.target.name = name := by
        rw [← hr] at hname
        cases hattr : e.attr <;> rw [hattr] at hname <;> exact Option.some.inj hname
      exact absurd (this ▸ hf) (hs.not_free _ (hs.ends e he).2)
  have hren : renamingAt origin destination (a.moved origin destination) r = r := by
    unfold renamingAt
    split
    · refine Reference.answer_renamed_of_ne ?_
      rw [hname]
      intro h
      exact hs.not_free _ ho (Option.some.inj h ▸ hf)
    · rfl
  rw [carriedTo, hconv, restorationAt_of_local hlocal, List.map_singleton, hren]

omit hd ha in
/-- The exports shown before pruning are plain as well. -/
theorem Wired.shows_converted {ex : Export} (h : ex ∈ (s.converted origin destination).store.exports) :
    ∃ attr, ex.Shows attr := by
  rcases mem_exports_converted h with ⟨e, he, hf⟩ | ⟨e, _, _, _, _, hm⟩
  · obtain ⟨attr, hshows⟩ := hs.shows e he
    exact ⟨attr, hshows.follows hf⟩
  · exact ⟨_, hm.shows⟩

omit hd ha in
/-- No expression refers to more than one node, so a reference is carried to one reference. -/
theorem Wired.length_carriedTo (b : Address) (r : Reference) : (s.carriedTo origin destination b r).length = 1 := by
  rw [carriedTo, List.length_map]
  generalize s.conversionAt origin destination b r = q
  cases q with
  | imported x =>
    rcases he : (s.converted origin destination).store.export? x with _ | ex
    · rw [restorationAt, Restoring.restoration_of_unknown he, List.length_singleton]
    · obtain ⟨attr, hshows⟩ := hs.shows_converted (mem_of_export? he).1
      rw [restorationAt, Restoring.restoration_of_exports he]
      split
      · rw [hshows.scan, List.length_singleton]
      · exact List.length_singleton
  | _ => rw [restorationAt_of_local rfl, List.length_singleton]

omit ha in
/-- A moved tree refers to what its references are carried to. -/
theorem Wired.tree?_move {t : Tree} (ht : s.tree? a = some t) :
    ∃ t', (s.move origin destination).store.tree? (a.moved origin destination) = some t' ∧ t'.substitutions = [] ∧
      t'.scan.Perm (t.scan.flatMap (s.carriedTo origin destination (a.moved origin destination))) := by
  have hnone : ∀ {t : Tree}, t.substitutions = [] → ∀ {P : Substitution → Prop}, ∀ sub ∈ t.substitutions, P sub := by
    intro t h P sub hsub
    rw [h] at hsub
    cases hsub
  refine Store.tree?_move (·.substitutions = []) (·.substitutions = []) hd hs.names
    (fun _ t h => ⟨hnone h, fun f _ => Tree.substitutions_redirect_eq_nil f h⟩) (fun _ h => h) (fun _ t h => hnone h)
    (fun e he _ => ?_) (fun _ _ _ t h => ⟨hnone h, Tree.substitutions_redirect_eq_nil _ h⟩) ht (hs.plain a t ht)
  obtain ⟨attr, hshows⟩ := hs.shows_converted he
  exact hshows.replaces

end Step

/-- A free name reads nothing. -/
theorem resolve_free {free : String → Prop} (hnot : ∀ id ∈ s.ids, ¬free id.name) {r : Reference} {name : String}
    (hname : r.targetName? = some name) (hf : free name) (group : String) : s.resolve group r = .unresolved r := by
  have hno : s.has ⟨group, name⟩ ≠ true := fun h => hnot _ (has_iff.mp h) hf
  cases r <;> cases hname <;> exact if_neg hno

section Move

variable {free : String → Prop} (hs : s.Wired free) (hne : origin ≠ destination) (hd : destination ∉ s.ids)
  (hfree : ¬free destination.name)

include hs hd

include hne hfree

/-- A linked reference is carried to one that is linked and reads the same. -/
theorem Linked.move (ho : origin ∈ s.ids) (ha : a ∈ s.ids) {r : Reference} (h : s.Linked free a r)
    (hkept : ∀ ex ∈ (s.converted origin destination).store.exports,
      .imported ex.name ∈ s.carriedTo origin destination (a.moved origin destination) r →
        ex ∈ (s.move origin destination).store.exports) :
    ∃ r', s.carriedTo origin destination (a.moved origin destination) r = [r'] ∧
      (s.move origin destination).store.Linked free (a.moved origin destination) r' ∧
      (s.move origin destination).store.resolve (a.moved origin destination).group r' =
        (s.resolve a.group r).mapSource (·.moved origin destination) := by
  cases h with
  | @stated e r he hsource hother hr =>
    subst hsource
    have hkind : e.kind ≠ .structural := by
      rcases hr with ⟨hk, _⟩ | ⟨hk, _⟩
      · exact hk.ne.1
      · rw [hk]
        decide
    obtain ⟨e', hfate⟩ := Edge.exists_remaining?_fate origin destination hkind
    obtain ⟨hsource', htarget', hattr', _⟩ := Edge.remaining?_fate hfate
    have he' := remaining_mem_move he hfate
    obtain ⟨r', hin, hr'⟩ := hs.stated_move hd hne (fun ex hex => (hs.shows ex hex).choose_spec.evident.names)
      (fun ex hex _ => (hs.shows_converted hex).choose_spec.evident) he (fun _ => hother) hr hfate
    obtain ⟨q, hq⟩ := List.length_eq_one_iff.mp (hs.length_carriedTo (e.source.moved origin destination) r)
    rw [hq, List.mem_singleton] at hin
    subst hin
    have hr' : e'.Stated (s.move origin destination).store.exports r' := by
      rcases hr' with hr' | ⟨hk, ex, hex, hexsource, hexposure, rfl⟩
      · exact Or.inl hr'
      · exact Or.inr ⟨hk, ex, hkept ex hex (hq ▸ List.mem_singleton_self _), hexsource, hexposure, rfl⟩
    have hother' : e'.target ≠ e.source.moved origin destination := by
      rw [htarget']
      exact fun h => hother <|
        (Address.moved_inj (ne_of_mem_of_not_mem (hs.ends _ he).2 hd) (ne_of_mem_of_not_mem ha hd)).mp h
    refine ⟨r', hq, .stated he' hsource' hother' hr', ?_⟩
    rw [← hsource', (hs.toGrounded.move hd).resolve_stated he' hr', hs.toGrounded.resolve_stated he hr, htarget', hattr',
      Reading.mapSource]
  | free hname hf =>
    refine ⟨r, Linked.carried_free hs hd ha ho hname hf, .free hname hf, ?_⟩
    rw [resolve_free hs.not_free hname hf, resolve_free _ hname hf, Reading.mapSource]
    exact forall_names_move (P := fun name => ¬free name) hs.not_free hfree

/-- A moved tree is linked as the tree was, and reads the same. -/
theorem Wired.carried (ho : origin ∈ s.ids) {t : Tree} (ht : s.tree? a = some t) :
    ∃ t', (s.move origin destination).store.tree? (a.moved origin destination) = some t' ∧ t'.substitutions = [] ∧
      (∀ r ∈ t'.scan, (s.move origin destination).store.Linked free (a.moved origin destination) r) ∧
      (t'.scan.map ((s.move origin destination).store.resolve (a.moved origin destination).group) : Multiset Reading) =
        (t.scan.map fun r => (s.resolve a.group r).mapSource (·.moved origin destination) : List Reading) := by
  have ha := mem_ids_of_tree? ht
  obtain ⟨t', ht', hplain, hperm⟩ := hs.tree?_move hd ht
  have hstep : ∀ r ∈ t.scan, _ := fun r hr => Linked.move hs hne hd hfree ho ha (hs.linked a t ht r hr) fun ex hex hin =>
    mem_exports_move_of_import hex ht' (hperm.mem_iff.mpr (List.mem_flatMap.mpr ⟨r, hr, hin⟩))
  refine ⟨t', ht', hplain, fun r' hr' => ?_, ?_⟩
  · obtain ⟨r, hr, hin⟩ := List.mem_flatMap.mp (hperm.mem_iff.mp hr')
    obtain ⟨r'', hcarried, hlinked, _⟩ := hstep r hr
    rw [hcarried, List.mem_singleton] at hin
    exact hin ▸ hlinked
  · refine Multiset.coe_eq_coe.mpr ((hperm.map _).trans (List.Perm.of_eq ?_))
    rw [List.map_flatMap, List.map_eq_flatMap]
    refine List.flatMap_congr fun r hr => ?_
    obtain ⟨r', hcarried, _, hread⟩ := hstep r hr
    rw [hcarried, List.map_singleton, hread]

theorem Wired.move (ho : origin ∈ s.ids) : (s.move origin destination).store.Wired free := by
  have htrees : ∀ b t', (s.move origin destination).store.tree? b = some t' → t'.substitutions = [] ∧
      ∀ r ∈ t'.scan, (s.move origin destination).store.Linked free b r := by
    intro b t' hb
    have hmem := mem_ids_of_tree? hb
    rw [ids_move] at hmem
    obtain ⟨a, ha, rfl⟩ := List.mem_map.mp hmem
    obtain ⟨t, ht⟩ := exists_tree?_iff.mpr ha
    obtain ⟨t'', ht'', hplain, hlinked, _⟩ := hs.carried hne hd hfree ho ht
    rw [hb, Option.some.injEq] at ht''
    exact ht'' ▸ ⟨hplain, hlinked⟩
  exact ⟨hs.toGrounded.move hd, fun e he => hs.shows_converted ((exports_move s origin destination).1.subset he),
    fun b t hb => (htrees b t hb).1, fun b t hb => (htrees b t hb).2,
    forall_names_move (P := fun name => ¬free name) hs.not_free hfree⟩

end Move

/-! ## Documents -/

/-- An output that publishes a plain reference shows that reference. -/
theorem shows_of_publisher? {d : Document} {value : Tree} {source : Address} (h : d.publisher? s value = some source)
    {name : String} {attr : Option String} (hv : value.reference? = some (.ofTarget name attr)) : source = ⟨d.group, name⟩ := by
  have hscan : value.scan = [.ofTarget name attr] := Tree.scanAs_of_reference? hv
  have hmem := List.mem_of_find?_eq_some h
  simpa [hscan] using hmem

/-- The documents of such stores: they publish plain references to their own resources, import
    only what is published, and no resource reads itself. -/
theorem wired_ingest {naming : Naming} {documents : List Document} {free : String → Prop}
    (hs : ({ naming } : Store).ingest documents = .ok s) (hplain : ∀ node ∈ s.nodes, node.properties.substitutions = [])
    (houtputs : ∀ d ∈ documents, ∀ output ∈ d.template.outputs, output.2.exportName ≠ none →
      ∃ name attr, output.2.value.reference? = some (.ofTarget name attr))
    (himports : ∀ node ∈ s.nodes, ∀ x, .imported x ∈ node.properties.scan → x ∈ s.exportNames)
    (hself : ∀ node ∈ s.nodes, ∀ q ∈ s.reads node, q.source? ≠ some node.id)
    (hfree : ∀ node ∈ s.nodes, ∀ r ∈ node.properties.scan, ∀ name, r.targetName? = some name →
      ⟨node.id.group, name⟩ ∉ s.ids → free name)
    (hnot : ∀ id ∈ s.ids, ¬free id.name) : s.Wired free := by
  have hground := (grounded_empty naming).ingest hs
  have hstore := hs
  obtain ⟨_, _, hstore⟩ := (ingest_eq_ok_iff (grounded_empty naming).ids documents).mp hstore
  have hshows : ∀ e ∈ s.exports, ∃ attr, e.Shows attr := by
    intro e he
    rw [hstore] at he
    rcases mem_putAll he with he | he
    · cases he
    obtain ⟨d, hdoc, he⟩ := List.mem_flatMap.mp he
    obtain ⟨outputId, output, hout, source, hname, hpub, he⟩ := mem_exports.mp he
    obtain ⟨name, attr, hv⟩ := houtputs d hdoc _ hout (by intro h; rw [h] at hname; cases hname)
    refine ⟨attr, ?_⟩
    rw [he, shows_of_publisher? hpub hv]
    exact hv
  refine ⟨hground, hshows, ?_, ?_, hnot⟩
  · intro a t ht
    obtain ⟨node, hn, _, rfl⟩ := exists_of_tree? ht
    exact hplain node hn
  · intro a t ht r hr
    obtain ⟨node, hn, rfl, rfl⟩ := exists_of_tree? ht
    have hedge : ∀ e, s.impliedEdge? node.id r = some e → e ∈ s.edges := fun e he =>
      (mem_edges_ingest_iff hs).mpr (Or.inr ⟨node, hn, r, hr, he⟩)
    have hread : s.resolve node.id.group r ∈ s.reads node := Multiset.mem_coe.mpr (List.mem_map_of_mem hr)
    rcases r.eq_imported_or_ofTarget with ⟨x, rfl⟩ | ⟨name, attr, rfl⟩
    · obtain ⟨e, he⟩ := Option.isSome_iff_exists.mp (export?_isSome_iff.mpr (himports node hn x hr))
      obtain ⟨hmem, rfl⟩ := mem_of_export? he
      have himplied := impliedEdge?_imported he node.id
      have hstated : (Edge.between node.id e.source .imported e.exposure.attr?).Stated s.exports (.imported e.name) :=
        Or.inr ⟨rfl, e, hmem, rfl, rfl, rfl⟩
      refine .stated (hedge _ himplied) rfl (fun hsource => ?_) hstated
      have hreads : s.resolve node.id.group (.imported e.name) = .value e.source e.exposure.attr? :=
        hground.resolve_stated (hedge _ himplied) hstated
      rw [hreads] at hread
      exact hself node hn _ hread (congrArg some hsource)
    · rw [resolve_ofTarget] at hread
      by_cases hid : ⟨node.id.group, name⟩ ∈ s.ids
      · rw [if_pos (has_iff.mpr hid)] at hread
        have hother : (⟨node.id.group, name⟩ : Address) ≠ node.id := by
          intro h
          rw [h] at hread
          exact hself node hn _ hread rfl
        have himplied : s.impliedEdge? node.id (.ofTarget name attr) =
            some (.between node.id ⟨node.id.group, name⟩ (.ofAttr attr) attr) := by
          rw [impliedEdge?_ofTarget, if_neg (by simp [hother, has_iff.mpr hid])]
        exact .stated (hedge _ himplied) rfl hother (Or.inl ⟨EdgeKind.isLocal_ofAttr attr, rfl⟩)
      · exact .free (Reference.targetName?_ofTarget name attr) (hfree node hn _ hr name (by simp) hid)

/-! ## Runs -/

theorem Wired.relocateAll {free : String → Prop} (hs : s.Wired free) {moves : List (Address × Address)}
    (hfree : ∀ move ∈ moves, ¬free move.2.name) (h : s.relocateAll moves = .ok s') {t : Tree} (ht : s.tree? a = some t) :
    ∃ t', s'.tree? (a.movedAll moves) = some t' ∧
      (t'.scan.map (s'.resolve (a.movedAll moves).group) : Multiset Reading) =
        (t.scan.map fun r => (s.resolve a.group r).mapSource (·.movedAll moves) : List Reading) := by
  induction moves generalizing s a t with
  | nil =>
    cases h
    have hstay : ∀ q : Reading, q.mapSource (·.movedAll []) = q := fun q => by cases q <;> rfl
    exact ⟨t, ht, congrArg _ (List.map_congr_left fun r _ => (hstay _).symm)⟩
  | cons move moves ih =>
    obtain ⟨r, s₁, hr, hrest⟩ := relocateAll_cons h
    have hfree' := fun m hm => hfree m (List.mem_cons_of_mem _ hm)
    have hcomp : ∀ b : Address, b.movedAll (move :: moves) = (b.moved move.1 move.2).movedAll moves := fun _ => rfl
    have hmap : ∀ q : Reading, q.mapSource (·.movedAll (move :: moves)) =
        (q.mapSource (·.moved move.1 move.2)).mapSource (·.movedAll moves) := fun q => by cases q <;> rfl
    rcases relocate_eq_ok hr with ⟨heq, rfl, _⟩ | ⟨hne, ho, hd, _, rfl⟩
    · have hstay : ∀ b : Address, b.moved move.1 move.2 = b := by
        intro b
        unfold Address.moved
        split
        · rename_i hb
          rw [hb, heq]
        · rfl
      obtain ⟨t', ht', hread⟩ := ih hs hfree' hrest ht
      simp only [hcomp, hstay]
      exact ⟨t', ht', hread⟩
    · have hfree₁ := hfree move (List.mem_cons_self ..)
      obtain ⟨t₁, ht₁, _, _, hread₁⟩ := hs.carried hne hd hfree₁ ho ht
      obtain ⟨t', ht', hread⟩ := ih (hs.move hne hd hfree₁ ho) hfree' hrest ht₁
      refine ⟨t', ht', hread.trans ?_⟩
      have := congrArg (Multiset.map (·.mapSource (·.movedAll moves))) hread₁
      simp only [Multiset.map_coe, List.map_map] at this
      simp only [hmap]
      exact this

/-- Moves change where the resources are and not what they read. The documents make no
    substitutions and publish plain references; what they import is published, no resource reads
    itself, and a local name that no node of its group has is that of no node at all. -/
theorem reads_relocateAll {naming : Naming} {documents : List Document} {moves : List (Address × Address)}
    (hs : ({ naming } : Store).ingest documents = .ok s) (hplain : ∀ node ∈ s.nodes, node.properties.substitutions = [])
    (houtputs : ∀ d ∈ documents, ∀ output ∈ d.template.outputs, output.2.exportName ≠ none →
      ∃ name attr, output.2.value.reference? = some (.ofTarget name attr))
    (himports : ∀ node ∈ s.nodes, ∀ x, .imported x ∈ node.properties.scan → x ∈ s.exportNames)
    (hself : ∀ node ∈ s.nodes, ∀ q ∈ s.reads node, q.source? ≠ some node.id)
    (hfree : ∀ node ∈ s.nodes, ∀ r ∈ node.properties.scan, ∀ name, r.targetName? = some name →
      ⟨node.id.group, name⟩ ∉ s.ids → (∀ id ∈ s.ids, id.name ≠ name) ∧ ∀ move ∈ moves, move.2.name ≠ name)
    (hmoves : s.relocateAll moves = .ok s') :
    ∀ node ∈ s.nodes, ∃ node', s'.node? (node.id.movedAll moves) = some node' ∧
      s'.reads node' = (s.reads node).map (·.mapSource (·.movedAll moves)) := by
  intro node hn
  have hwired : s.Wired fun name => (∀ id ∈ s.ids, id.name ≠ name) ∧ ∀ move ∈ moves, move.2.name ≠ name :=
    wired_ingest hs hplain houtputs himports hself hfree fun id hid hf => hf.1 id hid rfl
  obtain ⟨t', ht', hread⟩ := hwired.relocateAll (fun move hm hf => hf.2 move hm rfl) hmoves (tree?_of_mem hwired.ids hn)
  obtain ⟨node', hn', rfl⟩ := Option.map_eq_some_iff.mp ht'
  have hid : node'.id = node.id.movedAll moves := by simpa using List.find?_some hn'
  refine ⟨node', hn', ?_⟩
  rw [reads, hid, hread, reads, Multiset.map_coe, List.map_map]
  rfl

/-- One group publishes a topic, and another subscribes to it. -/
def topicDocuments : List Document :=
  [⟨"a", { resources := [("Topic", { kind := "topic" })]
           outputs := [("TopicRef", { value := (Reference.node "Topic").construct, exportName := some (.text "topic") })] }⟩,
   ⟨"b", { resources := [("Reader", { kind := "reader", properties := some (.record
             [("From", (Reference.imported "topic").construct), ("Region", (Reference.node "Region").construct)]) })] }⟩]

/-- The reader joins the topic's group, which the topic leaves then. -/
def topicMoves : List (Address × Address) := [(⟨"b", "Reader"⟩, ⟨"a", "Reader"⟩), (⟨"a", "Topic"⟩, ⟨"c", "News"⟩)]

theorem reads_relocateAll_topic : ∃ s s', ({} : Store).ingest topicDocuments = .ok s ∧ s.relocateAll topicMoves = .ok s' ∧
    ∀ node ∈ s.nodes, ∃ node', s'.node? (node.id.movedAll topicMoves) = some node' ∧
      s'.reads node' = (s.reads node).map (·.mapSource (·.movedAll topicMoves)) := by
  let s := ({} : Store).ingested topicDocuments
  have hplain : ∀ node ∈ s.nodes, node.properties.substitutions.isEmpty = true := by decide
  have himports : ∀ node ∈ s.nodes, ∀ r ∈ node.properties.scan, r.isImport = true → r.path ∈ s.exportNames := by decide
  have hfree : ∀ node ∈ s.nodes, ∀ r ∈ node.properties.scan, ∀ name ∈ r.targetName?, ⟨node.id.group, name⟩ ∉ s.ids →
      (∀ id ∈ s.ids, id.name ≠ name) ∧ ∀ move ∈ topicMoves, move.2.name ≠ name := by decide
  refine ⟨s, _, rfl, rfl, @reads_relocateAll s _ {} topicDocuments topicMoves rfl (fun node hn => List.isEmpty_iff.mp (hplain node hn)) ?_
    (fun node hn x hx => himports node hn _ hx rfl) (by decide) hfree rfl⟩
  intro d hd output hout hname
  rcases List.mem_pair.mp hd with rfl | rfl
  · rw [List.mem_singleton.mp hout]
    exact ⟨"Topic", none, rfl⟩
  · cases hout

end Store

end Regroup
