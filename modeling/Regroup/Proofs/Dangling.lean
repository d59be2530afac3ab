/-
  Regroup.Proofs.Dangling — whether what is imported is published.

  A move brings no new name into the trees but those of the exports it makes
  (`importsWithin_move`), and it prunes no export that a tree still imports. Published
  expressions are not asked before an export is pruned. So a move leaves an import dangling
  exactly when an export that stays publishes an expression that imports one that goes
  (`noDangling_relocate_iff`).
-/

import Regroup.Proofs.Grounded

namespace Regroup

/-! ## Trees -/

/-- Every import of the tree is of one of the `names`. -/
def Tree.ImportsWithin (names : List String) (tree : Tree) : Prop :=
  ∀ r ∈ tree.scan, r.isImport = true → r.path ∈ names

namespace Tree

variable {names : List String} {tree : Tree}

instance (names : List String) (tree : Tree) : Decidable (tree.ImportsWithin names) :=
  inferInstanceAs (Decidable (∀ r ∈ tree.scan, r.isImport = true → r.path ∈ names))

theorem importsWithin_iff : tree.ImportsWithin names ↔ ∀ x, .imported x ∈ tree.scan → x ∈ names := by
  constructor
  · exact fun h x hx => h _ hx rfl
  · intro h r hr hi
    cases r with
    | imported x => exact h x hr
    | _ => cases hi

theorem ImportsWithin.mono {names' : List String} (h : tree.ImportsWithin names) (hsub : names ⊆ names') :
    tree.ImportsWithin names' := fun r hr hi => hsub (h r hr hi)

/-- A redirected tree imports what the tree did and what the answers import. -/
theorem ImportsWithin.redirect {f : Reference → Option Reference} (h : tree.ImportsWithin names)
    (hf : ∀ r r', f r = some r' → r'.isImport = true → r'.path ∈ names) : (tree.redirect f).result.ImportsWithin names := by
  intro r' hr' hi
  obtain ⟨r, hr, rfl⟩ := exists_of_mem_scan_redirect hr' (Or.inl hi)
  rw [Reference.answer_eq] at hi ⊢
  rcases hanswer : f r with _ | q
  · rw [hanswer] at hi
    exact h r hr hi
  · rw [hanswer] at hi
    exact hf r q hanswer hi

theorem importsWithin_rename (old new : String) :
    (tree.rename old new).result.ImportsWithin names ↔ tree.ImportsWithin names := by
  simp only [importsWithin_iff, import_mem_rename]

/-- The expression that takes the place of an import brings its own imports. -/
theorem ImportsWithin.substitute {x : String} {p : Tree} (hinline : p.Inlinable) (h : tree.ImportsWithin names)
    (hp : p.ImportsWithin names) : (tree.substitute (.imported x) p).1.ImportsWithin names := by
  rw [importsWithin_iff] at h hp ⊢
  intro y hy
  rcases imports_substitute hinline hy with hy | hy
  · exact h y hy
  · exact hp y hy

end Tree

namespace Store

variable {s s' : Store} {origin destination a : Address} {names : List String}

/-- Every import of the store's trees is of one of the `names`. -/
def ImportsWithin (names : List String) (s : Store) : Prop := ∀ a t, s.tree? a = some t → t.ImportsWithin names

/-- What a tree or a published expression imports is published. -/
def NoDangling (s : Store) : Prop :=
  (∀ node ∈ s.nodes, node.properties.ImportsWithin s.exportNames) ∧
    ∀ e ∈ s.exports, e.expression.ImportsWithin s.exportNames

instance (s : Store) : Decidable s.NoDangling := inferInstanceAs (Decidable (_ ∧ _))

/-! ## Conversion -/

namespace Underway

variable {u : Underway}

theorem exportNames_subset_convert (u : Underway) (e : Edge) :
    u.store.exportNames ⊆ (u.convert origin destination e).store.exportNames := by
  rw [exportNames, exportNames, exports_convert]
  rcases u.store.materialize_cases e.target e.attr with ⟨_, _, hm⟩ | ⟨_, _, _, _, hm⟩
  · rw [hm]
    exact fun _ h => h
  · rw [hm, List.map_append]
    exact List.subset_append_left _ _

theorem importsWithin_convert (h : u.store.ImportsWithin u.store.exportNames) (e : Edge) :
    (u.convert origin destination e).store.ImportsWithin (u.convert origin destination e).store.exportNames := by
  intro a t ht
  rw [tree?_convert] at ht
  split at ht
  · obtain ⟨t₀, ht₀, rfl⟩ := Option.map_eq_some_iff.mp ht
    refine ((h a t₀ ht₀).mono (exportNames_subset_convert u e)).redirect fun r r' hr _ => ?_
    obtain ⟨_, hr⟩ := Option.ite_none_right_eq_some.mp hr
    cases hr
    obtain ⟨ex, hex, hname⟩ := exportOf?_materialize u.store e.target e.attr
    rw [← hname, exportNames, exports_convert]
    exact List.mem_map_of_mem (mem_of_exportOf? hex).1
  · exact (h a t ht).mono (exportNames_subset_convert u e)

theorem importsWithin_convertAll (es : List Edge) (h : u.store.ImportsWithin u.store.exportNames) :
    (es.foldl (convert origin destination) u).store.ImportsWithin (es.foldl (convert origin destination) u).store.exportNames := by
  induction es generalizing u with
  | nil => exact h
  | cons e es ih => exact ih (importsWithin_convert h e)

end Underway

/-! ## Restoration -/

/-- The published expressions can be inlined, and bring no other imports than of the `names`. -/
def BringsWithin (names : List String) (s : Store) : Prop :=
  ∀ e ∈ s.exports, e.expression.Inlinable ∧ e.expression.ImportsWithin names

theorem BringsWithin.inlining (h : s.BringsWithin names) : s.Inlining (Tree.ImportsWithin names) := by
  intro e he t x ht
  obtain ⟨hinline, hwithin⟩ := h e he
  exact ht.substitute hinline hwithin

/-! ## Moves -/

/-- Before pruning the trees import what was published, or is by then. -/
theorem ImportsWithin.converted (h : s.ImportsWithin s.exportNames) (hd : destination ∉ s.ids) :
    (s.converted origin destination).store.ImportsWithin (s.converted origin destination).store.exportNames := by
  refine Underway.importsWithin_convertAll _ ?_
  rw [exportNames_departed]
  exact Trees.departed h hd

theorem importsWithin_follows {e e' : Export} (hf : e.Follows origin destination e') :
    e'.expression.ImportsWithin names ↔ e.expression.ImportsWithin names := by
  simp only [Tree.importsWithin_iff, hf.import_mem_iff]

theorem IsMade.importsWithin {target : Address} {attr : Option String} {e : Export} (h : IsMade target attr e) :
    e.expression.ImportsWithin names := by
  intro r hr hi
  rw [Export.expression, h.2, Option.getD_some, Tree.scan_construct, List.mem_singleton] at hr
  rw [hr, Reference.isImport_ofTarget] at hi
  cases hi

theorem BringsWithin.converted (hinline : ∀ e ∈ s.exports, e.expression.Inlinable)
    (hvalues : ∀ e ∈ s.exports, e.expression.ImportsWithin names) :
    (s.converted origin destination).store.BringsWithin names := by
  intro e' he'
  rcases mem_exports_converted he' with ⟨e, he, hf⟩ | ⟨_, _, _, _, _, hm⟩
  · refine ⟨?_, (importsWithin_follows hf).mpr (hvalues e he)⟩
    rw [hf.expression]
    split
    · exact Tree.Inlinable.redirect (Reference.makesNoImports_renamed _ _) (fun _ => rfl) (hinline e he)
    · exact hinline e he
  · refine ⟨?_, hm.importsWithin⟩
    rw [Export.expression, hm.2, Option.getD_some]
    exact Tree.inlinable_of_reference? (reference?_construct _)

/-- A move brings no names into the trees but those of the exports it makes. -/
theorem importsWithin_move (hd : destination ∉ s.ids) (h : s.ImportsWithin s.exportNames)
    (hinline : ∀ e ∈ s.exports, e.expression.Inlinable) (hvalues : ∀ e ∈ s.exports, e.expression.ImportsWithin s.exportNames) :
    (s.move origin destination).store.ImportsWithin (s.exportNames ++ (s.move origin destination).report.created) := by
  have hconverted : (s.converted origin destination).store.ImportsWithin
      (s.exportNames ++ (s.move origin destination).report.created) := by
    rw [← exportNames_converted]
    exact h.converted hd
  have hbrings : (s.converted origin destination).store.BringsWithin
      (s.exportNames ++ (s.move origin destination).report.created) :=
    BringsWithin.converted hinline fun e he => (hvalues e he).mono (List.subset_append_left _ _)
  have hrestored := Trees.restoreAll (r := { toUnderway := s.converted origin destination }) hconverted hbrings.inlining
    (s.departed origin destination).report.restored
  exact Trees.move_of_restored hrestored fun t ht => (Tree.importsWithin_rename _ _).mpr ht

theorem noDangling_move_iff (hids : s.ids.Nodup) (hd : destination ∉ s.ids) (hs : s.NoDangling) :
    (s.move origin destination).store.NoDangling ↔
      (s.move origin destination).store.ImportsWithin (s.exportNames ++ (s.move origin destination).report.created) ∧
        ∀ e ∈ s.exports, e.name ∉ (s.move origin destination).report.pruned →
          ∀ x ∈ (s.move origin destination).report.pruned, .imported x ∉ e.expression.scan := by
  have hids' : (s.move origin destination).store.ids.Nodup := nodup_ids_move hids hd
  constructor
  · intro h
    obtain ⟨htrees, hvalues⟩ := h
    refine ⟨fun a t ht => ?_, fun e he hkept x hx hin => ?_⟩
    · obtain ⟨node, hn, _, rfl⟩ := exists_of_tree? ht
      refine (htrees node hn).mono ?_
      rw [← exportNames_converted]
      exact List.map_subset _ (exports_move s origin destination).1.subset
    · obtain ⟨e', he', hf⟩ := exists_follower_move he hkept
      have hwithin := (importsWithin_follows hf).mp (hvalues e' he')
      obtain ⟨ex, hex, rfl⟩ := List.mem_map.mp (Tree.importsWithin_iff.mp hwithin x hin)
      exact (mem_exports_move_iff.mp hex).2 hx
  · intro h
    obtain ⟨htrees, hvalues⟩ := h
    refine ⟨fun node hn => Tree.importsWithin_iff.mpr fun x hx => ?_,
      fun e' he' => Tree.importsWithin_iff.mpr fun x hx => ?_⟩
    · -- The export that the tree imports is not pruned.
      have ht := tree?_of_mem hids' hn
      have hpublished := Tree.importsWithin_iff.mp (htrees _ _ ht) x hx
      rw [← exportNames_converted] at hpublished
      obtain ⟨ex, hex, rfl⟩ := List.mem_map.mp hpublished
      exact List.mem_map_of_mem (mem_exports_move_of_import hex ht hx)
    · obtain ⟨hconverted, hkept⟩ := mem_exports_move_iff.mp he'
      rcases mem_exports_converted hconverted with ⟨e, he, hf⟩ | ⟨_, _, _, _, _, hm⟩
      · -- What the expression imports stays, since the export does.
        have hin := (hf.import_mem_iff x).mp hx
        obtain ⟨ex, hex, rfl⟩ := List.mem_map.mp (Tree.importsWithin_iff.mp (hs.2 e he) x hin)
        obtain ⟨ex', hex', hf'⟩ := exists_follower_move hex fun hgone => hvalues e he (hf.name ▸ hkept) ex.name hgone hin
        exact hf'.name ▸ List.mem_map_of_mem hex'
      · exact Tree.importsWithin_iff.mp hm.importsWithin x hx

/-- What a relocation leaves dangling. If the trees import what was published or made, nothing
    dangles exactly when no export that stays publishes an import of one that goes; and the trees
    do so if the expressions import the same wherever they are read. -/
theorem noDangling_relocate_iff (hids : s.ids.Nodup) (hs : s.NoDangling) {r : Relocation}
    (h : s.relocate origin destination = .ok (r, s')) :
    (s'.NoDangling ↔ s'.ImportsWithin (s.exportNames ++ r.created) ∧
      ∀ e ∈ s.exports, e.name ∉ r.pruned → ∀ x ∈ r.pruned, .imported x ∉ e.expression.scan) ∧
    ((∀ e ∈ s.exports, e.expression.Inlinable) → s'.ImportsWithin (s.exportNames ++ r.created)) := by
  have htrees : s.ImportsWithin s.exportNames := by
    intro a t ht
    obtain ⟨node, hn, _, rfl⟩ := exists_of_tree? ht
    exact hs.1 node hn
  rcases relocate_eq_ok h with ⟨_, rfl, hcreated, hpruned⟩ | ⟨_, _, hd, rfl, rfl⟩
  · rw [hcreated, hpruned, List.append_nil]
    exact ⟨iff_of_true hs ⟨htrees, by simp⟩, fun _ => htrees⟩
  · exact ⟨noDangling_move_iff hids hd hs, fun hinline => importsWithin_move hd htrees hinline hs.2⟩

/-- An export publishes a value with an import in it, of what another group publishes. -/
def relayedDocuments : List Document :=
  [⟨"a", { resources := [("A", { kind := "topic" })]
           outputs := [("Both", { value := Tree.call "Fn::Join" (.list [.text "", .list [(Reference.node "A").construct,
             (Reference.imported "topic").construct]]), exportName := some (.text "both") })] }⟩,
   ⟨"b", { resources := [("Topic", { kind := "topic" })]
           outputs := [("TopicRef", { value := (Reference.node "Topic").construct, exportName := some (.text "topic") })] }⟩,
   ⟨"c", { resources :=
             [("Reader", { kind := "reader", properties := some (Tree.call "From" (Reference.imported "topic").construct) })] }⟩]

/-- Without the first group the topic's export goes with its last reader, and nothing dangles. -/
theorem noDangling_relocate_topic : ∃ s r s', ({} : Store).ingest relayedDocuments.tail = .ok s ∧
    s.relocate ⟨"c", "Reader"⟩ ⟨"b", "Reader"⟩ = .ok (r, s') ∧ r.pruned = ["topic"] ∧ s'.NoDangling := by
  let s := ({} : Store).ingested relayedDocuments.tail
  refine ⟨s, _, _, rfl, rfl, by decide, ?_⟩
  obtain ⟨hiff, hwithin⟩ := @noDangling_relocate_iff s _ ⟨"c", "Reader"⟩ ⟨"b", "Reader"⟩ (by decide) (by decide) _ rfl
  refine hiff.mpr ⟨hwithin fun e he => ?_, by decide⟩
  rw [List.mem_singleton.mp he]
  exact Tree.inlinable_of_reference? (reference?_construct (.node "Topic"))

/-- The topic's export goes with its last reader, and the first group still publishes an import of it. -/
theorem relocate_leaves_dangling : ∃ s r s', ({} : Store).ingest relayedDocuments = .ok s ∧ s.NoDangling ∧
    s.relocate ⟨"c", "Reader"⟩ ⟨"b", "Reader"⟩ = .ok (r, s') ∧ ¬s'.NoDangling :=
  ⟨_, _, _, rfl, by decide, rfl, by decide⟩

end Store

end Regroup
