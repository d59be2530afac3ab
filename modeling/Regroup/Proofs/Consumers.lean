/-
  Regroup.Proofs.Consumers — the trees that import an export, on the way through a move.

  An edge says which export its source should import, but `consumed` asks the trees, so what may
  be idle after a move depends on them. Conversions only add imports, of exports that show what
  the edges lead to (`imports_convertAll`). Where every export shows its source, a restored edge
  takes away what the tree imports of its target and nothing else (`imports_restoreAll`). So the
  exports that may be idle are known before the first edge is restored (`mem_idle_restoreAll`):
  of the edges between the same nodes only the first is asked.
-/

import Regroup.Proofs.Transit

namespace Regroup

/-- The published reference takes the place of these imports, and of no others. -/
theorem Export.Shows.import_mem_substitute {e : Export} {attr : Option String} (h : e.Shows attr) (tree : Tree)
    {x name : String} :
    .imported name ∈ (tree.substitute (.imported x) e.expression).1.scan ↔ name ≠ x ∧ .imported name ∈ tree.scan := by
  obtain ⟨⟨fields, hfields⟩, halone⟩ := h.standalone
  have hinline := Tree.inlinable_of_reference? h
  rw [hfields] at hinline halone ⊢
  exact Tree.import_mem_substitute_iff hinline halone

namespace Store

variable {s s' : Store} {origin destination a source target : Address} {attr : Option String} {x y name : String}

/-! ## Imports -/

theorem imports_congr (h : s'.tree? a = s.tree? a) : s'.Imports a x ↔ s.Imports a x := by
  rw [Imports, h, Imports]

/-- Only the imports of the target matter for what is consumed of it. -/
theorem mem_consumed_congr (hexports : s'.exports = s.exports)
    (h : ∀ y, (s.export? y).map (·.source) = some target → (s'.Imports source y ↔ s.Imports source y)) :
    x ∈ s'.consumed source target attr ↔ x ∈ s.consumed source target attr := by
  rw [mem_consumed_iff, mem_consumed_iff, exportOf?, hexports, ← exportOf?]
  simp only [export?_congr hexports]
  refine or_congr (and_congr_left (h x)) (and_congr_left fun _ => forall_congr' fun y => ?_)
  constructor
  · exact fun hno himport hs => hno ((h y hs).mpr himport) hs
  · exact fun hno himport hs => hno ((h y hs).mp himport) hs

/-! ## Conversion -/

namespace Underway

variable {u : Underway}

/-- The new imports are of the export of the value. -/
theorem imports_convert (e : Edge) (h : (u.convert origin destination e).store.Imports a x) :
    u.store.Imports a x ∨ (a = e.source ∧ x = (u.store.materialize e.target e.attr).1) := by
  obtain ⟨t', ht', hin⟩ := h
  rw [tree?_convert] at ht'
  split at ht'
  · rename_i ha
    obtain ⟨t, ht, rfl⟩ := Option.map_eq_some_iff.mp ht'
    obtain ⟨r, hr, hanswer⟩ := Tree.exists_of_mem_scan_redirect hin (Or.inl rfl)
    rw [Reference.answer_eq] at hanswer
    split at hanswer
    · cases hanswer
      exact Or.inr ⟨ha, rfl⟩
    · exact Or.inl ⟨t, ht, hanswer ▸ hr⟩
  · exact Or.inl ⟨t', ht', hin⟩

/-- An import is not converted. -/
theorem imports_convert_of_imports (e : Edge) (h : u.store.Imports a x) :
    (u.convert origin destination e).store.Imports a x := by
  obtain ⟨t, ht, hin⟩ := h
  rw [Imports, tree?_convert]
  split
  · refine ⟨_, congrArg (Option.map _) ht, ?_⟩
    have hkept : ∀ f : Reference → Option Reference, f (.imported x) = none →
        (Reference.imported x).answer f = .imported x := fun f hf => by rw [Reference.answer_eq, hf, Option.getD_none]
    have hanswer := hkept (fun r => if r = written origin destination e then
      some (.imported (u.store.materialize e.target e.attr).1) else none) (if_neg (written_ne_imported e x).symm)
    have := Tree.import_mem_scan_redirect hin (by rw [hanswer]; rfl)
    rwa [hanswer] at this
  · exact ⟨t, ht, hin⟩

theorem imports_convertAll_of_imports (es : List Edge) (h : u.store.Imports a x) :
    (es.foldl (convert origin destination) u).store.Imports a x := by
  induction es generalizing u with
  | nil => exact h
  | cons e es ih => exact ih (imports_convert_of_imports e h)

/-- All new imports are of the exports that the edges have by then. -/
theorem imports_convertAll (es : List Edge) (h : (es.foldl (convert origin destination) u).store.Imports a x) :
    u.store.Imports a x ∨ ∃ e ∈ es, a = e.source ∧
      ∃ ex, (es.foldl (convert origin destination) u).store.exportOf? e.target e.attr = some ex ∧ ex.name = x := by
  induction es generalizing u with
  | nil => exact Or.inl h
  | cons e es ih =>
    rcases ih h with h | ⟨e', he', hsource, hex⟩
    · refine (imports_convert e h).imp_right fun ⟨ha, hname⟩ => ⟨e, List.mem_cons_self .., ha, ?_⟩
      obtain ⟨ex, hex, hx⟩ := exportOf?_materialize u.store e.target e.attr
      exact ⟨ex, exportOf?_convertAll origin destination es (u := u.convert origin destination e) hex, hx.trans hname.symm⟩
    · exact Or.inr ⟨e', List.mem_cons_of_mem _ he', hsource, hex⟩

end Underway

/-! ## Restoration -/

theorem imports_inlineExport (hshows : ∀ e ∈ s.exports, ∃ attr, e.Shows attr) :
    (s.inlineExport source name).1.Imports a x ↔ s.Imports a x ∧ (a = source → x = name → s.export? x = none) := by
  rcases he : s.export? name with _ | e
  · rw [inlineExport, he]
    refine (and_iff_left fun _ hx => ?_).symm
    rw [hx, he]
  · by_cases ha : a = source
    · subst ha
      obtain ⟨_, hattr⟩ := hshows e (mem_of_export? he).1
      have hsome : ∀ t, s.tree? a = some t → (.imported x ∈ (t.substitute (.imported name) e.expression).1.scan ↔
          .imported x ∈ t.scan ∧ (x = name → s.export? x = none)) := by
        intro t _
        rw [hattr.import_mem_substitute, and_comm]
        refine and_congr_right fun _ => ⟨fun hne hx => absurd hx hne, fun hnone hx => ?_⟩
        have := hnone hx
        rw [hx, he] at this
        cases this
      constructor
      · rintro ⟨t', ht', hin⟩
        rw [inlineExport_eq_mapTrees he, tree?_mapTrees, if_pos rfl] at ht'
        obtain ⟨t, ht, rfl⟩ := Option.map_eq_some_iff.mp ht'
        obtain ⟨hin, hnone⟩ := (hsome t ht).mp hin
        exact ⟨⟨t, ht, hin⟩, fun _ => hnone⟩
      · rintro ⟨⟨t, ht, hin⟩, hnone⟩
        exact ⟨_, tree?_inlineExport he ht, (hsome t ht).mpr ⟨hin, hnone rfl⟩⟩
    · rw [imports_congr (tree?_inlineExport_of_ne ha)]
      exact (and_iff_left fun h => absurd h ha).symm

namespace Restoring

variable {r : Restoring}

/-- What an edge consumes may be idle after it was restored. -/
theorem mem_idle_restore (e : Edge) : x ∈ (r.restore e).idle ↔
    x ∈ r.idle ∨ ((e.source, e.target) ∉ r.handled ∧ x ∈ r.store.consumed e.source e.target e.attr) := by
  have hinline : ∀ (names : List String) (source : Address) (r : Restoring),
      x ∈ (names.foldl (inlineOne source) r).idle ↔ x ∈ r.idle ∨ x ∈ names := by
    intro names source r
    induction names generalizing r with
    | nil => simp
    | cons name names ih =>
      have hone : x ∈ (inlineOne source r name).idle ↔ x ∈ r.idle ∨ x = name := by
        by_cases hmem : name ∈ r.idle
        · simp only [inlineOne, if_pos hmem]
          exact (or_iff_left_of_imp fun hx => hx ▸ hmem).symm
        · simp only [inlineOne, if_neg hmem, List.mem_append, List.mem_singleton]
      rw [List.foldl_cons, ih, hone, or_assoc, List.mem_cons]
  rw [restore_eq]
  split
  · rename_i hh
    exact (or_iff_left fun h => h.1 hh).symm
  · rename_i hnew
    rw [hinline, and_iff_right hnew, mem_consumed_congr (exports_orderAfter _ _ _)
      fun _ _ => imports_congr (tree?_orderAfter _ _ _ _)]

section Shows

variable (hshows : ∀ e ∈ r.store.exports, ∃ attr, e.Shows attr)

include hshows

theorem imports_inlineAll (names : List String) : (names.foldl (inlineOne source) r).store.Imports a x ↔
    r.store.Imports a x ∧ (a = source → x ∈ names → r.store.export? x = none) := by
  induction names generalizing r with
  | nil => simp
  | cons name names ih =>
    have hexports : (inlineOne source r name).store.exports = r.store.exports := exports_inlineExport _ _ _
    have hfirst : (inlineOne source r name).store.Imports a x ↔
        r.store.Imports a x ∧ (a = source → x = name → r.store.export? x = none) := imports_inlineExport hshows
    rw [List.foldl_cons, ih (by rwa [hexports]), hfirst, export?_congr hexports, and_assoc, ← forall_and]
    simp only [List.mem_cons, or_imp]

/-- What a restored edge leaves of the imports: all but those of its target. -/
theorem imports_restore (hnames : r.store.exportNames.Nodup) {e : Edge} (hnew : (e.source, e.target) ∉ r.handled) :
    (r.restore e).store.Imports a x ↔
      r.store.Imports a x ∧ (a = e.source → (r.store.export? x).map (·.source) ≠ some e.target) := by
  have hexports : (r.store.orderAfter e.source e.target).exports = r.store.exports := exports_orderAfter _ _ _
  have hsame : ∀ {a x}, (r.store.orderAfter e.source e.target).Imports a x ↔ r.store.Imports a x :=
    imports_congr (tree?_orderAfter _ _ _ _)
  rw [restore_eq, if_neg hnew, imports_inlineAll (by rwa [hexports]), hsame, export?_congr hexports]
  refine and_congr_right fun himport => forall_congr' fun ha => ?_
  subst ha
  rw [mem_consumed_congr hexports fun _ _ => hsame]
  obtain ⟨t, ht, hin⟩ := himport
  rcases hex : r.store.export? x with _ | ex
  · simp
  · rw [mem_consumed e.target e.attr hnames ht hin hex]
    simp

end Shows

/-- A handled pair has nothing left to inline. -/
def Settled (r : Restoring) : Prop :=
  ∀ p ∈ r.handled, ∀ x, r.store.Imports p.1 x → (r.store.export? x).map (·.source) ≠ some p.2

section Run

variable (hshows : ∀ e ∈ r.store.exports, ∃ attr, e.Shows attr) (hnames : r.store.exportNames.Nodup)

include hshows hnames

theorem Settled.imports_restore (h : r.Settled) (e : Edge) : (r.restore e).store.Imports a x ↔
    r.store.Imports a x ∧ (a = e.source → (r.store.export? x).map (·.source) ≠ some e.target) := by
  by_cases hh : (e.source, e.target) ∈ r.handled
  · rw [restore_eq, if_pos hh, imports_congr (tree?_orderAfter _ _ _ _)]
    refine (and_iff_left_of_imp fun himport ha => ?_).symm
    exact h _ hh x (ha ▸ himport)
  · exact Restoring.imports_restore hshows hnames hh

theorem settled_restore (h : r.Settled) (e : Edge) : (r.restore e).Settled := by
  intro p hp x himport
  rw [h.imports_restore hshows hnames e] at himport
  rw [export?_congr (exports_restore e r)]
  rcases (handled_restore e r p).mp hp with hp | rfl
  · exact h p hp x himport.1
  · exact himport.2 rfl

/-- The imports that are left when all edges were restored. -/
theorem Settled.imports_restoreAll (h : r.Settled) (es : List Edge) : (es.foldl restore r).store.Imports a x ↔
    r.store.Imports a x ∧ ∀ e ∈ es, a = e.source → (r.store.export? x).map (·.source) ≠ some e.target := by
  induction es generalizing r with
  | nil => simp
  | cons e es ih =>
    have hexports := exports_restore e r
    rw [List.foldl_cons, ih (by rwa [hexports]) (by rwa [exportNames, hexports]) (settled_restore hshows hnames h e),
      h.imports_restore hshows hnames e, export?_congr hexports, and_assoc, List.forall_mem_cons]

/-- What may be idle when all edges were restored: what the first edge between two nodes makes of
    the trees as they were. -/
theorem Settled.mem_idle_restoreAll (h : r.Settled) (es : List Edge) : x ∈ (es.foldl restore r).idle ↔
    x ∈ r.idle ∨ ∃ c, es.find? (fun e => e.source = c.source ∧ e.target = c.target) = some c ∧
      (c.source, c.target) ∉ r.handled ∧ x ∈ r.store.consumed c.source c.target c.attr := by
  induction es generalizing r with
  | nil => simp
  | cons e es ih =>
    have hexports := exports_restore e r
    rw [List.foldl_cons, ih (by rwa [hexports]) (by rwa [exportNames, hexports]) (settled_restore hshows hnames h e),
      mem_idle_restore, or_assoc]
    -- A restored edge changes nothing of what is consumed between other nodes.
    have hlater : ∀ c : Edge, ¬(e.source = c.source ∧ e.target = c.target) →
        (((c.source, c.target) ∉ (r.restore e).handled ∧ x ∈ (r.restore e).store.consumed c.source c.target c.attr) ↔
          (c.source, c.target) ∉ r.handled ∧ x ∈ r.store.consumed c.source c.target c.attr) := by
      intro c hother
      rw [handled_restore, or_iff_left fun hp => hother ⟨(Prod.mk.inj hp).1.symm, (Prod.mk.inj hp).2.symm⟩]
      refine and_congr_right fun _ => mem_consumed_congr hexports fun y hy => ?_
      rw [h.imports_restore hshows hnames e]
      refine and_iff_left fun hsource htarget => hother ⟨hsource.symm, ?_⟩
      rw [hy] at htarget
      exact (Option.some.inj htarget).symm
    refine or_congr_right ⟨?_, ?_⟩
    · rintro (⟨hnew, hx⟩ | ⟨c, hfirst, hc⟩)
      · exact ⟨e, by simp, hnew, hx⟩
      · have hother : ¬(e.source = c.source ∧ e.target = c.target) :=
          fun heq => hc.1 ((handled_restore e r _).mpr (Or.inr (by rw [heq.1, heq.2])))
        refine ⟨c, ?_, (hlater c hother).mp hc⟩
        rw [List.find?_cons_of_neg (by simpa using hother), hfirst]
    · rintro ⟨c, hfirst, hc⟩
      by_cases heq : e.source = c.source ∧ e.target = c.target
      · rw [List.find?_cons_of_pos (by simpa using heq), Option.some.injEq] at hfirst
        exact Or.inl (hfirst ▸ hc)
      · rw [List.find?_cons_of_neg (by simpa using heq)] at hfirst
        exact Or.inr ⟨c, hfirst, (hlater c heq).mpr hc⟩

end Run

end Restoring

end Store

end Regroup
