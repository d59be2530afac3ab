/-
  Regroup.Proofs.Conversion — references that become imports.

  Each converted edge takes the export of its value, made if there is none, and its source
  imports that in place of the reference. The exports only grow (`exports_convertAll`), so what
  one edge took every later one of the same value takes too, and a whole run of conversions
  answers each reference once (`conversion`, `tree?_convertAll`).
-/

import Regroup.Proofs.Departure

namespace Regroup

namespace Store

variable {s : Store} {target : Address} {attr : Option String}

/-! ## The export of a value -/

/-- An export that is made for a value shows exactly that. -/
def IsMade (target : Address) (attr : Option String) (e : Export) : Prop :=
  e.source = target ∧ e.value = some (Reference.ofTarget target.name attr).construct

theorem reference?_ofTarget {tree : Tree} {name : String} (h : tree.reference? = some (.ofTarget name attr)) :
    Exposure.ofReference name tree.reference? = .ofAttr attr := by
  rw [h]
  cases attr <;> simp [Reference.ofTarget, Exposure.ofReference, Exposure.ofAttr]

theorem IsMade.exposes {e : Export} (h : IsMade target attr e) : e.exposes target attr = true := by
  obtain ⟨hs, hv⟩ := h
  simp only [Export.exposes, Export.exposure, hs, hv, beq_self_eq_true, Bool.true_and, beq_iff_eq]
  exact reference?_ofTarget (reference?_construct _)

theorem materialize_cases (s : Store) (target : Address) (attr : Option String) :
    (∃ e, s.exportOf? target attr = some e ∧ s.materialize target attr = (e.name, false, s)) ∨
    (s.exportOf? target attr = none ∧ ∃ e, IsMade target attr e ∧ e.name ∉ s.exportNames ∧
      s.materialize target attr = (e.name, true, { s with exports := s.exports ++ [e] })) := by
  rcases h : s.exportOf? target attr with _ | e
  · let made : Export := ⟨Fresh.name (s.naming.exportName target attr) s.naming.separator s.exportNames, target,
      some (Fresh.name (s.naming.outputId target.name attr) "" (s.outputIds target.group)),
      some (Reference.ofTarget target.name attr).construct⟩
    exact Or.inr ⟨rfl, made, ⟨rfl, rfl⟩, Fresh.name_not_mem _ _ _, by rw [materialize, h]⟩
  · exact Or.inl ⟨e, rfl, by rw [materialize, h]⟩

theorem exportOf?_append {e : Export} (h : s.exportOf? target attr = some e) (made : List Export) :
    { s with exports := s.exports ++ made }.exportOf? target attr = some e := by
  rw [exportOf?] at h ⊢
  rw [List.find?_append, h]
  rfl

/-- Afterwards the export is the one that shows the value. -/
theorem exportOf?_materialize (s : Store) (target : Address) (attr : Option String) :
    ∃ e, (s.materialize target attr).2.2.exportOf? target attr = some e ∧ e.name = (s.materialize target attr).1 := by
  rcases s.materialize_cases target attr with ⟨e, he, hm⟩ | ⟨hnone, e, he, _, hm⟩
  · rw [hm]
    exact ⟨e, he, rfl⟩
  · rw [hm]
    refine ⟨e, ?_, rfl⟩
    rw [exportOf?] at hnone ⊢
    rw [List.find?_append, hnone, Option.none_or]
    simp only [List.find?_cons, he.exposes]

theorem nodup_exportNames_materialize (h : s.exportNames.Nodup) (target : Address) (attr : Option String) :
    (s.materialize target attr).2.2.exportNames.Nodup := by
  rcases s.materialize_cases target attr with ⟨_, _, hm⟩ | ⟨_, e, _, hfresh, hm⟩
  · rw [hm]
    exact h
  · rw [hm, exportNames, List.map_append, List.map_singleton, ← List.concat_eq_append]
    exact h.concat hfresh

theorem tree?_redirectNode (s : Store) (id a : Address) (f : Reference → Option Reference) :
    (s.redirectNode id f).1.tree? a = if a = id then (s.tree? a).map fun t => (t.redirect f).result else s.tree? a :=
  tree?_updateNode s id a fun t => (t.redirect f).result

theorem headers_redirectNode (s : Store) (id : Address) (f : Reference → Option Reference) :
    (s.redirectNode id f).1.headers = s.headers := by
  change (s.updateNode id fun node => { node with properties := (node.properties.redirect f).result }).headers = s.headers
  rw [updateNode_eq_mapTrees s id fun t => (t.redirect f).result, headers_mapTrees]

/-- How the source's tree writes the reference that the edge stands for. -/
def written (origin destination : Address) (e : Edge) : Reference := .ofTarget (e.writtenName origin destination) e.attr

namespace Underway

variable {origin destination : Address}

/-! ## One reference -/

section Step

variable (u : Underway) (e : Edge)

theorem edges_convert : (u.convert origin destination e).store.edges = u.store.edges := by
  rcases u.store.materialize_cases e.target e.attr with ⟨_, _, hm⟩ | ⟨_, _, _, _, hm⟩ <;>
    simp only [convert, hm, redirectNode, updateNode]

theorem headers_convert : (u.convert origin destination e).store.headers = u.store.headers := by
  rcases u.store.materialize_cases e.target e.attr with ⟨_, _, hm⟩ | ⟨_, _, _, _, hm⟩ <;>
    simp only [convert, hm, headers_redirectNode]; rfl

theorem exports_convert :
    (u.convert origin destination e).store.exports = (u.store.materialize e.target e.attr).2.2.exports := rfl

/-- Only what is made and what is changed in the trees is reported. -/
theorem report_convert : { (u.convert origin destination e).report with created := [], redirected := 0 } =
    { u.report with created := [], redirected := 0 } := rfl

theorem tree?_convert (a : Address) :
    (u.convert origin destination e).store.tree? a =
      if a = e.source then (u.store.tree? a).map fun t => (t.redirect fun r =>
        if r = written origin destination e then some (.imported (u.store.materialize e.target e.attr).1) else none).result
      else u.store.tree? a := by
  have htree : (u.store.materialize e.target e.attr).2.2.tree? a = u.store.tree? a := by
    rcases u.store.materialize_cases e.target e.attr with ⟨_, _, hm⟩ | ⟨_, _, _, _, hm⟩
    · rw [hm]
    · rw [hm]
      rfl
  have := tree?_redirectNode (u.store.materialize e.target e.attr).2.2 e.source a fun r =>
    if r = written origin destination e then some (.imported (u.store.materialize e.target e.attr).1) else none
  rw [htree] at this
  exact this

end Step

/-! ## All references -/

section Run

variable (es : List Edge) (u : Underway)

theorem edges_convertAll : (es.foldl (convert origin destination) u).store.edges = u.store.edges := by
  induction es generalizing u with
  | nil => rfl
  | cons e es ih => rw [List.foldl_cons, ih, edges_convert]

theorem headers_convertAll : (es.foldl (convert origin destination) u).store.headers = u.store.headers := by
  induction es generalizing u with
  | nil => rfl
  | cons e es ih => rw [List.foldl_cons, ih, headers_convert]

theorem report_convertAll : { (es.foldl (convert origin destination) u).report with created := [], redirected := 0 } =
    { u.report with created := [], redirected := 0 } := by
  induction es generalizing u with
  | nil => rfl
  | cons e es ih => rw [List.foldl_cons, ih, report_convert]

theorem tree?_convertAll_of_ne {a : Address} (h : ∀ e ∈ es, e.source ≠ a) :
    (es.foldl (convert origin destination) u).store.tree? a = u.store.tree? a := by
  induction es generalizing u with
  | nil => rfl
  | cons e es ih =>
    have hne : a ≠ e.source := Ne.symm (h e (List.mem_cons_self ..))
    rw [List.foldl_cons, ih _ fun e' he' => h e' (List.mem_cons_of_mem _ he'), tree?_convert, if_neg hne]

/-- The exports stay, and those that are made come behind them and are reported. -/
theorem exports_convertAll (origin destination : Address) (es : List Edge) (u : Underway) : ∃ made,
    (es.foldl (convert origin destination) u).store.exports = u.store.exports ++ made ∧
    (es.foldl (convert origin destination) u).report.created = u.report.created ++ made.map (·.name) ∧
    ∀ e ∈ made, ∃ edge ∈ es, IsMade edge.target edge.attr e := by
  induction es generalizing u with
  | nil => exact ⟨[], (List.append_nil _).symm, (List.append_nil _).symm, by simp⟩
  | cons edge es ih =>
    obtain ⟨made, hexports, hcreated, hmade⟩ := ih (u.convert origin destination edge)
    have hlift : ∀ e ∈ made, ∃ edge' ∈ edge :: es, IsMade edge'.target edge'.attr e := by
      intro e he
      obtain ⟨edge', hedge, h⟩ := hmade e he
      exact ⟨edge', List.mem_cons_of_mem _ hedge, h⟩
    rcases u.store.materialize_cases edge.target edge.attr with ⟨_, _, hm⟩ | ⟨_, e, he, _, hm⟩
    · refine ⟨made, ?_, ?_, hlift⟩
      · rw [List.foldl_cons, hexports, exports_convert, hm]
      · rw [List.foldl_cons, hcreated]
        simp [convert, hm]
    · refine ⟨e :: made, ?_, ?_, List.forall_mem_cons.mpr ⟨⟨edge, List.mem_cons_self .., he⟩, hlift⟩⟩
      · rw [List.foldl_cons, hexports, exports_convert, hm, List.append_assoc, List.singleton_append]
      · rw [List.foldl_cons, hcreated]
        simp [convert, hm]

/-- What the exports keep when one is made, they keep in all conversions. -/
theorem exports_convertAll_induction {P : List Export → Prop}
    (hmake : ∀ (s : Store) (target : Address) (attr : Option String), P s.exports → P (s.materialize target attr).2.2.exports)
    (h : P u.store.exports) : P (es.foldl (convert origin destination) u).store.exports := by
  induction es generalizing u with
  | nil => exact h
  | cons e es ih =>
    refine ih _ ?_
    rw [exports_convert]
    exact hmake u.store e.target e.attr h

theorem exportOf?_convertAll (origin destination : Address) (es : List Edge) {u : Underway} {target : Address}
    {attr : Option String} {e : Export}
    (h : u.store.exportOf? target attr = some e) :
    (es.foldl (convert origin destination) u).store.exportOf? target attr = some e := by
  obtain ⟨made, hexports, _, _⟩ := exports_convertAll origin destination es u
  have := exportOf?_append h made
  rw [exportOf?] at this ⊢
  rwa [hexports]

/-- Every converted edge has an export of its value. -/
theorem exists_exportOf?_convertAll {edge : Edge} (h : edge ∈ es) :
    ∃ e, (es.foldl (convert origin destination) u).store.exportOf? edge.target edge.attr = some e := by
  induction es generalizing u with
  | nil => cases h
  | cons edge' es ih =>
    rcases List.mem_cons.mp h with rfl | h
    · obtain ⟨e, he, _⟩ := exportOf?_materialize u.store edge.target edge.attr
      exact ⟨e, exportOf?_convertAll _ _ es he⟩
    · exact ih _ h

/-! ## Trees -/

/-- The import that stands for the value of the edge. -/
def importOf (s : Store) (e : Edge) : Reference := .imported (((s.exportOf? e.target e.attr).map (·.name)).getD "")

/-- What becomes of a reference in the tree at `a`. -/
def conversion (origin destination : Address) (s : Store) (es : List Edge) (a : Address) (r : Reference) : Reference :=
  match es.find? fun e => e.source = a ∧ written origin destination e = r with
  | some e => importOf s e
  | none => r

theorem written_ne_imported (e : Edge) (name : String) : written origin destination e ≠ .imported name := by
  unfold written
  cases e.attr <;> simp [Reference.ofTarget]

theorem conversion_imported (s : Store) (a : Address) (name : String) :
    conversion origin destination s es a (.imported name) = .imported name := by
  have hnone : es.find? (fun e => e.source = a ∧ written origin destination e = .imported name) = none :=
    List.find?_eq_none.mpr fun e _ => by simp [written_ne_imported]
  rw [conversion, hnone]

theorem conversion_cons_of_ne {s : Store} {e : Edge} {a : Address} {r : Reference}
    (h : ¬(e.source = a ∧ written origin destination e = r)) :
    conversion origin destination s (e :: es) a r = conversion origin destination s es a r := by
  rw [conversion, List.find?_cons_of_neg (by simpa using h), conversion]

theorem keepsLocals_toImport (w : Reference) (name : String) :
    KeepsLocals fun r => if r = w then some (.imported name) else none := by
  intro r hl
  rw [Reference.answer_eq] at hl ⊢
  split
  · rename_i h
    rw [if_pos h] at hl
    cases hl
  · rfl

/-- After all conversions the tree refers to what its references have become. It may be of any
    kind `Q` of clear trees that making imports does not lead out of. -/
theorem tree?_convertAll {Q : Tree → Prop} {a : Address} (hclear : (∃ e ∈ es, e.source = a) → ∀ t, Q t → t.Clear)
    (hQ : (∃ e ∈ es, e.source = a) → ∀ f t, KeepsLocals f → Q t → Q (t.redirect f).result)
    {t : Tree} (ht : u.store.tree? a = some t) (hq : Q t) :
    ∃ t', (es.foldl (convert origin destination) u).store.tree? a = some t' ∧ Q t' ∧
      t'.scan.Perm (t.scan.map (conversion origin destination (es.foldl (convert origin destination) u).store es a)) := by
  induction es generalizing u t with
  | nil => exact ⟨t, ht, hq, List.Perm.of_eq (List.map_id _).symm⟩
  | cons e es ih =>
    have hlater : (∃ e' ∈ es, e'.source = a) → ∃ e' ∈ e :: es, e'.source = a :=
      fun ⟨e', he', h⟩ => ⟨e', List.mem_cons_of_mem _ he', h⟩
    obtain ⟨made, hmade, hname⟩ := exportOf?_materialize u.store e.target e.attr
    have hfinal : importOf ((e :: es).foldl (convert origin destination) u).store e =
        .imported (u.store.materialize e.target e.attr).1 := by
      have := exportOf?_convertAll origin destination es (u := u.convert origin destination e) hmade
      rw [importOf, List.foldl_cons, this, ← hname]
      rfl
    by_cases ha : a = e.source
    · have hfirst : ∃ e' ∈ e :: es, e'.source = a := ⟨e, List.mem_cons_self .., ha.symm⟩
      have ht₁ : (u.convert origin destination e).store.tree? a = some (t.redirect fun r =>
          if r = written origin destination e then some (.imported (u.store.materialize e.target e.attr).1)
          else none).result := by
        rw [tree?_convert, if_pos ha, ht]
        rfl
      obtain ⟨t', ht', hq', hperm⟩ := ih _ (fun h => hclear (hlater h)) (fun h => hQ (hlater h)) ht₁
        (hQ hfirst _ _ (keepsLocals_toImport _ _) hq)
      refine ⟨t', ht', hq', hperm.trans ?_⟩
      refine (((hclear hfirst t hq).scan_redirect (keepsLocals_toImport _ _)).map _).trans (List.Perm.of_eq ?_)
      rw [List.map_map]
      refine List.map_congr_left fun r _ => ?_
      rw [Function.comp_apply, Reference.answer_eq]
      by_cases hr : r = written origin destination e
      · rw [if_pos hr, Option.getD_some, conversion_imported, conversion, List.find?_cons_of_pos (by simp [ha, hr])]
        exact hfinal.symm
      · rw [if_neg hr, Option.getD_none, conversion_cons_of_ne]
        · rfl
        · exact fun hand => hr hand.2.symm
    · have ht₁ : (u.convert origin destination e).store.tree? a = some t := by rw [tree?_convert, if_neg ha, ht]
      obtain ⟨t', ht', hq', hperm⟩ := ih _ (fun h => hclear (hlater h)) (fun h => hQ (hlater h)) ht₁ hq
      refine ⟨t', ht', hq', hperm.trans (List.Perm.of_eq (List.map_congr_left fun r _ => ?_))⟩
      rw [conversion_cons_of_ne]
      · rfl
      · exact fun hand => ha hand.1.symm

end Run

end Underway

end Store

end Regroup
