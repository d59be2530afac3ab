/-
  Regroup.Proofs.Documents — what the generated template of a group holds.

  Addresses are unique, so no resource overrides another one (`resources_generate`), and each
  export of the group is one output (`outputs_generate`). In a tree `localize` answers a local
  reference with itself or an import, so a template names locally what the trees and the
  published expressions name, and the sources of the group's exports (`names_localized`).
-/

import Regroup.Proofs.Grounded
import Regroup.Template.Generation

namespace Regroup

/-! ## Fields -/

namespace Fields

variable {α : Type}

theorem foldl_put_of_nodup {pairs done : List (String × α)} (h : (keys (done ++ pairs)).Nodup) :
    pairs.foldl (fun fs (k, v) => put k v fs) done = done ++ pairs := by
  induction pairs generalizing done with
  | nil => exact (List.append_nil done).symm
  | cons pair pairs ih =>
    have hassoc : done ++ pair :: pairs = done ++ [pair] ++ pairs := by simp
    have hnew : pair.1 ∉ keys done := by
      simp only [keys, List.map_append, List.map_cons] at h
      exact fun hin => (List.nodup_append.mp h).2.2 _ hin _ (List.mem_cons_self ..) rfl
    have hput : put pair.1 pair.2 done = done ++ [pair] := put_of_not_mem hnew
    rw [hassoc] at h ⊢
    rw [← ih h, ← hput]
    rfl

theorem find?_of_mem {fields : Fields α} (h : (keys fields).Nodup) {key : String} {value : α} (hin : (key, value) ∈ fields) :
    fields.find? key = some value := by
  induction fields with
  | nil => cases hin
  | cons field fields ih =>
    obtain ⟨name, first⟩ := field
    obtain ⟨hnot, hrest⟩ := List.nodup_cons.mp h
    rcases List.mem_cons.mp hin with heq | hin
    · cases heq
      exact List.lookup_cons_self
    · have hkey : key ∈ keys fields := List.mem_map.mpr ⟨_, hin, rfl⟩
      have hne : key ≠ name := fun heq => hnot (heq ▸ hkey)
      have hskip : find? ((name, first) :: fields) key = find? fields key := by
        simp [find?, List.lookup_cons, beq_eq_false_iff_ne.mpr hne]
      rw [hskip, ih hrest hin]

/-- Pairs with different names stay as they are. -/
theorem ofPairs_of_nodup {pairs : List (String × α)} (h : (keys pairs).Nodup) : ofPairs pairs = pairs :=
  foldl_put_of_nodup h

end Fields

/-! ## Names -/

/-- A local reference of a resource or an output names `name`. -/
def Template.Names (template : Template) (name : String) : Prop :=
  (∃ resource ∈ template.resources, ∃ properties, resource.2.properties = some properties ∧ properties.Names name) ∨
    ∃ output ∈ template.outputs, output.2.value.Names name

theorem Tree.not_names_of_isEmpty {tree : Tree} (h : tree.isEmpty = true) (name : String) : ¬tree.Names name := by
  intro hnames
  obtain ⟨r, hr, _⟩ := hnames
  unfold isEmpty at h
  split at h
  · cases hr
  · rw [List.isEmpty_iff] at h
    subst h
    cases hr
  · cases h

namespace Store

variable {s : Store} {group name : String}

/-! ## Resources and outputs -/

theorem nodup_names_members (hids : s.ids.Nodup) (group : String) : ((s.members group).map (·.id.name)).Nodup := by
  have hnames : (s.members group).map (·.id.name) = ((s.members group).map (·.id)).map (·.name) := by simp
  have hsub : ((s.members group).map (·.id)).Nodup := (List.filter_sublist.map _).nodup hids
  rw [hnames]
  refine (List.nodup_map_iff_inj_on hsub).mpr fun a ha b hb hname => ?_
  obtain ⟨n, hn, rfl⟩ := List.mem_map.mp ha
  obtain ⟨m, hm, rfl⟩ := List.mem_map.mp hb
  have hgroup : ∀ {node : Node}, node ∈ s.members group → node.id.group = group := fun h => by
    simpa using (List.mem_filter.mp h).2
  exact Address.ext ((hgroup hn).trans (hgroup hm).symm) hname

theorem resources_generate (hids : s.ids.Nodup) (group : String) :
    (s.generate group).resources = (s.members group).map fun node => (node.id.name, s.resourceFor group node) := by
  refine Fields.ofPairs_of_nodup ?_
  rw [Fields.keys, List.map_map]
  exact nodup_names_members hids group

theorem map_snd_outputsFrom (s : Store) (done : Fields Output) (es : List Export) :
    (s.outputsFrom done es).map (·.2) =
      done.map (·.2) ++ es.map fun e => { value := e.expression, exportName := some (.text e.name) } := by
  induction es generalizing done with
  | nil => simp [outputsFrom]
  | cons e es ih => simp [outputsFrom, ih]

/-- Every export of the group is one output. -/
theorem outputs_generate (s : Store) (group : String) : (s.generate group).outputs.map (·.2) =
    (s.exportsIn group).map fun e => { value := e.expression, exportName := some (.text e.name) } :=
  map_snd_outputsFrom s [] _

theorem names_generate_iff (hids : s.ids.Nodup) : (s.generate group).Names name ↔
    (∃ node ∈ s.members group, (s.localizedProperties group node).Names name) ∨
      ∃ e ∈ s.exportsIn group, e.expression.Names name := by
  unfold Template.Names
  rw [resources_generate hids]
  refine or_congr ?_ ?_
  · simp only [List.mem_map, exists_exists_and_eq_and]
    refine exists_congr fun node => and_congr_right fun _ => ?_
    unfold resourceFor
    by_cases hempty : (s.localizedProperties group node).isEmpty = true
    · simp [hempty, Tree.not_names_of_isEmpty hempty]
    · simp [hempty]
  · have hvalue : ∀ output : Output, output ∈ (s.generate group).outputs.map (·.2) ↔
        ∃ e ∈ s.exportsIn group, { value := e.expression, exportName := some (.text e.name) } = output := by
      intro output
      rw [outputs_generate, List.mem_map]
    constructor
    · intro h
      obtain ⟨output, hmem, hnames⟩ := h
      obtain ⟨e, he, heq⟩ := (hvalue output.2).mp (List.mem_map_of_mem hmem)
      exact ⟨e, he, by rw [← heq] at hnames; exact hnames⟩
    · intro h
      obtain ⟨e, he, hnames⟩ := h
      obtain ⟨output, hmem, heq⟩ := List.mem_map.mp ((hvalue _).mpr ⟨e, he, rfl⟩)
      exact ⟨output, hmem, by rw [heq]; exact hnames⟩

/-! ## Trees -/

theorem localize_ofTarget (references : List Edge) (name : String) (attr : Option String) :
    s.localize group references (.ofTarget name attr) = if s.has ⟨group, name⟩ then none
      else (references.find? fun e => e.target.name == name && e.target.group != group && e.attr == attr).bind
        fun edge => (s.exportOf? edge.target attr).bind fun e => some (.imported e.name) := by
  cases attr <;> rfl

/-- A local reference stays, or becomes an import along an edge to another group with its attribute. -/
theorem answer_localize_ofTarget (references : List Edge) (name : String) (attr : Option String) :
    (Reference.ofTarget name attr).answer (s.localize group references) = .ofTarget name attr ∨
      ∃ edge ∈ references, edge.target.group ≠ group ∧ edge.attr = attr ∧ ∃ e, s.exportOf? edge.target attr = some e ∧
        (Reference.ofTarget name attr).answer (s.localize group references) = .imported e.name := by
  rw [Reference.answer_eq, localize_ofTarget]
  split
  · exact Or.inl rfl
  · rcases hedge : references.find? _ with _ | edge
    · exact Or.inl rfl
    · have hfound := List.find?_some hedge
      simp only [Bool.and_eq_true, beq_iff_eq, bne_iff_ne] at hfound
      obtain ⟨⟨_, haway⟩, hattr⟩ := hfound
      rcases he : s.exportOf? edge.target attr with _ | e
      · exact Or.inl (by simp [he])
      · exact Or.inr ⟨edge, List.mem_of_find?_eq_some hedge, haway, hattr, e, he, by simp [he]⟩

/-- A local reference stays or becomes an import. -/
theorem answer_localize_local {references : List Edge} {r : Reference} (h : r.isImport = false) :
    r.answer (s.localize group references) = r ∨ (r.answer (s.localize group references)).isImport = true := by
  rcases r.eq_imported_or_ofTarget with ⟨x, rfl⟩ | ⟨name, attr, rfl⟩
  · cases h
  · refine (answer_localize_ofTarget references name attr).imp_right fun h => ?_
    obtain ⟨_, _, _, _, e, _, h⟩ := h
    rw [h]
    rfl

/-- An import stays, or becomes a reference to the source of an export of the group. -/
theorem answer_localize_import (references : List Edge) (x : String) :
    (Reference.imported x).answer (s.localize group references) = .imported x ∨
      ∃ e attr, s.export? x = some e ∧ e.source.group = group ∧ e.exposure = .ofAttr attr ∧
        (Reference.imported x).answer (s.localize group references) = .ofTarget e.source.name attr := by
  rw [Reference.answer_eq, localize]
  rcases he : s.export? x with _ | e
  · exact Or.inl rfl
  · by_cases hgroup : e.source.group = group
    · rcases hexp : e.exposure with _ | _ | attr
      · exact Or.inl (by simp [hexp])
      · exact Or.inr ⟨e, none, rfl, hgroup, hexp, by simp [hexp, hgroup, Reference.ofTarget]⟩
      · exact Or.inr ⟨e, some attr, rfl, hgroup, hexp, by simp [hexp, hgroup, Reference.ofTarget]⟩
    · exact Or.inl (by simp [hgroup])

/-- What `localize` makes of a placeholder can be written into one. -/
theorem writable_localize (references : List Edge) (sub : Substitution) : sub.Writable (s.localize group references) := by
  intro q hq hl
  obtain ⟨r, hr, rfl⟩ := List.mem_map.mp hq
  rcases answer_localize_local (Placeholder.isImport_of_mem_references _ hr) with h | h
  · rw [h]
    exact (Substitution.fits_of_mem_references hr).1
  · rw [h] at hl
    cases hl

/-- A localized tree names what the tree names, and sources of the group's exports. -/
theorem names_localized {node : Node} (h : (s.localizedProperties group node).Names name) :
    node.properties.Names name ∨ ∃ e ∈ s.exports, e.source = ⟨group, name⟩ := by
  obtain ⟨r', hr', hname⟩ := h
  obtain ⟨r, hr, rfl⟩ := Tree.exists_of_mem_scan_redirect hr' (Or.inr fun sub _ => writable_localize _ sub)
  rcases r.eq_imported_or_ofTarget with ⟨x, rfl⟩ | ⟨n, attr, rfl⟩
  · rcases answer_localize_import _ x with h | ⟨e, attr, he, hgroup, _, h⟩
    · rw [h] at hname
      cases hname
    · rw [h, Reference.targetName?_ofTarget, Option.some.injEq] at hname
      exact Or.inr ⟨e, (mem_of_export? he).1, Address.ext hgroup hname⟩
  · rcases answer_localize_local (Reference.isImport_ofTarget n attr) with h | h
    · rw [h] at hname
      exact Or.inl ⟨_, hr, hname⟩
    · generalize Reference.answer _ _ = q at h hname
      cases q with
      | imported x => cases hname
      | _ => cases h

end Store

end Regroup
