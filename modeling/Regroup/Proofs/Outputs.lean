/-
  Regroup.Proofs.Outputs — the output ids of the exports.

  The template of a group gives each of its exports as the output with the export's id, so exports
  of one group may not have the same one. A move brings the exports of a node into a group that
  has some of its own, and makes others in either group. Each in turn takes an id that is free by
  then (`labelled_rekeyExportList_of_ne`, `labelled_materialize`), so no two come to have the same
  one, and generation, which would number them otherwise, gives every export under its own id
  (`forall₂_outputsFrom`).
-/

import Regroup.Proofs.Consistency
import Regroup.Proofs.Documents

namespace Regroup

variable {origin destination : Address}

/-! ## Lists of exports -/

namespace Export

/-- The group whose template gives the export, and the id of the output that does. -/
def label (e : Export) : String × Option String := (e.source.group, e.outputId)

/-- Every export has an output id, and no two of one group have the same. -/
structure Labelled (es : List Export) : Prop where
  known : ∀ e ∈ es, e.outputId.isSome = true
  distinct : (es.map label).Nodup

theorem Labelled.sublist {es es' : List Export} (h : Labelled es) (hsub : es'.Sublist es) : Labelled es' :=
  ⟨fun e he => h.known e (hsub.subset he), (hsub.map label).nodup h.distinct⟩

theorem labelled_cons_iff {e : Export} {es : List Export} :
    Labelled (e :: es) ↔ e.outputId.isSome = true ∧ e.label ∉ es.map label ∧ Labelled es := by
  constructor
  · rintro ⟨hknown, hdistinct⟩
    rw [List.forall_mem_cons] at hknown
    rw [List.map_cons, List.nodup_cons] at hdistinct
    exact ⟨hknown.1, hdistinct.1, hknown.2, hdistinct.2⟩
  · rintro ⟨hknown, hnew, hes⟩
    exact ⟨List.forall_mem_cons.mpr ⟨hknown, hes.known⟩, List.nodup_cons.mpr ⟨hnew, hes.distinct⟩⟩

theorem Labelled.concat {e : Export} {es : List Export} (h : Labelled es) (hknown : e.outputId.isSome = true)
    (hnew : e.label ∉ es.map label) : Labelled (es ++ [e]) := by
  refine ⟨fun e' he' => ?_, ?_⟩
  · rcases List.mem_append.mp he' with he' | he'
    · exact h.known e' he'
    · exact List.mem_singleton.mp he' ▸ hknown
  · rw [List.map_append, List.map_singleton, ← List.concat_eq_append]
    exact h.distinct.concat hnew

/-- The output gives the export under its id, and publishes its expression under its name. -/
structure Given (e : Export) (output : String × Output) : Prop where
  id : e.outputId = some output.1
  content : output.2 = { value := e.expression, exportName := some (.text e.name) }

end Export

namespace Store

variable {s s' : Store} {group id : String}

theorem mem_outputIds_iff : id ∈ s.outputIds group ↔ (group, some id) ∈ s.exports.map Export.label := by
  simp [outputIds, exportsIn, Export.label, and_assoc]

/-! ## A move -/

/-- Within its group a node keeps the ids of its exports. -/
theorem map_label_rekeyExportList (hgroup : origin.group = destination.group) (taken : List String) (es : List Export) :
    (rekeyExportList origin destination taken es).map Export.label = es.map Export.label := by
  induction es generalizing taken with
  | nil => rfl
  | cons e es ih =>
    unfold rekeyExportList
    split
    · rename_i hs
      have hlabel : (e.moved origin destination taken).label = e.label := by
        simp [Export.moved, Export.label, hgroup, hs]
      rw [List.map_cons, List.map_cons, ih, hlabel]
    · rw [List.map_cons, List.map_cons, ih]

/-- In another group each export takes an id that is not taken there, by an export of the group or
    by one that came before. What the list has in the group stays taken. -/
theorem labelled_rekeyExportList_of_ne (hgroup : origin.group ≠ destination.group) {es : List Export}
    (hes : Export.Labelled es) {taken : List String}
    (htaken : ∀ id, (destination.group, some id) ∈ es.map Export.label → id ∈ taken) :
    Export.Labelled (rekeyExportList origin destination taken es) ∧
      ∀ label ∈ (rekeyExportList origin destination taken es).map Export.label,
        label ∈ es.map Export.label ∨ ∃ id, label = (destination.group, some id) ∧ id ∉ taken := by
  induction es generalizing taken with
  | nil => exact ⟨hes, fun _ h => Or.inl h⟩
  | cons e es ih =>
    obtain ⟨hknown, hnew, hes⟩ := Export.labelled_cons_iff.mp hes
    have htaken' : ∀ id, (destination.group, some id) ∈ es.map Export.label → id ∈ taken :=
      fun id h => htaken id (List.mem_cons_of_mem _ h)
    unfold rekeyExportList
    split
    · obtain ⟨base, hbase⟩ := Option.isSome_iff_exists.mp hknown
      have hid : (e.moved origin destination taken).outputId = some (Fresh.name base "" taken) := by
        simp [Export.moved, hgroup, hbase]
      have hlabel : (e.moved origin destination taken).label = (destination.group, some (Fresh.name base "" taken)) := by
        rw [Export.label, hid]
        rfl
      obtain ⟨hrest, hlabels⟩ := ih hes fun id h =>
        List.mem_append_left (e.moved origin destination taken).outputId.toList (htaken' id h)
      rw [List.map_cons, List.forall_mem_cons, hlabel]
      refine ⟨Export.labelled_cons_iff.mpr ⟨by rw [hid]; rfl, fun hin => ?_, hrest⟩,
        Or.inr ⟨_, rfl, Fresh.name_not_mem _ _ _⟩, fun label h => ?_⟩
      · rcases hlabels _ hin with h | ⟨id, heq, hfree⟩
        · rw [hlabel] at h
          exact Fresh.name_not_mem _ _ _ (htaken' _ h)
        · rw [hlabel] at heq
          cases heq
          exact hfree (List.mem_append_right _ (by simp [hid]))
      · rcases hlabels label h with h | ⟨id, rfl, hfree⟩
        · exact Or.inl (List.mem_cons_of_mem _ h)
        · exact Or.inr ⟨id, rfl, fun hin => hfree (List.mem_append_left _ hin)⟩
    · obtain ⟨hrest, hlabels⟩ := ih hes htaken'
      rw [List.map_cons, List.forall_mem_cons]
      refine ⟨Export.labelled_cons_iff.mpr ⟨hknown, fun hin => ?_, hrest⟩, Or.inl (List.mem_cons_self ..), fun label h => ?_⟩
      · rcases hlabels _ hin with h | ⟨id, heq, hfree⟩
        · exact hnew h
        · exact hfree (htaken id (heq ▸ List.mem_cons_self ..))
      · exact (hlabels label h).imp_left (List.mem_cons_of_mem _)

theorem labelled_departed (h : Export.Labelled s.exports) (origin destination : Address) :
    Export.Labelled (s.departed origin destination).store.exports := by
  have hexports : (s.departed origin destination).store.exports = rekeyExportList origin destination
      (if origin.group = destination.group then [] else s.outputIds destination.group) s.exports := rfl
  rw [hexports]
  split
  · rename_i hgroup
    refine ⟨fun e' he' => ?_, ?_⟩
    · have hlabel : e'.label ∈ s.exports.map Export.label := by
        rw [← map_label_rekeyExportList hgroup [] s.exports]
        exact List.mem_map_of_mem he'
      obtain ⟨e, he, heq⟩ := List.mem_map.mp hlabel
      have hid : e.outputId = e'.outputId := congrArg Prod.snd heq
      exact hid ▸ h.known e he
    · rw [map_label_rekeyExportList hgroup]
      exact h.distinct
  · rename_i hgroup
    exact (labelled_rekeyExportList_of_ne hgroup h fun id hid => mem_outputIds_iff.mpr hid).1

/-- A new export takes an id that its group does not have. -/
theorem labelled_materialize (h : Export.Labelled s.exports) (target : Address) (attr : Option String) :
    Export.Labelled (s.materialize target attr).2.2.exports := by
  unfold materialize
  split
  · exact h
  · refine h.concat rfl fun hin => ?_
    exact Fresh.name_not_mem _ _ _ (mem_outputIds_iff.mpr hin)

theorem labelled_move (h : Export.Labelled s.exports) (origin destination : Address) :
    Export.Labelled (s.move origin destination).store.exports :=
  (Underway.exports_convertAll_induction _ _ (fun _ target attr h => labelled_materialize h target attr)
    (labelled_departed h origin destination)).sublist (exports_move s origin destination).1

/-! ## The outputs -/

/-- No id that is known and not yet given is numbered. -/
theorem forall₂_outputsFrom (s : Store) {es : List Export} (hknown : ∀ e ∈ es, e.outputId.isSome = true) {done : Fields Output}
    (h : ((Fields.keys done).map some ++ es.map (·.outputId)).Nodup) : ∃ outputs, s.outputsFrom done es = done ++ outputs ∧
      List.Forall₂ Export.Given es outputs := by
  induction es generalizing done with
  | nil => exact ⟨[], (List.append_nil _).symm, .nil⟩
  | cons e es ih =>
    rw [List.forall_mem_cons] at hknown
    obtain ⟨id, hid⟩ := Option.isSome_iff_exists.mp hknown.1
    have hfree : id ∉ Fields.keys done := by
      intro hin
      refine (List.nodup_append.mp h).2.2 _ (List.mem_map_of_mem hin) _ (List.mem_cons_self ..) ?_
      exact hid.symm
    have hname : Fresh.name (e.outputId.getD (s.naming.outputId e.name none)) "" (Fields.keys done) = id := by
      rw [hid, Option.getD_some, Fresh.name_eq_base hfree]
    have hrest : ((Fields.keys (done ++ [(id, { value := e.expression, exportName := some (.text e.name) })])).map some ++
        es.map (·.outputId)).Nodup := by
      simpa [Fields.keys, hid] using h
    obtain ⟨outputs, heq, hgiven⟩ := ih hknown.2 hrest
    refine ⟨(id, { value := e.expression, exportName := some (.text e.name) }) :: outputs, ?_, .cons ⟨hid, rfl⟩ hgiven⟩
    rw [outputsFrom, hname, heq, List.append_assoc, List.singleton_append]

/-- If the exports have different ids, every output is an export under its id. -/
theorem forall₂_outputs_generate (h : Export.Labelled s.exports) (group : String) :
    List.Forall₂ Export.Given (s.exportsIn group) (s.generate group).outputs := by
  have hsub : (s.exportsIn group).Sublist s.exports := List.filter_sublist
  have hin := h.sublist hsub
  have hids : ((s.exportsIn group).map (·.outputId)).Nodup := by
    have hlabels : (s.exportsIn group).map Export.label = ((s.exportsIn group).map (·.outputId)).map (group, ·) := by
      rw [List.map_map]
      refine List.map_congr_left fun e he => ?_
      have hgroup : e.source.group = group := by simpa using (List.mem_filter.mp he).2
      rw [Export.label, hgroup]
      rfl
    exact (hlabels ▸ hin.distinct).of_map _
  have hnone : ((Fields.keys ([] : Fields Output)).map some ++ (s.exportsIn group).map (·.outputId)).Nodup := hids
  obtain ⟨outputs, heq, hgiven⟩ := forall₂_outputsFrom s hin.known hnone
  rw [generate, heq]
  exact hgiven

/-- However nodes are moved, no two exports of a group come to have the same output id, and the
    template of each group gives the exports of the group, in their order, under their ids. -/
theorem labelled_relocateAll {moves : List (Address × Address)} (hs : s.Consistent) (hlabels : Export.Labelled s.exports)
    (h : s.relocateAll moves = .ok s') : s'.Consistent ∧ Export.Labelled s'.exports ∧ ∀ group,
      List.Forall₂ Export.Given (s'.exportsIn group) (s'.generate group).outputs := by
  have hlabels' : Export.Labelled s'.exports :=
    relocateAll_induction (P := fun s => Export.Labelled s.exports) h (fun _ hs => labelled_move hs _ _) hlabels
  exact ⟨hs.relocateAll h, hlabels', fun group => forall₂_outputs_generate hlabels' group⟩

/-- A queue that refers to a topic, whose group has an output by the name that an export of the
    topic would get, and a reader with an output by the name of one of the queue's. -/
def crowdedStore : Store where
  nodes := [.new ⟨"a", "Topic"⟩ "topic", { Node.new ⟨"a", "Queue"⟩ "queue" with properties := (Reference.node "Topic").construct },
    .new ⟨"b", "Reader"⟩ "reader"]
  edges := [.between ⟨"a", "Queue"⟩ ⟨"a", "Topic"⟩ .value none]
  exports := [⟨"queue", ⟨"a", "Queue"⟩, some "Out", none⟩, ⟨"reader", ⟨"b", "Reader"⟩, some "Out", none⟩,
    ⟨"queue-arn", ⟨"a", "Queue"⟩, some "Out2", some (Reference.attrOf "Queue" "Arn").construct⟩,
    ⟨"topic-arn", ⟨"a", "Topic"⟩, some "TopicOutput", some (Reference.attrOf "Topic" "Arn").construct⟩]

/-- The queue joins the reader. -/
def crowdedMoves : List (Address × Address) := [(⟨"a", "Queue"⟩, ⟨"b", "Queue"⟩)]

/-- Both exports of the queue take other ids, and so does the one that is made for the topic. -/
theorem labelled_relocateAll_crowded : ∃ s', crowdedStore.relocateAll crowdedMoves = .ok s' ∧
    s'.exports.map Export.label = [("b", some "Out2"), ("b", some "Out"), ("b", some "Out22"), ("a", some "TopicOutput"),
      ("a", some "TopicOutput2")] ∧
    s'.Consistent ∧ Export.Labelled s'.exports ∧ ∀ group, List.Forall₂ Export.Given (s'.exportsIn group) (s'.generate group).outputs := by
  have hs : crowdedStore.Consistent := by decide
  have hlabels : Export.Labelled crowdedStore.exports := ⟨by decide, by decide⟩
  exact ⟨_, rfl, by decide, @labelled_relocateAll crowdedStore _ crowdedMoves hs hlabels rfl⟩

end Store

end Regroup
