/-
  Regroup.Proofs.RoundTrip — templates that come back from what they are written as.

  Absent parts are left out and read as absent, so nothing that is there may look absent: a
  resource's properties are not null, and what else is declared with it does not go by the name
  of one of its own parts. Names are given once at every level. Every template that is read is of
  this kind (`wellFormed_of_ofJson?`), and such a template is read back from JSON and from YAML
  (`WellFormed.reads`).
-/

import Regroup.Proofs.Keyed
import Regroup.Template.Codec

namespace Regroup

/-! ## Parts -/

namespace Fields

variable {α : Type} {parts : List (String × Option α)} {name : String}

/-- Those of the parts that are there. -/
def given (parts : List (String × Option α)) : Fields α := parts.filterMap fun (name, a) => a.map (name, ·)

theorem mem_given {a : α} : (name, a) ∈ given parts ↔ (name, some a) ∈ parts := by
  simp only [given, List.mem_filterMap, Prod.exists, Option.map_eq_some_iff, Prod.mk.injEq]
  constructor
  · rintro ⟨_, _, hin, _, rfl, rfl, rfl⟩
    exact hin
  · exact fun h => ⟨name, some a, h, a, rfl, rfl, rfl⟩

theorem keys_given (parts : List (String × Option α)) : (keys (given parts)).Sublist (keys parts) := by
  induction parts with
  | nil => exact .slnil
  | cons part rest ih =>
    obtain ⟨name, a⟩ := part
    cases a with
    | none => exact ih.cons name
    | some a => exact ih.cons_cons name

theorem find?_eq_none {fields : Fields α} (h : name ∉ keys fields) : fields.find? name = none := by
  refine List.lookup_eq_none_iff.mpr fun field hf => ?_
  simp only [bne_iff_ne]
  rintro rfl
  exact h (List.mem_map_of_mem hf)

theorem find?_given (hnames : (keys parts).Nodup) {o : Option α} (h : (name, o) ∈ parts) : (given parts).find? name = o := by
  cases o with
  | some a => exact find?_of_mem ((keys_given parts).nodup hnames) (mem_given.mpr h)
  | none =>
    refine find?_eq_none fun hkey => ?_
    obtain ⟨⟨_, a⟩, hin, rfl⟩ := List.mem_map.mp hkey
    have heq := List.inj_on_of_nodup_map hnames (mem_given.mp hin) h rfl
    cases heq

end Fields

open Fields (given)

/-- A record of its parts and of what else it holds. -/
theorem Tree.wellKeyed_given {parts : List (String × Option Tree)} {extra : Fields Tree} (hnames : (Fields.keys parts).Nodup)
    (hparts : ∀ part ∈ parts, ∀ tree ∈ part.2, tree.WellKeyed) (hextra : (Tree.record extra).WellKeyed)
    (hapart : ∀ key ∈ Fields.keys extra, key ∉ Fields.keys parts) : (Tree.record (given parts ++ extra)).WellKeyed := by
  obtain ⟨hkeys, hvalues⟩ := wellKeyed_record_iff.mp hextra
  refine .record _ ?_ fun field hf => ?_
  · rw [Fields.keys, List.map_append]
    refine List.nodup_append.mpr ⟨(Fields.keys_given parts).nodup hnames, hkeys, fun a ha b hb heq => ?_⟩
    exact hapart b hb (heq ▸ (Fields.keys_given parts).subset ha)
  · rcases List.mem_append.mp hf with hf | hf
    · exact hparts _ (Fields.mem_given.mp hf) _ rfl
    · exact hvalues field hf

namespace Json

variable {parts : List (String × Option Tree)} {name : String} {α : Type}

theorem keys_ofFields (fields : Fields Tree) : Fields.keys (ofFields fields) = Fields.keys fields := by
  rw [ofFields_eq]
  exact Fields.keys_map ofTree fields

theorem find?_ofFields (fields : Fields Tree) (name : String) :
    Fields.find? (ofFields fields) name = (fields.find? name).map ofTree := by
  induction fields with
  | nil => rfl
  | cons field rest ih =>
    obtain ⟨key, tree⟩ := field
    simp only [Fields.find?, ofFields, List.lookup_cons] at ih ⊢
    split
    · rfl
    · exact ih

theorem ofFields_append (fields extra : Fields Tree) : ofFields (fields ++ extra) = ofFields fields ++ ofFields extra := by
  rw [ofFields_eq, ofFields_eq, ofFields_eq, List.map_append]

/-- The parts can be told from what else there is. -/
theorem filter_ofFields {extra : Fields Tree} (hextra : ∀ key ∈ Fields.keys extra, key ∉ Fields.keys parts) :
    (ofFields (given parts ++ extra)).filter ((Fields.keys parts).contains ·.1) = ofFields (given parts) ∧
      (ofFields (given parts ++ extra)).filter (!(Fields.keys parts).contains ·.1) = ofFields extra := by
  have hparts : ∀ member ∈ ofFields (given parts), (Fields.keys parts).contains member.1 = true := by
    intro member hm
    have hkey : member.1 ∈ Fields.keys (ofFields (given parts)) := List.mem_map_of_mem hm
    rw [keys_ofFields] at hkey
    simpa using (Fields.keys_given parts).subset hkey
  have hrest : ∀ member ∈ ofFields extra, (Fields.keys parts).contains member.1 = false := by
    intro member hm
    have hkey : member.1 ∈ Fields.keys (ofFields extra) := List.mem_map_of_mem hm
    rw [keys_ofFields] at hkey
    simpa using hextra _ hkey
  rw [ofFields_append, List.filter_append, List.filter_append]
  constructor
  · rw [List.filter_eq_self.mpr hparts, List.filter_eq_nil_iff.mpr fun member hm => by rw [hrest member hm]; decide,
      List.append_nil]
  · rw [List.filter_eq_nil_iff.mpr fun member hm => by rw [hparts member hm]; decide,
      List.filter_eq_self.mpr fun member hm => by rw [hrest member hm]; rfl, List.nil_append]

/-- What is not known is passed over. -/
theorem members?_ofFields (hnames : (Fields.keys parts).Nodup) {extra : Fields Tree}
    (hextra : ∀ key ∈ Fields.keys extra, key ∉ Fields.keys parts) :
    members? (Fields.keys parts) (.record (ofFields (given parts ++ extra))) = some (ofFields (given parts)) := by
  have honce : ∀ name ∈ Fields.keys parts, (ofFields (given parts ++ extra)).countP (·.1 == name) ≤ 1 := by
    intro name hname
    have hcount : (ofFields (given parts ++ extra)).countP (·.1 == name) =
        (Fields.keys (given parts)).count name + (Fields.keys extra).count name := by
      rw [ofFields_eq, List.countP_map, List.countP_append, Fields.keys, Fields.keys, List.count_eq_countP,
        List.count_eq_countP, List.countP_map, List.countP_map]
      rfl
    rw [hcount, List.count_eq_zero.mpr fun hkey => hextra name hkey hname]
    exact List.nodup_iff_count_le_one.mp ((Fields.keys_given parts).nodup hnames) name
  have hany : ((Fields.keys parts).any fun name => (ofFields (given parts ++ extra)).countP (·.1 == name) > 1) = false := by
    refine List.any_eq_false.mpr fun name hname => ?_
    have := honce name hname
    simp only [gt_iff_lt, decide_eq_true_eq]
    omega
  rw [members?, hany, (filter_ofFields hextra).1]
  rfl

variable {members : Fields Json} {read : Json → Option α}

theorem find?_part (hnames : (Fields.keys parts).Nodup) {o : Option Tree} (hpart : (name, o) ∈ parts) :
    Fields.find? (ofFields (given parts)) name = o.map ofTree := by
  rw [find?_ofFields, Fields.find?_given hnames hpart]

theorem required_part (hnames : (Fields.keys parts).Nodup) {tree : Tree} (hpart : (name, some tree) ∈ parts) {a : α}
    (hread : read (ofTree tree) = some a) : required (ofFields (given parts)) name read = some a := by
  rw [required, find?_part hnames hpart, Option.map_some, Option.bind_some, hread]

theorem ofTree_ne_null {tree : Tree} (h : tree ≠ .null) : ofTree tree ≠ .null := by
  cases tree with
  | null => exact absurd rfl h
  | _ => exact fun heq => by cases heq

theorem optional_part (hnames : (Fields.keys parts).Nodup) {write : α → Tree} {o : Option α} (hpart : (name, o.map write) ∈ parts)
    (hread : ∀ a ∈ o, write a ≠ .null ∧ read (ofTree (write a)) = some a) :
    optional (ofFields (given parts)) name read = some o := by
  unfold optional
  rw [find?_part hnames hpart]
  cases o with
  | none => rfl
  | some a =>
    obtain ⟨hnull, hread⟩ := hread a rfl
    rw [Option.map_some, Option.map_some]
    split
    · rename_i h
      cases h
    · rename_i h
      exact absurd (Option.some.inj h) (ofTree_ne_null hnull)
    · rename_i v _ h
      cases h
      rw [hread, Option.map_some]

theorem optional_text (hnames : (Fields.keys parts).Nodup) {o : Option String} (hpart : (name, o.map Tree.text) ∈ parts) :
    optional (ofFields (given parts)) name text? = some o := by
  refine optional_part hnames hpart fun s _ => ⟨fun heq => ?_, rfl⟩
  cases heq

theorem exists_of_required {a : α} (h : required members name read = some a) : ∃ v, read v = some a := by
  obtain ⟨v, _, hread⟩ := Option.bind_eq_some_iff.mp h
  exact ⟨v, hread⟩

/-- Null is as good as absent. -/
theorem exists_of_optional {o : Option α} (h : optional members name read = some o) {a : α} (ha : a ∈ o) :
    ∃ v, v ≠ .null ∧ read v = some a := by
  unfold optional at h
  split at h
  · cases h
    cases ha
  · cases h
    cases ha
  · rename_i v hnull _
    obtain ⟨a', hread, rfl⟩ := Option.map_eq_some_iff.mp h
    cases ha
    exact ⟨v, fun heq => hnull (by rw [heq]), hread⟩

theorem mapM_of_forall {β : Type} {f : β → Option α} {g : α → β} {xs : List α} (h : ∀ x ∈ xs, f (g x) = some x) :
    (xs.map g).mapM f = some xs := by
  induction xs with
  | nil => rfl
  | cons x xs ih =>
    obtain ⟨hx, hxs⟩ := List.forall_mem_cons.mp h
    simp [List.mapM_cons, hx, ih hxs]

theorem forall_of_mapM {β : Type} {f : β → Option α} {P : α → Prop} (hf : ∀ b a, f b = some a → P a) {ys : List β} {xs : List α}
    (h : ys.mapM f = some xs) : ∀ x ∈ xs, P x := by
  induction ys generalizing xs with
  | nil =>
    cases h
    simp
  | cons y ys ih =>
    simp only [List.mapM_cons, Option.bind_eq_bind, Option.bind_eq_some_iff, Option.pure_def, Option.some.injEq] at h
    obtain ⟨x, hx, rest, hrest, rfl⟩ := h
    exact List.forall_mem_cons.mpr ⟨hf y x hx, ih hrest⟩

/-! ## Named values -/

theorem fieldsOf?_ofTree {read : Json → Option α} {write : α → Tree} {fields : Fields α} (hkeys : (Fields.keys fields).Nodup)
    (hread : ∀ field ∈ fields, read (ofTree (write field.2)) = some field.2) :
    fieldsOf? read (ofTree (.record (fields.map fun (name, a) => (name, write a)))) = some fields := by
  rw [ofTree, ofFields_eq, List.map_map, fieldsOf?, mapM_of_forall fun field hf => ?_, Option.map_some,
    Fields.ofPairs_of_nodup hkeys]
  exact congrArg (Option.map (field.1, ·)) (hread field hf)

theorem forall_of_fieldsOf? {read : Json → Option α} {P : α → Prop} (hread : ∀ v a, read v = some a → P a) {v : Json}
    {fields : Fields α} (h : fieldsOf? read v = some fields) : (Fields.keys fields).Nodup ∧ ∀ field ∈ fields, P field.2 := by
  unfold fieldsOf? at h
  split at h
  · obtain ⟨pairs, hpairs, rfl⟩ := Option.map_eq_some_iff.mp h
    refine ⟨Fields.nodup_ofPairs pairs, fun field hf => ?_⟩
    refine forall_of_mapM (P := fun field => P field.2) (fun member field hm => ?_) hpairs field (Fields.mem_ofPairs hf)
    obtain ⟨a, ha, rfl⟩ := Option.map_eq_some_iff.mp hm
    exact hread _ a ha
  · cases h

theorem forall_of_elim {read : Json → Option α} {P : α → Prop} (hread : ∀ v a, read v = some a → P a) {o : Option Json}
    {fields : Fields α} (h : o.elim (some []) (fieldsOf? read) = some fields) :
    (Fields.keys fields).Nodup ∧ ∀ field ∈ fields, P field.2 := by
  cases o with
  | none =>
    cases h
    exact ⟨List.nodup_nil, by simp⟩
  | some v => exact forall_of_fieldsOf? hread h

theorem treeFields?_ofFields {fields : Fields Tree} (h : (Tree.record fields).WellKeyed) :
    treeFields? (.record (ofFields fields)) = some fields := by
  have hread : (Json.record (ofFields fields)).tree? = some (.record fields) := tree?_ofTree h
  rw [treeFields?, hread]
  rfl

theorem keys_of_fields? {members : List (String × Json)} {fields : List (String × Tree)} (h : fields? members = some fields) :
    Fields.keys fields = Fields.keys members := by
  induction members generalizing fields with
  | nil =>
    cases h
    rfl
  | cons member rest ih =>
    simp only [fields?, Option.bind_eq_bind, Option.bind_eq_some_iff, Option.pure_def, Option.some.injEq] at h
    obtain ⟨first, _, others, hothers, rfl⟩ := h
    exact congrArg (member.1 :: ·) (ih hothers)

theorem of_treeFields? {members : List (String × Json)} {fields : Fields Tree} (h : treeFields? (.record members) = some fields) :
    (Tree.record fields).WellKeyed ∧ Fields.keys fields ⊆ Fields.keys members := by
  obtain ⟨tree, htree, hfields⟩ := Option.bind_eq_some_iff.mp h
  have hkeyed := wellKeyed_of_tree? htree
  obtain ⟨pairs, hpairs, rfl⟩ := Option.map_eq_some_iff.mp htree
  cases hfields
  refine ⟨hkeyed, fun key hkey => ?_⟩
  obtain ⟨field, hf, rfl⟩ := List.mem_map.mp hkey
  rw [← keys_of_fields? hpairs]
  exact List.mem_map_of_mem (Fields.mem_ofPairs hf)

theorem eq_null_of_tree? {v : Json} (h : v.tree? = some .null) : v = .null := by
  cases v with
  | null => rfl
  | list items =>
    obtain ⟨_, _, heq⟩ := Option.map_eq_some_iff.mp h
    cases heq
  | record members =>
    obtain ⟨_, _, heq⟩ := Option.map_eq_some_iff.mp h
    cases heq
  | _ => cases h

end Json

namespace DependsOn

theorem ofJson?_ofTree (d : DependsOn) : ofJson? (.ofTree d.toTree) = some d := by
  cases d with
  | one name => rfl
  | many names =>
    have hnames : Json.ofTree (many names).toTree = .list (names.map .text) := by
      rw [toTree, Json.ofTree, Json.ofItems_eq, List.map_map]
      rfl
    have hread : (names.map Json.text).mapM Json.text? = some names := Json.mapM_of_forall fun _ _ => rfl
    rw [hnames, ofJson?, hread, Option.map_some]

theorem toTree_ne_null (d : DependsOn) : d.toTree ≠ .null := by
  cases d <;> exact fun h => by cases h

theorem wellKeyed_toTree (d : DependsOn) : d.toTree.WellKeyed := by
  cases d with
  | one name => exact .text name
  | many names =>
    refine .list _ fun item hi => ?_
    obtain ⟨name, _, rfl⟩ := List.mem_map.mp hi
    exact .text name

end DependsOn

/-! ## Resources -/

namespace Resource

variable {r : Resource}

/-- Properties that are there are not null, and nothing else goes by the name of a known part. -/
structure WellFormed (r : Resource) : Prop where
  properties : ∀ tree ∈ r.properties, tree ≠ .null ∧ tree.WellKeyed
  extra : (Tree.record r.extra).WellKeyed
  apart : ∀ key ∈ Fields.keys r.extra, key ∉ known

def parts (r : Resource) : List (String × Option Tree) :=
  [("Type", some (.text r.kind)), ("Properties", r.properties), ("DependsOn", r.dependsOn.map DependsOn.toTree)]

theorem nodup_parts (r : Resource) : (Fields.keys r.parts).Nodup := by
  show known.Nodup
  decide

theorem toTree_eq (r : Resource) : r.toTree = .record (given r.parts ++ r.extra) := by
  obtain ⟨kind, properties, dependsOn, extra⟩ := r
  cases properties <;> cases dependsOn <;> rfl

theorem WellFormed.wellKeyed_toTree (h : r.WellFormed) : r.toTree.WellKeyed := by
  rw [toTree_eq]
  refine Tree.wellKeyed_given r.nodup_parts (fun part hpart tree htree => ?_) h.extra h.apart
  simp only [parts, List.mem_cons, List.not_mem_nil, or_false] at hpart
  rcases hpart with rfl | rfl | rfl
  · cases htree
    exact .text r.kind
  · exact (h.properties tree htree).2
  · obtain ⟨d, _, rfl⟩ := Option.map_eq_some_iff.mp htree
    exact d.wellKeyed_toTree

theorem WellFormed.ofJson?_ofTree (h : r.WellFormed) : ofJson? (.ofTree r.toTree) = some r := by
  have hmembers : Json.members? known (.record (Json.ofFields (given r.parts ++ r.extra))) = some (Json.ofFields (given r.parts)) :=
    Json.members?_ofFields r.nodup_parts h.apart
  have hrest : (Json.ofFields (given r.parts ++ r.extra)).filter (!known.contains ·.1) = Json.ofFields r.extra :=
    (@Json.filter_ofFields r.parts r.extra h.apart).2
  have hkind : Json.required (Json.ofFields (given r.parts)) "Type" Json.text? = some r.kind :=
    Json.required_part r.nodup_parts (List.mem_cons_self ..) rfl
  have hproperties : Json.optional (Json.ofFields (given r.parts)) "Properties" Json.tree? = some r.properties := by
    have hpart : ("Properties", r.properties.map id) ∈ r.parts := by simp [parts]
    refine Json.optional_part r.nodup_parts hpart fun tree htree => ?_
    obtain ⟨hnull, hkeyed⟩ := h.properties tree htree
    exact ⟨hnull, Json.tree?_ofTree hkeyed⟩
  have hdependsOn : Json.optional (Json.ofFields (given r.parts)) "DependsOn" DependsOn.ofJson? = some r.dependsOn :=
    Json.optional_part r.nodup_parts (by simp [parts]) fun d _ => ⟨d.toTree_ne_null, d.ofJson?_ofTree⟩
  rw [toTree_eq, Json.ofTree, ofJson?]
  simp only [hmembers, hrest, Json.treeFields?_ofFields h.extra, hkind, hproperties, hdependsOn, Option.bind_eq_bind,
    Option.bind_some, Option.pure_def]

theorem wellFormed_of_ofJson? {v : Json} (h : ofJson? v = some r) : r.WellFormed := by
  unfold ofJson? at h
  cases v with
  | record members =>
    simp only [Option.bind_eq_bind, Option.bind_eq_some_iff, Option.pure_def, Option.some.injEq] at h
    obtain ⟨_, _, extra, hextra, _, _, properties, hproperties, _, _, rfl⟩ := h
    obtain ⟨hkeyed, hkeys⟩ := Json.of_treeFields? hextra
    refine ⟨fun tree htree => ?_, hkeyed, fun key hkey => ?_⟩
    · obtain ⟨v, hnull, hread⟩ := Json.exists_of_optional hproperties htree
      exact ⟨fun heq => hnull (Json.eq_null_of_tree? (heq ▸ hread)), Json.wellKeyed_of_tree? hread⟩
    · obtain ⟨member, hm, rfl⟩ := List.mem_map.mp (hkeys hkey)
      simpa using (List.mem_filter.mp hm).2
  | _ => cases h

end Resource

/-! ## Outputs -/

namespace Output

variable {o : Output}

structure WellFormed (o : Output) : Prop where
  value : o.value.WellKeyed
  exportName : ∀ name ∈ o.exportName, name.WellKeyed

def parts (o : Output) : List (String × Option Tree) :=
  [("Value", some o.value), ("Description", o.description.map .text), ("Export", o.exportName.map exportTree)]

theorem nodup_parts (o : Output) : (Fields.keys o.parts).Nodup := by
  show ["Value", "Description", "Export"].Nodup
  decide

theorem toTree_eq (o : Output) : o.toTree = .record (given o.parts ++ []) := by
  obtain ⟨value, description, exportName⟩ := o
  cases description <;> cases exportName <;> rfl

theorem WellFormed.wellKeyed_toTree (h : o.WellFormed) : o.toTree.WellKeyed := by
  rw [toTree_eq]
  refine Tree.wellKeyed_given o.nodup_parts (fun part hpart tree htree => ?_) Tree.wellKeyed_emptyRecord (by simp [Fields.keys])
  simp only [parts, List.mem_cons, List.not_mem_nil, or_false] at hpart
  rcases hpart with rfl | rfl | rfl
  · cases htree
    exact h.value
  · obtain ⟨text, _, rfl⟩ := Option.map_eq_some_iff.mp htree
    exact .text text
  · obtain ⟨name, hname, rfl⟩ := Option.map_eq_some_iff.mp htree
    exact Tree.wellKeyed_call_iff.mpr (h.exportName name hname)

theorem exportOfJson?_ofTree {name : Tree} (h : name.WellKeyed) : exportOfJson? (.ofTree (exportTree name)) = some name := by
  have hnames : (Fields.keys [("Name", some name)]).Nodup := List.nodup_singleton "Name"
  have hmembers : Json.members? ["Name"] (.ofTree (exportTree name)) = some (Json.ofFields (given [("Name", some name)])) :=
    @Json.members?_ofFields _ hnames [] (by simp [Fields.keys])
  rw [exportOfJson?, hmembers]
  exact Json.required_part hnames (List.mem_cons_self ..) (Json.tree?_ofTree h)

theorem WellFormed.ofJson?_ofTree (h : o.WellFormed) : ofJson? (.ofTree o.toTree) = some o := by
  have hmembers : Json.members? ["Value", "Description", "Export"] (.record (Json.ofFields (given o.parts ++ []))) =
      some (Json.ofFields (given o.parts)) := Json.members?_ofFields o.nodup_parts (by simp [Fields.keys])
  have hvalue : Json.required (Json.ofFields (given o.parts)) "Value" Json.tree? = some o.value :=
    Json.required_part o.nodup_parts (List.mem_cons_self ..) (Json.tree?_ofTree h.value)
  have hdescription : Json.optional (Json.ofFields (given o.parts)) "Description" Json.text? = some o.description :=
    Json.optional_text o.nodup_parts (by simp [parts])
  have hexport : Json.optional (Json.ofFields (given o.parts)) "Export" exportOfJson? = some o.exportName := by
    have hpart : ("Export", o.exportName.map exportTree) ∈ o.parts := by simp [parts]
    refine Json.optional_part o.nodup_parts hpart fun name hname => ⟨fun heq => ?_, ?_⟩
    · cases heq
    · exact exportOfJson?_ofTree (h.exportName name hname)
  rw [toTree_eq, Json.ofTree, ofJson?]
  simp only [hmembers, hvalue, hdescription, hexport, Option.bind_eq_bind, Option.bind_some, Option.pure_def]

theorem wellFormed_of_ofJson? {v : Json} (h : ofJson? v = some o) : o.WellFormed := by
  unfold ofJson? at h
  simp only [Option.bind_eq_bind, Option.bind_eq_some_iff, Option.pure_def, Option.some.injEq] at h
  obtain ⟨_, _, _, hvalue, _, _, exportName, hexport, rfl⟩ := h
  obtain ⟨_, hvalue⟩ := Json.exists_of_required hvalue
  refine ⟨Json.wellKeyed_of_tree? hvalue, fun name hname => ?_⟩
  obtain ⟨v, _, hread⟩ := Json.exists_of_optional hexport hname
  unfold exportOfJson? at hread
  obtain ⟨_, _, hread⟩ := Option.bind_eq_some_iff.mp hread
  obtain ⟨_, hread⟩ := Json.exists_of_required hread
  exact Json.wellKeyed_of_tree? hread

end Output

/-! ## Templates -/

namespace Template

variable {t : Template}

/-- Each name is given once, at every level. -/
structure WellFormed (t : Template) : Prop where
  resourceNames : (Fields.keys t.resources).Nodup
  outputNames : (Fields.keys t.outputs).Nodup
  resources : ∀ field ∈ t.resources, field.2.WellFormed
  outputs : ∀ field ∈ t.outputs, field.2.WellFormed

def parts (t : Template) : List (String × Option Tree) :=
  [("AWSTemplateFormatVersion", t.formatVersion.map .text), ("Description", t.description.map .text),
    ("Resources", some (.record (t.resources.map fun (name, r) => (name, r.toTree)))),
    ("Outputs", if t.outputs.isEmpty then none else some (.record (t.outputs.map fun (name, o) => (name, o.toTree))))]

theorem nodup_parts (t : Template) : (Fields.keys t.parts).Nodup := by
  show ["AWSTemplateFormatVersion", "Description", "Resources", "Outputs"].Nodup
  decide

theorem toTree_eq (t : Template) : t.toTree = .record (given t.parts ++ []) := by
  obtain ⟨formatVersion, description, resources, outputs⟩ := t
  cases formatVersion <;> cases description <;> cases outputs <;> rfl

theorem wellKeyed_named {α : Type} {fields : Fields α} {write : α → Tree} (hkeys : (Fields.keys fields).Nodup)
    (h : ∀ field ∈ fields, (write field.2).WellKeyed) : (Tree.record (fields.map fun (name, a) => (name, write a))).WellKeyed := by
  refine .record _ (Fields.keys_map write fields ▸ hkeys) fun field hf => ?_
  obtain ⟨old, hold, rfl⟩ := List.mem_map.mp hf
  exact h old hold

theorem WellFormed.wellKeyed_toTree (h : t.WellFormed) : t.toTree.WellKeyed := by
  rw [toTree_eq]
  refine Tree.wellKeyed_given t.nodup_parts (fun part hpart tree htree => ?_) Tree.wellKeyed_emptyRecord (by simp [Fields.keys])
  simp only [parts, List.mem_cons, List.not_mem_nil, or_false] at hpart
  rcases hpart with rfl | rfl | rfl | rfl
  · obtain ⟨text, _, rfl⟩ := Option.map_eq_some_iff.mp htree
    exact .text text
  · obtain ⟨text, _, rfl⟩ := Option.map_eq_some_iff.mp htree
    exact .text text
  · cases htree
    exact wellKeyed_named h.resourceNames fun field hf => (h.resources field hf).wellKeyed_toTree
  · obtain ⟨_, htree⟩ := Option.ite_none_left_eq_some.mp htree
    cases htree
    exact wellKeyed_named h.outputNames fun field hf => (h.outputs field hf).wellKeyed_toTree

theorem WellFormed.ofJson?_ofTree (h : t.WellFormed) : ofJson? (.ofTree t.toTree) = some t := by
  have hmembers : Json.members? ["AWSTemplateFormatVersion", "Description", "Resources", "Outputs"]
      (.record (Json.ofFields (given t.parts ++ []))) = some (Json.ofFields (given t.parts)) :=
    Json.members?_ofFields t.nodup_parts (by simp [Fields.keys])
  have hversion : Json.optional (Json.ofFields (given t.parts)) "AWSTemplateFormatVersion" Json.text? = some t.formatVersion :=
    Json.optional_text t.nodup_parts (by simp [parts])
  have hdescription : Json.optional (Json.ofFields (given t.parts)) "Description" Json.text? = some t.description :=
    Json.optional_text t.nodup_parts (by simp [parts])
  have hresources : (Fields.find? (Json.ofFields (given t.parts)) "Resources").elim (some [])
      (Json.fieldsOf? Resource.ofJson?) = some t.resources := by
    have hpart : ("Resources", some (Tree.record (t.resources.map fun (name, r) => (name, r.toTree)))) ∈ t.parts := by
      simp [parts]
    rw [Json.find?_part t.nodup_parts hpart, Option.map_some]
    exact Json.fieldsOf?_ofTree h.resourceNames fun field hf => (h.resources field hf).ofJson?_ofTree
  have houtputs : (Fields.find? (Json.ofFields (given t.parts)) "Outputs").elim (some [])
      (Json.fieldsOf? Output.ofJson?) = some t.outputs := by
    have hpart : ("Outputs", if t.outputs.isEmpty then none else
        some (Tree.record (t.outputs.map fun (name, o) => (name, o.toTree)))) ∈ t.parts := by simp [parts]
    rw [Json.find?_part t.nodup_parts hpart]
    by_cases hempty : t.outputs.isEmpty = true
    · rw [if_pos hempty, List.isEmpty_iff.mp hempty]
      rfl
    · rw [if_neg hempty]
      exact Json.fieldsOf?_ofTree h.outputNames fun field hf => (h.outputs field hf).ofJson?_ofTree
  rw [toTree_eq, Json.ofTree, ofJson?]
  simp only [hmembers, hversion, hdescription, hresources, houtputs, Option.bind_eq_bind, Option.bind_some, Option.pure_def]

theorem wellFormed_of_ofJson? {v : Json} (h : ofJson? v = some t) : t.WellFormed := by
  unfold ofJson? at h
  simp only [Option.bind_eq_bind, Option.bind_eq_some_iff, Option.pure_def, Option.some.injEq] at h
  obtain ⟨_, _, _, _, _, _, resources, hresources, outputs, houtputs, rfl⟩ := h
  obtain ⟨hresourceNames, hresources⟩ := Json.forall_of_elim (fun _ _ => Resource.wellFormed_of_ofJson?) hresources
  obtain ⟨houtputNames, houtputs⟩ := Json.forall_of_elim (fun _ _ => Output.wellFormed_of_ofJson?) houtputs
  exact ⟨hresourceNames, houtputNames, hresources, houtputs⟩

/-- A template is what is read where it is written as JSON, and where it is written as YAML. -/
theorem WellFormed.reads (h : t.WellFormed) : ofJson? (.ofTree t.toTree) = some t ∧
    ∃ tree, (Yaml.ofTree t.toTree).toTree = .ok tree ∧ ofJson? (.ofTree tree) = some t :=
  ⟨h.ofJson?_ofTree, t.toTree, Yaml.toTree_ofTree h.wellKeyed_toTree, h.ofJson?_ofTree⟩

end Template

end Regroup
