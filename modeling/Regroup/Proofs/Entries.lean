/-
  Regroup.Proofs.Entries — what becomes of the mappings of a YAML value.

  A tree is made of a value whenever each key of its mappings, at any depth, is a text, a number
  or a boolean, and where none is made such a key is named. Every entry is written under the text
  of its key, so an entry is lost exactly where two keys of one mapping, such as the number 1 and
  the text 1, have the same text: the later value then takes the place of the earlier one. Where
  no two have, each mapping becomes a record with one field for each entry (`Yaml.Kept`).
  `kept_toTree_iff` says both.
-/

import Mathlib.Data.List.Forall2
import Regroup.Proofs.Departure
import Regroup.Proofs.Keyed

namespace Regroup.Yaml

/-! ## The shapes of a value -/

/-- A text, a number or a boolean. -/
def isName : Yaml → Bool
  | .text _ | .bool _ | .int _ | .float _ | .infinity _ | .nan => true
  | .null | .sequence _ | .mapping _ | .tagged _ _ => false

/-- Nothing that holds other values. -/
def isScalar (v : Yaml) : Bool := v.isName || v matches .null

theorem isSome_key? (v : Yaml) : v.key?.isSome = v.isName := by
  cases v <;> rfl

private theorem sizeOf_entry_lt {entries : List (Yaml × Yaml)} {entry : Yaml × Yaml} (h : entry ∈ entries) :
    sizeOf entry.2 < sizeOf (Yaml.mapping entries) := by
  have he := List.sizeOf_lt_of_mem h
  obtain ⟨key, value⟩ := entry
  simp only [Prod.mk.sizeOf_spec, Yaml.mapping.sizeOf_spec] at he ⊢
  omega

@[elab_as_elim]
theorem shapes {motive : Yaml → Prop}
    (scalar : ∀ v, isScalar v = true → motive v)
    (sequence : ∀ items, (∀ item ∈ items, motive item) → motive (.sequence items))
    (mapping : ∀ entries, (∀ entry ∈ entries, motive entry.2) → motive (.mapping entries))
    (tagged : ∀ tag value, motive value → motive (.tagged tag value))
    (v : Yaml) : motive v := by
  match v with
  | .null => exact scalar _ rfl
  | .bool _ => exact scalar _ rfl
  | .int _ => exact scalar _ rfl
  | .float _ => exact scalar _ rfl
  | .infinity _ => exact scalar _ rfl
  | .nan => exact scalar _ rfl
  | .text _ => exact scalar _ rfl
  | .sequence items =>
    refine sequence items fun item hi => ?_
    have hlt : sizeOf item < sizeOf (Yaml.sequence items) := by
      have := List.sizeOf_lt_of_mem hi
      simp only [Yaml.sequence.sizeOf_spec]
      omega
    exact shapes scalar sequence mapping tagged item
  | .mapping entries =>
    refine mapping entries fun entry he => ?_
    have hlt := sizeOf_entry_lt he
    exact shapes scalar sequence mapping tagged entry.2
  | .tagged tag value =>
    have hlt : sizeOf value < sizeOf (Yaml.tagged tag value) := by
      simp only [Yaml.tagged.sizeOf_spec]
      omega
    exact tagged tag value (shapes scalar sequence mapping tagged value)
termination_by sizeOf v
decreasing_by all_goals assumption

mutual

/-- The mappings in a value: itself, and those in its items, in the values of its entries and under its tags. -/
def mappings : Yaml → List (List (Yaml × Yaml))
  | .sequence items => mappingsOfItems items
  | .mapping entries => entries :: mappingsOfEntries entries
  | .tagged _ value => mappings value
  | _ => []

def mappingsOfItems : List Yaml → List (List (Yaml × Yaml))
  | [] => []
  | item :: rest => mappings item ++ mappingsOfItems rest

def mappingsOfEntries : List (Yaml × Yaml) → List (List (Yaml × Yaml))
  | [] => []
  | (_, value) :: rest => mappings value ++ mappingsOfEntries rest

end

variable {v value key : Yaml} {tag : String} {items : List Yaml} {entries : List (Yaml × Yaml)} {trees : List Tree}
  {fields : Fields Tree} {tree arg : Tree}

theorem mappings_scalar (h : v.isScalar = true) : v.mappings = [] := by
  cases v <;> first | rfl | cases h

theorem mappings_sequence (items : List Yaml) : (sequence items).mappings = items.flatMap mappings := by
  rw [mappings]
  induction items with
  | nil => rfl
  | cons item rest ih => rw [mappingsOfItems, ih, List.flatMap_cons]

theorem mappings_mapping (entries : List (Yaml × Yaml)) :
    (mapping entries).mappings = entries :: entries.flatMap (·.2.mappings) := by
  have hvalues : mappingsOfEntries entries = entries.flatMap (·.2.mappings) := by
    induction entries with
    | nil => rfl
    | cons entry rest ih => rw [mappingsOfEntries, ih, List.flatMap_cons]
  rw [mappings, hvalues]

theorem mappings_tagged (tag : String) (value : Yaml) : (tagged tag value).mappings = value.mappings := by
  rw [mappings]

section EveryMapping

variable {P : List (Yaml × Yaml) → Prop}

theorem forall_mappings_scalar (h : v.isScalar = true) : ∀ entries ∈ v.mappings, P entries := by
  rw [mappings_scalar h]
  exact List.forall_mem_nil _

theorem forall_mappings_sequence : (∀ entries ∈ (sequence items).mappings, P entries) ↔
    ∀ item ∈ items, ∀ entries ∈ item.mappings, P entries := by
  rw [mappings_sequence, List.forall_mem_flatMap]

theorem forall_mappings_mapping : (∀ inner ∈ (mapping entries).mappings, P inner) ↔
    P entries ∧ ∀ entry ∈ entries, ∀ inner ∈ entry.2.mappings, P inner := by
  rw [mappings_mapping, List.forall_mem_cons, List.forall_mem_flatMap]

theorem forall_mappings_tagged : (∀ entries ∈ (tagged tag value).mappings, P entries) ↔
    ∀ entries ∈ value.mappings, P entries := by
  rw [mappings_tagged]

end EveryMapping

/-! ## Lists of trees and fields -/

/-- The field has the name of the entry's key and the tree of its value. -/
def Holds (entry : Yaml × Yaml) (field : String × Tree) : Prop := entry.1.key? = some field.1 ∧ entry.2.toTree = .ok field.2

theorem exists_forall₂_iff {α β : Type} {R : α → β → Prop} {xs : List α} :
    (∃ ys, List.Forall₂ R xs ys) ↔ ∀ x ∈ xs, ∃ y, R x y := by
  induction xs with
  | nil => simp
  | cons x rest ih =>
    rw [List.forall_mem_cons, ← ih]
    simp only [List.forall₂_cons_left_iff]
    constructor
    · rintro ⟨_, y, ys, hy, hys, _⟩
      exact ⟨⟨y, hy⟩, ys, hys⟩
    · rintro ⟨⟨y, hy⟩, ys, hys⟩
      exact ⟨y :: ys, y, ys, hy, hys, rfl⟩

theorem map_eq_ok_iff {ε α β : Type} {x : Except ε α} {f : α → β} {b : β} : x.map f = .ok b ↔ ∃ a, x = .ok a ∧ f a = b := by
  cases x <;> simp [Except.map]

theorem map_eq_error_iff {ε α β : Type} {x : Except ε α} {f : α → β} {e : ε} : x.map f = .error e ↔ x = .error e := by
  cases x <;> simp [Except.map]

theorem exists_map_eq_ok_iff {ε α β : Type} {x : Except ε α} {f : α → β} : (∃ b, x.map f = .ok b) ↔ ∃ a, x = .ok a := by
  cases x <;> simp [Except.map]

theorem cons_eq_ok_iff {ε α : Type} {x : Except ε α} {xs : Except ε (List α)} {all : List α} :
    (do let a ← x; let as ← xs; return a :: as) = Except.ok all ↔ ∃ a as, x = .ok a ∧ xs = .ok as ∧ all = a :: as := by
  constructor
  · intro h
    cases x with
    | error e => cases h
    | ok a =>
      cases xs with
      | error e => cases h
      | ok as => exact ⟨a, as, rfl, rfl, (Except.ok.inj h).symm⟩
  · rintro ⟨a, as, rfl, rfl, rfl⟩
    rfl

theorem cons_eq_error_iff {ε α : Type} {x : Except ε α} {xs : Except ε (List α)} {e : ε} :
    (do let a ← x; let as ← xs; return a :: as) = Except.error e ↔ x = .error e ∨ (∃ a, x = .ok a) ∧ xs = .error e := by
  cases x with
  | error e' => simp [bind, Except.bind]
  | ok a => cases xs <;> simp [bind, Except.bind, pure, Except.pure]

theorem fieldsOf_cons_some {name : String} (h : key.key? = some name) (rest : List (Yaml × Yaml)) :
    fieldsOf ((key, value) :: rest) = do
      let field ← (toTree value).map (name, ·)
      let fields ← fieldsOf rest
      return field :: fields := by
  rw [fieldsOf, h]
  cases toTree value <;> rfl

theorem fieldsOf_cons_none (h : key.key? = none) (rest : List (Yaml × Yaml)) :
    fieldsOf ((key, value) :: rest) = .error key := by
  rw [fieldsOf, h]
  rfl

theorem treesOf_eq_ok_iff : treesOf items = .ok trees ↔ List.Forall₂ (fun item tree => item.toTree = .ok tree) items trees := by
  induction items generalizing trees with
  | nil => rw [treesOf, List.forall₂_nil_left_iff, Except.ok.injEq, eq_comm]
  | cons item rest ih =>
    rw [treesOf, cons_eq_ok_iff, List.forall₂_cons_left_iff]
    simp only [ih]

theorem fieldsOf_eq_ok_iff : fieldsOf entries = .ok fields ↔ List.Forall₂ Holds entries fields := by
  induction entries generalizing fields with
  | nil => rw [fieldsOf, List.forall₂_nil_left_iff, Except.ok.injEq, eq_comm]
  | cons entry rest ih =>
    obtain ⟨key, value⟩ := entry
    rw [List.forall₂_cons_left_iff]
    rcases hkey : key.key? with _ | name
    · rw [fieldsOf_cons_none hkey]
      simp [Holds, hkey]
    · have hfield : ∀ field, (toTree value).map (name, ·) = .ok field ↔ Holds (key, value) field := by
        rintro ⟨name', tree⟩
        cases hvalue : toTree value <;> simp [Holds, hkey, hvalue, Except.map]
      rw [fieldsOf_cons_some hkey, cons_eq_ok_iff]
      simp only [hfield, ih]

/-! ## Which values have a tree -/

theorem exists_toTree_of_isScalar (h : v.isScalar = true) : ∃ tree, v.toTree = .ok tree := by
  cases v <;> first | exact ⟨_, rfl⟩ | cases h

theorem exists_toTree_iff : (∃ tree, v.toTree = .ok tree) ↔
    ∀ entries ∈ v.mappings, ∀ entry ∈ entries, entry.1.isName = true := by
  induction v using shapes with
  | scalar v hs => exact iff_of_true (exists_toTree_of_isScalar hs) (forall_mappings_scalar hs)
  | sequence items ih =>
    rw [toTree, exists_map_eq_ok_iff, forall_mappings_sequence]
    simp only [treesOf_eq_ok_iff, exists_forall₂_iff]
    exact forall₂_congr ih
  | mapping entries ih =>
    have hentry : ∀ entry ∈ entries, (∃ field, Holds entry field) ↔
        entry.1.isName = true ∧ ∀ inner ∈ entry.2.mappings, ∀ entry ∈ inner, entry.1.isName = true := by
      intro entry he
      rw [← ih entry he, ← isSome_key?, Option.isSome_iff_exists]
      simp only [Holds, Prod.exists, exists_and_left, exists_and_right]
    rw [toTree, exists_map_eq_ok_iff, forall_mappings_mapping, ← forall₂_and]
    simp only [fieldsOf_eq_ok_iff, exists_forall₂_iff]
    exact forall₂_congr hentry
  | tagged tag value ih =>
    rw [toTree, exists_map_eq_ok_iff, forall_mappings_tagged]
    exact ih

theorem exists_item_of_error (h : treesOf items = .error key) : ∃ item ∈ items, item.toTree = .error key := by
  induction items with
  | nil => cases h
  | cons item rest ih =>
    rw [treesOf, cons_eq_error_iff] at h
    rcases h with hitem | ⟨_, hrest⟩
    · exact ⟨item, List.mem_cons_self .., hitem⟩
    · obtain ⟨item', hin, herror⟩ := ih hrest
      exact ⟨item', List.mem_cons_of_mem _ hin, herror⟩

theorem exists_entry_of_error (h : fieldsOf entries = .error key) :
    ∃ entry ∈ entries, entry.1 = key ∧ key.isName = false ∨ entry.2.toTree = .error key := by
  induction entries with
  | nil => cases h
  | cons entry rest ih =>
    obtain ⟨key', value⟩ := entry
    rcases hkey : key'.key? with _ | name
    · rw [fieldsOf_cons_none hkey] at h
      cases h
      exact ⟨_, List.mem_cons_self .., Or.inl ⟨rfl, by rw [← isSome_key?, hkey]; rfl⟩⟩
    · rw [fieldsOf_cons_some hkey, cons_eq_error_iff, map_eq_error_iff] at h
      rcases h with hvalue | ⟨_, hrest⟩
      · exact ⟨_, List.mem_cons_self .., Or.inr hvalue⟩
      · obtain ⟨entry', hin, herror⟩ := ih hrest
        exact ⟨entry', List.mem_cons_of_mem _ hin, herror⟩

/-- A failure names a key that is no name. -/
theorem exists_key_of_error (h : v.toTree = .error key) :
    key.isName = false ∧ ∃ entries ∈ v.mappings, ∃ entry ∈ entries, entry.1 = key := by
  induction v using shapes with
  | scalar v hs =>
    obtain ⟨tree, htree⟩ := exists_toTree_of_isScalar hs
    rw [htree] at h
    cases h
  | sequence items ih =>
    rw [toTree, map_eq_error_iff] at h
    obtain ⟨item, hi, herror⟩ := exists_item_of_error h
    obtain ⟨hkey, inner, hin, hentry⟩ := ih item hi herror
    rw [mappings_sequence]
    exact ⟨hkey, inner, List.mem_flatMap_of_mem hi hin, hentry⟩
  | mapping entries ih =>
    rw [toTree, map_eq_error_iff] at h
    rw [mappings_mapping]
    obtain ⟨entry, he, ⟨hkey, hname⟩ | herror⟩ := exists_entry_of_error h
    · exact ⟨hname, entries, List.mem_cons_self .., entry, he, hkey⟩
    · obtain ⟨hkey, inner, hin, hentry⟩ := ih entry he herror
      exact ⟨hkey, inner, List.mem_cons_of_mem _ (List.mem_flatMap_of_mem he hin), hentry⟩
  | tagged tag value ih =>
    rw [toTree, map_eq_error_iff] at h
    rw [mappings_tagged]
    exact ih h

/-! ## What is kept -/

/-- Nothing of the value is lost in the tree: in the place of each mapping stands a record with one field for
    each entry, in the same order, which holds the entry. -/
inductive Kept : Yaml → Tree → Prop where
  | scalar {v : Yaml} {tree : Tree} (hv : v.isScalar = true) (h : v.toTree = .ok tree) : Kept v tree
  | sequence {items : List Yaml} {trees : List Tree} (h : List.Forall₂ Kept items trees) : Kept (.sequence items) (.list trees)
  | mapping {entries : List (Yaml × Yaml)} {fields : Fields Tree} (h : List.Forall₂ Holds entries fields)
      (hvalues : List.Forall₂ Kept (entries.map (·.2)) (fields.map (·.2))) : Kept (.mapping entries) (.record fields)
  | tagged {tag : String} {value : Yaml} {arg : Tree} (h : value.toTree = .ok arg) (harg : Kept value arg) :
      Kept (.tagged tag value) (.call (functionOf tag) (argumentOf (functionOf tag) arg))

theorem names_of_forall₂_holds (h : List.Forall₂ Holds entries fields) :
    entries.map (·.1.key?) = (Fields.keys fields).map some := by
  induction h with
  | nil => rfl
  | cons hfield _ ih => rw [List.map_cons, hfield.1, ih]; rfl

theorem nodup_names_iff (h : List.Forall₂ Holds entries fields) :
    (entries.map (·.1.key?)).Nodup ↔ (Fields.keys fields).Nodup := by
  rw [names_of_forall₂_holds h]
  exact List.nodup_map_iff fun _ _ => Option.some.inj

theorem Kept.of_sequence (h : Kept (.sequence items) (.list trees)) : List.Forall₂ Kept items trees := by
  cases h with
  | scalar hv _ => cases hv
  | sequence h => exact h

theorem Kept.of_mapping (h : Kept (.mapping entries) (.record fields)) :
    List.Forall₂ (fun entry field => Holds entry field ∧ Kept entry.2 field.2) entries fields := by
  cases h with
  | scalar hv _ => cases hv
  | mapping h hvalues =>
    rw [List.forall₂_map_left_iff, List.forall₂_map_right_iff] at hvalues
    exact hvalues.mp (fun _ _ hkept hholds => ⟨hholds, hkept⟩) h

theorem Kept.of_tagged (h : Kept (.tagged tag value) tree) : ∃ arg, value.toTree = .ok arg ∧ Kept value arg := by
  cases h with
  | scalar hv _ => cases hv
  | tagged h harg => exact ⟨_, h, harg⟩

/-- Everything is kept exactly when no mapping writes two of its keys alike. -/
theorem kept_iff (h : v.toTree = .ok tree) : Kept v tree ↔ ∀ entries ∈ v.mappings, (entries.map (·.1.key?)).Nodup := by
  induction v using shapes generalizing tree with
  | scalar v hs => exact iff_of_true (.scalar hs h) (forall_mappings_scalar hs)
  | sequence items ih =>
    rw [toTree, map_eq_ok_iff] at h
    obtain ⟨trees, htrees, rfl⟩ := h
    rw [treesOf_eq_ok_iff] at htrees
    rw [forall_mappings_sequence]
    constructor
    · intro hkept item hi
      have hboth := htrees.mp (fun _ _ htree hk => And.intro htree hk) hkept.of_sequence
      obtain ⟨tree, _, htree, hk⟩ := Store.exists_mem_of_forall₂ hboth hi
      exact (ih item hi htree).mp hk
    · intro hnames
      have hboth := (List.forall₂_and_left items trees).mpr ⟨fun item hi => hi, htrees⟩
      exact .sequence (hboth.imp fun item _ h => (ih item h.1 h.2).mpr (hnames item h.1))
  | mapping entries ih =>
    rw [toTree, map_eq_ok_iff] at h
    obtain ⟨pairs, hpairs, rfl⟩ := h
    rw [fieldsOf_eq_ok_iff] at hpairs
    rw [forall_mappings_mapping]
    constructor
    · intro hkept
      refine ⟨(nodup_names_iff (hkept.of_mapping.imp fun _ _ hboth => hboth.1)).mpr (Fields.nodup_ofPairs pairs), fun entry he => ?_⟩
      obtain ⟨field, _, ⟨_, htree⟩, hk⟩ := Store.exists_mem_of_forall₂ hkept.of_mapping he
      exact (ih entry he htree).mp hk
    · rintro ⟨hnames, hvalues⟩
      rw [Fields.ofPairs_of_nodup ((nodup_names_iff hpairs).mp hnames)]
      refine .mapping hpairs ?_
      have hboth := (List.forall₂_and_left entries pairs).mpr ⟨fun entry he => he, hpairs⟩
      rw [List.forall₂_map_left_iff, List.forall₂_map_right_iff]
      exact hboth.imp fun entry _ h => (ih entry h.1 h.2.2).mpr (hvalues entry h.1)
  | tagged tag value ih =>
    rw [toTree, map_eq_ok_iff] at h
    obtain ⟨arg, harg, rfl⟩ := h
    rw [forall_mappings_tagged, ← ih harg]
    constructor
    · intro hkept
      obtain ⟨arg', harg', hk⟩ := hkept.of_tagged
      rw [harg, Except.ok.injEq] at harg'
      rwa [harg']
    · exact fun hk => .tagged harg hk

/-- A value has a tree exactly when the keys of its mappings are texts, numbers and booleans, and otherwise one
    that is not is named. Each mapping is kept entry by entry if and only if none has two keys of the same text. -/
theorem kept_toTree_iff (v : Yaml) :
    ((∃ tree, v.toTree = .ok tree) ↔ ∀ entries ∈ v.mappings, ∀ entry ∈ entries, entry.1.isName = true) ∧
    (∀ key, v.toTree = .error key → key.isName = false ∧ ∃ entries ∈ v.mappings, ∃ entry ∈ entries, entry.1 = key) ∧
    ∀ tree, v.toTree = .ok tree → (Kept v tree ↔ ∀ entries ∈ v.mappings, (entries.map (·.1.key?)).Nodup) :=
  ⟨exists_toTree_iff, fun _ h => exists_key_of_error h, fun _ h => kept_iff h⟩

/-- Keys of each kind in mappings at several depths, one of them under a tag. -/
def portsValue : Yaml :=
  .mapping [
    (.text "Ports", .sequence [.mapping [(.int 80, .text "http"), (.bool true, .null), (.text "80/tcp", .int 6)]]),
    (.text "Role", .tagged "GetAtt" (.text "Role.Arn")),
    (.text "Map", .tagged "If" (.mapping [(.nan, .text "x"), (.infinity true, .text "y")]))]

/-- Nothing of this value is lost, and a list as a key under a tag is refused. -/
theorem kept_toTree_iff_ports : (∃ tree, portsValue.toTree = .ok tree ∧ Kept portsValue tree) ∧
    (sequence [.tagged "Ref" (.mapping [(.sequence [], .null)])]).toTree = .error (.sequence []) ∧
    isName (.sequence []) = false := by
  obtain ⟨hexists, _, hkept⟩ := kept_toTree_iff portsValue
  obtain ⟨_, hrefused, _⟩ := kept_toTree_iff (.sequence [.tagged "Ref" (.mapping [(.sequence [], .null)])])
  obtain ⟨tree, htree⟩ := hexists.mpr (by decide +kernel)
  exact ⟨⟨tree, htree, (hkept tree htree).mpr (by decide +kernel)⟩, rfl, (hrefused _ rfl).1⟩

/-- The number 1 and the text 1 are two keys, and one of their entries is lost. -/
theorem toTree_loses_entry : same (.int 1) (.text "1") = false ∧
    ∃ tree, (mapping [(.int 1, .text "a"), (.text "1", .text "b")]).toTree = .ok tree ∧
      tree.fields?.map Fields.keys = some ["1"] ∧ ¬Kept (.mapping [(.int 1, .text "a"), (.text "1", .text "b")]) tree := by
  refine ⟨rfl, .record [("1", .text "b")], rfl, rfl, fun hkept => ?_⟩
  exact absurd hkept.of_mapping.length_eq (by decide)

end Regroup.Yaml
