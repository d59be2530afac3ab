/-
  Regroup.Proofs.Keyed — trees whose records have each field once.

  A reader keeps one value of a field that is repeated, so a tree with a repeated field is not
  what is read where it is written. There is no such tree: what is read has each field once
  (`wellKeyed_of_tree?`), and redirecting and inlining keep it so (`WellKeyed.redirect`,
  `WellKeyed.substitute`). A tree of this kind is read back as it is from JSON
  (`tree?_ofTree`) and from YAML (`toTree_ofTree`).
-/

import Regroup.Json
import Regroup.Proofs.Documents
import Regroup.Yaml

namespace Regroup

/-! ## Fields -/

namespace Fields

variable {α : Type} {pairs : List (String × α)}

theorem nodup_ofPairs (pairs : List (String × α)) : (keys (ofPairs pairs)).Nodup := by
  have hfold : ∀ done : Fields α, (keys done).Nodup → (keys (pairs.foldl (fun fields pair => put pair.1 pair.2 fields) done)).Nodup := by
    induction pairs with
    | nil => exact fun done h => h
    | cons pair pairs ih => exact fun done h => ih _ (nodup_put h)
  exact hfold [] List.nodup_nil

theorem mem_put {key : String} {value : α} {fields : Fields α} {field : String × α} (h : field ∈ put key value fields) :
    field = (key, value) ∨ field ∈ fields := by
  induction fields with
  | nil => exact Or.inl (List.mem_singleton.mp h)
  | cons first rest ih =>
    obtain ⟨name, old⟩ := first
    unfold put at h
    split at h
    · rename_i hname
      rw [hname] at h
      exact (List.mem_cons.mp h).imp_right (List.mem_cons_of_mem _)
    · rcases List.mem_cons.mp h with rfl | h
      · exact Or.inr (List.mem_cons_self ..)
      · exact (ih h).imp_right (List.mem_cons_of_mem _)

theorem mem_ofPairs {field : String × α} : field ∈ ofPairs pairs → field ∈ pairs := by
  have hfold : ∀ done : Fields α,
      field ∈ pairs.foldl (fun fields pair => put pair.1 pair.2 fields) done → field ∈ done ∨ field ∈ pairs := by
    induction pairs with
    | nil => exact fun done h => Or.inl h
    | cons pair pairs ih =>
      intro done h
      rcases ih _ h with h | h
      · rcases mem_put h with rfl | h
        · exact Or.inr (List.mem_cons_self ..)
        · exact Or.inl h
      · exact Or.inr (List.mem_cons_of_mem _ h)
  exact fun h => (hfold [] h).resolve_left List.not_mem_nil

end Fields

namespace Tree

/-- Each record of the tree has each of its fields once. -/
inductive WellKeyed : Tree → Prop where
  | scalar (tree : Tree) (h : tree.isScalar = true) : WellKeyed tree
  | text (s : String) : WellKeyed (.text s)
  | list (items : List Tree) (h : ∀ item ∈ items, WellKeyed item) : WellKeyed (.list items)
  | record (fields : List (String × Tree)) (hkeys : (Fields.keys fields).Nodup) (h : ∀ field ∈ fields, WellKeyed field.2) :
      WellKeyed (.record fields)

variable {tree : Tree} {items : List Tree} {fields : List (String × Tree)} {key : String} {arg : Tree}

theorem wellKeyed_list_iff : (list items).WellKeyed ↔ ∀ item ∈ items, item.WellKeyed := by
  constructor
  · intro h
    cases h with
    | scalar _ hs => cases hs
    | list _ h => exact h
  · exact fun h => .list items h

theorem wellKeyed_record_iff : (record fields).WellKeyed ↔
    (Fields.keys fields).Nodup ∧ ∀ field ∈ fields, field.2.WellKeyed := by
  constructor
  · intro h
    cases h with
    | scalar _ hs => cases hs
    | record _ hkeys h => exact ⟨hkeys, h⟩
  · exact fun h => .record fields h.1 h.2

theorem wellKeyed_call_iff : (call key arg).WellKeyed ↔ arg.WellKeyed := by
  unfold call
  rw [wellKeyed_record_iff]
  simp [Fields.keys]

theorem wellKeyed_emptyRecord : emptyRecord.WellKeyed := .record [] List.nodup_nil (by simp)

theorem WellKeyed.pair {first second : Tree} (hfirst : first.WellKeyed) (hsecond : second.WellKeyed) :
    (Tree.list [first, second]).WellKeyed :=
  wellKeyed_list_iff.mpr (List.forall_mem_cons.mpr ⟨hfirst, List.forall_mem_singleton.mpr hsecond⟩)

theorem wellKeyed_construct (r : Reference) : r.construct.WellKeyed := by
  cases r with
  | attrOf name attr => exact wellKeyed_call_iff.mpr (.pair (.text name) (.text attr))
  | _ => exact wellKeyed_call_iff.mpr (.text _)

/-! ## Rewriting -/

section Rewriting

variable {f : Reference → Option Reference} {role : Role}

theorem nodup_keys_refilled {sub : Substitution} (h : (Fields.keys sub.vars).Nodup) :
    (Fields.keys (sub.refilled f).vars).Nodup := by
  have hsegments : ∀ (segments : List Placeholder.Segment) (vars : Fields Tree), (Fields.keys vars).Nodup →
      (Fields.keys (Placeholder.redirect f (Fields.keys sub.vars) vars segments).result.2).Nodup := by
    intro segments
    induction segments with
    | nil => exact fun vars h => h
    | cons segment rest ih =>
      intro vars h
      cases segment with
      | text s => exact ih vars h
      | placeholder content =>
        rw [Placeholder.redirect_placeholder_cons]
        refine ih _ ?_
        unfold Placeholder.rewritten
        split
        · exact h
        · dsimp only
          split
          · exact Fields.nodup_put h
          · exact h
  refine hsegments _ _ ?_
  rwa [keys_redirectFields]

theorem wellKeyed_redirectArgument {sub : Substitution} {arg : Tree} (harg : arg.WellKeyed)
    (hkeys : (Fields.keys sub.vars).Nodup) (hvars : ∀ var ∈ sub.vars, (var.2.redirect f).result.WellKeyed) :
    (Placeholder.redirectArgument f arg sub.template (redirectFields f sub.vars)).result.WellKeyed := by
  rcases redirectArgument_cases (f := f) sub arg with ⟨_, _, hresult⟩ | ⟨_, hresult⟩
  · rwa [hresult]
  rw [hresult]
  unfold Placeholder.argument
  split
  · exact .text _
  · have hrecord : (record (sub.refilled f).vars).WellKeyed := by
      refine .record _ (nodup_keys_refilled hkeys) fun var hv => ?_
      obtain ⟨bound, heq, hbound, _⟩ := sub.refilled_vars f
      rw [heq, redirectFields_result] at hv
      rcases List.mem_append.mp hv with hv | hv
      · obtain ⟨old, hold, rfl⟩ := List.mem_map.mp hv
        exact hvars old hold
      · have hin : var.2 ∈ bound.map Prod.snd := List.mem_map_of_mem hv
        rw [hbound] at hin
        obtain ⟨r, _, hr⟩ := List.mem_map.mp hin
        rw [← hr]
        exact wellKeyed_construct r
    exact .pair (.text _) hrecord

theorem WellKeyed.redirectAs (h : tree.WellKeyed) : (redirectAs f role tree).result.WellKeyed := by
  induction tree using shapes generalizing role with
  | scalar tree hs =>
    rw [redirectAs_scalar f hs]
    exact h
  | text s =>
    rw [redirectAs_text]
    split
    · exact @wellKeyed_redirectArgument f ⟨s, []⟩ _ h List.nodup_nil (by simp)
    · exact h
  | call key arg ih =>
    rcases hc : Reference.ofCall? key arg with _ | r
    · rw [redirectAs_call f hc]
      exact wellKeyed_call_iff.mpr (ih (wellKeyed_call_iff.mp h))
    · rw [redirectAs_construct f hc]
      rcases r.change? f with _ | r'
      · exact h
      · exact wellKeyed_construct r'
  | record fields hlen ih =>
    obtain ⟨hkeys, hvalues⟩ := wellKeyed_record_iff.mp h
    rw [redirectAs_record f hlen]
    refine .record _ (by rwa [keys_redirectFields]) fun field hf => ?_
    rw [redirectFields_result] at hf
    obtain ⟨old, hold, rfl⟩ := List.mem_map.mp hf
    exact ih old hold (hvalues old hold)
  | pair template vars ih ihrecord =>
    have hrecord : (Tree.record vars).WellKeyed := wellKeyed_list_iff.mp h _ (by simp)
    obtain ⟨hkeys, hvalues⟩ := wellKeyed_record_iff.mp hrecord
    rw [redirectAs_pair]
    split
    · exact @wellKeyed_redirectArgument f ⟨template, vars⟩ _ h hkeys fun var hv => ih var hv (hvalues var hv)
    · exact .pair (.text template) (ihrecord hrecord)
  | list items hp ih =>
    rw [redirectAs_list f hp]
    refine .list _ fun item hi => ?_
    rw [redirectItems_result] at hi
    obtain ⟨old, hold, rfl⟩ := List.mem_map.mp hi
    exact ih old hold (wellKeyed_list_iff.mp h old hold)

theorem WellKeyed.redirect (h : tree.WellKeyed) : (tree.redirect f).result.WellKeyed := h.redirectAs

theorem WellKeyed.substitute {target : Reference} {p : Tree} (h : tree.WellKeyed) (hp : p.WellKeyed) :
    (tree.substitute target p).1.WellKeyed := by
  induction h with
  | scalar tree hs =>
    rw [substitute_scalar target hs]
    exact .scalar tree hs
  | text s => exact .text s
  | list items _ ih =>
    rw [substitute_list]
    refine .list _ fun item hi => ?_
    obtain ⟨old, hold, rfl⟩ := List.mem_map.mp hi
    exact ih old hold
  | record fields hkeys _ ih =>
    by_cases ht : (Tree.record fields).reference? = some target
    · rwa [substitute_target ht]
    · rw [substitute_record ht]
      refine .record _ ((Fields.keys_map (fun tree => (tree.substitute target p).1) fields).symm ▸ hkeys) fun field hf => ?_
      obtain ⟨old, hold, rfl⟩ := List.mem_map.mp hf
      exact ih old hold

end Rewriting

end Tree

/-! ## Reading -/

namespace Json

mutual

theorem wellKeyed_of_tree? : ∀ {v : Json} {tree : Tree}, v.tree? = some tree → tree.WellKeyed
  | .null, _, h => by
    cases h
    exact .scalar _ rfl
  | .bool _, _, h => by
    cases h
    exact .scalar _ rfl
  | .int _, _, h => by
    cases h
    exact .scalar _ rfl
  | .float _, _, h => by
    cases h
    exact .scalar _ rfl
  | .text s, _, h => by
    cases h
    exact .text s
  | .list items, _, h => by
    rw [tree?] at h
    obtain ⟨trees, htrees, rfl⟩ := Option.map_eq_some_iff.mp h
    exact .list trees (wellKeyed_of_items? htrees)
  | .record members, _, h => by
    rw [tree?] at h
    obtain ⟨fields, hfields, rfl⟩ := Option.map_eq_some_iff.mp h
    exact .record _ (Fields.nodup_ofPairs fields) fun field hf => wellKeyed_of_fields? hfields field (Fields.mem_ofPairs hf)

theorem wellKeyed_of_items? : ∀ {items : List Json} {trees : List Tree}, items? items = some trees →
    ∀ tree ∈ trees, tree.WellKeyed
  | [], _, h => by
    cases h
    simp
  | item :: rest, _, h => by
    simp only [items?, Option.bind_eq_bind, Option.bind_eq_some_iff, Option.pure_def, Option.some.injEq] at h
    obtain ⟨first, hfirst, others, hothers, rfl⟩ := h
    exact List.forall_mem_cons.mpr ⟨wellKeyed_of_tree? hfirst, wellKeyed_of_items? hothers⟩

theorem wellKeyed_of_fields? : ∀ {members : List (String × Json)} {fields : List (String × Tree)},
    fields? members = some fields → ∀ field ∈ fields, field.2.WellKeyed
  | [], _, h => by
    cases h
    simp
  | (name, value) :: rest, _, h => by
    simp only [fields?, Option.bind_eq_bind, Option.bind_eq_some_iff, Option.pure_def, Option.some.injEq] at h
    obtain ⟨first, hfirst, others, hothers, rfl⟩ := h
    exact List.forall_mem_cons.mpr ⟨wellKeyed_of_tree? hfirst, wellKeyed_of_fields? hothers⟩

end

/-! ## Writing and reading -/

theorem ofItems_eq (items : List Tree) : ofItems items = items.map ofTree := by
  induction items with
  | nil => rfl
  | cons item rest ih => rw [ofItems, ih, List.map_cons]

theorem ofFields_eq (fields : List (String × Tree)) : ofFields fields = fields.map fun field => (field.1, ofTree field.2) := by
  induction fields with
  | nil => rfl
  | cons field rest ih => rw [ofFields, ih, List.map_cons]

theorem items?_ofItems {items : List Tree} (h : ∀ item ∈ items, (ofTree item).tree? = some item) :
    items? (ofItems items) = some items := by
  induction items with
  | nil => rfl
  | cons item rest ih =>
    obtain ⟨hitem, hrest⟩ := List.forall_mem_cons.mp h
    simp [ofItems, items?, hitem, ih hrest]

theorem fields?_ofFields {fields : List (String × Tree)} (h : ∀ field ∈ fields, (ofTree field.2).tree? = some field.2) :
    fields? (ofFields fields) = some fields := by
  induction fields with
  | nil => rfl
  | cons field rest ih =>
    obtain ⟨hfield, hrest⟩ := List.forall_mem_cons.mp h
    simp [ofFields, fields?, hfield, ih hrest]

/-- What is written as JSON is read as it was. -/
theorem tree?_ofTree {tree : Tree} (h : tree.WellKeyed) : (ofTree tree).tree? = some tree := by
  induction h with
  | scalar tree hs => cases tree <;> first | rfl | cases hs
  | text s => rfl
  | list items _ ih => rw [ofTree, tree?, items?_ofItems ih, Option.map_some]
  | record fields hkeys _ ih => rw [ofTree, tree?, fields?_ofFields ih, Option.map_some, Fields.ofPairs_of_nodup hkeys]

end Json

namespace Yaml

theorem treeOfInt_toInt (i : Int64) : treeOfInt i.toInt = .int i := by
  have hrange : Int64.minValue.toInt ≤ i.toInt ∧ i.toInt ≤ Int64.maxValue.toInt :=
    ⟨i.minValue_le_toInt, i.toInt_le⟩
  rw [treeOfInt, if_pos hrange, Int64.ofInt_toInt]

theorem treesOf_ofItems {items : List Tree} (h : ∀ item ∈ items, (ofTree item).toTree = .ok item) :
    treesOf (ofItems items) = .ok items := by
  induction items with
  | nil => rfl
  | cons item rest ih =>
    obtain ⟨hitem, hrest⟩ := List.forall_mem_cons.mp h
    rw [ofItems, treesOf, hitem, ih hrest]
    rfl

theorem fieldsOf_ofFields {fields : List (String × Tree)} (h : ∀ field ∈ fields, (ofTree field.2).toTree = .ok field.2) :
    fieldsOf (ofFields fields) = .ok fields := by
  induction fields with
  | nil => rfl
  | cons field rest ih =>
    obtain ⟨hfield, hrest⟩ := List.forall_mem_cons.mp h
    rw [ofFields, fieldsOf, hfield, ih hrest]
    rfl

/-- What is written as YAML has no tags and no keys but text, and is read as it was. -/
theorem toTree_ofTree {tree : Tree} (h : tree.WellKeyed) : (ofTree tree).toTree = .ok tree := by
  induction h with
  | scalar tree hs =>
    cases tree with
    | int i => exact congrArg Except.ok (treeOfInt_toInt i)
    | _ => first | rfl | cases hs
  | text s => rfl
  | list items _ ih =>
    rw [ofTree, toTree, treesOf_ofItems ih]
    rfl
  | record fields hkeys _ ih =>
    rw [ofTree, toTree, fieldsOf_ofFields ih]
    exact congrArg (fun fields => Except.ok (Tree.record fields)) (Fields.ofPairs_of_nodup hkeys)

end Yaml

end Regroup
