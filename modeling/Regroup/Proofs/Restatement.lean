/-
  Regroup.Proofs.Restatement — trees that differ in what they import from their own group.

  A group may import what it publishes itself; its generated template says the same by a local
  reference. `Tree.Restated` relates two trees that are equal but for that. A redirection whose
  answers are of this kind restates the tree (`restated_redirectAs`), and a restated tree never
  imports anything more often than the tree did (`Restated.count_import_le`).
-/

import Mathlib.Data.List.Forall2
import Regroup.Proofs.Redirection

namespace Regroup

/-- Trees equal but for imports `x` that may be references to what `own` says `x` shows. -/
inductive Tree.Restated (own : String → String → Option String → Prop) : Tree → Tree → Prop
  | same (tree : Tree) : Restated own tree tree
  | localized {tree : Tree} {x name : String} {attr : Option String} :
      tree.reference? = some (.imported x) → own x name attr → Restated own tree (Reference.ofTarget name attr).construct
  | list {items items' : List Tree} : List.Forall₂ (Restated own) items items' → Restated own (.list items) (.list items')
  | record {fields fields' : List (String × Tree)} : Fields.keys fields' = Fields.keys fields →
      List.Forall₂ (Restated own) (fields.map (·.2)) (fields'.map (·.2)) → Restated own (.record fields) (.record fields')

namespace Tree

variable {own : String → String → Option String → Prop} {f : Reference → Option Reference} {role : Role}

/-! ## Redirections that restate -/

theorem forall₂_map_map {α : Type} {xs : List α} {g h : α → Tree} (hx : ∀ x ∈ xs, Restated own (g x) (h x)) :
    List.Forall₂ (Restated own) (xs.map g) (xs.map h) := by
  rw [List.forall₂_map_left_iff, List.forall₂_map_right_iff, List.forall₂_same]
  exact hx

theorem restated_record {fields : List (String × Tree)} (h : ∀ field ∈ fields, Restated own field.2 (field.2.redirect f).result) :
    Restated own (.record fields) (.record (redirectFields f fields).result) := by
  refine .record (keys_redirectFields f fields) ?_
  rw [redirectFields_result, List.map_map]
  exact forall₂_map_map h

/-- A template whose placeholders stay is changed in its variables only. -/
theorem redirectArgument_of_answers_self (sub : Substitution) (arg : Tree) (h : ∀ r ∈ sub.references, r.answer f = r) :
    (Placeholder.redirectArgument f arg sub.template (redirectFields f sub.vars)).result = arg ∨
      sub.vars ≠ [] ∧ (Placeholder.redirectArgument f arg sub.template (redirectFields f sub.vars)).result =
        .list [.text sub.template, .record (redirectFields f sub.vars).result] := by
  rcases redirectArgument_cases (f := f) sub arg with ⟨_, _, hresult⟩ | ⟨hne, hresult⟩
  · exact Or.inl hresult
  · have hvars : sub.vars ≠ [] := by
      intro hnil
      have hnone : sub.references.countP (fun r => decide (r.answer f ≠ r)) = 0 :=
        List.countP_eq_zero.mpr fun r hr => by simp [h r hr]
      rw [changed_redirectArgument, hnone, hnil] at hne
      exact hne rfl
    have hsome : (redirectFields f sub.vars).result.isEmpty = false := by
      rw [redirectFields_result, List.isEmpty_map]
      exact List.isEmpty_eq_false_iff.mpr hvars
    rw [hresult, sub.refilled_of_answers_self f h, Placeholder.argument, if_neg (by simp [hsome])]
    exact Or.inr ⟨hvars, rfl⟩

/-- A redirection whose answers are at most imports of the group's own made local restates the tree. -/
theorem restated_redirectAs {tree : Tree} (h : ∀ r ∈ scanAs role tree, r.answer f = r ∨
    ∃ x name attr, r = .imported x ∧ own x name attr ∧ r.answer f = .ofTarget name attr) :
    Restated own tree (redirectAs f role tree).result := by
  have hself : ∀ (template : String) (declared : List String),
      (∀ r ∈ Placeholder.references template declared, r.answer f = r ∨
        ∃ x name attr, r = .imported x ∧ own x name attr ∧ r.answer f = .ofTarget name attr) →
      ∀ r ∈ Placeholder.references template declared, r.answer f = r := by
    intro template declared h r hr
    refine (h r hr).resolve_right fun himport => ?_
    obtain ⟨x, _, _, rfl, _⟩ := himport
    cases Placeholder.isImport_of_mem_references _ hr
  induction tree using shapes generalizing role with
  | scalar tree hs =>
    rw [redirectAs_scalar f hs]
    exact .same tree
  | text s =>
    rw [redirectAs_text]
    split
    · rename_i hrole
      rw [scanAs_text, if_pos hrole] at h
      rcases redirectArgument_of_answers_self ⟨s, []⟩ (.text s) (hself s [] h) with hresult | ⟨hnil, _⟩
      · have hresult : (Placeholder.redirectArgument f (.text s) s (.unchanged [])).result = .text s := hresult
        rw [hresult]
        exact .same _
      · exact absurd rfl hnil
    · exact .same _
  | call key arg ih =>
    rcases hc : Reference.ofCall? key arg with _ | r
    · rw [scanAs_call hc] at h
      rw [redirectAs_call f hc]
      exact .record rfl (.cons (ih h) .nil)
    · rw [scanAs_construct hc, List.forall_mem_singleton] at h
      rw [redirectAs_construct f hc]
      rcases hr : r.change? f with _ | r'
      · exact .same _
      · rw [Reference.answer_of_changed hr] at h
        rcases h with rfl | ⟨x, name, attr, rfl, hown, rfl⟩
        · rw [Reference.change?_eq_none_iff.mpr (Reference.answer_of_changed hr)] at hr
          cases hr
        · exact .localized hc hown
  | record fields hlen ih =>
    rw [scanAs_record hlen] at h
    rw [redirectAs_record f hlen]
    exact restated_record fun field hf => ih field hf fun r hr => h r (List.mem_flatMap.mpr ⟨field, hf, hr⟩)
  | pair template vars ih ihrecord =>
    rw [scanAs_pair] at h
    rw [redirectAs_pair]
    split
    · rename_i hrole
      rw [if_pos hrole, List.forall_mem_append] at h
      rcases redirectArgument_of_answers_self ⟨template, vars⟩ (.list [.text template, .record vars])
        (hself template _ h.1) with hresult | ⟨_, hresult⟩
      · rw [hresult]
        exact .same _
      · rw [hresult]
        refine .list (.cons (.same _) (.cons (restated_record fun var hv => ?_) .nil))
        exact ih var hv fun r hr => h.2 r (List.mem_flatMap.mpr ⟨var, hv, hr⟩)
    · rename_i hrole
      rw [if_neg hrole] at h
      exact .list (.cons (.same _) (.cons (ihrecord h) .nil))
  | list items hp ih =>
    rw [scanAs_list hp] at h
    rw [redirectAs_list f hp, Redirected.map, redirectItems_result]
    refine .list ?_
    rw [List.forall₂_map_right_iff, List.forall₂_same]
    exact fun item hi => ih item hi fun r hr => h r (List.mem_flatMap.mpr ⟨item, hi, hr⟩)

/-! ## Imports of a restated tree -/

theorem Restated.eq_text_left {s : String} {tree : Tree} (h : Restated own (.text s) tree) : tree = .text s := by
  cases h with
  | same => rfl
  | localized himport _ => cases himport

theorem Restated.eq_text_right {s : String} {tree : Tree} (h : Restated own tree (.text s)) : tree = .text s := by
  generalize ht : Tree.text s = tree' at h
  cases h with
  | same => rfl
  | @localized _ _ _ attr => cases attr <;> cases ht
  | list _ => cases ht
  | record _ _ => cases ht

/-- A restated record is a record, and only a record is restated as one. -/
theorem Restated.isSome_fields? {tree tree' : Tree} (h : Restated own tree tree') :
    tree'.fields?.isSome = tree.fields?.isSome := by
  cases h with
  | same => rfl
  | @localized _ _ _ attr himport _ =>
    rw [eq_of_reference?_import himport]
    cases attr <;> rfl
  | list _ => rfl
  | record _ _ => rfl

/-- What says nothing is restated as itself only. -/
theorem Restated.isEmpty_eq {tree tree' : Tree} (h : Restated own tree tree') : tree'.isEmpty = tree.isEmpty := by
  cases h with
  | same => rfl
  | @localized _ _ _ attr himport _ =>
    rw [eq_of_reference?_import himport]
    cases attr <;> rfl
  | list _ => rfl
  | record hkeys _ =>
    rw [Tree.isEmpty, Tree.isEmpty, ← List.isEmpty_map, ← Fields.keys, hkeys, Fields.keys, List.isEmpty_map]

theorem forall₂_pair {α β : Type} {R : α → β → Prop} {xs : List α} {y y' : β} (h : List.Forall₂ R xs [y, y']) :
    ∃ x x', xs = [x, x'] ∧ R x y ∧ R x' y' := by
  cases h with
  | cons hfirst hrest =>
    cases hrest with
    | cons hsecond hnil =>
      cases hnil
      exact ⟨_, _, rfl, hfirst, hsecond⟩

theorem Restated.isPair {items items' : List Tree} (h : List.Forall₂ (Restated own) items items') (hp : IsPair items') :
    IsPair items := by
  obtain ⟨template, vars', rfl⟩ := hp
  obtain ⟨first, second, rfl, htext, hrecord⟩ := forall₂_pair h
  obtain ⟨vars, rfl⟩ := isSome_fields?_iff.mp (hrecord.isSome_fields?.symm.trans rfl)
  exact ⟨template, vars, by rw [htext.eq_text_right]⟩

/-- The argument of a construct has no imports to restate. -/
theorem Restated.eq_of_ofCall? {key : String} {arg arg' : Tree} {r : Reference} (h : Restated own arg arg')
    (hr : Reference.ofCall? key arg = some r ∨ Reference.ofCall? key arg' = some r) : arg' = arg := by
  cases h with
  | same => rfl
  | @localized _ _ _ attr himport _ =>
    rw [eq_of_reference?_import himport] at hr
    cases attr <;> simp [Reference.construct, Reference.ofTarget, call, ofCall?_record] at hr
  | record _ _ => simp [ofCall?_record] at hr
  | list hitems =>
    rcases hr with hr | hr
    · obtain ⟨_, name, attr, rfl⟩ := ofCall?_list_eq_some hr
      obtain ⟨name', attr', rfl, hname, hattr⟩ := forall₂_pair hitems.flip
      rw [hname.eq_text_left, hattr.eq_text_left]
    · obtain ⟨_, name, attr, rfl⟩ := ofCall?_list_eq_some hr
      obtain ⟨name', attr', rfl, hname, hattr⟩ := forall₂_pair hitems
      rw [hname.eq_text_right, hattr.eq_text_right]

section Count

variable {x : String}

/-- A local reference imports nothing. -/
theorem count_import_construct (name : String) (attr : Option String) (n : Nat) :
    (scanAs role (Reference.ofTarget name attr).construct).count (.imported x) ≤ n := by
  have hzero : (scanAs role (Reference.ofTarget name attr).construct).count (.imported x) = 0 := by
    rw [scanAs_of_reference? (reference?_construct _)]
    cases attr <;> rfl
  rw [hzero]
  exact Nat.zero_le n

theorem count_flatMap_le {α β : Type} {r : Reference} {g : α → List Reference} {h : β → List Reference} {xs : List α}
    {ys : List β} (hle : List.Forall₂ (fun x y => (h y).count r ≤ (g x).count r) xs ys) :
    (ys.flatMap h).count r ≤ (xs.flatMap g).count r := by
  induction hle with
  | nil => exact Nat.le_refl _
  | cons hfirst _ ih =>
    rw [List.flatMap_cons, List.flatMap_cons, List.count_append, List.count_append]
    exact Nat.add_le_add hfirst ih

/-- What holds of each restated item holds of the list, and of the values of a record. -/
theorem count_scan_le {items items' : List Tree} (h : List.Forall₂ (Restated own) items items')
    (ih : ∀ item ∈ items, ∀ tree', Restated own item tree' → tree'.scan.count (.imported x) ≤ item.scan.count (.imported x)) :
    (items'.flatMap scan).count (.imported x) ≤ (items.flatMap scan).count (.imported x) :=
  count_flatMap_le (((List.forall₂_and_left ..).mpr ⟨ih, h⟩).imp fun _ tree' h => h.1 tree' h.2)

theorem count_values_le {fields fields' : List (String × Tree)}
    (h : List.Forall₂ (Restated own) (fields.map (·.2)) (fields'.map (·.2)))
    (ih : ∀ field ∈ fields, ∀ tree', Restated own field.2 tree' →
      tree'.scan.count (.imported x) ≤ field.2.scan.count (.imported x)) :
    (fields'.flatMap (·.2.scan)).count (.imported x) ≤ (fields.flatMap (·.2.scan)).count (.imported x) := by
  have hle := count_scan_le h fun item hi => by
    obtain ⟨field, hf, rfl⟩ := List.mem_map.mp hi
    exact ih field hf
  rwa [List.flatMap_map, List.flatMap_map] at hle

theorem Restated.count_vars_le {fields fields' : List (String × Tree)} (h : Restated own (.record fields) (.record fields'))
    (ih : ∀ field ∈ fields, ∀ tree', Restated own field.2 tree' →
      tree'.scan.count (.imported x) ≤ field.2.scan.count (.imported x)) :
    (fields'.flatMap (·.2.scan)).count (.imported x) ≤ (fields.flatMap (·.2.scan)).count (.imported x) := by
  generalize htree : Tree.record fields' = tree' at h
  cases h with
  | same =>
    cases htree
    exact Nat.le_refl _
  | @localized _ _ name attr _ _ =>
    -- Among the variables of a template the record is no construct, and its value is a text or a list of texts.
    have hnone : fields'.flatMap (·.2.scan) = [] := by
      cases attr <;> cases htree <;> simp [scan, scanAs, scanItems]
    rw [hnone]
    exact Nat.zero_le _
  | record _ hvalues =>
    cases htree
    exact count_values_le hvalues ih

/-- A restated tree imports nothing more often. -/
theorem Restated.count_import_le {tree tree' : Tree} (h : Restated own tree tree') :
    (scanAs role tree').count (.imported x) ≤ (scanAs role tree).count (.imported x) := by
  induction tree using shapes generalizing role tree' with
  | scalar tree hs =>
    cases h with
    | same => exact Nat.le_refl _
    | localized _ _ => exact count_import_construct _ _ _
    | list _ => cases hs
    | record _ _ => cases hs
  | text s =>
    obtain rfl := h.eq_text_left
    exact Nat.le_refl _
  | call key arg ih =>
    cases h with
    | same => exact Nat.le_refl _
    | localized _ _ => exact count_import_construct _ _ _
    | @record _ fields' hkeys hvalues =>
      obtain ⟨⟨key', arg'⟩, rfl⟩ : ∃ field, fields' = [field] := by
        rw [← List.length_eq_one_iff, ← List.length_map, ← hvalues.length_eq]
        rfl
      obtain rfl : key' = key := List.head_eq_of_cons_eq hkeys
      have harg : Restated own arg arg' := (List.forall₂_cons.mp hvalues).1
      rcases hc : Reference.ofCall? key' arg with _ | r
      · have hc' : Reference.ofCall? key' arg' = none := by
          rcases hr : Reference.ofCall? key' arg' with _ | r
          · rfl
          · rw [harg.eq_of_ofCall? (Or.inr hr), hc] at hr
            cases hr
        rw [scanAs_call hc, scanAs_call hc']
        exact ih harg
      · obtain rfl := harg.eq_of_ofCall? (Or.inl hc)
        exact Nat.le_refl _
  | record fields hlen ih =>
    cases h with
    | same => exact Nat.le_refl _
    | localized _ _ => exact count_import_construct _ _ _
    | @record _ fields' _ hvalues =>
      have hlen' : fields'.length ≠ 1 := by
        rwa [← List.length_map (fun field => field.2), ← hvalues.length_eq, List.length_map]
      rw [scanAs_record hlen, scanAs_record hlen']
      exact count_values_le hvalues fun field hf _ h => ih field hf h
  | pair template vars ih ihrecord =>
    cases h with
    | same => exact Nat.le_refl _
    | localized _ _ => exact count_import_construct _ _ _
    | list hitems =>
      obtain ⟨first, second, rfl, htext, hrecord⟩ := forall₂_pair hitems.flip
      obtain rfl := htext.eq_text_left
      obtain ⟨vars', rfl⟩ := isSome_fields?_iff.mp hrecord.isSome_fields?
      rw [scanAs_pair, scanAs_pair]
      split
      · rw [List.count_append, List.count_append, count_import_references, count_import_references]
        exact Nat.add_le_add_left (hrecord.count_vars_le fun var hv _ h => ih var hv h) 0
      · exact ihrecord hrecord
  | list items hp ih =>
    cases h with
    | same => exact Nat.le_refl _
    | localized _ _ => exact count_import_construct _ _ _
    | list hitems =>
      rw [scanAs_list hp, scanAs_list fun hp' => hp (Restated.isPair hitems hp')]
      exact count_scan_le hitems fun item hi _ h => ih item hi h

theorem count_import_le_of_rel {o o' : Option Tree} (h : Option.Rel (Restated own) o o') (x : String) :
    ∀ tree ∈ o, ∀ tree' ∈ o', tree'.scan.count (.imported x) ≤ tree.scan.count (.imported x) := by
  intro tree ht tree' ht'
  cases h with
  | none => cases ht
  | some h =>
    cases ht
    cases ht'
    exact h.count_import_le

end Count

end Tree

end Regroup
