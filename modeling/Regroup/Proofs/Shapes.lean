/-
  Regroup.Proofs.Shapes — the shapes of a tree, and how each is read and redirected.

  Reading and redirecting tell six shapes apart: a scalar, a text, a call (a record of one
  field), any other record, a pair of a text and a record, and any other list. `Tree.shapes`
  is induction along them; one equation for each shape says what `scanAs` and `redirectAs` do
  there, so that no later proof opens the two recursions. `substitutionsAs` are the templates
  that a reading finds.
-/

import Mathlib.Algebra.Ring.Nat
import Regroup.Reference.Redirect

namespace Regroup

/-- A template, and the variables that stand with it. -/
structure Substitution where
  template : String
  vars : Fields Tree

namespace Tree

mutual

/-- The substitutions in a tree, each with its template read as one. -/
def substitutionsAs (role : Role) : Tree → List Substitution
  | .text template => if role = .template then [⟨template, []⟩] else []
  | .record [(key, arg)] =>
    match Reference.ofCall? key arg with
    | some _ => []
    | none => substitutionsAs (.ofKey key) arg
  | .record fields => substitutionsFields fields
  | .list [.text template, .record vars] =>
    if role = .template then ⟨template, vars⟩ :: substitutionsFields vars
    else substitutionsAs .value (.record vars)
  | .list items => substitutionsItems items
  | _ => []

def substitutionsItems : List Tree → List Substitution
  | [] => []
  | item :: rest => substitutionsAs .value item ++ substitutionsItems rest

def substitutionsFields : List (String × Tree) → List Substitution
  | [] => []
  | (_, value) :: rest => substitutionsAs .value value ++ substitutionsFields rest

end

def substitutions (tree : Tree) : List Substitution := tree.substitutionsAs .value

/-- Neither a text nor a container. -/
def isScalar : Tree → Bool
  | .null | .bool _ | .int _ | .float _ => true
  | .text _ | .list _ | .record _ => false

/-- A template with variables, when it stands as the argument of a substitution. -/
def IsPair (items : List Tree) : Prop := ∃ template vars, items = [.text template, .record vars]

theorem asText?_eq_some {tree : Tree} {s : String} (h : tree.asText? = some s) : tree = .text s := by
  cases tree <;> simp_all [asText?]

theorem isSome_fields?_iff {tree : Tree} : tree.fields?.isSome = true ↔ ∃ fields, tree = .record fields := by
  cases tree <;> simp [fields?]

/-! ## Constructs -/

theorem ofCall?_record (key : String) (fields : List (String × Tree)) : Reference.ofCall? key (.record fields) = none := by
  simp [Reference.ofCall?]

theorem ofCall?_list_eq_some {key : String} {items : List Tree} {r : Reference}
    (h : Reference.ofCall? key (.list items) = some r) :
    key = Reference.getAttKey ∧ ∃ name attr, items = [.text name, .text attr] := by
  unfold Reference.ofCall? at h
  split at h
  · cases h
  · split at h
    · rename_i hkey
      split at h
      · rename_i name attr hitems
        exact ⟨hkey, name, attr, by injection hitems⟩
      · rename_i hlist
        cases hlist
      · cases h
    · split at h <;> cases h

theorem reference?_record {fields : List (String × Tree)} (h : fields.length ≠ 1) : (record fields).reference? = none := by
  unfold reference?
  split
  · rename_i heq
    cases heq
    exact absurd rfl h
  · rfl

/-- An import has one form. -/
theorem eq_of_reference?_import {tree : Tree} {x : String} (h : tree.reference? = some (.imported x)) :
    tree = .record [(Reference.importKey, .text x)] := by
  unfold reference? at h
  split at h
  · rename_i key arg
    unfold Reference.ofCall? at h
    split at h
    · split at h <;> cases h
    · split at h
      · split at h
        · cases h
        · rw [Option.map_eq_some_iff] at h
          obtain ⟨_, _, h⟩ := h
          cases h
        · cases h
      · split at h
        · rename_i hkey
          split at h
          · cases h
            rw [hkey]
          · cases h
        · cases h
  · cases h

/-- `g` makes a text or a record of nothing else. -/
structure KeepsForm (g : Tree → Tree) : Prop where
  text : ∀ tree s, g tree = .text s → tree = .text s
  record : ∀ tree fields, g tree = .record fields → ∃ fields', tree = .record fields'

namespace KeepsForm

variable {g : Tree → Tree} {items : List Tree}

theorem isPair (hg : KeepsForm g) (h : IsPair (items.map g)) : IsPair items := by
  obtain ⟨template, vars, h⟩ := h
  obtain ⟨a, tail, rfl, ha, htail⟩ := List.map_eq_cons_iff.mp h
  obtain ⟨b, tail, rfl, hb, htail⟩ := List.map_eq_cons_iff.mp htail
  obtain rfl := List.map_eq_nil_iff.mp htail
  obtain rfl := hg.text _ _ ha
  obtain ⟨vars', rfl⟩ := hg.record _ _ hb
  exact ⟨template, vars', rfl⟩

theorem ofCall?_list (hg : KeepsForm g) {key : String} (h : Reference.ofCall? key (.list items) = none) :
    Reference.ofCall? key (.list (items.map g)) = none := by
  rcases hr : Reference.ofCall? key (.list (items.map g)) with _ | r
  · rfl
  · obtain ⟨rfl, name, attr, hitems⟩ := ofCall?_list_eq_some hr
    obtain ⟨a, tail, rfl, ha, htail⟩ := List.map_eq_cons_iff.mp hitems
    obtain ⟨b, tail, rfl, hb, htail⟩ := List.map_eq_cons_iff.mp htail
    obtain rfl := List.map_eq_nil_iff.mp htail
    obtain rfl := hg.text _ _ ha
    obtain rfl := hg.text _ _ hb
    cases h

end KeepsForm

/-! ## Induction -/

private theorem sizeOf_value_lt {fields : List (String × Tree)} {field : String × Tree} (h : field ∈ fields) :
    sizeOf field.2 < sizeOf (Tree.record fields) := by
  have hf := List.sizeOf_lt_of_mem h
  obtain ⟨key, value⟩ := field
  simp only [Prod.mk.sizeOf_spec, Tree.record.sizeOf_spec] at hf ⊢
  omega

private theorem sizeOf_item_lt {items : List Tree} {item : Tree} (h : item ∈ items) :
    sizeOf item < sizeOf (Tree.list items) := by
  have := List.sizeOf_lt_of_mem h
  simp only [Tree.list.sizeOf_spec]
  omega

private theorem sizeOf_vars_lt {items : List Tree} {template : String} {vars : Fields Tree}
    (h : items = [.text template, .record vars]) : sizeOf (Tree.record vars) < sizeOf (Tree.list items) :=
  sizeOf_item_lt (by simp [h])

@[elab_as_elim]
theorem shapes {motive : Tree → Prop}
    (scalar : ∀ tree, isScalar tree = true → motive tree)
    (text : ∀ s, motive (.text s))
    (call : ∀ key arg, motive arg → motive (.record [(key, arg)]))
    (record : ∀ fields, fields.length ≠ 1 → (∀ field ∈ fields, motive field.2) → motive (.record fields))
    (pair : ∀ template vars, (∀ var ∈ vars, motive var.2) → motive (.record vars) →
      motive (.list [.text template, .record vars]))
    (list : ∀ items, ¬IsPair items → (∀ item ∈ items, motive item) → motive (.list items))
    (tree : Tree) : motive tree := by
  match tree with
  | .null => exact scalar _ rfl
  | .bool _ => exact scalar _ rfl
  | .int _ => exact scalar _ rfl
  | .float _ => exact scalar _ rfl
  | .text s => exact text s
  | .record fields =>
    have hvalues : ∀ field ∈ fields, motive field.2 := fun field hf =>
      have := sizeOf_value_lt hf
      shapes scalar text call record pair list field.2
    by_cases h : fields.length = 1
    · obtain ⟨⟨key, arg⟩, rfl⟩ := List.length_eq_one_iff.mp h
      exact call key arg (hvalues _ (List.mem_cons_self ..))
    · exact record fields h hvalues
  | .list items =>
    by_cases h : IsPair items
    · obtain ⟨template, vars, e⟩ := h
      have hv := sizeOf_vars_lt e
      rw [e]
      refine pair template vars (fun var hvar => ?_) (shapes scalar text call record pair list (.record vars))
      have := Nat.lt_trans (sizeOf_value_lt hvar) hv
      exact shapes scalar text call record pair list var.2
    · refine list items h fun item hi => ?_
      have := sizeOf_item_lt hi
      exact shapes scalar text call record pair list item
termination_by sizeOf tree
decreasing_by all_goals assumption

/-! ## Reading -/

variable {role : Role}

section Reading

attribute [local simp] scanAs

theorem scanItems_eq (items : List Tree) : scanItems items = items.flatMap scan := by
  induction items with
  | nil => rfl
  | cons item rest ih => rw [scanItems, ih, List.flatMap_cons, scan]

theorem scanFields_eq (fields : List (String × Tree)) : scanFields fields = fields.flatMap (·.2.scan) := by
  induction fields with
  | nil => rfl
  | cons field rest ih => rw [scanFields, ih, List.flatMap_cons, scan]

theorem scanAs_scalar {tree : Tree} (h : tree.isScalar = true) : scanAs role tree = [] := by
  cases tree <;> first | rfl | cases h

theorem scanAs_text (s : String) :
    scanAs role (.text s) = if role = .template then Placeholder.references s [] else [] := by
  rw [scanAs]

theorem scanAs_construct {key : String} {arg : Tree} {r : Reference} (h : Reference.ofCall? key arg = some r) :
    scanAs role (.record [(key, arg)]) = [r] := by
  simp only [scanAs, h]

/-- A construct is read as the reference it is, wherever it stands. -/
theorem scanAs_of_reference? {tree : Tree} {r : Reference} (h : tree.reference? = some r) : scanAs role tree = [r] := by
  unfold reference? at h
  split at h
  · exact scanAs_construct h
  · cases h

theorem scan_arg {key : String} {arg : Tree} {r : Reference} (h : Reference.ofCall? key arg = some r) : arg.scan = [] := by
  cases arg with
  | record fields =>
    rw [ofCall?_record] at h
    cases h
  | list items =>
    obtain ⟨_, name, attr, rfl⟩ := ofCall?_list_eq_some h
    simp [scan, scanItems]
  | _ => simp [scan]

theorem scanAs_call {key : String} {arg : Tree} (h : Reference.ofCall? key arg = none) :
    scanAs role (.record [(key, arg)]) = scanAs (.ofKey key) arg := by
  simp only [scanAs, h]

theorem scanAs_record {fields : List (String × Tree)} (h : fields.length ≠ 1) :
    scanAs role (.record fields) = fields.flatMap (·.2.scan) := by
  rw [scanAs, scanFields_eq]
  rintro key arg rfl
  exact h rfl

/-- A record is read in the same way wherever it stands. -/
theorem scanAs_record_eq_scan (fields : List (String × Tree)) : scanAs role (.record fields) = scan (.record fields) := by
  by_cases h : fields.length = 1
  · obtain ⟨⟨key, arg⟩, rfl⟩ := List.length_eq_one_iff.mp h
    simp only [scan, scanAs]
  · rw [scan, scanAs_record h, scanAs_record h]

theorem scanAs_pair (template : String) (vars : Fields Tree) :
    scanAs role (.list [.text template, .record vars]) =
      if role = .template then Placeholder.references template (Fields.keys vars) ++ vars.flatMap (·.2.scan)
      else scan (.record vars) := by
  rw [scanAs, scanFields_eq, scan]

theorem scanAs_list {items : List Tree} (h : ¬IsPair items) : scanAs role (.list items) = items.flatMap scan := by
  rw [scanAs, scanItems_eq]
  exact fun template vars e => h ⟨template, vars, e⟩

/-- As a value a list is read item by item, a pair too. -/
theorem scan_list (items : List Tree) : scan (.list items) = items.flatMap scan := by
  by_cases h : IsPair items
  · obtain ⟨template, vars, rfl⟩ := h
    simp [scan]
  · exact scanAs_list h

end Reading

/-! ## Substitutions -/

section Substitutions

attribute [local simp] substitutionsAs

theorem substitutionsItems_eq (items : List Tree) : substitutionsItems items = items.flatMap substitutions := by
  induction items with
  | nil => rfl
  | cons item rest ih => rw [substitutionsItems, ih, List.flatMap_cons, substitutions]

theorem substitutionsFields_eq (fields : List (String × Tree)) :
    substitutionsFields fields = fields.flatMap (·.2.substitutions) := by
  induction fields with
  | nil => rfl
  | cons field rest ih => rw [substitutionsFields, ih, List.flatMap_cons, substitutions]

theorem substitutionsAs_scalar {tree : Tree} (h : tree.isScalar = true) : substitutionsAs role tree = [] := by
  cases tree <;> first | rfl | cases h

theorem substitutionsAs_text (s : String) :
    substitutionsAs role (.text s) = if role = .template then [⟨s, []⟩] else [] := by
  rw [substitutionsAs]

theorem substitutionsAs_construct {key : String} {arg : Tree} {r : Reference} (h : Reference.ofCall? key arg = some r) :
    substitutionsAs role (.record [(key, arg)]) = [] := by
  simp only [substitutionsAs, h]

theorem substitutionsAs_call {key : String} {arg : Tree} (h : Reference.ofCall? key arg = none) :
    substitutionsAs role (.record [(key, arg)]) = substitutionsAs (.ofKey key) arg := by
  simp only [substitutionsAs, h]

theorem substitutionsAs_record {fields : List (String × Tree)} (h : fields.length ≠ 1) :
    substitutionsAs role (.record fields) = fields.flatMap (·.2.substitutions) := by
  rw [substitutionsAs, substitutionsFields_eq]
  rintro key arg rfl
  exact h rfl

theorem substitutionsAs_record_eq_substitutions (fields : List (String × Tree)) :
    substitutionsAs role (.record fields) = substitutions (.record fields) := by
  by_cases h : fields.length = 1
  · obtain ⟨⟨key, arg⟩, rfl⟩ := List.length_eq_one_iff.mp h
    simp only [substitutions, substitutionsAs]
  · rw [substitutions, substitutionsAs_record h, substitutionsAs_record h]

theorem substitutionsAs_pair (template : String) (vars : Fields Tree) :
    substitutionsAs role (.list [.text template, .record vars]) =
      if role = .template then ⟨template, vars⟩ :: vars.flatMap (·.2.substitutions)
      else substitutions (.record vars) := by
  rw [substitutionsAs, substitutionsFields_eq, substitutions]

theorem substitutionsAs_list {items : List Tree} (h : ¬IsPair items) :
    substitutionsAs role (.list items) = items.flatMap substitutions := by
  rw [substitutionsAs, substitutionsItems_eq]
  exact fun template vars e => h ⟨template, vars, e⟩

end Substitutions

/-! ## Redirecting -/

section Redirecting

attribute [local simp] redirectAs

variable (f : Reference → Option Reference)

theorem redirectItems_result (items : List Tree) :
    (redirectItems f items).result = items.map fun item => (item.redirect f).result := by
  induction items with
  | nil => rfl
  | cons item rest ih => rw [redirectItems, Redirected.pair, ih, List.map_cons, redirect]

theorem redirectFields_result (fields : List (String × Tree)) :
    (redirectFields f fields).result = fields.map fun field => (field.1, (field.2.redirect f).result) := by
  induction fields with
  | nil => rfl
  | cons field rest ih => rw [redirectFields, Redirected.pair, ih, List.map_cons, redirect]

theorem redirectItems_changed (items : List Tree) :
    (redirectItems f items).changed = (items.map fun item => (item.redirect f).changed).sum := by
  induction items with
  | nil => rfl
  | cons item rest ih => rw [redirectItems, Redirected.pair, ih, List.map_cons, List.sum_cons, redirect]

theorem redirectFields_changed (fields : List (String × Tree)) :
    (redirectFields f fields).changed = (fields.map fun field => (field.2.redirect f).changed).sum := by
  induction fields with
  | nil => rfl
  | cons field rest ih => rw [redirectFields, Redirected.pair, ih, List.map_cons, List.sum_cons, redirect]

theorem redirectItems_asked (items : List Tree) :
    (redirectItems f items).asked = items.flatMap fun item => (item.redirect f).asked := by
  induction items with
  | nil => rfl
  | cons item rest ih => rw [redirectItems, Redirected.pair, ih, List.flatMap_cons, redirect]

theorem redirectFields_asked (fields : List (String × Tree)) :
    (redirectFields f fields).asked = fields.flatMap fun field => (field.2.redirect f).asked := by
  induction fields with
  | nil => rfl
  | cons field rest ih => rw [redirectFields, Redirected.pair, ih, List.flatMap_cons, redirect]

@[simp] theorem keys_redirectFields (fields : List (String × Tree)) :
    Fields.keys (redirectFields f fields).result = Fields.keys fields := by
  rw [redirectFields_result]
  exact Fields.keys_map (fun tree => (tree.redirect f).result) fields

theorem redirectAs_scalar {tree : Tree} (h : tree.isScalar = true) : redirectAs f role tree = .unchanged tree := by
  cases tree <;> first | rfl | cases h

theorem redirectAs_text (s : String) :
    redirectAs f role (.text s) =
      if role = .template then Placeholder.redirectArgument f (.text s) s (.unchanged []) else .unchanged (.text s) := by
  rw [redirectAs]

theorem redirectAs_construct {key : String} {arg : Tree} {r : Reference} (h : Reference.ofCall? key arg = some r) :
    redirectAs f role (.record [(key, arg)]) =
      match r.change? f with
      | some r' => ⟨r'.construct, [r], 1⟩
      | none => ⟨.record [(key, arg)], [r], 0⟩ := by
  simp only [redirectAs, h]
  rfl

theorem redirectAs_call {key : String} {arg : Tree} (h : Reference.ofCall? key arg = none) :
    redirectAs f role (.record [(key, arg)]) = (redirectAs f (.ofKey key) arg).map (.call key) := by
  simp only [redirectAs, h]

theorem redirectAs_record {fields : List (String × Tree)} (h : fields.length ≠ 1) :
    redirectAs f role (.record fields) = (redirectFields f fields).map .record := by
  rw [redirectAs]
  rintro key arg rfl
  exact h rfl

theorem redirectAs_pair (template : String) (vars : Fields Tree) :
    redirectAs f role (.list [.text template, .record vars]) =
      if role = .template then
        Placeholder.redirectArgument f (.list [.text template, .record vars]) template (redirectFields f vars)
      else ((Tree.record vars).redirect f).map fun vars => .list [.text template, vars] := by
  rw [redirectAs, redirect]

theorem redirectAs_list {items : List Tree} (h : ¬IsPair items) :
    redirectAs f role (.list items) = (redirectItems f items).map .list := by
  rw [redirectAs]
  exact fun template vars e => h ⟨template, vars, e⟩

end Redirecting

end Tree

end Regroup
