/-
  Regroup.Proofs.Replacement — how many imports give way to a value.

  What restores an import decides from the references of a tree whether there is something to
  replace, and `substitute` then replaces whole constructs without regard to substitutions. The
  two differ at one place: the variables of a substitution may look like an import, with one
  variable that is called as the function is. A reading sees a variable there, and `substitute`
  replaces all variables by the value. So it counts these beside the references
  (`count_substitute`), and it replaces the references and nothing else exactly where no
  variables look like the import (`substitute_agrees_iff`).
-/

import Mathlib.Algebra.BigOperators.Group.List.Basic
import Regroup.Proofs.Inlining

namespace Regroup

/-- The variables would be an import of `x` if they stood for themselves. -/
def Substitution.Masks (x : String) (sub : Substitution) : Prop :=
  (Tree.record sub.vars).reference? = some (.imported x)

instance (x : String) (sub : Substitution) : Decidable (sub.Masks x) := inferInstanceAs (Decidable (_ = _))

theorem Substitution.masks_iff {x : String} {sub : Substitution} :
    sub.Masks x ↔ sub.vars = [(Reference.importKey, .text x)] := by
  constructor
  · intro h
    have hform := Tree.eq_of_reference?_import h
    injection hform
  · intro h
    unfold Masks
    rw [h]
    exact reference?_construct (.imported x)

namespace Tree

variable {x : String} {p : Tree} {role : Role}

/-! ## Counts -/

theorem substituteItems_snd (target : Reference) (items : List Tree) :
    (substituteItems items target p).2 = (items.map fun item => (item.substitute target p).2).sum := by
  induction items with
  | nil => rfl
  | cons item rest ih => simp only [substituteItems, ih, List.map_cons, List.sum_cons]

theorem substituteFields_snd (target : Reference) (fields : List (String × Tree)) :
    (substituteFields fields target p).2 = (fields.map fun field => (field.2.substitute target p).2).sum := by
  induction fields with
  | nil => rfl
  | cons field rest ih => simp only [substituteFields, ih, List.map_cons, List.sum_cons]

theorem substitute_list_snd (target : Reference) (items : List Tree) :
    ((list items).substitute target p).2 = (items.map fun item => (item.substitute target p).2).sum := by
  simp only [substitute, substituteItems_snd]

theorem substitute_target_snd {tree : Tree} {target : Reference} (h : tree.reference? = some target) :
    (tree.substitute target p).2 = 1 := by
  cases tree with
  | record fields => simp only [substitute, h, if_true]
  | _ => cases h

theorem substitute_record_snd {fields : List (String × Tree)} {target : Reference}
    (h : (record fields).reference? ≠ some target) :
    ((record fields).substitute target p).2 = (fields.map fun field => (field.2.substitute target p).2).sum := by
  simp only [substitute, h, if_false, substituteFields_snd]

theorem substitute_arg_snd {key : String} {arg : Tree} {r target : Reference} (h : Reference.ofCall? key arg = some r) :
    (arg.substitute target p).2 = 0 := by
  cases arg with
  | record fields =>
    rw [ofCall?_record] at h
    cases h
  | list items =>
    obtain ⟨_, name, attr, rfl⟩ := ofCall?_list_eq_some h
    rfl
  | _ => rfl

/-- The imports of `x`, and the variables that look like one. -/
def replaceable (x : String) (role : Role) (tree : Tree) : Nat :=
  (scanAs role tree).count (.imported x) + (substitutionsAs role tree).countP fun sub => decide (sub.Masks x)

theorem sum_replaceable {α : Type} {xs : List α} {n : α → Nat} {tree : α → Tree}
    (h : ∀ a ∈ xs, n a = replaceable x .value (tree a)) : (xs.map n).sum =
      (xs.flatMap fun a => (tree a).scan).count (.imported x) +
        (xs.flatMap fun a => (tree a).substitutions).countP fun sub => decide (sub.Masks x) := by
  rw [List.map_congr_left h, List.count_flatMap, List.countP_flatMap]
  exact List.sum_map_add

theorem substitute_replaceable (tree : Tree) : (tree.substitute (.imported x) p).2 = replaceable x role tree := by
  induction tree using shapes generalizing role with
  | scalar tree hs =>
    rw [replaceable, scanAs_scalar hs, substitutionsAs_scalar hs]
    cases tree <;> first | rfl | cases hs
  | text s =>
    have hnone : ¬(⟨s, []⟩ : Substitution).Masks x := by simp [Substitution.Masks, reference?]
    rw [replaceable, scanAs_text, substitutionsAs_text]
    split
    · rw [count_import_references, List.countP_singleton]
      simp [hnone]
      rfl
    · rfl
  | call key arg ih =>
    rcases hc : Reference.ofCall? key arg with _ | r
    · rw [substitute_record_snd (by simp [reference?, hc]), replaceable, scanAs_call hc, substitutionsAs_call hc]
      exact (Nat.add_zero _).trans ih
    · rw [replaceable, scanAs_construct hc, substitutionsAs_construct hc]
      by_cases hr : r = .imported x
      · subst hr
        rw [substitute_target_snd (by exact hc)]
        simp
      · rw [substitute_record_snd (by simp [reference?, hc, hr])]
        simp [substitute_arg_snd hc, hr]
  | record fields hlen ih =>
    rw [substitute_record_snd (by rw [reference?_record hlen]; simp), replaceable, scanAs_record hlen, substitutionsAs_record hlen]
    exact sum_replaceable fun field hf => ih field hf
  | pair template vars ih ihrecord =>
    have hitems : ((list [text template, record vars]).substitute (.imported x) p).2 =
        ((record vars).substitute (.imported x) p).2 := by
      rw [substitute_list_snd]
      exact (Nat.zero_add _).trans (Nat.add_zero _)
    rw [hitems, replaceable, scanAs_pair, substitutionsAs_pair]
    cases role with
    | template =>
      rw [if_pos rfl, if_pos rfl, List.count_append, count_import_references, Nat.zero_add, List.countP_cons]
      by_cases hmasks : (⟨template, vars⟩ : Substitution).Masks x
      · -- The name of the import is the value of a variable here, and refers to nothing.
        have hvars : vars = [(Reference.importKey, .text x)] := Substitution.masks_iff.mp hmasks
        rw [substitute_target_snd hmasks, if_pos (by simpa using hmasks), hvars]
        simp [scan, scanAs_text, substitutions, substitutionsAs_text]
      · rw [substitute_record_snd hmasks, sum_replaceable fun var hv => ih var hv]
        simp [hmasks]
    | value =>
      rw [if_neg (by decide), if_neg (by decide)]
      exact ihrecord
  | list items hp ih =>
    rw [substitute_list_snd, replaceable, scanAs_list hp, substitutionsAs_list hp]
    exact sum_replaceable fun item hi => ih item hi

/-- Replaced are the imports that a reading finds, and the variables that look like one. -/
theorem count_substitute (tree : Tree) : (tree.substitute (.imported x) p).2 =
    tree.scan.count (.imported x) + tree.substitutions.countP fun sub => decide (sub.Masks x) :=
  substitute_replaceable tree

/-! ## Agreement -/

/-- The import is gone from a tree in which no variables look like it. -/
theorem import_not_mem_substitute {fields : List (String × Tree)} (hp : .imported x ∉ scan (.record fields)) {tree : Tree}
    (hmasks : ∀ sub ∈ tree.substitutions, ¬sub.Masks x) :
    .imported x ∉ (tree.substitute (.imported x) (.record fields)).1.scan := by
  have hrel := @substitute_induction x (.record fields) .value (fun a b => .imported x ∈ a → .imported x ∈ b)
    (fun _ => id) ?_ tree rfl ?_ ?_ ?_
  · intro h
    obtain ⟨r, _, hin⟩ := List.mem_flatMap.mp (hrel h)
    unfold inlined at hin
    split at hin
    · exact hp hin
    · rename_i hne
      exact hne (List.mem_singleton.mp hin).symm
  · intro a b c d hab hcd h
    exact List.mem_append.mpr ((List.mem_append.mp h).imp hab hcd)
  · intro key r h
    rw [ofCall?_record] at h
    cases h
  · intro role h
    rwa [scanAs_record_eq_scan] at h
  · intro sub hs hvars
    exact absurd (Substitution.masks_iff.mpr hvars) (hmasks sub hs)

/--
A record that does not import `x` replaces exactly the imports of `x` that a reading finds, and
leaves none, if and only if no substitution of the tree has variables that look like the import.
-/
theorem substitute_agrees_iff {fields : List (String × Tree)} (hp : .imported x ∉ scan (.record fields)) (tree : Tree) :
    ((tree.substitute (.imported x) (.record fields)).2 = tree.scan.count (.imported x) ∧
        .imported x ∉ (tree.substitute (.imported x) (.record fields)).1.scan) ↔
      ∀ sub ∈ tree.substitutions, ¬sub.Masks x := by
  rw [count_substitute]
  constructor
  · intro h
    have hnone : (tree.substitutions.countP fun sub => decide (sub.Masks x)) = 0 := by omega
    simpa using List.countP_eq_zero.mp hnone
  · intro h
    have hnone : (tree.substitutions.countP fun sub => decide (sub.Masks x)) = 0 :=
      List.countP_eq_zero.mpr fun sub hs => by simpa using h sub hs
    exact ⟨by omega, import_not_mem_substitute hp h⟩

/-- An import for itself, one as the value of a variable, and one of something else. -/
def boundImports : Tree :=
  .record [("A", (Reference.imported "objects").construct),
    ("B", .call Reference.subKey (.list [.text "$\x7bX\x7d", .record [("X", (Reference.imported "objects").construct)]])),
    ("C", (Reference.imported "other").construct)]

theorem substitute_agrees_bound : (boundImports.substitute (.imported "objects") (Reference.node "Bucket").construct).2 = 2 ∧
    .imported "objects" ∉ (boundImports.substitute (.imported "objects") (Reference.node "Bucket").construct).1.scan := by
  have hp : Reference.imported "objects" ∉ (Reference.node "Bucket").construct.scan := by decide
  obtain ⟨hcount, hgone⟩ := (substitute_agrees_iff hp boundImports).mpr (by decide)
  exact ⟨hcount.trans (by decide), hgone⟩

/-- A template with one variable, which is called as the import function is. -/
def maskedImport : Tree :=
  .call Reference.subKey (.list [.text "text", .record [(Reference.importKey, .text "objects")]])

/-- Nothing is imported, but the variable is replaced. -/
theorem substitute_replaces_masked : .imported "objects" ∉ Tree.emptyRecord.scan ∧
    (maskedImport.substitute (.imported "objects") .emptyRecord).2 = 1 ∧
    maskedImport.scan.count (.imported "objects") = 0 := by
  decide

end Tree

end Regroup
