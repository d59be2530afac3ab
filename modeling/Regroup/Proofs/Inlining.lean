/-
  Regroup.Proofs.Inlining — what a tree refers to after a value took the place of an import.

  `substitute` replaces whole constructs wherever they stand, and the value is then read where
  the construct stood. `substitute_induction` says what is read of the whole, given how the
  value is read in each role and in the place of a substitution's variables.
  - `scan_substitute`: a record stands for what it refers to, as often as the import occurred.
  - `imports_substitute`: nothing is imported but what the tree and the value import.
-/

import Regroup.Proofs.Redirection

namespace Regroup.Tree

variable {x : String} {p : Tree} {role : Role}

/-! ## Forms -/

theorem substituteItems_fst (target : Reference) (items : List Tree) :
    (substituteItems items target p).1 = items.map fun item => (item.substitute target p).1 := by
  induction items with
  | nil => rfl
  | cons item rest ih => simp only [substituteItems, ih, List.map_cons]

theorem substituteFields_fst (target : Reference) (fields : List (String × Tree)) :
    (substituteFields fields target p).1 = fields.map fun field => (field.1, (field.2.substitute target p).1) := by
  induction fields with
  | nil => rfl
  | cons field rest ih => simp only [substituteFields, ih, List.map_cons]

theorem substitute_scalar {tree : Tree} (target : Reference) (h : tree.isScalar = true) :
    (tree.substitute target p).1 = tree := by
  cases tree <;> first | rfl | cases h

theorem substitute_text (target : Reference) (s : String) : ((text s).substitute target p).1 = .text s := rfl

theorem substitute_list (target : Reference) (items : List Tree) :
    ((list items).substitute target p).1 = .list (items.map fun item => (item.substitute target p).1) := by
  simp only [substitute, substituteItems_fst]

theorem substitute_target {tree : Tree} {target : Reference} (h : tree.reference? = some target) :
    (tree.substitute target p).1 = p := by
  cases tree with
  | record fields => simp only [substitute, h, if_true]
  | _ => cases h

theorem substitute_record {fields : List (String × Tree)} {target : Reference}
    (h : (record fields).reference? ≠ some target) :
    ((record fields).substitute target p).1 = .record (fields.map fun field => (field.1, (field.2.substitute target p).1)) := by
  simp only [substitute, h, if_false, substituteFields_fst]

theorem keepsForm_substitute (target : Reference) (hp : p.asText? = none) :
    KeepsForm fun tree => (tree.substitute target p).1 := by
  constructor
  · intro tree s h
    cases tree with
    | record fields =>
      by_cases ht : (record fields).reference? = some target
      · simp only [substitute_target ht] at h
        rw [h] at hp
        cases hp
      · simp only [substitute_record ht] at h
        cases h
    | list items =>
      simp only [substitute_list] at h
      cases h
    | _ => exact h
  · intro tree fields h
    cases tree with
    | record fields' => exact ⟨fields', rfl⟩
    | list items =>
      simp only [substitute_list] at h
      cases h
    | _ => cases h

/-- Nothing of a construct is replaced but the whole. -/
theorem substitute_arg {key : String} {arg : Tree} {r target : Reference} (h : Reference.ofCall? key arg = some r) :
    (arg.substitute target p).1 = arg := by
  cases arg with
  | record fields =>
    rw [ofCall?_record] at h
    cases h
  | list items =>
    obtain ⟨_, name, attr, rfl⟩ := ofCall?_list_eq_some h
    rfl
  | _ => rfl

theorem ofCall?_substitute {key : String} {arg : Tree} {target : Reference} (hp : p.asText? = none)
    (h : Reference.ofCall? key arg = none) (ht : arg.reference? ≠ some target) :
    Reference.ofCall? key (arg.substitute target p).1 = none := by
  cases arg with
  | record fields =>
    rw [substitute_record ht]
    exact ofCall?_record key _
  | list items =>
    rw [substitute_list]
    exact (keepsForm_substitute target hp).ofCall?_list h
  | _ => exact h

/-! ## References -/

/-- What stands for a reference after the imports of `x` gave way to `p`. -/
def inlined (x : String) (p : Tree) (r : Reference) : List Reference := if r = .imported x then p.scan else [r]

theorem inlined_import : inlined x p (.imported x) = p.scan := if_pos rfl

theorem flatMap_inlined {rs : List Reference} (h : .imported x ∉ rs) : rs.flatMap (inlined x p) = rs := by
  have hsame : rs.flatMap (inlined x p) = rs.flatMap fun r => [r] := by
    refine List.flatMap_congr fun r hr => if_neg ?_
    rintro rfl
    exact h hr
  rw [hsame, List.flatMap_singleton']

/-- As a value, a pair is read like its second part. -/
theorem scan_pair (template : String) (tree : Tree) : scan (.list [.text template, tree]) = tree.scan := by
  rw [scan_list]
  simp [scan, scanAs_text]

/-- Of variables that are a construct themselves nothing is read. -/
theorem scanAs_template_construct {template : String} {vars : Fields Tree} (h : vars = [(Reference.importKey, .text x)]) :
    scanAs .template (.list [.text template, .record vars]) = Placeholder.references template (Fields.keys vars) := by
  rw [scanAs_pair, if_pos rfl, h]
  simp [scan, scanAs_text]

section Induction

variable {R : List Reference → List Reference → Prop} (refl : ∀ rs, R rs rs)
  (append : ∀ {a b c d}, R a b → R c d → R (a ++ c) (b ++ d))

include refl append

theorem rel_flatMap_of_refl {α : Type} {xs : List α} {g h : α → List Reference} (hx : ∀ x ∈ xs, R (g x) (h x)) :
    R (xs.flatMap g) (xs.flatMap h) :=
  rel_flatMap (R := fun a _ b => R a b) (s := fun _ => []) (refl []) append hx

/-- How a tree is read after an inlining follows from how the value is read in its new places:
    as the argument of a call, in either role, and as the variables of a substitution. -/
theorem substitute_induction (tree : Tree) (hp : p.asText? = none)
    (hcall : ∀ key r, Reference.ofCall? key p = some r → R [r] p.scan)
    (hrole : ∀ role, R (scanAs role p) p.scan)
    (hvars : ∀ sub ∈ substitutionsAs role tree, sub.vars = [(Reference.importKey, .text x)] →
      R (scanAs .template (.list [.text sub.template, p])) sub.references) :
    R (scanAs role (tree.substitute (.imported x) p).1) ((scanAs role tree).flatMap (inlined x p)) := by
  induction tree using shapes generalizing role with
  | scalar tree hs =>
    rw [substitute_scalar _ hs, scanAs_scalar hs]
    exact refl []
  | text s =>
    rw [substitute_text, flatMap_inlined]
    · exact refl _
    · rw [scanAs_text]
      split
      · exact import_not_mem_references s []
      · exact List.not_mem_nil
  | call key arg ih =>
    rcases hc : Reference.ofCall? key arg with _ | r
    · have hne : (record [(key, arg)]).reference? ≠ some (.imported x) := by simp [reference?, hc]
      rw [substitutionsAs_call hc] at hvars
      rw [substitute_record hne, List.map_cons, List.map_nil, scanAs_call hc]
      by_cases ht : arg.reference? = some (.imported x)
      · rw [scanAs_of_reference? ht, List.flatMap_singleton, inlined_import]
        rw [substitute_target ht]
        rcases hcp : Reference.ofCall? key p with _ | r
        · rw [scanAs_call hcp]
          exact hrole _
        · rw [scanAs_construct hcp]
          exact hcall key r hcp
      · rw [scanAs_call (ofCall?_substitute hp hc ht)]
        exact ih hvars
    · rw [scanAs_construct hc, List.flatMap_singleton]
      by_cases hr : r = .imported x
      · subst hr
        rw [substitute_target (by exact hc), inlined_import]
        exact hrole role
      · rw [substitute_record (by simp [reference?, hc, hr]), List.map_cons, List.map_nil, substitute_arg hc,
          scanAs_construct hc, inlined, if_neg hr]
        exact refl _
  | record fields hlen ih =>
    rw [substitutionsAs_record hlen] at hvars
    have hlen' : (fields.map fun field => (field.1, (field.2.substitute (.imported x) p).1)).length ≠ 1 := by
      rwa [List.length_map]
    rw [substitute_record (by rw [reference?_record hlen]; simp), scanAs_record hlen', scanAs_record hlen,
      List.flatMap_map, List.flatMap_assoc]
    refine rel_flatMap_of_refl refl append fun field hf => ih field hf fun sub hs => ?_
    exact hvars sub (List.mem_flatMap.mpr ⟨field, hf, hs⟩)
  | pair template vars ih ihrecord =>
    rw [substitutionsAs_pair] at hvars
    rw [substitute_list, List.map_cons, List.map_cons, List.map_nil, substitute_text]
    cases role with
    | template =>
      rw [if_pos rfl] at hvars
      by_cases ht : (record vars).reference? = some (.imported x)
      · have hform := eq_of_reference?_import ht
        injection hform with hform
        rw [substitute_target ht, scanAs_template_construct hform, flatMap_inlined (import_not_mem_references _ _)]
        exact hvars ⟨template, vars⟩ (List.mem_cons_self ..) hform
      · have hkeys : Fields.keys (vars.map fun var => (var.1, (var.2.substitute (.imported x) p).1)) = Fields.keys vars :=
          Fields.keys_map (fun tree => (tree.substitute (.imported x) p).1) vars
        rw [substitute_record ht, scanAs_pair, scanAs_pair, if_pos rfl, if_pos rfl, List.flatMap_append,
          flatMap_inlined (import_not_mem_references _ _), List.flatMap_map, List.flatMap_assoc, hkeys]
        refine append (refl _) (rel_flatMap_of_refl refl append fun var hv => ih var hv fun sub hs => ?_)
        exact hvars sub (List.mem_cons_of_mem _ (List.mem_flatMap.mpr ⟨var, hv, hs⟩))
    | value =>
      rw [if_neg (by decide)] at hvars
      change R (scan (.list [.text template, _])) ((scan (.list [.text template, .record vars])).flatMap (inlined x p))
      rw [scan_pair, scan_pair]
      exact ihrecord hvars
  | list items hp' ih =>
    rw [substitutionsAs_list hp'] at hvars
    have hnot : ¬IsPair (items.map fun item => (item.substitute (.imported x) p).1) :=
      fun h => hp' ((keepsForm_substitute _ hp).isPair h)
    rw [substitute_list, scanAs_list hnot, scanAs_list hp', List.flatMap_map, List.flatMap_assoc]
    refine rel_flatMap_of_refl refl append fun item hi => ih item hi fun sub hs => ?_
    exact hvars sub (List.mem_flatMap.mpr ⟨item, hi, hs⟩)

end Induction

/-- A record stands for what it refers to, as often as the import occurred. -/
theorem scan_substitute {tree : Tree} {fields : List (String × Tree)}
    (hkeys : ∀ sub ∈ tree.substitutions, Reference.importKey ∉ Fields.keys sub.vars) :
    (tree.substitute (.imported x) (.record fields)).1.scan = tree.scan.flatMap (inlined x (.record fields)) := by
  refine substitute_induction (R := Eq) (fun _ => rfl) (fun hab hcd => by rw [hab, hcd]) tree rfl ?_
    (fun role => scanAs_record_eq_scan fields) ?_
  · intro key r h
    rw [ofCall?_record] at h
    cases h
  · intro sub hs hvars
    exact absurd (by simp [Fields.keys, hvars]) (hkeys sub hs)

/-- What holds of the parts' members, unless `q`, holds of the members of the whole. -/
theorem exists_mem_flatMap_or {α β : Type} {xs : List α} {g h : α → List β} {b : β} {P : β → Prop} {q : Prop}
    (hx : ∀ x ∈ xs, b ∈ h x → (∃ s ∈ g x, P s) ∨ q) (hb : b ∈ xs.flatMap h) : (∃ s ∈ xs.flatMap g, P s) ∨ q := by
  obtain ⟨x, hin, hb⟩ := List.mem_flatMap.mp hb
  refine (hx x hin hb).imp_left ?_
  rintro ⟨s, hs, hP⟩
  exact ⟨s, List.mem_flatMap.mpr ⟨x, hin, hs⟩, hP⟩

/-- The substitutions of the tree keep their templates and the names of their variables; those
    of the value are new. -/
theorem substitutionsAs_substitute {tree : Tree} {fields : List (String × Tree)} {sub' : Substitution}
    (hkeys : ∀ sub ∈ substitutionsAs role tree, Reference.importKey ∉ Fields.keys sub.vars)
    (h : sub' ∈ substitutionsAs role (tree.substitute (.imported x) (.record fields)).1) :
    (∃ sub ∈ substitutionsAs role tree, sub'.template = sub.template ∧ Fields.keys sub'.vars = Fields.keys sub.vars) ∨
      sub' ∈ substitutions (.record fields) := by
  induction tree using shapes generalizing role with
  | scalar tree hs =>
    rw [substitute_scalar _ hs] at h
    exact Or.inl ⟨sub', h, rfl, rfl⟩
  | text s => exact Or.inl ⟨sub', h, rfl, rfl⟩
  | call key arg ih =>
    by_cases ht : (record [(key, arg)]).reference? = some (.imported x)
    · rw [substitute_target ht, substitutionsAs_record_eq_substitutions] at h
      exact Or.inr h
    · rw [substitute_record ht, List.map_cons, List.map_nil] at h
      rcases hc : Reference.ofCall? key arg with _ | r
      · rw [substitutionsAs_call hc] at hkeys ⊢
        by_cases ha : arg.reference? = some (.imported x)
        · rw [substitute_target ha, substitutionsAs_call (ofCall?_record key fields),
            substitutionsAs_record_eq_substitutions] at h
          exact Or.inr h
        · rw [substitutionsAs_call (ofCall?_substitute rfl hc ha)] at h
          exact ih hkeys h
      · rw [substitute_arg hc, substitutionsAs_construct hc] at h
        cases h
  | record fields' hlen ih =>
    rw [substitute_record (by rw [reference?_record hlen]; simp),
      substitutionsAs_record (by rwa [List.length_map]), List.flatMap_map] at h
    rw [substitutionsAs_record hlen] at hkeys ⊢
    refine exists_mem_flatMap_or (fun field hf => ih field hf fun sub hs => ?_) h
    exact hkeys sub (List.mem_flatMap.mpr ⟨field, hf, hs⟩)
  | pair template vars ih ihrecord =>
    rw [substitute_list, List.map_cons, List.map_cons, List.map_nil, substitute_text] at h
    rw [substitutionsAs_pair] at hkeys ⊢
    cases role with
    | template =>
      rw [if_pos rfl] at hkeys ⊢
      have ht : (record vars).reference? ≠ some (.imported x) := by
        intro ht
        have hform := eq_of_reference?_import ht
        injection hform with hform
        exact hkeys _ (List.mem_cons_self ..) (by simp [Fields.keys, hform])
      rw [substitute_record ht, substitutionsAs_pair, if_pos rfl, List.flatMap_map] at h
      rcases List.mem_cons.mp h with rfl | h
      · exact Or.inl ⟨_, List.mem_cons_self .., rfl, Fields.keys_map (fun tree => (tree.substitute (.imported x) (.record fields)).1) vars⟩
      · have hvars : ∀ var ∈ vars, ∀ sub ∈ var.2.substitutions, Reference.importKey ∉ Fields.keys sub.vars :=
          fun var hv sub hs => hkeys sub (List.mem_cons_of_mem _ (List.mem_flatMap.mpr ⟨var, hv, hs⟩))
        refine (exists_mem_flatMap_or (fun var hv => ih var hv (hvars var hv)) h).imp_left ?_
        rintro ⟨sub, hs, hsub⟩
        exact ⟨sub, List.mem_cons_of_mem _ hs, hsub⟩
    | value =>
      rw [if_neg (by decide)] at hkeys ⊢
      obtain ⟨vars', hvars⟩ : ∃ vars', ((record vars).substitute (.imported x) (.record fields)).1 = .record vars' := by
        by_cases ht : (record vars).reference? = some (.imported x)
        · exact ⟨fields, substitute_target ht⟩
        · exact ⟨_, substitute_record ht⟩
      rw [hvars, substitutionsAs_pair, if_neg (by decide), ← hvars] at h
      exact ihrecord hkeys h
  | list items hp ih =>
    have hnot : ¬IsPair (items.map fun item => (item.substitute (.imported x) (.record fields)).1) :=
      fun h => hp ((keepsForm_substitute _ rfl).isPair h)
    rw [substitute_list, substitutionsAs_list hnot, List.flatMap_map] at h
    rw [substitutionsAs_list hp] at hkeys ⊢
    refine exists_mem_flatMap_or (fun item hi => ih item hi fun sub hs => ?_) h
    exact hkeys sub (List.mem_flatMap.mpr ⟨item, hi, hs⟩)

/-! ## Values that may take the place of an import -/

/-- However it is read in its new place, the value imports what it imports on its own. -/
structure Inlinable (p : Tree) : Prop where
  not_text : p.asText? = none
  as_template : ∀ name, .imported name ∈ scanAs .template p → .imported name ∈ p.scan
  as_vars : ∀ fields, p = .record fields → ∀ name, .imported name ∈ fields.flatMap (·.2.scan) → .imported name ∈ p.scan

theorem inlinable_of_reference? {r : Reference} (h : p.reference? = some r) : Inlinable p := by
  refine ⟨?_, fun name hin => ?_, fun fields hp name hin => ?_⟩
  · cases p <;> first | rfl | cases h
  · rw [scanAs_of_reference? h] at hin
    rwa [scan, scanAs_of_reference? h]
  · subst hp
    unfold reference? at h
    split at h
    · rename_i hfields
      injection hfields with hfields
      subst hfields
      simp [scan_arg h] at hin
    · cases h

theorem isImport_of_ofCall? {key name : String} {p : Tree} (h : Reference.ofCall? key p = some (.imported name)) :
    p = .text name := by
  have hform : Tree.record [(key, p)] = .record [(Reference.importKey, .text name)] := eq_of_reference?_import h
  injection hform with hform
  injection hform with hfield
  exact (Prod.mk.inj hfield).2

/-- Nothing is imported but what the tree and the value import. -/
theorem imports_substitute {tree : Tree} {name : String} (hp : Inlinable p)
    (h : .imported name ∈ (tree.substitute (.imported x) p).1.scan) :
    .imported name ∈ tree.scan ∨ .imported name ∈ p.scan := by
  have hrel := @substitute_induction x p .value
    (fun a b => ∀ name, .imported name ∈ a → .imported name ∈ b ∨ .imported name ∈ p.scan)
    (fun _ _ h => Or.inl h) ?_ tree hp.not_text ?_ ?_ ?_
  · rcases hrel name h with h | h
    · obtain ⟨r, hr, hin⟩ := List.mem_flatMap.mp h
      unfold inlined at hin
      split at hin
      · exact Or.inr hin
      · rw [List.mem_singleton] at hin
        exact Or.inl (hin ▸ hr)
    · exact Or.inr h
  · intro a b c d hab hcd name h
    rcases List.mem_append.mp h with h | h
    · exact (hab name h).imp_left (List.mem_append_left _)
    · exact (hcd name h).imp_left (List.mem_append_right _)
  · intro key r hr name h
    rw [List.mem_singleton] at h
    subst h
    rw [isImport_of_ofCall? hr] at hp
    cases hp.not_text
  · intro role name h
    cases role with
    | value => exact Or.inl h
    | template => exact Or.inl (hp.as_template name h)
  · intro sub _ _ name h
    by_cases hr : ∃ fields, p = .record fields
    · obtain ⟨fields, hfields⟩ := hr
      rw [hfields, scanAs_pair, if_pos rfl] at h
      rcases List.mem_append.mp h with h | h
      · exact absurd h (import_not_mem_references _ _)
      · exact Or.inr (hp.as_vars fields hfields name h)
    · have hnot : ¬IsPair [.text sub.template, p] := by
        rintro ⟨template, vars, e⟩
        simp only [List.cons.injEq, and_true] at e
        exact hr ⟨vars, e.2⟩
      rw [scanAs_list hnot] at h
      simp only [List.flatMap_cons, List.flatMap_nil, List.append_nil, scan, scanAs_text] at h
      exact Or.inr (by simpa [scan] using h)

/-- A record that imports nothing takes the place of these imports, and of no others. -/
theorem import_mem_substitute_iff {fields : List (String × Tree)} (hp : Inlinable (.record fields))
    (halone : ∀ y, .imported y ∉ scan (.record fields)) {tree : Tree} {name : String} :
    .imported name ∈ (tree.substitute (.imported x) (.record fields)).1.scan ↔ name ≠ x ∧ .imported name ∈ tree.scan := by
  have hrel := @substitute_induction x (.record fields) .value
    (fun a b => ∀ name, .imported name ∈ a ↔ .imported name ∈ b) (fun _ _ => Iff.rfl) ?_ tree rfl ?_ ?_ ?_
  · rw [scan, hrel name, List.mem_flatMap]
    constructor
    · rintro ⟨r, hr, hin⟩
      unfold inlined at hin
      split at hin
      · exact absurd hin (halone name)
      · rename_i hne
        rw [List.mem_singleton] at hin
        exact ⟨fun h => hne (by rw [← hin, h]), hin ▸ hr⟩
    · rintro ⟨hne, hin⟩
      refine ⟨_, hin, ?_⟩
      rw [inlined, if_neg (by simpa using hne)]
      exact List.mem_singleton_self _
  · intro a b c d hab hcd name
    rw [List.mem_append, List.mem_append, hab name, hcd name]
  · intro key r h
    rw [ofCall?_record] at h
    cases h
  · intro role name
    rw [scanAs_record_eq_scan]
  · intro sub _ _ name
    -- Neither the template nor the record, read as variables, imports anything.
    refine iff_of_false (fun h => ?_) (import_not_mem_references _ _)
    rw [scanAs_pair, if_pos rfl] at h
    rcases List.mem_append.mp h with h | h
    · exact import_not_mem_references _ _ h
    · exact halone name (hp.as_vars fields rfl name h)

/-- An import is answered by itself or by a node, and nothing else by an import. -/
def MakesNoImports (f : Reference → Option Reference) : Prop :=
  ∀ r : Reference, (r.answer f).isImport = true → r.answer f = r

section Readings

variable {f : Reference → Option Reference} {name : String} {vars : List (String × Tree)}

theorem import_not_mem_text {role : Role} {s : String} : .imported name ∉ scanAs role (.text s) := by
  rw [scanAs_text]
  split
  · exact import_not_mem_references _ _
  · exact List.not_mem_nil

theorem refilled_vars_of_makesNoImports (hf : MakesNoImports f) (sub : Substitution) :
    (sub.refilled f).vars = (redirectFields f sub.vars).result := by
  obtain ⟨bound, hvars, hbound, _⟩ := sub.refilled_vars f
  have hnone : (sub.answers f).filter Reference.isImport = [] := by
    refine List.filter_eq_nil_iff.mpr fun r hr hi => ?_
    obtain ⟨q, hq, rfl⟩ := List.mem_map.mp hr
    rw [hf q hi, Placeholder.isImport_of_mem_references _ hq] at hi
    cases hi
  rw [hnone, List.map_nil, List.map_eq_nil_iff] at hbound
  rw [hvars, hbound, List.append_nil]

theorem redirect_arg {key : String} {arg : Tree} {r : Reference} (h : Reference.ofCall? key arg = some r) :
    (arg.redirect f).result = arg := by
  cases arg with
  | text s => rw [redirect_text]; rfl
  | record fields =>
    rw [ofCall?_record] at h
    cases h
  | list items =>
    obtain ⟨_, name, attr, rfl⟩ := ofCall?_list_eq_some h
    simp [redirect_list, redirect_text, Redirected.unchanged]
  | _ => rw [redirect, redirectAs_scalar f rfl]; rfl

/-- Variables that are redirected as a record, and read as variables. -/
theorem import_mem_vars {fields : List (String × Tree)} (hr : ((record vars).redirect f).result = .record fields)
    (ih : ∀ var ∈ vars, ∀ role role', .imported name ∈ scanAs role (redirectAs f role' var.2).result →
      .imported name ∈ scanAs role var.2)
    (h : .imported name ∈ fields.flatMap (·.2.scan)) : .imported name ∈ vars.flatMap (·.2.scan) := by
  by_cases hlen : vars.length = 1
  · obtain ⟨⟨key, arg⟩, rfl⟩ := List.length_eq_one_iff.mp hlen
    rcases hc : Reference.ofCall? key arg with _ | r
    · rw [redirect, redirectAs_call f hc, Redirected.map, call] at hr
      injection hr with hr
      subst hr
      simp only [List.flatMap_cons, List.flatMap_nil, List.append_nil] at h ⊢
      exact ih _ (List.mem_cons_self ..) _ _ h
    · have hr' : ∃ r', ((record [(key, arg)]).redirect f).result.reference? = some r' := by
        rw [reference?_redirect]
        exact ⟨r.answer f, by simp [reference?, hc]⟩
      obtain ⟨r', hr'⟩ := hr'
      rw [hr] at hr'
      obtain ⟨key', arg', rfl⟩ : ∃ key' arg', fields = [(key', arg')] := by
        by_contra hne
        rw [reference?_record] at hr'
        · cases hr'
        · intro hlen'
          obtain ⟨⟨key', arg'⟩, rfl⟩ := List.length_eq_one_iff.mp hlen'
          exact hne ⟨key', arg', rfl⟩
      simp [scan_arg hr'] at h
  · rw [redirect, redirectAs_record f hlen, Redirected.map, redirectFields_result] at hr
    injection hr with hr
    rw [← hr, List.flatMap_map] at h
    obtain ⟨var, hv, h⟩ := List.mem_flatMap.mp h
    exact List.mem_flatMap.mpr ⟨var, hv, ih var hv _ _ h⟩

/-- Variables that are redirected as variables, and read as a record. -/
theorem import_mem_record
    (ih : ∀ var ∈ vars, ∀ role role', .imported name ∈ scanAs role (redirectAs f role' var.2).result →
      .imported name ∈ scanAs role var.2)
    (h : .imported name ∈ scan (.record (redirectFields f vars).result)) : .imported name ∈ scan (.record vars) := by
  rw [redirectFields_result] at h
  by_cases hlen : vars.length = 1
  · obtain ⟨⟨key, arg⟩, rfl⟩ := List.length_eq_one_iff.mp hlen
    simp only [List.map_cons, List.map_nil] at h
    rcases hc : Reference.ofCall? key arg with _ | r
    · rcases hc' : Reference.ofCall? key (arg.redirect f).result with _ | r'
      · rw [scan, scanAs_call hc'] at h
        rw [scan, scanAs_call hc]
        exact ih _ (List.mem_cons_self ..) _ _ h
      · rw [scan, scanAs_construct hc', List.mem_singleton] at h
        subst h
        rw [keepsForm_redirect.text _ _ (isImport_of_ofCall? hc')] at hc hc'
        rw [redirect_text, Redirected.unchanged, hc] at hc'
        cases hc'
    · rwa [redirect_arg hc] at h
  · rw [scan, scanAs_record (by rwa [List.length_map]), List.flatMap_map] at h
    rw [scan, scanAs_record hlen]
    obtain ⟨var, hv, h⟩ := List.mem_flatMap.mp h
    exact List.mem_flatMap.mpr ⟨var, hv, ih var hv _ _ h⟩

/-- A template with its variables, redirected as one. -/
theorem import_mem_redirectArgument (hf : MakesNoImports f) {template : String} {role : Role}
    (ih : ∀ var ∈ vars, ∀ role role', .imported name ∈ scanAs role (redirectAs f role' var.2).result →
      .imported name ∈ scanAs role var.2)
    (h : .imported name ∈ scanAs role (Placeholder.redirectArgument f (.list [.text template, .record vars]) template
      (redirectFields f vars)).result) : .imported name ∈ scanAs role (.list [.text template, .record vars]) := by
  rcases redirectArgument_cases (f := f) ⟨template, vars⟩ (.list [.text template, .record vars]) with
    ⟨_, _, hresult⟩ | ⟨_, hresult⟩
  · rwa [hresult] at h
  · rw [hresult, refilled_vars_of_makesNoImports hf, Placeholder.argument] at h
    split at h
    · exact absurd h import_not_mem_text
    · rw [scanAs_pair] at h ⊢
      split at h
      · rename_i hrole
        rw [if_pos hrole]
        rcases List.mem_append.mp h with h | h
        · exact absurd h (import_not_mem_references _ _)
        · rw [redirectFields_result, List.flatMap_map] at h
          obtain ⟨var, hv, h⟩ := List.mem_flatMap.mp h
          exact List.mem_append_right _ (List.mem_flatMap.mpr ⟨var, hv, ih var hv _ _ h⟩)
      · rename_i hrole
        rw [if_neg hrole]
        exact import_mem_record ih h

/-- A redirection that makes no imports makes none in any reading. -/
theorem import_mem_of_redirectAs (hf : MakesNoImports f) {tree : Tree} {role role' : Role}
    (h : .imported name ∈ scanAs role (redirectAs f role' tree).result) : .imported name ∈ scanAs role tree := by
  induction tree using shapes generalizing role role' with
  | scalar tree hs =>
    rw [redirectAs_scalar f hs] at h
    exact h
  | text s =>
    rw [redirectAs_text] at h
    split at h
    · change .imported name ∈ scanAs role (Placeholder.redirectArgument f (.text s) s (redirectFields f [])).result at h
      rcases redirectArgument_cases (f := f) ⟨s, []⟩ (.text s) with ⟨_, _, hresult⟩ | ⟨_, hresult⟩
      · rwa [hresult] at h
      · rw [hresult, refilled_vars_of_makesNoImports hf] at h
        exact absurd h import_not_mem_text
    · exact h
  | call key arg ih =>
    rcases hc : Reference.ofCall? key arg with _ | r
    · rw [redirectAs_call f hc, Redirected.map, call, scanAs_call (ofCall?_redirectAs hc)] at h
      rw [scanAs_call hc]
      exact ih h
    · rw [redirectAs_construct f hc] at h
      rcases hr : r.change? f with _ | r'
      · rwa [hr] at h
      · rw [hr, scanAs_of_reference? (reference?_construct r'), List.mem_singleton] at h
        have hsame := hf r (by rw [Reference.answer_of_changed hr, ← h]; rfl)
        rw [Reference.answer_of_changed hr, ← h] at hsame
        rw [scanAs_construct hc, hsame]
        exact List.mem_singleton_self r
  | record fields hlen ih =>
    rw [redirectAs_record f hlen, Redirected.map, redirectFields_result, scanAs_record (by rwa [List.length_map]),
      List.flatMap_map] at h
    rw [scanAs_record hlen]
    obtain ⟨field, hfield, h⟩ := List.mem_flatMap.mp h
    exact List.mem_flatMap.mpr ⟨field, hfield, ih field hfield h⟩
  | pair template vars ih ihrecord =>
    have ih' : ∀ var ∈ vars, ∀ role role', .imported name ∈ scanAs role (redirectAs f role' var.2).result →
        .imported name ∈ scanAs role var.2 := fun var hv role role' h => ih var hv h
    rw [redirectAs_pair] at h
    split at h
    · exact import_mem_redirectArgument hf ih' h
    · obtain ⟨fields, hfields⟩ := redirect_record (f := f) vars
      rw [Redirected.map, hfields, scanAs_pair] at h
      rw [scanAs_pair]
      split at h
      · rename_i hrole
        rw [if_pos hrole]
        rcases List.mem_append.mp h with h | h
        · exact absurd h (import_not_mem_references _ _)
        · exact List.mem_append_right _ (import_mem_vars hfields ih' h)
      · rename_i hrole
        rw [if_neg hrole]
        exact ihrecord (by rwa [← hfields] at h)
  | list items hp ih =>
    have hp' : ¬IsPair (items.map fun item => (item.redirect f).result) := fun h => hp (keepsForm_redirect.isPair h)
    rw [redirectAs_list f hp, Redirected.map, redirectItems_result, scanAs_list hp', List.flatMap_map] at h
    rw [scanAs_list hp]
    obtain ⟨item, hi, h⟩ := List.mem_flatMap.mp h
    exact List.mem_flatMap.mpr ⟨item, hi, ih item hi h⟩

/-- A value may still take the place of an import after it was renamed. -/
theorem Inlinable.redirect (hf : MakesNoImports f) (hkeep : ∀ name, (Reference.imported name).answer f = .imported name)
    {p : Tree} (hp : Inlinable p) : Inlinable (p.redirect f).result := by
  have hlift : ∀ name, .imported name ∈ p.scan → .imported name ∈ (p.redirect f).result.scan := by
    intro name h
    have := import_mem_scan_redirect (f := f) h (by rw [hkeep]; rfl)
    rwa [hkeep] at this
  refine ⟨?_, fun name h => hlift name (hp.as_template name (import_mem_of_redirectAs hf h)), ?_⟩
  · rw [asText?_redirect]
    exact hp.not_text
  · intro fields hfields name h
    obtain ⟨vars, rfl⟩ := keepsForm_redirect.record _ _ hfields
    exact hlift name (hp.as_vars vars rfl name (import_mem_vars hfields (fun var _ _ _ => import_mem_of_redirectAs hf) h))

end Readings

end Regroup.Tree
