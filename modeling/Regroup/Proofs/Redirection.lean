/-
  Regroup.Proofs.Redirection — what a redirected tree refers to.

  A redirected tree is read along the tree it was made from (`redirectAs_induction`): the
  reading of every substitution decides what is read of the whole.
  - `imports_redirectAs`: it imports what the answers import, in whatever order.
  - `locals_redirectAs`: it refers to no other node than the answers do, where each can be
    written into a placeholder; to all of them, where no variable captures one.
  - `scan_redirect_append_captured`: both together, with those that are captured.
  - `changed_redirectAs`: how many of its references are changed.
  - `substitutionsAs_redirectAs`: its substitutions are those of the tree, refilled.
-/

import Regroup.Proofs.Refilling

namespace Regroup

namespace Tree

variable {f : Reference → Option Reference} {role : Role}

/-! ## Forms -/

theorem redirect_text (s : String) : (text s).redirect f = .unchanged (.text s) := by
  simp [redirect, redirectAs_text]

theorem redirect_record (fields : List (String × Tree)) :
    ∃ fields', ((record fields).redirect f).result = .record fields' := by
  by_cases h : fields.length = 1
  · obtain ⟨⟨key, arg⟩, rfl⟩ := List.length_eq_one_iff.mp h
    rcases hc : Reference.ofCall? key arg with _ | r
    · rw [redirect, redirectAs_call f hc]
      exact ⟨_, rfl⟩
    · rw [redirect, redirectAs_construct f hc]
      rcases r.change? f with _ | r'
      · exact ⟨_, rfl⟩
      · cases r' <;> exact ⟨_, rfl⟩
  · rw [redirect, redirectAs_record f h]
    exact ⟨_, rfl⟩

theorem redirect_list (items : List Tree) :
    ((list items).redirect f).result = .list (items.map fun item => (item.redirect f).result) := by
  by_cases h : IsPair items
  · obtain ⟨template, vars, rfl⟩ := h
    rw [redirect, redirectAs_pair, if_neg (by decide)]
    simp [Redirected.map, redirect_text, Redirected.unchanged]
  · rw [redirect, redirectAs_list f h, Redirected.map, redirectItems_result]

@[simp] theorem asText?_redirect (tree : Tree) : (tree.redirect f).result.asText? = tree.asText? := by
  cases tree with
  | text s => rw [redirect_text]; rfl
  | list items => rw [redirect_list]; rfl
  | record fields =>
    obtain ⟨fields', h⟩ := redirect_record (f := f) fields
    rw [h]
    rfl
  | _ => rw [redirect, redirectAs_scalar f rfl]; rfl

@[simp] theorem isSome_fields?_redirect (tree : Tree) :
    (tree.redirect f).result.fields?.isSome = tree.fields?.isSome := by
  cases tree with
  | text s => rw [redirect_text]; rfl
  | list items => rw [redirect_list]; rfl
  | record fields =>
    obtain ⟨fields', h⟩ := redirect_record (f := f) fields
    rw [h]
    rfl
  | _ => rw [redirect, redirectAs_scalar f rfl]; rfl

theorem keepsForm_redirect : KeepsForm fun tree => (tree.redirect f).result := by
  constructor
  · intro tree s h
    apply asText?_eq_some
    rw [← asText?_redirect (f := f), h]
    rfl
  · intro tree fields h
    have hrecord : tree.fields?.isSome := by
      rw [← isSome_fields?_redirect (f := f), h]
      rfl
    exact isSome_fields?_iff.mp hrecord

/-- What is no construct becomes none. -/
theorem ofCall?_redirectAs {key : String} {arg : Tree} (h : Reference.ofCall? key arg = none) :
    Reference.ofCall? key (redirectAs f (.ofKey key) arg).result = none := by
  by_cases hkey : key = Reference.subKey
  · subst hkey
    simp [Reference.ofCall?, Reference.subKey, Reference.refKey, Reference.getAttKey, Reference.importKey]
  · have hrole : Role.ofKey key = .value := by simp [Role.ofKey, hkey]
    rw [hrole]
    change Reference.ofCall? key (arg.redirect f).result = none
    cases arg with
    | text s => rwa [redirect_text]
    | list items =>
      rw [redirect_list]
      exact keepsForm_redirect.ofCall?_list h
    | record fields =>
      obtain ⟨fields', hf⟩ := redirect_record (f := f) fields
      rw [hf]
      exact ofCall?_record key fields'
    | _ => rwa [redirect, redirectAs_scalar f rfl]

/-! ## Substitutions -/

theorem import_not_mem_references {x : String} (template : String) (declared : List String) :
    .imported x ∉ Placeholder.references template declared := by
  intro h
  cases Placeholder.isImport_of_mem_references _ h

theorem count_import_references {x : String} (template : String) (declared : List String) :
    (Placeholder.references template declared).count (.imported x) = 0 :=
  List.count_eq_zero.mpr (import_not_mem_references template declared)

theorem scan_construct (r : Reference) : r.construct.scan = [r] := scanAs_of_reference? (reference?_construct r)

theorem scanAs_argument (sub : Substitution) :
    scanAs .template (Placeholder.argument sub.template sub.vars) = sub.references ++ sub.vars.flatMap (·.2.scan) := by
  unfold Placeholder.argument
  split
  · rename_i h
    rw [scanAs_text, if_pos rfl, Substitution.references, List.isEmpty_iff.mp h, List.flatMap_nil, List.append_nil]
    rfl
  · rw [scanAs_pair, if_pos rfl, Substitution.references]

theorem scan_refilled_vars (sub : Substitution) :
    (sub.refilled f).vars.flatMap (·.2.scan) =
      (sub.vars.flatMap fun var => (var.2.redirect f).result.scan) ++ (sub.answers f).filter Reference.isImport := by
  obtain ⟨bound, hvars, hbound, _⟩ := sub.refilled_vars f
  have hscan : bound.flatMap (·.2.scan) = (sub.answers f).filter Reference.isImport := by
    have : bound.flatMap (·.2.scan) = (bound.map Prod.snd).flatMap scan := by rw [List.flatMap_map]
    rw [this, hbound, List.flatMap_map]
    simp [scan_construct]
  rw [hvars, List.flatMap_append, hscan, redirectFields_result, List.flatMap_map]

/-- The argument of a substitution is either left as it is, when nothing in it changes, or
    written anew. -/
theorem redirectArgument_cases (sub : Substitution) (arg : Tree) :
    ((redirectFields f sub.vars).changed = 0 ∧ (∀ r ∈ sub.references, r.answer f = r) ∧
      (Placeholder.redirectArgument f arg sub.template (redirectFields f sub.vars)).result = arg) ∨
    ((Placeholder.redirectArgument f arg sub.template (redirectFields f sub.vars)).changed ≠ 0 ∧
      (Placeholder.redirectArgument f arg sub.template (redirectFields f sub.vars)).result =
        Placeholder.argument (sub.refilled f).template (sub.refilled f).vars) := by
  simp only [Placeholder.redirectArgument, Redirected.pair, keys_redirectFields]
  split
  · rename_i hzero
    have hbody := (Nat.add_eq_zero_iff.mp hzero).2
    have hanswers := (Placeholder.redirect_changed_eq_zero_iff f (Fields.keys sub.vars)).mp hbody
    rw [← Placeholder.references_eq] at hanswers
    exact Or.inl ⟨(Nat.add_eq_zero_iff.mp hzero).1, hanswers, rfl⟩
  · rename_i hne
    exact Or.inr ⟨hne, rfl⟩

/-! ## Changes -/

theorem changed_redirectArgument (sub : Substitution) (arg : Tree) :
    (Placeholder.redirectArgument f arg sub.template (redirectFields f sub.vars)).changed =
      (redirectFields f sub.vars).changed + sub.references.countP fun r => decide (r.answer f ≠ r) := by
  have hbody : ∀ vars : Fields Tree, (Placeholder.redirect f (Fields.keys sub.vars) vars
      (Placeholder.Segment.split sub.template)).changed = sub.references.countP fun r => decide (r.answer f ≠ r) := by
    intro vars
    rw [Placeholder.redirect_changed, Substitution.references, Placeholder.references_eq]
  simp only [Placeholder.redirectArgument, Redirected.pair, keys_redirectFields]
  split <;> simp only [hbody]

theorem sum_changed {α : Type} {xs : List α} {changed : α → Nat} {rs : α → List Reference}
    (h : ∀ x ∈ xs, changed x = (rs x).countP fun r => decide (r.answer f ≠ r)) :
    (xs.map changed).sum = (xs.flatMap rs).countP fun r => decide (r.answer f ≠ r) := by
  rw [List.countP_flatMap]
  exact congrArg List.sum (List.map_congr_left h)

/-- As many references are changed as have another answer than themselves. -/
theorem changed_redirectAs (tree : Tree) :
    (redirectAs f role tree).changed = (scanAs role tree).countP fun r => decide (r.answer f ≠ r) := by
  induction tree using shapes generalizing role with
  | scalar tree hs => rw [redirectAs_scalar f hs, scanAs_scalar hs, Redirected.unchanged, List.countP_nil]
  | text s =>
    rw [redirectAs_text, scanAs_text]
    split
    · rw [← Nat.zero_add (List.countP ..)]
      exact changed_redirectArgument ⟨s, []⟩ (.text s)
    · rfl
  | call key arg ih =>
    rcases hc : Reference.ofCall? key arg with _ | r
    · rw [redirectAs_call f hc, scanAs_call hc]
      exact ih
    · rw [redirectAs_construct f hc, scanAs_construct hc]
      rcases hr : r.change? f with _ | r'
      · simp [Reference.change?_eq_none_iff.mp hr]
      · have hne : r.answer f ≠ r := by
          rw [Ne, ← Reference.change?_eq_none_iff, hr]
          exact Option.some_ne_none r'
        simp [hne]
  | record fields hlen ih =>
    rw [redirectAs_record f hlen, scanAs_record hlen, Redirected.map, redirectFields_changed]
    exact sum_changed fun field hf => ih field hf
  | pair template vars ih ihrecord =>
    rw [redirectAs_pair, scanAs_pair]
    split
    · have hvars : (redirectFields f vars).changed = (vars.flatMap (·.2.scan)).countP fun r => decide (r.answer f ≠ r) :=
        (redirectFields_changed f vars).trans (sum_changed fun var hv => ih var hv)
      rw [changed_redirectArgument ⟨template, vars⟩, hvars, List.countP_append, Nat.add_comm]
      rfl
    · exact ihrecord
  | list items hp ih =>
    rw [redirectAs_list f hp, scanAs_list hp, Redirected.map, redirectItems_changed]
    exact sum_changed fun item hi => ih item hi

theorem unchanged_of_sum {α : Type} {xs : List α} {changed : α → Nat} (h : (xs.map changed).sum = 0) :
    ∀ x ∈ xs, changed x = 0 := by
  rwa [List.sum_eq_zero_iff_forall_eq_nat, List.forall_mem_map] at h

/-- Where nothing is changed the tree stays. -/
theorem redirectAs_unchanged {tree : Tree} (h : (redirectAs f role tree).changed = 0) :
    (redirectAs f role tree).result = tree := by
  induction tree using shapes generalizing role with
  | scalar tree hs => rw [redirectAs_scalar f hs, Redirected.unchanged]
  | text s =>
    rw [redirectAs_text] at h ⊢
    split at h
    · rename_i hrole
      rw [if_pos hrole]
      rcases redirectArgument_cases (f := f) ⟨s, []⟩ (.text s) with ⟨_, _, hresult⟩ | ⟨hne, _⟩
      · exact hresult
      · exact absurd h hne
    · rename_i hrole
      rw [if_neg hrole, Redirected.unchanged]
  | call key arg ih =>
    rcases hc : Reference.ofCall? key arg with _ | r
    · rw [redirectAs_call f hc] at h ⊢
      rw [Redirected.map, ih h, call]
    · rw [redirectAs_construct f hc] at h ⊢
      rcases hr : r.change? f with _ | r'
      · rfl
      · simp [hr] at h
  | record fields hlen ih =>
    rw [redirectAs_record f hlen] at h ⊢
    have hfields := unchanged_of_sum ((redirectFields_changed f fields).symm.trans h)
    have hsame : fields.map (fun field => (field.1, (field.2.redirect f).result)) = fields.map id := by
      refine List.map_congr_left fun field hf => ?_
      rw [redirect, ih field hf (hfields field hf)]
      rfl
    simp only [Redirected.map, redirectFields_result, hsame, List.map_id]
  | pair template vars ih ihrecord =>
    rw [redirectAs_pair] at h ⊢
    split at h
    · rename_i hrole
      rw [if_pos hrole]
      rcases redirectArgument_cases (f := f) ⟨template, vars⟩ (.list [.text template, .record vars]) with
        ⟨_, _, hresult⟩ | ⟨hne, _⟩
      · exact hresult
      · exact absurd h hne
    · rename_i hrole
      rw [if_neg hrole, Redirected.map, redirect, ihrecord h]
  | list items hp ih =>
    rw [redirectAs_list f hp] at h ⊢
    have hitems := unchanged_of_sum ((redirectItems_changed f items).symm.trans h)
    have hsame : items.map (fun item => (item.redirect f).result) = items.map id := by
      refine List.map_congr_left fun item hi => ?_
      rw [redirect, ih item hi (hitems item hi)]
      rfl
    simp only [Redirected.map, redirectItems_result, hsame, List.map_id]

/-! ## References -/

/-- A template is read again with the answers in its placeholders, the variables with theirs. -/
theorem scanAs_redirectArgument (sub : Substitution) {arg : Tree}
    (harg : scanAs .template arg = sub.references ++ sub.vars.flatMap (·.2.scan)) :
    scanAs .template (Placeholder.redirectArgument f arg sub.template (redirectFields f sub.vars)).result =
      (sub.refilled f).references ++
        ((sub.vars.flatMap fun var => (var.2.redirect f).result.scan) ++ (sub.answers f).filter Reference.isImport) := by
  rcases redirectArgument_cases (f := f) sub arg with ⟨hzero, hanswers, hresult⟩ | ⟨_, hresult⟩
  · have hvars : (sub.vars.flatMap fun var => (var.2.redirect f).result.scan) = sub.vars.flatMap (·.2.scan) := by
      rw [redirectFields_changed] at hzero
      refine List.flatMap_congr fun var hv => ?_
      rw [redirect, redirectAs_unchanged (unchanged_of_sum hzero var hv)]
    have himports : (sub.answers f).filter Reference.isImport = [] := by
      refine List.filter_eq_nil_iff.mpr fun r hr => ?_
      obtain ⟨q, hq, rfl⟩ := List.mem_map.mp hr
      simp [hanswers q hq, Placeholder.isImport_of_mem_references _ hq]
    have hrefilled : (sub.refilled f).references = sub.references := by
      rw [sub.refilled_of_answers_self f hanswers, Substitution.references, keys_redirectFields, Substitution.references]
    rw [hresult, harg, hvars, himports, List.append_nil, hrefilled]
  · rw [hresult, scanAs_argument, scan_refilled_vars]

section Induction

variable {R : List Reference → List Substitution → List Reference → Prop} (nil : R [] [] [])
  (append : ∀ {a b c d s t}, R a s b → R c t d → R (a ++ c) (s ++ t) (b ++ d))

include nil append

theorem rel_flatMap {α : Type} {xs : List α} {g h : α → List Reference} {s : α → List Substitution}
    (hx : ∀ x ∈ xs, R (g x) (s x) (h x)) : R (xs.flatMap g) (xs.flatMap s) (xs.flatMap h) := by
  induction xs with
  | nil => exact nil
  | cons x xs ih =>
    rw [List.flatMap_cons, List.flatMap_cons, List.flatMap_cons]
    exact append (hx x (List.mem_cons_self ..)) (ih fun y hy => hx y (List.mem_cons_of_mem _ hy))

theorem rel_redirectArgument (sub : Substitution) {arg : Tree}
    (harg : scanAs .template arg = sub.references ++ sub.vars.flatMap (·.2.scan))
    (hvars : ∀ var ∈ sub.vars, R (var.2.redirect f).result.scan var.2.substitutions (var.2.scan.map (Reference.answer f)))
    (hsub : ∀ rs subs rs', R rs subs rs' →
      R ((sub.refilled f).references ++ (rs ++ (sub.answers f).filter Reference.isImport)) (sub :: subs) (sub.answers f ++ rs')) :
    R (scanAs .template (Placeholder.redirectArgument f arg sub.template (redirectFields f sub.vars)).result)
      (sub :: sub.vars.flatMap (·.2.substitutions)) ((scanAs .template arg).map (Reference.answer f)) := by
  rw [scanAs_redirectArgument sub harg, harg, List.map_append, List.map_flatMap]
  exact hsub _ _ _ (rel_flatMap nil append hvars)

/-- How a tree is read after a redirection follows from how its substitutions are. -/
theorem redirectAs_induction (reference : ∀ r, R [r] [] [r]) (tree : Tree)
    (hsub : ∀ sub ∈ substitutionsAs role tree, ∀ rs subs rs', R rs subs rs' →
      R ((sub.refilled f).references ++ (rs ++ (sub.answers f).filter Reference.isImport)) (sub :: subs) (sub.answers f ++ rs')) :
    R (scanAs role (redirectAs f role tree).result) (substitutionsAs role tree)
      ((scanAs role tree).map (Reference.answer f)) := by
  induction tree using shapes generalizing role with
  | scalar tree hs =>
    rw [redirectAs_scalar f hs, Redirected.unchanged, scanAs_scalar hs, substitutionsAs_scalar hs]
    exact nil
  | text s =>
    rw [substitutionsAs_text] at hsub ⊢
    rw [redirectAs_text]
    split
    · rename_i hrole
      subst hrole
      refine rel_redirectArgument nil append ⟨s, []⟩ ?_ (by simp) (hsub _ (by simp))
      rw [scanAs_text, if_pos rfl, List.flatMap_nil, List.append_nil]
      rfl
    · rename_i hrole
      simp only [Redirected.unchanged, scanAs_text, if_neg hrole]
      exact nil
  | call key arg ih =>
    rcases hc : Reference.ofCall? key arg with _ | r
    · rw [substitutionsAs_call hc] at hsub ⊢
      rw [redirectAs_call f hc, Redirected.map, call, scanAs_call (ofCall?_redirectAs hc), scanAs_call hc]
      exact ih hsub
    · rw [redirectAs_construct f hc, scanAs_construct hc, substitutionsAs_construct hc]
      rcases hr : r.change? f with _ | r'
      · rw [List.map_singleton, Reference.answer_of_unchanged hr, scanAs_construct hc]
        exact reference _
      · rw [List.map_singleton, Reference.answer_of_changed hr, scanAs_of_reference? (reference?_construct r')]
        exact reference _
  | record fields hlen ih =>
    rw [substitutionsAs_record hlen] at hsub ⊢
    have hlen' : (fields.map fun field => (field.1, (field.2.redirect f).result)).length ≠ 1 := by
      rwa [List.length_map]
    rw [redirectAs_record f hlen, Redirected.map, redirectFields_result, scanAs_record hlen', scanAs_record hlen,
      List.flatMap_map, List.map_flatMap]
    refine rel_flatMap nil append fun field hf => ih field hf fun sub hs => ?_
    exact hsub sub (List.mem_flatMap.mpr ⟨field, hf, hs⟩)
  | pair template vars ih ihrecord =>
    rw [substitutionsAs_pair] at hsub ⊢
    rw [redirectAs_pair]
    split
    · rename_i hrole
      subst hrole
      rw [if_pos rfl] at hsub
      refine rel_redirectArgument nil append ⟨template, vars⟩ ?_ (fun var hv => ih var hv fun sub hs => ?_)
        (hsub _ (by simp))
      · rw [scanAs_pair, if_pos rfl, Substitution.references]
      · exact hsub sub (List.mem_cons_of_mem _ (List.mem_flatMap.mpr ⟨var, hv, hs⟩))
    · rename_i hrole
      rw [if_neg hrole] at hsub
      obtain ⟨fields, hfields⟩ := redirect_record (f := f) vars
      rw [Redirected.map, hfields, scanAs_pair, scanAs_pair, if_neg hrole, if_neg hrole, ← hfields]
      exact ihrecord hsub
  | list items hp ih =>
    rw [substitutionsAs_list hp] at hsub ⊢
    have hp' : ¬IsPair (items.map fun item => (item.redirect f).result) := fun h => hp (keepsForm_redirect.isPair h)
    rw [redirectAs_list f hp, Redirected.map, redirectItems_result, scanAs_list hp', scanAs_list hp, List.flatMap_map,
      List.map_flatMap]
    refine rel_flatMap nil append fun item hi => ih item hi fun sub hs => ?_
    exact hsub sub (List.mem_flatMap.mpr ⟨item, hi, hs⟩)

end Induction

/-- A redirected tree imports what the answers import. -/
theorem imports_redirectAs (f : Reference → Option Reference) (role : Role) (tree : Tree) :
    ((scanAs role (redirectAs f role tree).result).filter Reference.isImport).Perm
      (((scanAs role tree).map (Reference.answer f)).filter Reference.isImport) := by
  refine redirectAs_induction (R := fun a _ b => (a.filter Reference.isImport).Perm (b.filter Reference.isImport))
    (List.Perm.refl _) ?_ (fun _ => List.Perm.refl _) tree ?_
  · intro a b c d _ _ hab hcd
    rw [List.filter_append, List.filter_append]
    exact hab.append hcd
  · intro sub _ rs _ rs' hrs
    have hrefs : (sub.refilled f).references.filter Reference.isImport = [] :=
      List.filter_eq_nil_iff.mpr fun r hr => by simp [Placeholder.isImport_of_mem_references _ hr]
    have hanswers : ((sub.answers f).filter Reference.isImport).filter Reference.isImport =
        (sub.answers f).filter Reference.isImport := by simp
    rw [List.filter_append, List.filter_append, List.filter_append, hrefs, List.nil_append, hanswers]
    exact (hrs.append_right _).trans List.perm_append_comm

theorem filter_local_refilled (sub : Substitution) (rs : List Reference) :
    ((sub.refilled f).references ++ (rs ++ (sub.answers f).filter Reference.isImport)).filter (!·.isImport) =
      (sub.refilled f).references ++ rs.filter (!·.isImport) := by
  have hrefs : (sub.refilled f).references.filter (!·.isImport) = (sub.refilled f).references :=
    List.filter_eq_self.mpr fun r hr => by simp [Placeholder.isImport_of_mem_references _ hr]
  have hanswers : ((sub.answers f).filter Reference.isImport).filter (!·.isImport) = [] := by simp
  rw [List.filter_append, List.filter_append, hrefs, hanswers, List.append_nil]

/-- A redirected tree refers to no other nodes than the answers. -/
theorem locals_redirectAs {tree : Tree} (hw : ∀ sub ∈ substitutionsAs role tree, sub.Writable f) :
    ((scanAs role (redirectAs f role tree).result).filter (!·.isImport)).Sublist
      (((scanAs role tree).map (Reference.answer f)).filter (!·.isImport)) := by
  refine redirectAs_induction (R := fun a _ b => (a.filter (!·.isImport)).Sublist (b.filter (!·.isImport)))
    (List.Sublist.refl _) ?_ (fun _ => List.Sublist.refl _) tree ?_
  · intro a b c d _ _ hab hcd
    rw [List.filter_append, List.filter_append]
    exact hab.append hcd
  · intro sub hs rs _ rs' hrs
    rw [filter_local_refilled, sub.refilled_references f (hw sub hs), List.filter_append]
    exact List.filter_sublist.append hrs

/-- It refers to all of them, where no variable captures one. -/
theorem locals_redirectAs_eq {tree : Tree} (hw : ∀ sub ∈ substitutionsAs role tree, sub.Writable f)
    (hu : ∀ sub ∈ substitutionsAs role tree, sub.Uncaptured f) :
    (scanAs role (redirectAs f role tree).result).filter (!·.isImport) =
      ((scanAs role tree).map (Reference.answer f)).filter (!·.isImport) := by
  refine redirectAs_induction (R := fun a _ b => a.filter (!·.isImport) = b.filter (!·.isImport))
    rfl ?_ (fun _ => rfl) tree ?_
  · intro a b c d _ _ hab hcd
    rw [List.filter_append, List.filter_append, hab, hcd]
  · intro sub hs rs _ rs' hrs
    have hall : ((sub.answers f).filter (!·.isImport)).filter
        (fun r => !(Fields.keys (sub.refilled f).vars).contains r.path) = (sub.answers f).filter (!·.isImport) := by
      refine List.filter_eq_self.mpr fun r hr => ?_
      obtain ⟨hr, hlocal⟩ := List.mem_filter.mp hr
      simpa using hu sub hs r hr (by simpa using hlocal)
    rw [filter_local_refilled, sub.refilled_references f (hw sub hs), hall, List.filter_append, hrs]

/-- What a redirected tree refers to is an answer. -/
theorem exists_of_mem_scan_redirect {tree : Tree} {r' : Reference} (h : r' ∈ (tree.redirect f).result.scan)
    (hw : r'.isImport = true ∨ ∀ sub ∈ tree.substitutions, sub.Writable f) : ∃ r ∈ tree.scan, r.answer f = r' := by
  cases hr : r'.isImport with
  | true =>
    have := (imports_redirectAs f .value tree).subset (List.mem_filter.mpr ⟨h, hr⟩)
    exact List.mem_map.mp (List.mem_filter.mp this).1
  | false =>
    rcases hw with hi | hw
    · rw [hr] at hi
      cases hi
    · have := (locals_redirectAs hw).subset (List.mem_filter.mpr ⟨h, by simp [hr]⟩)
      exact List.mem_map.mp (List.mem_filter.mp this).1

theorem import_mem_scan_redirect {tree : Tree} {r : Reference} (h : r ∈ tree.scan) (hi : (r.answer f).isImport = true) :
    r.answer f ∈ (tree.redirect f).result.scan := by
  have := (imports_redirectAs f .value tree).symm.subset
    (List.mem_filter.mpr ⟨List.mem_map.mpr ⟨r, h, rfl⟩, hi⟩)
  exact (List.mem_filter.mp this).1

/-- Where every answer can be written, a tree refers to all of them but those that are captured. -/
theorem scan_redirect_append_captured {tree : Tree} (hw : ∀ sub ∈ tree.substitutions, sub.Writable f) :
    ((tree.redirect f).result.scan ++ tree.substitutions.flatMap (·.captured f)).Perm
      (tree.scan.map (Reference.answer f)) := by
  refine redirectAs_induction (R := fun a s b => (a ++ s.flatMap (·.captured f)).Perm b) (List.Perm.refl _) ?_
    (fun _ => List.Perm.refl _) tree ?_
  · intro a b c d s t hab hcd
    refine List.perm_iff_count.mpr fun r => ?_
    have := hab.count_eq r
    have := hcd.count_eq r
    simp only [List.flatMap_append, List.count_append] at *
    omega
  · intro sub hs rs subs rs' hrs
    refine List.perm_iff_count.mpr fun r => ?_
    have := (sub.refilled_references_append_captured f (hw sub hs)).count_eq r
    have := hrs.count_eq r
    simp only [List.flatMap_cons, List.count_append] at *
    omega

/-- It refers to exactly the answers where none is captured, and only there. -/
theorem scan_redirect_perm_iff {tree : Tree} (hw : ∀ sub ∈ tree.substitutions, sub.Writable f) :
    (tree.redirect f).result.scan.Perm (tree.scan.map (Reference.answer f)) ↔
      ∀ sub ∈ tree.substitutions, sub.Uncaptured f := by
  have hall := scan_redirect_append_captured hw
  have hnone : tree.substitutions.flatMap (·.captured f) = [] ↔ ∀ sub ∈ tree.substitutions, sub.Uncaptured f := by
    rw [List.flatMap_eq_nil_iff]
    exact forall₂_congr fun sub _ => sub.captured_eq_nil_iff f
  rw [← hnone]
  constructor
  · intro h
    -- What is captured is missing from the reading, so there are fewer references than answers.
    have hlength := hall.length_eq.trans h.length_eq.symm
    rw [List.length_append] at hlength
    exact List.eq_nil_of_length_eq_zero (by omega)
  · intro h
    rwa [h, List.append_nil] at hall

theorem reference?_redirect (tree : Tree) :
    (tree.redirect f).result.reference? = tree.reference?.map (Reference.answer f) := by
  cases tree with
  | text s => rw [redirect_text]; rfl
  | list items => rw [redirect_list]; rfl
  | record fields =>
    by_cases h : fields.length = 1
    · obtain ⟨⟨key, arg⟩, rfl⟩ := List.length_eq_one_iff.mp h
      simp only [redirect, reference?]
      rcases hc : Reference.ofCall? key arg with _ | r
      · rw [redirectAs_call f hc]
        exact ofCall?_redirectAs hc
      · rw [redirectAs_construct f hc]
        rcases hr : r.change? f with _ | r'
        · simp [hc, Reference.answer_of_unchanged hr]
        · rw [Option.map_some, Reference.answer_of_changed hr]
          exact reference?_construct r'
    · rw [redirect, redirectAs_record f h, Redirected.map, redirectFields_result, reference?_record h,
        reference?_record (by rwa [List.length_map])]
      rfl
  | _ => rw [redirect, redirectAs_scalar f rfl]; rfl

theorem substitutionsAs_of_reference? {tree : Tree} {r : Reference} (h : tree.reference? = some r) :
    substitutionsAs role tree = [] := by
  unfold reference? at h
  split at h
  · exact substitutionsAs_construct h
  · cases h

theorem substitutionsAs_argument (sub : Substitution) :
    substitutionsAs .template (Placeholder.argument sub.template sub.vars) =
      sub :: sub.vars.flatMap (·.2.substitutions) := by
  obtain ⟨template, vars⟩ := sub
  unfold Placeholder.argument
  split
  · rename_i h
    obtain rfl := List.isEmpty_iff.mp h
    rw [substitutionsAs_text, if_pos rfl, List.flatMap_nil]
  · rw [substitutionsAs_pair, if_pos rfl]

theorem substitutions_refilled_vars {sub sub' : Substitution}
    (h : sub' ∈ (sub.refilled f).vars.flatMap (·.2.substitutions)) :
    ∃ var ∈ sub.vars, sub' ∈ (var.2.redirect f).result.substitutions := by
  obtain ⟨bound, hvars, hbound, _⟩ := sub.refilled_vars f
  obtain ⟨var, hv, hs⟩ := List.mem_flatMap.mp h
  rw [hvars, redirectFields_result] at hv
  rcases List.mem_append.mp hv with hv | hv
  · obtain ⟨field, hf, rfl⟩ := List.mem_map.mp hv
    exact ⟨field, hf, hs⟩
  · have : var.2 ∈ ((sub.answers f).filter Reference.isImport).map Reference.construct := by
      rw [← hbound]
      exact List.mem_map_of_mem hv
    obtain ⟨r, _, hr⟩ := List.mem_map.mp this
    rw [← hr, substitutions, substitutionsAs_of_reference? (reference?_construct r)] at hs
    cases hs

theorem substitutions_redirectArgument (sub : Substitution) {sub' : Substitution} {arg : Tree}
    (harg : substitutionsAs .template arg = sub :: sub.vars.flatMap (·.2.substitutions))
    (hvars : ∀ var ∈ sub.vars, sub' ∈ (var.2.redirect f).result.substitutions →
      ∃ s ∈ var.2.substitutions, sub' = s ∨ sub' = s.refilled f)
    (h : sub' ∈ substitutionsAs .template
      (Placeholder.redirectArgument f arg sub.template (redirectFields f sub.vars)).result) :
    ∃ s ∈ substitutionsAs .template arg, sub' = s ∨ sub' = s.refilled f := by
  rcases redirectArgument_cases (f := f) sub arg with ⟨_, _, hresult⟩ | ⟨_, hresult⟩
  · rw [hresult] at h
    exact ⟨sub', h, Or.inl rfl⟩
  · rw [hresult, substitutionsAs_argument] at h
    rw [harg]
    rcases List.mem_cons.mp h with h | h
    · exact ⟨sub, List.mem_cons_self .., Or.inr h⟩
    · obtain ⟨var, hv, hs⟩ := substitutions_refilled_vars h
      obtain ⟨s, hs, hor⟩ := hvars var hv hs
      exact ⟨s, List.mem_cons_of_mem _ (List.mem_flatMap.mpr ⟨var, hv, hs⟩), hor⟩

/-- The substitutions of a redirected tree are those of the tree, as they are or refilled. -/
theorem substitutionsAs_redirectAs {tree : Tree} {sub' : Substitution}
    (h : sub' ∈ substitutionsAs role (redirectAs f role tree).result) :
    ∃ sub ∈ substitutionsAs role tree, sub' = sub ∨ sub' = sub.refilled f := by
  induction tree using shapes generalizing role with
  | scalar tree hs =>
    rw [redirectAs_scalar f hs] at h
    exact ⟨sub', h, Or.inl rfl⟩
  | text s =>
    rw [redirectAs_text] at h
    split at h
    · rename_i hrole
      subst hrole
      refine substitutions_redirectArgument ⟨s, []⟩ ?_ (by simp) h
      rw [substitutionsAs_text, if_pos rfl, List.flatMap_nil]
    · exact ⟨sub', h, Or.inl rfl⟩
  | call key arg ih =>
    rcases hc : Reference.ofCall? key arg with _ | r
    · rw [redirectAs_call f hc, Redirected.map, call, substitutionsAs_call (ofCall?_redirectAs hc)] at h
      rw [substitutionsAs_call hc]
      exact ih h
    · rw [redirectAs_construct f hc] at h
      rcases hr : r.change? f with _ | r'
      · rw [hr] at h
        exact ⟨sub', h, Or.inl rfl⟩
      · rw [hr, substitutionsAs_of_reference? (reference?_construct r')] at h
        cases h
  | record fields hlen ih =>
    have hlen' : (fields.map fun field => (field.1, (field.2.redirect f).result)).length ≠ 1 := by
      rwa [List.length_map]
    rw [redirectAs_record f hlen, Redirected.map, redirectFields_result, substitutionsAs_record hlen',
      List.flatMap_map] at h
    rw [substitutionsAs_record hlen]
    obtain ⟨field, hf, hs⟩ := List.mem_flatMap.mp h
    obtain ⟨sub, hsub, hor⟩ := ih field hf hs
    exact ⟨sub, List.mem_flatMap.mpr ⟨field, hf, hsub⟩, hor⟩
  | pair template vars ih ihrecord =>
    rw [redirectAs_pair] at h
    split at h
    · rename_i hrole
      subst hrole
      refine substitutions_redirectArgument ⟨template, vars⟩ ?_ (fun var hv hs => ih var hv hs) h
      rw [substitutionsAs_pair, if_pos rfl]
    · rename_i hrole
      obtain ⟨fields, hfields⟩ := redirect_record (f := f) vars
      rw [Redirected.map, hfields, substitutionsAs_pair, if_neg hrole, ← hfields] at h
      rw [substitutionsAs_pair, if_neg hrole]
      exact ihrecord h
  | list items hp ih =>
    have hp' : ¬IsPair (items.map fun item => (item.redirect f).result) := fun h => hp (keepsForm_redirect.isPair h)
    rw [redirectAs_list f hp, Redirected.map, redirectItems_result, substitutionsAs_list hp', List.flatMap_map] at h
    rw [substitutionsAs_list hp]
    obtain ⟨item, hi, hs⟩ := List.mem_flatMap.mp h
    obtain ⟨sub, hsub, hor⟩ := ih item hi hs
    exact ⟨sub, List.mem_flatMap.mpr ⟨item, hi, hsub⟩, hor⟩

end Tree

end Regroup
