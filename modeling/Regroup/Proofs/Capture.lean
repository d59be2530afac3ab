/-
  Regroup.Proofs.Capture — trees whose placeholders are never taken for variables.

  A variable that is made for a placeholder may be called as another placeholder reads, and
  then captures it; so may a new name that is written into one. `Clear` trees have no
  placeholders of the first kind, and `Renamable` says that a rename meets none of the second.
  - `Clear.scan_redirect`: a clear tree refers to exactly the answers.
  - `Clear.redirect`: what is made of a clear tree is clear.
  - `Renamable.scan_rename`: a renamed tree refers to the renamed references.
  - `scan_rename_iff`: which trees a rename reads like that, and how much it changes in any.
  - `scan_redirect_imports_iff`: which trees lose nothing when references become imports.
-/

import Regroup.Proofs.Inlining

namespace Regroup

namespace Reference

@[simp] theorem isImport_ofTarget (name : String) (attr : Option String) : (ofTarget name attr).isImport = false := by
  cases attr <;> rfl

variable (old new : String)

@[simp] theorem answer_renamed_node (name : String) :
    (node name).answer (renamed old new) = .node (if name = old then new else name) := by
  rw [answer_eq, renamed]
  split <;> rfl

@[simp] theorem answer_renamed_attrOf (name attr : String) :
    (attrOf name attr).answer (renamed old new) = .attrOf (if name = old then new else name) attr := by
  rw [answer_eq, renamed]
  split <;> rfl

@[simp] theorem answer_renamed_imported (name : String) :
    (imported name).answer (renamed old new) = .imported name := rfl

@[simp] theorem answer_renamed_ofTarget (name : String) (attr : Option String) :
    (ofTarget name attr).answer (renamed old new) = .ofTarget (if name = old then new else name) attr := by
  cases attr <;> simp [ofTarget]

/-- `new` in the place of `old`, where `old` is the node referred to. -/
def withName : Reference → Reference
  | node name => .node (if name = old then new else name)
  | attrOf name attr => .attrOf (if name = old then new else name) attr
  | imported name => .imported name

theorem answer_renamed (r : Reference) : r.answer (renamed old new) = r.withName old new := by
  cases r <;> simp [withName]

theorem answer_renamed_answer_renamed (r : Reference) :
    (r.answer (renamed old new)).answer (renamed old new) = r.answer (renamed old new) := by
  have hname : ∀ name : String, (if (if name = old then new else name) = old then new else if name = old then new else name) =
      if name = old then new else name := by
    intro name
    split <;> simp_all
  cases r <;> simp only [answer_renamed_node, answer_renamed_attrOf, answer_renamed_imported, hname]

variable {old new}

theorem answer_renamed_of_ne {r : Reference} (h : r.targetName? ≠ some old) : r.answer (renamed old new) = r := by
  cases r <;> simp_all [targetName?]

/-- A reference stays where it does not name `old`, and only there. -/
theorem answer_renamed_eq_self_iff (hne : old ≠ new) {r : Reference} :
    r.answer (renamed old new) = r ↔ r.targetName? ≠ some old := by
  refine ⟨fun h ht => ?_, answer_renamed_of_ne⟩
  rcases r.eq_imported_or_ofTarget with ⟨x, rfl⟩ | ⟨name, attr, rfl⟩
  · cases ht
  · rw [targetName?_ofTarget, Option.some.injEq] at ht
    rw [answer_renamed_ofTarget, if_pos ht, ofTarget_inj] at h
    exact hne (ht.symm.trans h.1.symm)

theorem isImport_answer_renamed (old new : String) (r : Reference) : (r.answer (renamed old new)).isImport = r.isImport := by
  cases r <;> simp [isImport]

theorem makesNoImports_renamed (old new : String) : Tree.MakesNoImports (renamed old new) := by
  intro r hi
  cases r <;> simp [isImport] at hi ⊢

theorem ofPath_path {name : String} (hdot : '.' ∉ name.toList) (attr : Option String) :
    ofPath (ofTarget name attr).path = ofTarget name attr := by
  cases attr with
  | none =>
    have hcut : Text.cut '.' name = none := by rw [Text.cut, Text.cutList_eq_none_iff.mpr hdot, Option.map_none]
    rw [ofTarget, path, ofPath, hcut]
  | some attr =>
    have hcut : Text.cut '.' (name ++ "." ++ attr) = some (name, attr) :=
      Text.cut_eq_some_iff.mpr ⟨by simp, hdot⟩
    rw [ofTarget, path, ofPath, hcut]

/-- A placeholder takes the new name where it took the old one. -/
theorem fits_renamed (hcontent : Placeholder.IsContent new) (hdot : '.' ∉ new.toList) {r : Reference} (h : r.Fits) :
    (r.answer (renamed old new)).Fits := by
  by_cases ht : r.targetName? = some old
  · rcases r.eq_imported_or_ofTarget with ⟨x, rfl⟩ | ⟨name, attr, rfl⟩
    · cases ht
    · rw [targetName?_ofTarget, Option.some.injEq] at ht
      rw [answer_renamed_ofTarget, if_pos ht]
      refine ⟨?_, ofPath_path hdot attr⟩
      cases attr with
      | none => exact hcontent
      | some attr =>
        obtain ⟨⟨hclose, _⟩, _⟩ := h
        obtain ⟨hclose', hhead⟩ := hcontent
        have hpath : ∀ n : String, (ofTarget n (some attr)).path.toList = n.toList ++ '.' :: attr.toList := by
          intro n
          simp [ofTarget, path]
        rw [hpath] at hclose
        refine ⟨?_, ?_⟩
        · rw [hpath]
          simp only [List.mem_append, List.mem_cons, not_or] at hclose ⊢
          exact ⟨hclose', hclose.2⟩
        · rw [hpath, List.head?_append]
          cases hc : new.toList.head? with
          | none => simp
          | some c => rwa [hc] at hhead
  · rwa [answer_renamed_of_ne ht]

end Reference

/-- A redirection that makes imports only. -/
def KeepsLocals (f : Reference → Option Reference) : Prop :=
  ∀ r : Reference, (r.answer f).isImport = false → r.answer f = r

/-- What becomes no import is what is not answered. -/
theorem isImport_answer_eq_false_iff {f : Reference → Option Reference} (hf : ∀ r r', f r = some r' → r'.isImport = true)
    {r : Reference} : (r.answer f).isImport = false ↔ f r = none ∧ r.isImport = false := by
  rw [Reference.answer_eq]
  rcases hr : f r with _ | r'
  · simp
  · simp [hf r r' hr]

theorem keepsLocals_of_imports {f : Reference → Option Reference} (hf : ∀ r r', f r = some r' → r'.isImport = true) :
    KeepsLocals f := by
  intro r hl
  rw [Reference.answer_eq, ((isImport_answer_eq_false_iff hf).mp hl).1, Option.getD_none]

namespace Substitution

open Reference

variable {f : Reference → Option Reference} {sub : Substitution} {old new : String}

/-- The variable for one placeholder is not called as another one reads, and no variable is
    called as the import function is. -/
structure Clear (sub : Substitution) : Prop where
  no_import_key : importKey ∉ Fields.keys sub.vars
  apart : ∀ r ∈ sub.references, ∀ q ∈ sub.references, q ≠ r → ∀ vars, variableName r.path vars ≠ q.path

/-- A placeholder for `old` can hold `new` instead, and no variable is called so. -/
def Renamable (old new : String) (sub : Substitution) : Prop :=
  ∀ r ∈ sub.references, r.targetName? = some old →
    (r.answer (renamed old new)).Fits ∧ (r.answer (renamed old new)).path ∉ Fields.keys sub.vars

theorem fits_of_mem_references {r : Reference} (h : r ∈ sub.references) : r.Fits ∧ r.path ∉ Fields.keys sub.vars := by
  obtain ⟨content, hc, rfl⟩ := List.mem_map.mp h
  obtain ⟨hc, hk⟩ := List.mem_filter.mp hc
  refine ⟨fits_ofPath (Placeholder.isContent_of_mem_contents hc), ?_⟩
  rw [path_ofPath]
  simpa using hk

theorem answer_of_keepsLocals (hf : KeepsLocals f) {q : Reference} (h : q ∈ sub.answers f) (hl : q.isImport = false) :
    q ∈ sub.references ∧ q.answer f = q := by
  obtain ⟨r, hr, rfl⟩ := List.mem_map.mp h
  have hsame := hf r hl
  rw [hsame, hsame]
  exact ⟨hr, rfl⟩

theorem writable_of_keepsLocals (hf : KeepsLocals f) : sub.Writable f :=
  fun _ hq hl => (fits_of_mem_references (answer_of_keepsLocals hf hq hl).1).1

theorem Renamable.congr {sub' : Substitution} (h : sub.Renamable old new) (ht : sub'.template = sub.template)
    (hk : Fields.keys sub'.vars = Fields.keys sub.vars) : sub'.Renamable old new := by
  have hrefs : sub'.references = sub.references := by rw [references, references, ht, hk]
  unfold Renamable
  rw [hrefs, hk]
  exact h

theorem Clear.uncaptured (hf : KeepsLocals f) (h : sub.Clear) : sub.Uncaptured f := by
  intro q hq hl hkey
  obtain ⟨hmem, hsame⟩ := answer_of_keepsLocals hf hq hl
  obtain ⟨bound, hvars, _, hbound⟩ := sub.refilled_vars f
  rw [hvars, Fields.keys, List.map_append, List.mem_append] at hkey
  rcases hkey with hkey | hkey
  · rw [← Fields.keys, Tree.keys_redirectFields] at hkey
    exact (fits_of_mem_references hmem).2 hkey
  · obtain ⟨r, hr, hi, vars, hname⟩ := hbound _ hkey
    refine h.apart r hr q hmem ?_ vars hname.symm
    rintro rfl
    rw [hsame, hl] at hi
    cases hi

theorem import_key_not_mem_refilled (h : importKey ∉ Fields.keys sub.vars) :
    importKey ∉ Fields.keys (sub.refilled f).vars := by
  obtain ⟨bound, hvars, _, hbound⟩ := sub.refilled_vars f
  rw [hvars, Fields.keys, List.map_append, List.mem_append]
  rintro (hkey | hkey)
  · rw [← Fields.keys, Tree.keys_redirectFields] at hkey
    exact h hkey
  · obtain ⟨r, _, _, vars, hname⟩ := hbound _ hkey
    have hcolon : ':' ∈ importKey.toList := by decide
    rw [hname] at hcolon
    exact absurd (Placeholder.isAlphanum_variableName hcolon) (by decide)

theorem Clear.refilled (hf : KeepsLocals f) (h : sub.Clear) : (sub.refilled f).Clear := by
  have hsub : ∀ r ∈ (sub.refilled f).references, r ∈ sub.references := by
    intro r hr
    rw [refilled_references f sub (writable_of_keepsLocals hf)] at hr
    obtain ⟨hr, hl⟩ := List.mem_filter.mp (List.mem_filter.mp hr).1
    exact (answer_of_keepsLocals hf hr (by simpa using hl)).1
  exact ⟨import_key_not_mem_refilled h.no_import_key, fun r hr q hq => h.apart r (hsub r hr) q (hsub q hq)⟩

theorem uncaptured_imports_iff (hf : ∀ r r', f r = some r' → r'.isImport = true) :
    sub.Uncaptured f ↔ ∀ r ∈ sub.references, f r = none → r.path ∉ Fields.keys (sub.refilled f).vars := by
  have hlocal : ∀ r ∈ sub.references, (r.answer f).isImport = false ↔ f r = none := fun r hr =>
    (isImport_answer_eq_false_iff hf).trans (and_iff_left (Placeholder.isImport_of_mem_references _ hr))
  rw [Uncaptured, answers, List.forall_mem_map]
  refine forall₂_congr fun r hr => ?_
  rw [hlocal r hr]
  refine forall_congr' fun hnone => ?_
  rw [answer_eq, hnone, Option.getD_none]

theorem keys_refilled_renamed (old new : String) (sub : Substitution) :
    Fields.keys (sub.refilled (renamed old new)).vars = Fields.keys sub.vars := by
  rw [Tree.refilled_vars_of_makesNoImports (makesNoImports_renamed old new), Tree.keys_redirectFields]

theorem writable_renamed (hcontent : Placeholder.IsContent new) (hdot : '.' ∉ new.toList) :
    sub.Writable (renamed old new) := by
  intro q hq _
  obtain ⟨r, hr, rfl⟩ := List.mem_map.mp hq
  exact fits_renamed hcontent hdot (fits_of_mem_references hr).1

/-- A variable captures no placeholder that stays, so only those for `old` matter. -/
theorem uncaptured_renamed_iff : sub.Uncaptured (renamed old new) ↔
    ∀ r ∈ sub.references, r.targetName? = some old → (r.answer (renamed old new)).path ∉ Fields.keys sub.vars := by
  rw [Uncaptured, answers, List.forall_mem_map, keys_refilled_renamed]
  refine forall₂_congr fun r hr => ?_
  rw [isImport_answer_renamed, Placeholder.isImport_of_mem_references _ hr]
  refine ⟨fun h _ => h rfl, fun h _ => ?_⟩
  by_cases ht : r.targetName? = some old
  · exact h ht
  · rw [answer_renamed_of_ne ht]
    exact (fits_of_mem_references hr).2

theorem Renamable.writable (h : sub.Renamable old new) : sub.Writable (renamed old new) := by
  intro q hq _
  obtain ⟨r, hr, rfl⟩ := List.mem_map.mp hq
  by_cases ht : r.targetName? = some old
  · exact (h r hr ht).1
  · rw [answer_renamed_of_ne ht]
    exact (fits_of_mem_references hr).1

theorem Renamable.uncaptured (h : sub.Renamable old new) : sub.Uncaptured (renamed old new) :=
  uncaptured_renamed_iff.mpr fun r hr ht => (h r hr ht).2

/-- After a rename there is nothing left to rename. -/
theorem Renamable.refilled (h : sub.Renamable old new) : (sub.refilled (renamed old new)).Renamable old new := by
  intro q hq ht
  have hmem := hq
  rw [refilled_references _ sub h.writable] at hq
  obtain ⟨r, hr, rfl⟩ := List.mem_map.mp (List.mem_filter.mp (List.mem_filter.mp hq).1).1
  have hsame : (r.answer (renamed old new)).answer (renamed old new) = r.answer (renamed old new) := by
    rw [answer_renamed_answer_renamed]
  rw [hsame]
  exact fits_of_mem_references hmem

end Substitution

namespace Tree

variable {f : Reference → Option Reference} {tree : Tree} {old new : String}

/-- No variable of a substitution is called as the import function is. -/
def NoImportKey (tree : Tree) : Prop := ∀ sub ∈ tree.substitutions, Reference.importKey ∉ Fields.keys sub.vars

def Clear (tree : Tree) : Prop := ∀ sub ∈ tree.substitutions, sub.Clear

def Renamable (old new : String) (tree : Tree) : Prop := ∀ sub ∈ tree.substitutions, sub.Renamable old new

/-- A local reference of the tree names `name`. -/
def Names (tree : Tree) (name : String) : Prop := ∃ r ∈ tree.scan, r.targetName? = some name

instance (tree : Tree) (name : String) : Decidable (tree.Names name) :=
  inferInstanceAs (Decidable (∃ r ∈ tree.scan, r.targetName? = some name))

theorem NoImportKey.redirect (h : tree.NoImportKey) : (tree.redirect f).result.NoImportKey := by
  intro sub' hs
  obtain ⟨sub, hsub, rfl | rfl⟩ := substitutionsAs_redirectAs hs
  · exact h _ hsub
  · exact Substitution.import_key_not_mem_refilled (h _ hsub)

theorem Clear.redirect (hf : KeepsLocals f) (h : tree.Clear) : (tree.redirect f).result.Clear := by
  intro sub' hs
  obtain ⟨sub, hsub, rfl | rfl⟩ := substitutionsAs_redirectAs hs
  · exact h _ hsub
  · exact (h _ hsub).refilled hf

theorem Renamable.rename (h : tree.Renamable old new) : (tree.rename old new).result.Renamable old new := by
  intro sub' hs
  obtain ⟨sub, hsub, rfl | rfl⟩ := substitutionsAs_redirectAs hs
  · exact h _ hsub
  · exact (h _ hsub).refilled

theorem Clear.scan_redirect (hf : KeepsLocals f) (h : tree.Clear) :
    (tree.redirect f).result.scan.Perm (tree.scan.map (Reference.answer f)) :=
  (scan_redirect_perm_iff fun _ _ => Substitution.writable_of_keepsLocals hf).mpr fun sub hs => (h sub hs).uncaptured hf

theorem Renamable.scan_rename (h : tree.Renamable old new) :
    (tree.rename old new).result.scan.Perm (tree.scan.map (Reference.answer (Reference.renamed old new))) :=
  (scan_redirect_perm_iff fun sub hs => (h sub hs).writable).mpr fun sub hs => (h sub hs).uncaptured

/-- A rename changes as many references as name the old node. All of them name the new one
    afterwards, and the others are as before, exactly where no placeholder for the old node
    comes to be written as a variable of its substitution is called. -/
theorem scan_rename_iff (hcontent : Placeholder.IsContent new) (hdot : '.' ∉ new.toList) (hne : old ≠ new) (tree : Tree) :
    (tree.rename old new).changed = tree.scan.countP (fun r => decide (r.targetName? = some old)) ∧
      ((tree.rename old new).result.scan.Perm (tree.scan.map (Reference.withName old new)) ↔
        ∀ sub ∈ tree.substitutions, ∀ r ∈ sub.references, r.targetName? = some old →
          (r.withName old new).path ∉ Fields.keys sub.vars) := by
  constructor
  · have hchanged : (tree.rename old new).changed =
        tree.scan.countP fun r => decide (r.answer (Reference.renamed old new) ≠ r) := changed_redirectAs tree
    rw [hchanged]
    refine List.countP_congr fun r _ => ?_
    rw [decide_eq_true_iff, decide_eq_true_iff, Ne, Reference.answer_renamed_eq_self_iff hne, not_not]
  · have hanswers : tree.scan.map (Reference.withName old new) =
        tree.scan.map (Reference.answer (Reference.renamed old new)) :=
      List.map_congr_left fun r _ => (r.answer_renamed old new).symm
    rw [hanswers, rename, scan_redirect_perm_iff fun _ _ => Substitution.writable_renamed hcontent hdot]
    refine forall₂_congr fun sub _ => ?_
    simp only [Substitution.uncaptured_renamed_iff, Reference.answer_renamed]

/-- A node that is named next to variables, in a template and in the value of one. -/
def labelled : Tree :=
  .record [("Label", .call Reference.subKey (.list [.text "$\x7bOld.Arn\x7d in $\x7bArea\x7d",
    .record [("Area", (Reference.node "Old").construct)]]))]

theorem scan_rename_labelled : (labelled.rename "Old" "New").changed = 2 ∧
    (labelled.rename "Old" "New").result.scan.Perm [.attrOf "New" "Arn", .node "New"] := by
  obtain ⟨hchanged, hscan⟩ := @scan_rename_iff "Old" "New" (by decide) (by decide) (by decide) labelled
  exact ⟨hchanged.trans (by decide), hscan.mpr (by decide)⟩

/-- A node that is named next to a variable with the name it is to have. -/
def shadowed : Tree :=
  .call Reference.subKey (.list [.text "$\x7bOld\x7d", .record [("New", .text "x")]])

/-- The variable takes the renamed reference away. -/
theorem scan_rename_shadowed :
    ¬(shadowed.rename "Old" "New").result.scan.Perm (shadowed.scan.map (Reference.withName "Old" "New")) := by
  decide

/-- Where references become imports or stay, a tree refers to exactly the answers where no
    placeholder that stays is written as a variable is called that was made for another one. -/
theorem scan_redirect_imports_iff (hf : ∀ r r', f r = some r' → r'.isImport = true) (tree : Tree) :
    (tree.redirect f).result.scan.Perm (tree.scan.map fun r => (f r).getD r) ↔
      ∀ sub ∈ tree.substitutions, ∀ r ∈ sub.references, f r = none →
        r.path ∉ Fields.keys (sub.refilled f).vars := by
  have hanswers : (tree.scan.map fun r => (f r).getD r) = tree.scan.map (Reference.answer f) :=
    List.map_congr_left fun r _ => r.answer_eq.symm
  rw [hanswers, scan_redirect_perm_iff fun _ _ => Substitution.writable_of_keepsLocals (keepsLocals_of_imports hf)]
  exact forall₂_congr fun sub _ => Substitution.uncaptured_imports_iff hf

/-- One attribute of `A` is published, and nothing else. -/
def published (r : Reference) : Option Reference := if r = .attrOf "A" "B" then some (.imported "a-A-B") else none

theorem isImport_published (r r' : Reference) (h : published r = some r') : r'.isImport = true := by
  unfold published at h
  split at h
  · cases h
    rfl
  · cases h

/-- A template that names the published attribute next to another node. -/
def joined (other : String) : Tree := .call Reference.subKey (.text ("$\x7bA.B\x7d $\x7b" ++ other ++ "\x7d"))

theorem scan_redirect_imports_joined :
    ((joined "C").redirect published).result.scan.Perm [.imported "a-A-B", .node "C"] :=
  (scan_redirect_imports_iff isImport_published (joined "C")).mpr (by decide)

/-- The variable made for `A.B` is called `AB`, as the other placeholder reads. -/
theorem scan_redirect_imports_captured :
    ¬((joined "AB").redirect published).result.scan.Perm ((joined "AB").scan.map fun r => (published r).getD r) := by
  decide

/-- A renamed tree imports exactly what the tree did. -/
theorem import_mem_rename (old new x : String) :
    .imported x ∈ (tree.rename old new).result.scan ↔ .imported x ∈ tree.scan := by
  constructor
  · intro h
    obtain ⟨r, hr, hanswer⟩ := exists_of_mem_scan_redirect h (Or.inl rfl)
    have himport := Reference.isImport_answer_renamed old new r
    rw [hanswer] at himport
    cases r with
    | imported y =>
      rw [Reference.answer_renamed_imported] at hanswer
      exact hanswer ▸ hr
    | _ => cases himport
  · exact fun h => import_mem_scan_redirect h rfl

section Substitute

variable {x : String} {fields : List (String × Tree)} (h : tree.NoImportKey)

include h

theorem NoImportKey.substitute (hp : (record fields).NoImportKey) :
    (tree.substitute (.imported x) (.record fields)).1.NoImportKey := by
  intro sub' hs
  rcases substitutionsAs_substitute h hs with ⟨sub, hsub, _, hk⟩ | hs
  · exact hk ▸ h sub hsub
  · exact hp sub' hs

theorem Renamable.substitute (ht : tree.Renamable old new) (hp : (record fields).Renamable old new) :
    (tree.substitute (.imported x) (.record fields)).1.Renamable old new := by
  intro sub' hs
  rcases substitutionsAs_substitute h hs with ⟨sub, hsub, htemplate, hk⟩ | hs
  · exact (ht sub hsub).congr htemplate hk
  · exact hp sub' hs

end Substitute

end Tree

end Regroup
