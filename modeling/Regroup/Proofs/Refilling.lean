/-
  Regroup.Proofs.Refilling — what a redirected template refers to.

  `answer f` is what `redirect f` puts in the place of a reference. An answer that is local
  goes back into a placeholder as text, so it must `Fit` there, and the text must not be the
  name of a variable of the same substitution (`Uncaptured`).
  - `Substitution.refilled_vars`: the variables keep their places, and behind them stands one for
    each answer that is an import.
  - `Substitution.refilled_references`: the placeholders refer to the local answers, but for those
    that are written as a variable is called.
  - `Placeholder.redirect_changed`: how many of them are changed.
-/

import Regroup.Proofs.Freshness
import Regroup.Proofs.Shapes
import Regroup.Proofs.Splitting

namespace Regroup

/-! ## Answers -/

namespace Reference

def isImport : Reference → Bool
  | .imported _ => true
  | .node _ | .attrOf _ _ => false

/-- How a placeholder names what it refers to. -/
def path : Reference → String
  | .node name => name
  | .attrOf name attr => name ++ "." ++ attr
  | .imported name => name

/-- What stands in the place of `r` after a redirection. -/
def answer (f : Reference → Option Reference) (r : Reference) : Reference := (r.change? f).getD r

/-- A placeholder that names `r` refers to `r`. -/
def Fits (r : Reference) : Prop := Placeholder.IsContent r.path ∧ ofPath r.path = r

variable {f : Reference → Option Reference}

theorem answer_eq (r : Reference) : r.answer f = (f r).getD r := by
  unfold answer change?
  rcases hf : f r with _ | r'
  · rfl
  · by_cases h : r' = r <;> simp [Option.filter, h]

theorem answer_of_unchanged {r : Reference} (h : r.change? f = none) : r.answer f = r := by simp [answer, h]

theorem change?_eq_none_iff {r : Reference} : r.change? f = none ↔ r.answer f = r := by
  refine ⟨answer_of_unchanged, fun h => ?_⟩
  rcases hf : f r with _ | r'
  · simp [change?, hf]
  · rw [answer_eq, hf] at h
    simp [change?, hf, show r' = r from h]

theorem answer_of_changed {r r' : Reference} (h : r.change? f = some r') : r.answer f = r' := by simp [answer, h]

@[simp] theorem isImport_ofPath (content : String) : (ofPath content).isImport = false := by
  unfold ofPath
  split <;> rfl

@[simp] theorem path_ofPath (content : String) : (ofPath content).path = content := by
  unfold ofPath
  rcases h : Text.cut '.' content with _ | ⟨name, attr⟩
  · rfl
  · apply String.toList_injective
    simp [path, (Text.cut_eq_some_iff.mp h).1]

theorem map_ofPath_map_path {rs : List Reference} (h : ∀ r ∈ rs, r.Fits) : (rs.map path).map ofPath = rs := by
  rw [List.map_map]
  exact (List.map_congr_left fun r hr => (h r hr).2).trans (List.map_id rs)

theorem fits_ofPath {content : String} (h : Placeholder.IsContent content) : (ofPath content).Fits := by
  rw [Fits, path_ofPath]
  exact ⟨h, rfl⟩

end Reference

/-! ## Placeholders -/

namespace Placeholder

open Segment Reference

variable (f : Reference → Option Reference) (declared : List String)

def Segment.content? : Segment → Option String
  | .placeholder content => some content
  | .text _ => none

/-- What the placeholders refer to, variables aside. -/
def referencesIn (segments : List Segment) : List Reference :=
  ((segments.filterMap content?).filter (!declared.contains ·)).map ofPath

theorem contents_eq (template : String) : contents template = (split template).filterMap content? := by
  unfold contents
  congr 1

theorem references_eq (template : String) : references template declared = referencesIn declared (split template) := by
  rw [references, contents_eq, referencesIn]

theorem referencesIn_declared {content : String} (h : content ∈ declared) (rest : List Segment) :
    referencesIn declared (.placeholder content :: rest) = referencesIn declared rest := by
  simp [referencesIn, content?, h]

theorem referencesIn_placeholder {content : String} (h : content ∉ declared) (rest : List Segment) :
    referencesIn declared (.placeholder content :: rest) = ofPath content :: referencesIn declared rest := by
  simp [referencesIn, content?, h]

theorem isImport_of_mem_references {template : String} {r : Reference} (h : r ∈ references template declared) :
    r.isImport = false := by
  obtain ⟨content, _, rfl⟩ := List.mem_map.mp h
  exact isImport_ofPath content

theorem isAlphanum_variableName {content : String} {vars : Fields Tree} {c : Char}
    (h : c ∈ (variableName content vars).toList) : c.isAlphanum = true := by
  have himport : ∀ c ∈ "Import".toList, c.isAlphanum = true := by simp
  rw [variableName] at h
  obtain ⟨n, hn, _⟩ :=
    Fresh.name_spec (if (Text.alphanumeric content).isEmpty then "Import" else Text.alphanumeric content) "" (Fields.keys vars)
  simp only [hn] at h
  rcases Fresh.mem_candidate h with h | h
  · split at h
    · exact himport c h
    · simp only [Text.alphanumeric, String.toList_ofList, List.mem_filter] at h
      exact h.2
  · simp [Char.isAlphanum, h]

theorem isContent_variableName (content : String) (vars : Fields Tree) : IsContent (variableName content vars) := by
  constructor
  · intro h
    exact absurd (isAlphanum_variableName h) (by decide)
  · intro h
    exact absurd (isAlphanum_variableName (List.mem_of_head? h)) (by decide)

/-- What one placeholder holds afterwards, and the variables from then on. -/
def rewritten (vars : Fields Tree) (content : String) : String × Fields Tree :=
  if content ∈ declared then (content, vars)
  else
    let r := (ofPath content).answer f
    if r.isImport then (variableName content vars, Fields.put (variableName content vars) r.construct vars)
    else (r.path, vars)

theorem redirect_text_cons (vars : Fields Tree) (s : String) (rest : List Segment) :
    (redirect f declared vars (.text s :: rest)).result =
      (.text s :: (redirect f declared vars rest).result.1, (redirect f declared vars rest).result.2) := rfl

theorem redirect_placeholder_cons (vars : Fields Tree) (content : String) (rest : List Segment) :
    (redirect f declared vars (.placeholder content :: rest)).result =
      (.placeholder (rewritten f declared vars content).1 ::
          (redirect f declared (rewritten f declared vars content).2 rest).result.1,
        (redirect f declared (rewritten f declared vars content).2 rest).result.2) := by
  by_cases hd : content ∈ declared
  · simp only [redirect, rewritten, hd, if_true]
    rfl
  · rcases hc : (ofPath content).change? f with _ | r
    · simp only [redirect, rewritten, hd, if_false, hc, answer_of_unchanged hc, isImport_ofPath, path_ofPath]
      rfl
    · simp only [redirect, rewritten, hd, if_false, hc, answer_of_changed hc]
      cases r <;> rfl

theorem rewritten_declared {vars : Fields Tree} {content : String} (h : content ∈ declared) :
    rewritten f declared vars content = (content, vars) := by
  simp [rewritten, h]

theorem rewritten_local {vars : Fields Tree} {content : String} (h : content ∉ declared)
    (hr : ((ofPath content).answer f).isImport = false) :
    rewritten f declared vars content = (((ofPath content).answer f).path, vars) := by
  simp [rewritten, h, hr]

theorem rewritten_import {vars : Fields Tree} {content : String} (h : content ∉ declared)
    (hr : ((ofPath content).answer f).isImport = true) :
    rewritten f declared vars content =
      (variableName content vars, vars ++ [(variableName content vars, ((ofPath content).answer f).construct)]) := by
  have hfresh : variableName content vars ∉ Fields.keys vars := Fresh.name_not_mem _ _ _
  simp only [rewritten, h, hr, if_false, if_true, Fields.put_of_not_mem hfresh]

/-- The answers to the placeholders of `segments`. -/
def answersIn (segments : List Segment) : List Reference := (referencesIn declared segments).map (answer f)

theorem answersIn_declared {content : String} (h : content ∈ declared) (rest : List Segment) :
    answersIn f declared (.placeholder content :: rest) = answersIn f declared rest := by
  rw [answersIn, referencesIn_declared declared h, answersIn]

theorem answersIn_placeholder {content : String} (h : content ∉ declared) (rest : List Segment) :
    answersIn f declared (.placeholder content :: rest) = (ofPath content).answer f :: answersIn f declared rest := by
  rw [answersIn, referencesIn_placeholder declared h, List.map_cons, answersIn]

/-- How the answers that are local are written. -/
def localPaths (segments : List Segment) : List String :=
  ((answersIn f declared segments).filter (!·.isImport)).map path

theorem localPaths_declared {content : String} (h : content ∈ declared) (rest : List Segment) :
    localPaths f declared (.placeholder content :: rest) = localPaths f declared rest := by
  rw [localPaths, answersIn_declared f declared h, localPaths]

theorem localPaths_local {content : String} (h : content ∉ declared)
    (hr : ((ofPath content).answer f).isImport = false) (rest : List Segment) :
    localPaths f declared (.placeholder content :: rest) =
      ((ofPath content).answer f).path :: localPaths f declared rest := by
  simp [localPaths, answersIn_placeholder f declared h, hr]

theorem localPaths_import {content : String} (h : content ∉ declared)
    (hr : ((ofPath content).answer f).isImport = true) (rest : List Segment) :
    localPaths f declared (.placeholder content :: rest) = localPaths f declared rest := by
  simp [localPaths, answersIn_placeholder f declared h, hr]

/-- The variables keep their places, and each answer that is an import is bound behind them, to
    a variable named after its placeholder. -/
theorem redirect_vars (vars : Fields Tree) (segments : List Segment) :
    ∃ bound : Fields Tree, (redirect f declared vars segments).result.2 = vars ++ bound ∧
      bound.map Prod.snd = ((answersIn f declared segments).filter isImport).map construct ∧
      ∀ key ∈ Fields.keys bound, ∃ r ∈ referencesIn declared segments, (r.answer f).isImport = true ∧
        ∃ vars', key = variableName r.path vars' := by
  induction segments generalizing vars with
  | nil => exact ⟨[], (List.append_nil vars).symm, rfl, by simp [Fields.keys]⟩
  | cons segment rest ih =>
    cases segment with
    | text s => exact ih vars
    | placeholder content =>
      rw [redirect_placeholder_cons]
      by_cases hd : content ∈ declared
      · rw [rewritten_declared f declared hd, answersIn_declared f declared hd, referencesIn_declared declared hd]
        exact ih vars
      · rw [answersIn_placeholder f declared hd, referencesIn_placeholder declared hd]
        cases hr : ((ofPath content).answer f).isImport with
        | false =>
          rw [rewritten_local f declared hd hr, List.filter_cons_of_neg (by simp [hr])]
          obtain ⟨bound, hb, hv, hk⟩ := ih vars
          refine ⟨bound, hb, hv, fun key hkey => ?_⟩
          obtain ⟨r, hrest, hname⟩ := hk key hkey
          exact ⟨r, List.mem_cons_of_mem _ hrest, hname⟩
        | true =>
          rw [rewritten_import f declared hd hr, List.filter_cons_of_pos hr]
          obtain ⟨bound, hb, hv, hk⟩ := ih (vars ++ [(variableName content vars, ((ofPath content).answer f).construct)])
          refine ⟨(variableName content vars, ((ofPath content).answer f).construct) :: bound, ?_, ?_, ?_⟩
          · rw [hb, List.append_assoc, List.singleton_append]
          · rw [List.map_cons, List.map_cons, hv]
          · intro key hkey
            rcases List.mem_cons.mp hkey with rfl | hkey
            · exact ⟨ofPath content, List.mem_cons_self .., hr, vars, by rw [path_ofPath]⟩
            · obtain ⟨r, hrest, hname⟩ := hk key hkey
              exact ⟨r, List.mem_cons_of_mem _ hrest, hname⟩

theorem keys_subset_redirect_vars (vars : Fields Tree) (segments : List Segment) :
    Fields.keys vars ⊆ Fields.keys (redirect f declared vars segments).result.2 := by
  obtain ⟨bound, hb, _, _⟩ := redirect_vars f declared vars segments
  intro key hk
  rw [hb, Fields.keys, List.map_append]
  exact List.mem_append_left _ hk

/-- Apart from names of variables, the contents are the written local answers. -/
theorem redirect_contents {names : List String} (hd : declared ⊆ names) (vars : Fields Tree) (segments : List Segment)
    (hv : Fields.keys (redirect f declared vars segments).result.2 ⊆ names) :
    ((redirect f declared vars segments).result.1.filterMap content?).filter (!names.contains ·) =
      (localPaths f declared segments).filter (!names.contains ·) := by
  induction segments generalizing vars with
  | nil => rfl
  | cons segment rest ih =>
    cases segment with
    | text s => exact ih vars hv
    | placeholder content =>
      rw [redirect_placeholder_cons] at hv ⊢
      have := ih _ hv
      simp only [List.filterMap_cons, content?]
      by_cases hdec : content ∈ declared
      · rw [rewritten_declared f declared hdec] at this ⊢
        rw [localPaths_declared f declared hdec, List.filter_cons, if_neg (by simpa using hd hdec)]
        exact this
      · cases hr : ((ofPath content).answer f).isImport with
        | false =>
          rw [rewritten_local f declared hdec hr] at this ⊢
          rw [localPaths_local f declared hdec hr, List.filter_cons, List.filter_cons, this]
        | true =>
          rw [rewritten_import f declared hdec hr] at this hv ⊢
          have hmem : variableName content vars ∈ names :=
            hv (keys_subset_redirect_vars f declared _ rest (by simp [Fields.keys]))
          rw [localPaths_import f declared hdec hr, List.filter_cons, if_neg (by simpa using hmem)]
          exact this

theorem redirect_refills (vars : Fields Tree) {segments : List Segment}
    (hw : ∀ r ∈ answersIn f declared segments, r.isImport = false → r.Fits)
    (h : ∀ content, .placeholder content ∈ segments → IsContent content) :
    List.Forall₂ Refills segments (redirect f declared vars segments).result.1 := by
  induction segments generalizing vars with
  | nil => exact .nil
  | cons segment rest ih =>
    have hrest : ∀ content, .placeholder content ∈ rest → IsContent content :=
      fun content hc => h content (List.mem_cons_of_mem _ hc)
    cases segment with
    | text s => exact .cons (.text s) (ih vars hw hrest)
    | placeholder content =>
      have hcontent := h content (List.mem_cons_self ..)
      rw [redirect_placeholder_cons]
      by_cases hd : content ∈ declared
      · rw [rewritten_declared f declared hd]
        rw [answersIn_declared f declared hd] at hw
        exact .cons (.placeholder _ _ hcontent) (ih _ hw hrest)
      · rw [answersIn_placeholder f declared hd] at hw
        have htail := ih (rewritten f declared vars content).2 (fun r hr => hw r (List.mem_cons_of_mem _ hr)) hrest
        refine .cons (.placeholder _ _ ?_) htail
        cases hr : ((ofPath content).answer f).isImport with
        | false =>
          rw [rewritten_local f declared hd hr]
          exact (hw _ (List.mem_cons_self ..) hr).1
        | true =>
          rw [rewritten_import f declared hd hr]
          exact isContent_variableName content vars

/-- As many placeholders are changed as have another answer than themselves. -/
theorem redirect_changed {vars : Fields Tree} {segments : List Segment} : (redirect f declared vars segments).changed =
    (referencesIn declared segments).countP fun r => decide (r.answer f ≠ r) := by
  induction segments generalizing vars with
  | nil => rfl
  | cons segment rest ih =>
    cases segment with
    | text s => exact ih
    | placeholder content =>
      by_cases hd : content ∈ declared
      · simp only [redirect, hd, if_true, Redirected.map]
        rw [referencesIn_declared declared hd]
        exact ih
      · rw [referencesIn_placeholder declared hd, List.countP_cons]
        rcases hc : (ofPath content).change? f with _ | r
        · simp [redirect, hd, hc, Redirected.pair, change?_eq_none_iff.mp hc, ih]
        · have hne : (ofPath content).answer f ≠ ofPath content := by
            rw [Ne, ← change?_eq_none_iff, hc]
            exact Option.some_ne_none r
          cases r <;> simp [redirect, hd, hc, Redirected.pair, hne, ih, Nat.add_comm]

/-- Each placeholder that names no variable is asked about once, in order. -/
theorem redirect_asked {vars : Fields Tree} {segments : List Segment} :
    (redirect f declared vars segments).asked = referencesIn declared segments := by
  induction segments generalizing vars with
  | nil => rfl
  | cons segment rest ih =>
    cases segment with
    | text s => exact ih
    | placeholder content =>
      by_cases hd : content ∈ declared
      · simp only [redirect, hd, if_true, Redirected.map]
        rw [referencesIn_declared declared hd]
        exact ih
      · rw [referencesIn_placeholder declared hd]
        rcases hc : (ofPath content).change? f with _ | r
        · simp [redirect, hd, hc, Redirected.pair, ih]
        · cases r <;> simp [redirect, hd, hc, Redirected.pair, ih]

/-- Nothing is changed exactly where each reference is its own answer. -/
theorem redirect_changed_eq_zero_iff {vars : Fields Tree} {segments : List Segment} :
    (redirect f declared vars segments).changed = 0 ↔ ∀ r ∈ referencesIn declared segments, r.answer f = r := by
  simp [redirect_changed]

theorem redirect_of_answers_self {vars : Fields Tree} {segments : List Segment}
    (h : ∀ r ∈ referencesIn declared segments, r.answer f = r) :
    (redirect f declared vars segments).result = (segments, vars) := by
  induction segments with
  | nil => rfl
  | cons segment rest ih =>
    cases segment with
    | text s => rw [redirect_text_cons, ih h]
    | placeholder content =>
      rw [redirect_placeholder_cons]
      by_cases hd : content ∈ declared
      · rw [referencesIn_declared declared hd] at h
        rw [rewritten_declared f declared hd, ih h]
      · rw [referencesIn_placeholder declared hd, List.forall_mem_cons] at h
        have hlocal : ((ofPath content).answer f).isImport = false := by rw [h.1, isImport_ofPath]
        rw [rewritten_local f declared hd hlocal, h.1, path_ofPath, ih h.2]

end Placeholder

/-! ## Substitutions -/

namespace Substitution

open Placeholder Reference

variable (f : Reference → Option Reference) (sub : Substitution)

/-- What the placeholders refer to, variables aside. -/
def references : List Reference := Placeholder.references sub.template (Fields.keys sub.vars)

def answers : List Reference := sub.references.map (answer f)

/-- The substitution redirected, its template with the answers in the placeholders. -/
def refilled : Substitution :=
  let body := Placeholder.redirect f (Fields.keys sub.vars) (Tree.redirectFields f sub.vars).result (Segment.split sub.template)
  ⟨Segment.join body.result.1, body.result.2⟩

/-- Each local answer reads as itself in a placeholder. -/
def Writable : Prop := ∀ r ∈ sub.answers f, r.isImport = false → r.Fits

/-- No local answer is written as a variable is called. -/
def Uncaptured : Prop := ∀ r ∈ sub.answers f, r.isImport = false → r.path ∉ Fields.keys (sub.refilled f).vars

/-- The local answers that are written as a variable is called. -/
def captured : List Reference :=
  ((sub.answers f).filter (!·.isImport)).filter fun r => (Fields.keys (sub.refilled f).vars).contains r.path

theorem captured_eq_nil_iff : sub.captured f = [] ↔ sub.Uncaptured f := by
  rw [captured, List.filter_eq_nil_iff, Uncaptured]
  simp only [List.mem_filter, List.contains_eq_mem, decide_eq_true_eq, Bool.not_eq_true', and_imp]

theorem answers_eq : sub.answers f = answersIn f (Fields.keys sub.vars) (Segment.split sub.template) := by
  rw [answers, references, references_eq, answersIn]

theorem refilled_vars : ∃ bound : Fields Tree,
    (sub.refilled f).vars = (Tree.redirectFields f sub.vars).result ++ bound ∧
      bound.map Prod.snd = ((sub.answers f).filter isImport).map construct ∧
      ∀ key ∈ Fields.keys bound, ∃ r ∈ sub.references, (r.answer f).isImport = true ∧
        ∃ vars, key = variableName r.path vars := by
  rw [answers_eq, references, references_eq]
  exact redirect_vars f _ _ _

theorem keys_subset_refilled : Fields.keys sub.vars ⊆ Fields.keys (sub.refilled f).vars := by
  rw [← Tree.keys_redirectFields f sub.vars]
  exact keys_subset_redirect_vars f _ _ _

theorem refilled_references (hw : sub.Writable f) :
    (sub.refilled f).references = ((sub.answers f).filter (!·.isImport)).filter
      fun r => !(Fields.keys (sub.refilled f).vars).contains r.path := by
  have hrefills := redirect_refills f (Fields.keys sub.vars) (Tree.redirectFields f sub.vars).result
    (by rwa [← answers_eq]) (fun content hc => isContent_of_mem_contents (mem_contents.mpr hc))
  have hcontents := redirect_contents f (Fields.keys sub.vars) (keys_subset_refilled f sub)
    (Tree.redirectFields f sub.vars).result (Segment.split sub.template) (List.Subset.refl _)
  have hlocal : localPaths f (Fields.keys sub.vars) (Segment.split sub.template) =
      ((sub.answers f).filter (!·.isImport)).map path := by rw [localPaths, answers_eq]
  have hsplit : Segment.split (sub.refilled f).template =
      (redirect f (Fields.keys sub.vars) (Tree.redirectFields f sub.vars).result
        (Segment.split sub.template)).result.1 := split_join hrefills
  rw [references, references_eq, hsplit, referencesIn, hcontents, hlocal, List.filter_map, map_ofPath_map_path]
  · rfl
  · intro r hr
    obtain ⟨hr, hlocal⟩ := List.mem_filter.mp (List.mem_filter.mp hr).1
    exact hw r hr (by simpa using hlocal)

/-- Each answer is read from the template again, captured, or an import. -/
theorem refilled_references_append_captured (hw : sub.Writable f) :
    ((sub.refilled f).references ++ sub.captured f ++ (sub.answers f).filter isImport).Perm (sub.answers f) := by
  have hlocals : ((sub.refilled f).references ++ sub.captured f).Perm ((sub.answers f).filter (!·.isImport)) := by
    rw [refilled_references f sub hw, captured]
    exact List.perm_append_comm.trans (List.filter_append_perm _ _)
  exact (hlocals.append_right _).trans (List.perm_append_comm.trans (List.filter_append_perm _ _))

theorem refilled_of_answers_self (h : ∀ r ∈ sub.references, r.answer f = r) :
    sub.refilled f = ⟨sub.template, (Tree.redirectFields f sub.vars).result⟩ := by
  rw [references, references_eq] at h
  rw [refilled, redirect_of_answers_self f _ h, join_split]

end Substitution

end Regroup
