/-
  Regroup.Proofs.Splitting — a template written out is split as it was before.

  A text is read in three places of `splitFrom`: before an opening, inside a placeholder and
  after the last one. `ReadsAsText` says of the first that nothing in it opens a placeholder,
  whatever stands behind; `splitFrom_content` says of the second that nothing in it closes one.
  - `join_split`: nothing of a template is lost.
  - `isContent_of_mem_contents`: a content has no closing brace and is no escape.
  - `split_join`: with other contents of that kind in the placeholders, the text that is
    written out is split into exactly these segments.
-/

import Mathlib.Data.List.Forall2
import Regroup.Placeholder

namespace Regroup.Placeholder

open Segment

/-! ## Contents -/

/-- What can stand between the braces of a placeholder. -/
def IsContent (content : String) : Prop := '}' ∉ content.toList ∧ content.toList.head? ≠ some '!'

instance (content : String) : Decidable (IsContent content) := inferInstanceAs (Decidable (_ ∧ _))

/-- The second can take the place of the first: the same text, or any other placeholder. -/
inductive Segment.Refills : Segment → Segment → Prop
  | text (s : String) : Refills (.text s) (.text s)
  | placeholder (content content' : String) : IsContent content' → Refills (.placeholder content) (.placeholder content')

/-! ## One step -/

section Step

attribute [local simp] splitFrom

theorem splitFrom_close_placeholder {content : List Char} (h : content.head? ≠ some '!') (pending rest : List Char) :
    splitFrom pending (some content) ('}' :: rest) =
      ofText pending ++ .placeholder (String.ofList content) :: splitFrom [] none rest := by
  simp [h]

theorem splitFrom_close_escape {content : List Char} (h : content.head? = some '!') (pending rest : List Char) :
    splitFrom pending (some content) ('}' :: rest) =
      .text (String.ofList (pending ++ '$' :: '{' :: (content ++ ['}']))) :: splitFrom [] none rest := by
  simp [h]

end Step

theorem splitFrom_char {c : Char} {rest : List Char} (h : ¬(c = '$' ∧ rest.head? = some '{')) (pending : List Char) :
    splitFrom pending none (c :: rest) = splitFrom (pending ++ [c]) none rest := by
  rw [splitFrom.eq_def]
  split
  · simp_all
  · simp_all
  · rename_i heq; cases heq; rfl

theorem splitFrom_content_char {c : Char} {rest : List Char} (h : ¬(c = '$' ∧ rest.head? = some '{')) (hc : c ≠ '}')
    (pending read : List Char) :
    splitFrom pending (some read) (c :: rest) = splitFrom pending (some (read ++ [c])) rest := by
  rw [splitFrom.eq_def]
  split
  · simp_all
  · simp_all
  · rename_i heq; cases heq; simp [hc]

/-! ## Written out -/

@[simp] theorem toList_join_nil : (join []).toList = [] := by simp [join]

@[simp] theorem toList_join_cons (segment : Segment) (rest : List Segment) :
    (join (segment :: rest)).toList = segment.render.toList ++ (join rest).toList := by
  simp [join]

theorem toList_join_ofText (s : List Char) (rest : List Segment) :
    (join (ofText s ++ rest)).toList = s ++ (join rest).toList := by
  cases s <;> simp [ofText, render]

theorem toList_render_placeholder (content : String) :
    (render (.placeholder content)).toList = '$' :: '{' :: (content.toList ++ ['}']) := by
  simp [render]

theorem toList_join_splitFrom (pending : List Char) (opened : Option (List Char)) (cs : List Char) :
    (join (splitFrom pending opened cs)).toList =
      pending ++ opened.elim [] (fun content => '$' :: '{' :: content) ++ cs := by
  fun_induction splitFrom pending opened cs with
  | case1 pending => simpa using toList_join_ofText pending []
  | case2 pending content => simpa using toList_join_ofText (pending ++ '$' :: '{' :: content) []
  | case3 pending rest ih => simp [ih]
  | case4 pending rest content ih => simp [ih]
  | case5 pending c rest _ ih => simp [ih]
  | case6 pending rest content _ _ ih => simp [ih, render]
  | case7 pending rest content _ _ ih =>
    rw [toList_join_ofText, toList_join_cons, toList_render_placeholder, ih]
    simp
  | case8 pending c rest _ content _ ih => simp [ih]

/-- Splitting loses nothing. -/
theorem join_split (template : String) : join (split template) = template := by
  apply String.toList_injective
  simp [split, toList_join_splitFrom]

/-! ## Read again -/

/-- Nothing of `s` opens a placeholder when `rest` follows. -/
def ReadsAsText (s rest : List Char) : Prop :=
  ∀ pending, splitFrom pending none (s ++ rest) = splitFrom (pending ++ s) none rest

/-- `s` reads as text before whatever opens no placeholder with its last character, and `cs`
    is one such continuation. -/
def Settled (s cs : List Char) : Prop :=
  ∀ rest : List Char, (rest.head? = some '{' → cs.head? = some '{') → ReadsAsText s rest

theorem settled_nil (cs : List Char) : Settled [] cs := fun _ _ _ => by simp

theorem Settled.closed {s cs : List Char} (h : Settled s cs) : Settled s [] :=
  fun rest hr => h rest fun hb => by simp [hb] at hr

theorem Settled.push {s rest : List Char} {c : Char} (h : Settled s (c :: rest))
    (hc : ∀ tail, c = '$' → rest = '{' :: tail → False) : Settled (s ++ [c]) rest := by
  intro cs hcs pending
  have hopen : ¬(c = '$' ∧ cs.head? = some '{') := by
    rintro ⟨rfl, hb⟩
    obtain ⟨tail, ht⟩ := List.head?_eq_some_iff.mp (hcs hb)
    exact hc tail rfl ht
  have hs := h (c :: cs) (by simp) pending
  rw [List.append_assoc, List.singleton_append, hs, splitFrom_char hopen, List.append_assoc]

theorem Settled.text {s : List Char} (h : Settled s []) : splitFrom [] none s = ofText s := by
  have := h [] (by simp) []
  rwa [List.append_nil, List.nil_append, splitFrom] at this

/-- Nothing of `content` closes the placeholder. -/
theorem splitFrom_content {content rest : List Char} (hc : '}' ∉ content) (hr : rest.head? ≠ some '{')
    (pending read : List Char) :
    splitFrom pending (some read) (content ++ rest) = splitFrom pending (some (read ++ content)) rest := by
  match content with
  | [] => simp
  | c :: tail =>
    have ht : '}' ∉ tail := fun h => hc (by simp [h])
    have hne : c ≠ '}' := fun h => hc (by simp [h])
    by_cases hopen : c = '$' ∧ (tail ++ rest).head? = some '{'
    · -- Only a brace of `content` itself can follow its dollar sign.
      obtain ⟨rfl, hb⟩ := hopen
      cases tail with
      | nil => exact absurd hb hr
      | cons d tail =>
        obtain rfl : d = '{' := by simpa using hb
        have ht' : '}' ∉ tail := fun h => ht (by simp [h])
        rw [List.cons_append, List.cons_append, splitFrom, splitFrom_content ht' hr]
        simp
    · rw [List.cons_append, splitFrom_content_char hopen hne, splitFrom_content ht hr]
      simp

theorem splitFrom_opening {pending : List Char} (h : Settled pending []) (rest : List Char) :
    splitFrom [] none (pending ++ '$' :: '{' :: rest) = splitFrom pending (some []) rest := by
  rw [h ('$' :: '{' :: rest) (by simp) [], List.nil_append, splitFrom]

theorem splitFrom_closing {pending content : List Char} (h : Settled pending []) (hc : '}' ∉ content) (rest : List Char) :
    splitFrom [] none (pending ++ '$' :: '{' :: (content ++ '}' :: rest)) =
      splitFrom pending (some content) ('}' :: rest) := by
  rw [splitFrom_opening h, splitFrom_content hc (by simp), List.nil_append]

theorem forall₂_refills_ofText {s : List Char} {rest segments : List Segment}
    (h : List.Forall₂ Refills (ofText s ++ rest) segments) :
    ∃ tail, segments = ofText s ++ tail ∧ List.Forall₂ Refills rest tail := by
  cases s with
  | nil => exact ⟨segments, rfl, h⟩
  | cons c s =>
    obtain ⟨segment, tail, hseg, htail, rfl⟩ := List.forall₂_cons_left_iff.mp h
    cases hseg
    exact ⟨tail, rfl, htail⟩

/-- Induction on the reading of the first text. What has been read of it and is not yet a
    segment is settled, and what has been read of a placeholder has not been closed. -/
theorem splitFrom_join {pending : List Char} {opened : Option (List Char)} {cs : List Char} {segments : List Segment}
    (hp : Settled pending (opened.elim cs fun _ => [])) (ho : ∀ content, opened = some content → '}' ∉ content)
    (h : List.Forall₂ Refills (splitFrom pending opened cs) segments) :
    splitFrom [] none (join segments).toList = segments := by
  fun_induction splitFrom pending opened cs generalizing segments with
  | case1 pending =>
    rw [← List.append_nil (ofText _)] at h
    obtain ⟨tail, rfl, ht⟩ := forall₂_refills_ofText h
    cases ht
    rw [toList_join_ofText]
    simpa using hp.text
  | case2 pending content =>
    rw [← List.append_nil (ofText _)] at h
    obtain ⟨tail, rfl, ht⟩ := forall₂_refills_ofText h
    cases ht
    have hc : splitFrom pending (some []) (content ++ []) = _ := splitFrom_content (ho content rfl) (by simp) pending []
    rw [List.append_nil] at hc
    rw [toList_join_ofText, toList_join_nil, List.append_nil, splitFrom_opening hp, hc, List.nil_append, splitFrom,
      List.append_nil]
  | case3 pending rest ih => exact ih hp.closed (by simp) h
  | case4 pending rest content ih => exact ih hp (by simpa using ho) h
  | case5 pending c rest hc ih => exact ih (hp.push hc) (by simp) h
  | case6 pending rest content he _ ih =>
    obtain ⟨segment, tail, hseg, htail, rfl⟩ := List.forall₂_cons_left_iff.mp h
    cases hseg
    have := ih (settled_nil rest) (by simp) htail
    rw [toList_join_cons, render, String.toList_ofList, List.append_assoc, List.cons_append, List.cons_append,
      List.append_assoc, List.singleton_append, splitFrom_closing hp (ho content rfl), splitFrom_close_escape he, this]
  | case7 pending rest content hne _ ih =>
    obtain ⟨tail, rfl, htail⟩ := forall₂_refills_ofText h
    obtain ⟨segment, tail, hseg, hrest, rfl⟩ := List.forall₂_cons_left_iff.mp htail
    cases hseg with
    | placeholder _ content' hc' =>
      have := ih (settled_nil rest) (by simp) hrest
      rw [toList_join_ofText, toList_join_cons, toList_render_placeholder, List.cons_append, List.cons_append,
        List.append_assoc, List.singleton_append, splitFrom_closing hp hc'.1, splitFrom_close_placeholder hc'.2,
        String.ofList_toList, this]
  | case8 pending c rest _ content hne ih =>
    refine ih hp ?_ h
    intro content' heq
    cases heq
    simpa [Ne.symm hne] using ho content rfl

/-- A template with other contents in its placeholders is split into these contents. -/
theorem split_join {template : String} {segments : List Segment}
    (h : List.Forall₂ Refills (split template) segments) : split (join segments) = segments :=
  splitFrom_join (settled_nil _) (by simp) h

theorem isContent_of_mem_splitFrom {pending : List Char} {opened : Option (List Char)} {cs : List Char} {content : String}
    (ho : ∀ content, opened = some content → '}' ∉ content)
    (h : Segment.placeholder content ∈ splitFrom pending opened cs) : IsContent content := by
  have hText : ∀ s : List Char, Segment.placeholder content ∉ ofText s := by
    intro s
    cases s <;> simp [ofText]
  fun_induction splitFrom pending opened cs with
  | case1 pending => exact absurd h (hText _)
  | case2 pending content => exact absurd h (hText _)
  | case3 pending rest ih => exact ih (by simp) h
  | case4 pending rest content ih => exact ih (by simpa using ho) h
  | case5 pending c rest _ ih => exact ih (by simp) h
  | case6 pending rest content _ _ ih => exact ih (by simp) (by simpa using h)
  | case7 pending rest read hne _ ih =>
    rcases List.mem_append.mp h with h | h
    · exact absurd h (hText _)
    · rcases List.mem_cons.mp h with h | h
      · cases h
        exact ⟨by simpa using ho read rfl, by simpa using hne⟩
      · exact ih (by simp) h
  | case8 pending c rest _ read hne ih =>
    refine ih ?_ h
    intro content' heq
    cases heq
    simpa [Ne.symm hne] using ho read rfl

theorem mem_contents {template content : String} :
    content ∈ contents template ↔ Segment.placeholder content ∈ split template := by
  simp only [contents, List.mem_filterMap]
  constructor
  · rintro ⟨segment, hs, hc⟩
    cases segment <;> simp_all
  · exact fun h => ⟨_, h, rfl⟩

theorem isContent_of_mem_contents {template content : String} (h : content ∈ contents template) : IsContent content :=
  isContent_of_mem_splitFrom (by simp) (mem_contents.mp h)

end Regroup.Placeholder
