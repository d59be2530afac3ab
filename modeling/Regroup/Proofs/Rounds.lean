/-
  Regroup.Proofs.Rounds — a template is split in rounds.

  A round looks for the next opening and, behind it, for the next closing brace. What lies before
  and between them is a text and a placeholder, or one text if it is an escape, and the next round
  begins behind the brace (`round?`). When either is missing, what is left is text. Nothing says
  beforehand how many rounds there will be, but each of them takes an opening and a brace away.
  - `splitFrom_eq_round`: a round does not change what the template comes to.
  - `exists_rounds`: the rounds end, and the segments are those of `split`.
  - `split_lossless_stable`: written out, the segments are the template again. With other contents in
    its placeholders it is split in the same places exactly when all of them can be contents.
-/

import Mathlib.Logic.Function.Iterate
import Regroup.Proofs.Splitting
import Regroup.Text

namespace Regroup.Placeholder

open Segment

/-! ## One round -/

/-- What stands before and after the first opening. -/
def cutOpening : List Char → Option (List Char × List Char)
  | [] => none
  | '$' :: '{' :: rest => some ([], rest)
  | c :: rest => (cutOpening rest).map fun (before, after) => (c :: before, after)

/-- What a placeholder and the text before it come to, an escape being text. -/
def piece (before content : List Char) : List Segment :=
  if content.head? = some '!' then [.text (String.ofList (before ++ '$' :: '{' :: (content ++ ['}'])))]
  else ofText before ++ [.placeholder (String.ofList content)]

/-- The segments up to the first closing brace behind an opening, and what follows it. -/
def round? (cs : List Char) : Option (List Segment × List Char) :=
  (cutOpening cs).bind fun (before, after) =>
    (Text.cutList '}' after).map fun (content, rest) => (piece before content, rest)

variable {cs before after rest : List Char} {segments : List Segment}

theorem eq_of_cutOpening (h : cutOpening cs = some (before, after)) : cs = before ++ '$' :: '{' :: after := by
  fun_induction cutOpening cs generalizing before with
  | case1 => cases h
  | case2 rest =>
    obtain ⟨rfl, rfl⟩ := Prod.mk.inj (Option.some.inj h)
    rfl
  | case3 c rest hc ih =>
    obtain ⟨⟨before, after⟩, hrest, heq⟩ := Option.map_eq_some_iff.mp h
    obtain ⟨rfl, rfl⟩ := Prod.mk.inj heq
    rw [ih hrest, List.cons_append]

/-- Up to the first opening all is text. -/
theorem splitFrom_cutOpening (pending cs : List Char) :
    splitFrom pending none cs = match cutOpening cs with
      | none => ofText (pending ++ cs)
      | some (before, after) => splitFrom (pending ++ before) (some []) after := by
  fun_induction cutOpening cs generalizing pending with
  | case1 => rw [splitFrom, List.append_nil]
  | case2 rest => simp [splitFrom]
  | case3 c rest hc ih =>
    have hopen : ¬(c = '$' ∧ rest.head? = some '{') := by
      rintro ⟨rfl, hb⟩
      obtain ⟨tail, rfl⟩ := List.head?_eq_some_iff.mp hb
      exact hc tail rfl rfl
    rw [splitFrom_char hopen, ih]
    cases cutOpening rest <;> simp

theorem splitFrom_piece {content : List Char} (hc : '}' ∉ content) (before rest : List Char) :
    splitFrom before (some []) (content ++ '}' :: rest) = piece before content ++ splitFrom [] none rest := by
  rw [splitFrom_content hc (by simp), List.nil_append, piece]
  split
  · rename_i he
    rw [splitFrom_close_escape he, List.singleton_append]
  · rename_i he
    rw [splitFrom_close_placeholder he, List.append_assoc, List.singleton_append]

/-- What is opened and not closed is text. -/
theorem splitFrom_opened {content : List Char} (hc : '}' ∉ content) (before : List Char) :
    splitFrom before (some []) content = ofText (before ++ '$' :: '{' :: content) := by
  have hread : splitFrom before (some []) (content ++ []) = splitFrom before (some ([] ++ content)) [] :=
    splitFrom_content hc (by simp) before []
  rwa [List.append_nil, List.nil_append, splitFrom] at hread

/-- A round does not change what the template comes to. -/
theorem splitFrom_eq_round (cs : List Char) :
    splitFrom [] none cs = match round? cs with
      | none => ofText cs
      | some (segments, rest) => segments ++ splitFrom [] none rest := by
  rw [splitFrom_cutOpening, round?]
  rcases hcut : cutOpening cs with _ | ⟨before, after⟩
  · rfl
  · rcases hclose : Text.cutList '}' after with _ | ⟨content, rest⟩
    · simp only [Option.bind_some, hclose, Option.map_none, List.nil_append]
      rw [splitFrom_opened (Text.cutList_eq_none_iff.mp hclose), eq_of_cutOpening hcut]
    · obtain ⟨rfl, hc⟩ := Text.cutList_eq_some_iff.mp hclose
      simp only [Option.bind_some, hclose, Option.map_some, List.nil_append]
      exact splitFrom_piece hc before rest

/-- The opening and the brace of a round are not left. -/
theorem length_of_round? (h : round? cs = some (segments, rest)) : rest.length + 3 ≤ cs.length := by
  obtain ⟨⟨before, after⟩, hcut, hround⟩ := Option.bind_eq_some_iff.mp h
  obtain ⟨⟨content, left⟩, hclose, heq⟩ := Option.map_eq_some_iff.mp hround
  obtain ⟨rfl, rfl⟩ := Prod.mk.inj heq
  rw [eq_of_cutOpening hcut, (Text.cutList_eq_some_iff.mp hclose).1]
  simp only [List.length_append, List.length_cons]
  omega

/-! ## All rounds -/

/-- Between two rounds: the segments so far with what is left, or all segments. -/
inductive Progress where
  | reading (segments : List Segment) (left : List Char)
  | finished (segments : List Segment)

def Progress.next : Progress → Progress
  | .reading segments left =>
    match round? left with
    | none => .finished (segments ++ ofText left)
    | some (more, rest) => .reading (segments ++ more) rest
  | .finished segments => .finished segments

/-- The rounds end, each having taken an opening and a brace, and the segments are those of the split. -/
theorem exists_rounds (segments : List Segment) (cs : List Char) :
    ∃ rounds ≤ cs.length / 3 + 1, Progress.next^[rounds] (.reading segments cs) = .finished (segments ++ splitFrom [] none cs) := by
  rcases hround : round? cs with _ | ⟨more, rest⟩
  · refine ⟨1, by omega, ?_⟩
    rw [splitFrom_eq_round, hround, Function.iterate_one, Progress.next, hround]
  · -- What a round leaves is at least three characters shorter, which pays for the round.
    have hless := length_of_round? hround
    obtain ⟨rounds, hle, hrest⟩ := exists_rounds (segments ++ more) rest
    refine ⟨rounds + 1, by omega, ?_⟩
    rw [Function.iterate_succ_apply, Progress.next, hround, hrest, splitFrom_eq_round cs, hround, List.append_assoc]
termination_by cs.length

/-! ## Written out and split again -/

/-- The same text, or any placeholder for a placeholder. -/
inductive Segment.Alike : Segment → Segment → Prop
  | text (s : String) : Alike (.text s) (.text s)
  | placeholder (content content' : String) : Alike (.placeholder content) (.placeholder content')

theorem forall₂_refills {segments segments' : List Segment} (h : List.Forall₂ Alike segments segments')
    (hc : ∀ content, placeholder content ∈ segments' → IsContent content) : List.Forall₂ Refills segments segments' := by
  induction h with
  | nil => exact .nil
  | @cons segment segment' rest rest' halike _ ih =>
    have hrest : List.Forall₂ Refills rest rest' := ih fun content h => hc content (List.mem_cons_of_mem _ h)
    cases halike with
    | text s => exact .cons (.text s) hrest
    | placeholder content content' => exact .cons (.placeholder content content' (hc content' (List.mem_cons_self ..))) hrest

/-- A template is split in at most a third as many rounds as it has characters, and one more. Nothing
    is lost, no content closes its placeholder or escapes it, and with other contents the template
    is split into just these exactly when the same holds of them. -/
theorem split_lossless_stable (template : String) :
    (∃ rounds ≤ template.length / 3 + 1,
      Progress.next^[rounds] (.reading [] template.toList) = .finished (split template)) ∧
    join (split template) = template ∧
    (∀ content, placeholder content ∈ split template → IsContent content) ∧
    ∀ segments, List.Forall₂ Alike (split template) segments →
      (split (join segments) = segments ↔ ∀ content, placeholder content ∈ segments → IsContent content) := by
  have hcontent : ∀ (template content : String), placeholder content ∈ split template → IsContent content :=
    fun template content h => isContent_of_mem_contents (mem_contents.mpr h)
  refine ⟨?_, join_split template, hcontent template, fun segments halike => ⟨fun h content hin => ?_, fun hc => ?_⟩⟩
  · rw [← String.length_toList]
    exact exists_rounds [] template.toList
  · exact hcontent (join segments) content (h.symm ▸ hin)
  · exact split_join (forall₂_refills halike hc)

/-- Dollar signs and braces beside two placeholders, an escape, and an opening that is not closed. -/
def crampedSegments (first second : String) : List Segment :=
  [text "$", placeholder first, text "\x7b$\x7b!B\x7d", placeholder second, text "$$\x7bC"]

/-- A content may have an opening or end in a dollar sign, and none may have a closing brace. -/
theorem split_lossless_stable_cramped :
    split "$$\x7bA\x7d\x7b$\x7b!B\x7d$\x7b\x7d$$\x7bC" = crampedSegments "A" "" ∧
    split (join (crampedSegments "$\x7bA" "$")) = crampedSegments "$\x7bA" "$" ∧
    split (join (crampedSegments "A\x7d" "")) ≠ crampedSegments "A\x7d" "" := by
  have hsplit : split "$$\x7bA\x7d\x7b$\x7b!B\x7d$\x7b\x7d$$\x7bC" = crampedSegments "A" "" := by decide +kernel
  obtain ⟨_, _, _, hagain⟩ := split_lossless_stable "$$\x7bA\x7d\x7b$\x7b!B\x7d$\x7b\x7d$$\x7bC"
  have halike : ∀ first second, List.Forall₂ Alike (crampedSegments "A" "") (crampedSegments first second) := fun _ _ =>
    .cons (.text _) (.cons (.placeholder _ _) (.cons (.text _) (.cons (.placeholder _ _) (.cons (.text _) .nil))))
  rw [hsplit] at hagain
  refine ⟨hsplit, (hagain _ (halike "$\x7bA" "$")).mpr fun content hin => ?_, fun h => ?_⟩
  · have hcases : content = "$\x7bA" ∨ content = "$" := by simpa [crampedSegments] using hin
    rcases hcases with rfl | rfl <;> decide
  · have hc : IsContent "A\x7d" := (hagain _ (halike "A\x7d" "")).mp h _ (by simp [crampedSegments])
    exact absurd hc (by decide)

end Regroup.Placeholder
