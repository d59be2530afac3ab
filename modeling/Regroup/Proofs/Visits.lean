/-
  Regroup.Proofs.Visits — redirecting asks about what reading reports.

  The two recursions go through a tree in different orders: a substitution is read placeholders
  first, and redirected variables first. Both visit each construct and each placeholder that
  names no variable once, whatever is answered and whatever variables that adds
  (`asked_redirectAs`). So the changes can be counted among the questions, and a tree with none
  is left as it is (`asked_redirect`).
-/

import Mathlib.Data.List.Perm.Basic
import Regroup.Proofs.Redirection

namespace Regroup.Tree

variable {f : Reference → Option Reference} {role : Role}

theorem asked_redirectArgument (sub : Substitution) (arg : Tree) :
    (Placeholder.redirectArgument f arg sub.template (redirectFields f sub.vars)).asked =
      (redirectFields f sub.vars).asked ++ sub.references := by
  have hbody : ∀ vars : Fields Tree, (Placeholder.redirect f (Fields.keys sub.vars) vars
      (Placeholder.Segment.split sub.template)).asked = sub.references := by
    intro vars
    rw [Placeholder.redirect_asked, Substitution.references, Placeholder.references_eq]
  simp only [Placeholder.redirectArgument, Redirected.pair, keys_redirectFields]
  split <;> simp only [hbody]

/-- Each reference is asked about once, in whatever role the tree stands. -/
theorem asked_redirectAs (tree : Tree) : (redirectAs f role tree).asked.Perm (scanAs role tree) := by
  induction tree using shapes generalizing role with
  | scalar tree hs =>
    rw [redirectAs_scalar f hs, scanAs_scalar hs]
    exact List.Perm.nil
  | text s =>
    rw [redirectAs_text, scanAs_text]
    split
    · exact List.Perm.of_eq (asked_redirectArgument ⟨s, []⟩ (.text s))
    · exact List.Perm.nil
  | call key arg ih =>
    rcases hc : Reference.ofCall? key arg with _ | r
    · rw [redirectAs_call f hc, scanAs_call hc]
      exact ih
    · rw [redirectAs_construct f hc, scanAs_construct hc]
      rcases r.change? f with _ | r' <;> exact List.Perm.refl [r]
  | record fields hlen ih =>
    rw [redirectAs_record f hlen, scanAs_record hlen, Redirected.map, redirectFields_asked]
    exact List.Perm.flatMap_left _ fun field hf => ih field hf
  | pair template vars ih ihrecord =>
    rw [redirectAs_pair, scanAs_pair]
    split
    · have hvars : (redirectFields f vars).asked.Perm (vars.flatMap (·.2.scan)) := by
        rw [redirectFields_asked]
        exact List.Perm.flatMap_left _ fun var hv => ih var hv
      rw [asked_redirectArgument ⟨template, vars⟩]
      exact List.perm_append_comm.trans (hvars.append_left _)
    · exact ihrecord
  | list items hp ih =>
    rw [redirectAs_list f hp, scanAs_list hp, Redirected.map, redirectItems_asked]
    exact List.Perm.flatMap_left _ fun item hi => ih item hi

/-- Whatever the answers, exactly the references of the tree are asked about, as often as they are
    read; the changes are those that are answered with another reference, and without one the tree
    stays. -/
theorem asked_redirect (f : Reference → Option Reference) (tree : Tree) :
    (tree.redirect f).asked.Perm tree.scan ∧
      (tree.redirect f).changed = (tree.redirect f).asked.countP (fun r => decide (∃ r' ∈ f r, r' ≠ r)) ∧
      ((tree.redirect f).changed = 0 → (tree.redirect f).result = tree) := by
  have hasked : (tree.redirect f).asked.Perm tree.scan := asked_redirectAs tree
  refine ⟨hasked, ?_, redirectAs_unchanged⟩
  have hchange : ∀ r : Reference, r.answer f ≠ r ↔ ∃ r' ∈ f r, r' ≠ r := by
    intro r
    rw [Reference.answer_eq]
    cases f r <;> simp
  rw [redirect, changed_redirectAs, ← redirect, ← scan, ← hasked.countP_eq]
  exact List.countP_congr fun r _ => by simp only [decide_eq_true_eq, hchange]

end Regroup.Tree
