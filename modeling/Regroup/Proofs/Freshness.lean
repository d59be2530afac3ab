/-
  Regroup.Proofs.Freshness — the numbered name that is found is not taken.

  The candidates are pairwise different, so no more of them are taken than there are taken names
  (`le_card_of_taken`). One more of them holds a free one, and the search answers the first that
  is (`name_spec`).
-/

import Mathlib.Data.Finset.Card
import Regroup.Fields
import Regroup.Fresh
import Std.Data.String.ToNat

namespace Regroup

namespace Fresh

theorem candidate_succ_ne (base sep : String) (n : Nat) : candidate base sep (n + 1) ≠ base := by
  intro h
  have hlen := congrArg (fun s : String => s.toList.length) h
  have hdigits : 0 < (Nat.repr (n + 2)).toList.length := by
    rw [Nat.toList_repr]
    exact Nat.length_toDigits_pos
  simp only [candidate, String.toList_append, List.length_append] at hlen
  change _ + (Nat.repr (n + 2)).toList.length = _ at hlen
  omega

theorem candidate_injective (base sep : String) : Function.Injective (candidate base sep) := by
  intro m n h
  cases m with
  | zero =>
    cases n with
    | zero => rfl
    | succ n => exact absurd h.symm (candidate_succ_ne base sep n)
  | succ m =>
    cases n with
    | zero => exact absurd h (candidate_succ_ne base sep m)
    | succ n =>
      have hchars := congrArg String.toList h
      simp only [candidate, String.toList_append] at hchars
      have hrepr : Nat.repr (m + 2) = Nat.repr (n + 2) := String.toList_injective (List.append_cancel_left hchars)
      have := Nat.repr_injective hrepr
      omega

/-- So many candidates that are taken are so many taken names. -/
theorem le_card_of_taken {base sep : String} {taken : List String} {n : Nat}
    (h : ∀ m < n, candidate base sep m ∈ taken) : n ≤ taken.toFinset.card := by
  have hsub : (Finset.range n).image (candidate base sep) ⊆ taken.toFinset := by
    intro name hname
    obtain ⟨m, hm, rfl⟩ := Finset.mem_image.mp hname
    exact List.mem_toFinset.mpr (h m (Finset.mem_range.mp hm))
  have hcard := Finset.card_le_card hsub
  rwa [Finset.card_image_of_injective _ (candidate_injective base sep), Finset.card_range] at hcard

/-- The candidates that the search tries are not all taken. -/
theorem exists_free (base sep : String) (taken : List String) :
    ∃ n < taken.length + 1, candidate base sep n ∉ taken := by
  apply Classical.byContradiction
  intro hall
  have htaken : ∀ m < taken.length + 1, candidate base sep m ∈ taken := fun m hm =>
    Classical.byContradiction fun hfree => hall ⟨m, hm, hfree⟩
  have hmany := le_card_of_taken htaken
  have hfew := taken.toFinset_card_le
  omega

theorem name_spec (base sep : String) (taken : List String) :
    ∃ n, name base sep taken = candidate base sep n ∧ candidate base sep n ∉ taken ∧ ∀ m < n, candidate base sep m ∈ taken := by
  obtain ⟨n, hn, hfree⟩ := exists_free base sep taken
  rcases hfind : (List.range (taken.length + 1)).find? ((!taken.contains ·) ∘ candidate base sep) with _ | first
  · have := List.find?_eq_none.mp hfind n (List.mem_range.mpr hn)
    exact absurd hfree (by simpa using this)
  · obtain ⟨hfirst, _, hbefore⟩ := List.find?_range_eq_some.mp hfind
    refine ⟨first, ?_, by simpa using hfirst, fun m hm => by simpa using hbefore m hm⟩
    rw [name, List.find?_map, hfind, Option.map_some, Option.getD_some]

theorem name_not_mem (base sep : String) (taken : List String) : name base sep taken ∉ taken := by
  obtain ⟨n, hn, hfree, _⟩ := name_spec base sep taken
  rwa [hn]

/-- Numbering adds digits only. -/
theorem mem_candidate {base : String} {n : Nat} {c : Char} (h : c ∈ (candidate base "" n).toList) :
    c ∈ base.toList ∨ c.isDigit = true := by
  cases n with
  | zero => exact Or.inl h
  | succ n =>
    simp only [candidate, String.toList_append, List.mem_append, String.toList_empty, List.not_mem_nil, or_false] at h
    rcases h with h | h
    · exact Or.inl h
    · change c ∈ (Nat.repr (n + 2)).toList at h
      rw [Nat.toList_repr] at h
      exact Or.inr (Nat.isDigit_of_mem_toDigits (by decide) (by decide) h)

end Fresh

namespace Fields

variable {α : Type}

theorem put_of_not_mem {key : String} {value : α} {fs : Fields α} (h : key ∉ keys fs) :
    put key value fs = fs ++ [(key, value)] := by
  induction fs with
  | nil => rfl
  | cons field rest ih =>
    simp only [keys, List.map_cons, List.mem_cons, not_or] at h
    rw [put, if_neg (Ne.symm h.1), ih h.2, List.cons_append]

end Fields

end Regroup
