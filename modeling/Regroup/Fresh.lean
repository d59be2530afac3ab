/-
  Regroup.Fresh — the first name of a numbered sequence that is not taken.

  The sequence is `base`, then `base`, `sep` and 2, 3, … . Among one more candidate than there
  are taken names one is free, so no further ones are tried.

  The numbers are natural ones, without a bound. A program that counts in signed words of 32
  bits (for the names of exports, of outputs and of variables alike) comes to the same names as
  long as fewer than `2 ^ 31 - 1` are taken, since the number that is found is less than
  `2 ^ 31` until then.
-/

namespace Regroup.Fresh

def candidate (base sep : String) : Nat → String
  | 0 => base
  | n + 1 => base ++ sep ++ toString (n + 2)

def name (base sep : String) (taken : List String) : String :=
  (((List.range (taken.length + 1)).map (candidate base sep)).find? (!taken.contains ·)).getD base

theorem name_eq_base {base sep : String} {taken : List String} (h : base ∉ taken) :
    name base sep taken = base := by
  simp [name, List.range_succ_eq_map, candidate, h]

end Regroup.Fresh
