/-
  Regroup.Text — cutting a text in two at a character.

  Addresses, attribute paths and command line inputs are all read by the first occurrence of
  a separator: everything before it, everything after it (`cut_eq_some_iff`).
-/

namespace Regroup.Text

/-- What stands before and after the first `sep`. -/
def cutList (sep : Char) : List Char → Option (List Char × List Char)
  | [] => none
  | c :: rest => if c = sep then some ([], rest) else (cutList sep rest).map fun (a, b) => (c :: a, b)

def cut (sep : Char) (s : String) : Option (String × String) :=
  (cutList sep s.toList).map fun (a, b) => (String.ofList a, String.ofList b)

theorem cutList_eq_some_iff {sep : Char} {s a b : List Char} :
    cutList sep s = some (a, b) ↔ s = a ++ sep :: b ∧ sep ∉ a := by
  induction s generalizing a b with
  | nil => simp [cutList]
  | cons c rest ih =>
    by_cases h : c = sep
    · subst h
      cases a with
      | nil => simp [cutList]
      | cons d a => simp only [cutList, if_true]; constructor <;> simp_all
    · cases a with
      | nil => simp [cutList, h]
      | cons d a =>
        simp only [cutList, h, if_false, Option.map_eq_some_iff, Prod.exists, Prod.mk.injEq, List.cons.injEq,
          List.cons_append, List.mem_cons, not_or]
        constructor
        · rintro ⟨a', b', h', ⟨rfl, rfl⟩, rfl⟩
          obtain ⟨rfl, hn⟩ := ih.1 h'
          exact ⟨⟨rfl, rfl⟩, fun e => h e.symm, hn⟩
        · rintro ⟨⟨rfl, rfl⟩, _, hn⟩
          exact ⟨a, b, ih.2 ⟨rfl, hn⟩, ⟨rfl, rfl⟩, rfl⟩

theorem cutList_eq_none_iff {sep : Char} {s : List Char} : cutList sep s = none ↔ sep ∉ s := by
  induction s with
  | nil => simp [cutList]
  | cons c rest ih =>
    by_cases h : c = sep
    · simp [cutList, h]
    · simp [cutList, h, ih, Ne.symm h]

theorem cut_eq_some_iff {sep : Char} {s a b : String} :
    cut sep s = some (a, b) ↔ s.toList = a.toList ++ sep :: b.toList ∧ sep ∉ a.toList := by
  simp only [cut, Option.map_eq_some_iff, Prod.exists, Prod.mk.injEq]
  constructor
  · rintro ⟨a', b', h, rfl, rfl⟩
    simpa using cutList_eq_some_iff.1 h
  · exact fun h => ⟨_, _, cutList_eq_some_iff.2 h, by simp, by simp⟩

/-- Letters and digits of the basic alphabet only. -/
def alphanumeric (s : String) : String := String.ofList (s.toList.filter Char.isAlphanum)

end Regroup.Text
