/-
  Regroup.Fields — named values in the order they were first set.

  Setting a name that is present changes its value and keeps its place (`keys_put`), so a list
  built by `put` alone holds every name once (`nodup_put`).
-/

namespace Regroup

abbrev Fields (α : Type) := List (String × α)

namespace Fields

variable {α : Type}

def keys (fs : Fields α) : List String := fs.map Prod.fst

def find? (fs : Fields α) (key : String) : Option α := List.lookup key fs

def has (fs : Fields α) (key : String) : Bool := fs.any (·.1 == key)

def put (key : String) (value : α) : Fields α → Fields α
  | [] => [(key, value)]
  | (k, v) :: rest => if k = key then (k, value) :: rest else (k, v) :: put key value rest

/-- A name that comes again overrides the value and keeps the place. -/
def ofPairs (pairs : List (String × α)) : Fields α := pairs.foldl (fun fs (k, v) => put k v fs) []

theorem keys_map {β : Type} (g : α → β) (fs : Fields α) : keys (fs.map fun f => (f.1, g f.2)) = keys fs := by
  rw [keys, keys, List.map_map]
  rfl

theorem keys_put (key : String) (value : α) (fs : Fields α) :
    keys (put key value fs) = if key ∈ keys fs then keys fs else keys fs ++ [key] := by
  induction fs with
  | nil => simp [put, keys]
  | cons f fs ih =>
    obtain ⟨k, v⟩ := f
    by_cases h : k = key
    · simp [put, keys, h]
    · have h' : ¬key = k := fun e => h e.symm
      simp only [keys] at ih
      simp only [put, h, if_false, keys, List.map_cons, ih, List.mem_cons, h', false_or]
      split <;> simp_all

theorem nodup_put {key : String} {value : α} {fs : Fields α} (h : (keys fs).Nodup) :
    (keys (put key value fs)).Nodup := by
  rw [keys_put]
  split
  · exact h
  · rename_i hk
    exact List.nodup_append.2 ⟨h, by simp, fun a ha b hb e => hk (by simp_all)⟩

end Fields

end Regroup
