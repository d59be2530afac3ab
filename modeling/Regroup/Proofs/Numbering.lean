/-
  Regroup.Proofs.Numbering — a name that is taken gets the least number that makes it free.

  The search tries the name itself, and then the name with 2, 3 and so on behind it (`Search.next`).
  Nothing in it says how often it may try, but the names that it finds taken are all different, so it
  comes to an end with at most one try more than there are taken names (`FirstFree`).
  - `firstFree_name`: `Fresh.name` is the name that the search comes to.
  - `numbered_outputsFrom`: the outputs of a template are numbered one after the other, each against
    those before it.
  - `names_firstFree`: all searches, that of a variable for an import and of an output's id among them.
-/

import Mathlib.Logic.Function.Iterate
import Regroup.Proofs.Freshness
import Regroup.Reference.Redirect
import Regroup.Template.Generation

namespace Regroup

namespace Fresh

/-! ## The search -/

/-- What is tried next, or the free name. -/
inductive Search where
  | start
  | number (n : Nat)
  | found (name : String)

/-- One try. -/
def Search.next (base sep : String) (taken : List String) : Search → Search
  | .start => if base ∈ taken then .number 2 else .found base
  | .number n => if base ++ sep ++ toString n ∈ taken then .number (n + 1) else .found (base ++ sep ++ toString n)
  | .found name => .found name

/-- `name` is the base if that is free, else the base with the least number from 2 on that makes it
    free, and the search comes to it. Neither the number nor the tries are more than the taken names
    and one. -/
structure FirstFree (base sep : String) (taken : List String) (name : String) : Prop where
  free : base ∉ taken → name = base
  numbered : base ∈ taken → ∃ n, 2 ≤ n ∧ n ≤ taken.toFinset.card + 1 ∧ name = base ++ sep ++ toString n ∧ name ∉ taken ∧
    ∀ m, 2 ≤ m → m < n → base ++ sep ++ toString m ∈ taken
  tries : ∃ tries ≤ taken.toFinset.card + 1, (Search.next base sep taken)^[tries] .start = .found name

variable {base sep : String} {taken : List String}

/-- A taken candidate costs a try. -/
theorem iterate_next_of_taken {n : Nat} (h : ∀ m < n + 1, candidate base sep m ∈ taken) :
    (Search.next base sep taken)^[n + 1] .start = .number (n + 2) := by
  induction n with
  | zero => exact if_pos (h 0 (by omega))
  | succ n ih =>
    rw [Function.iterate_succ_apply', ih fun m hm => h m (by omega)]
    exact if_pos (h (n + 1) (by omega))

theorem iterate_next_of_free {n : Nat} (hfree : candidate base sep n ∉ taken) (h : ∀ m < n, candidate base sep m ∈ taken) :
    (Search.next base sep taken)^[n + 1] .start = .found (candidate base sep n) := by
  rw [Function.iterate_succ_apply']
  cases n with
  | zero => exact if_neg hfree
  | succ n =>
    rw [iterate_next_of_taken h]
    exact if_neg hfree

theorem firstFree_candidate {n : Nat} (hfree : candidate base sep n ∉ taken) (h : ∀ m < n, candidate base sep m ∈ taken) :
    FirstFree base sep taken (candidate base sep n) where
  free hbase := by
    cases n with
    | zero => rfl
    | succ n => exact absurd (h 0 (by omega)) hbase
  numbered hbase := by
    cases n with
    | zero => exact absurd hbase hfree
    | succ n =>
      have hle := le_card_of_taken h
      refine ⟨n + 2, by omega, by omega, rfl, hfree, fun m hm hlt => ?_⟩
      obtain ⟨k, rfl⟩ : ∃ k, m = k + 2 := ⟨m - 2, by omega⟩
      exact h (k + 1) (by omega)
  tries := by
    have hle := le_card_of_taken h
    exact ⟨n + 1, by omega, iterate_next_of_free hfree h⟩

theorem firstFree_name (base sep : String) (taken : List String) : FirstFree base sep taken (name base sep taken) := by
  obtain ⟨n, hn, hfree, hbefore⟩ := name_spec base sep taken
  rw [hn]
  exact firstFree_candidate hfree hbefore

end Fresh

/-! ## The outputs of a template -/

namespace Store

open Fresh

/-- The id that an export's output has when no output before it does. -/
def outputBase (s : Store) (e : Export) : String := e.outputId.getD (s.naming.outputId e.name none)

/-- Each output that is added takes the first free number of its id. -/
theorem numbered_outputsFrom (s : Store) (done : Fields Output) (es : List Export) :
    ∃ outputs, s.outputsFrom done es = done ++ outputs ∧ outputs.length = es.length ∧
      ∀ i e output, es[i]? = some e → outputs[i]? = some output →
        output.2 = { value := e.expression, exportName := some (.text e.name) } ∧
        FirstFree (s.outputBase e) "" (Fields.keys (done ++ outputs.take i)) output.1 := by
  induction es generalizing done with
  | nil => exact ⟨[], (List.append_nil _).symm, rfl, by simp⟩
  | cons e es ih =>
    let id := name (s.outputBase e) "" (Fields.keys done)
    let added : String × Output := (id, { value := e.expression, exportName := some (.text e.name) })
    obtain ⟨outputs, heq, hlength, hnumbered⟩ := ih (done ++ [added])
    refine ⟨added :: outputs, ?_, ?_, ?_⟩
    · rw [outputsFrom]
      exact heq.trans (List.append_assoc ..)
    · rw [List.length_cons, List.length_cons, hlength]
    · intro i e' output he houtput
      cases i with
      | zero =>
        obtain rfl : e = e' := by simpa using he
        obtain rfl : added = output := by simpa using houtput
        rw [List.take_zero, List.append_nil]
        exact ⟨rfl, firstFree_name ..⟩
      | succ i =>
        have := hnumbered i e' output (by simpa using he) (by simpa using houtput)
        rwa [List.append_assoc] at this

end Store

/-! ## Every search -/

/-- Each of the searches, for any taken names: of a name, of the variable for an import, and of the id of
    an output, which is searched for among the outputs before it. -/
theorem names_firstFree :
    (∀ base sep taken, Fresh.FirstFree base sep taken (Fresh.name base sep taken)) ∧
    (∀ content vars,
      Fresh.FirstFree (if (Text.alphanumeric content).isEmpty then "Import" else Text.alphanumeric content) "" (Fields.keys vars)
        (Reference.variableName content vars)) ∧
    ∀ (s : Store) (group : String), (s.generate group).outputs.length = (s.exportsIn group).length ∧
      ∀ i e output, (s.exportsIn group)[i]? = some e → (s.generate group).outputs[i]? = some output →
        output.2 = { value := e.expression, exportName := some (.text e.name) } ∧
        Fresh.FirstFree (s.outputBase e) "" (Fields.keys ((s.generate group).outputs.take i)) output.1 := by
  refine ⟨Fresh.firstFree_name, fun content vars => Fresh.firstFree_name .., fun s group => ?_⟩
  obtain ⟨outputs, heq, hlength, hnumbered⟩ := s.numbered_outputsFrom [] (s.exportsIn group)
  have hgenerate : (s.generate group).outputs = outputs := heq
  rw [hgenerate]
  exact ⟨hlength, hnumbered⟩

/-- A topic with four exports. Three of them would be outputs by one id, and the other by the id that
    the second of these is given. -/
def numberedStore : Store where
  nodes := [.new ⟨"a", "Topic"⟩ "topic"]
  exports := [⟨"first", ⟨"a", "Topic"⟩, some "Out", none⟩, ⟨"second", ⟨"a", "Topic"⟩, some "Out", none⟩,
    ⟨"third", ⟨"a", "Topic"⟩, some "Out2", none⟩, ⟨"fourth", ⟨"a", "Topic"⟩, some "Out", none⟩]

theorem names_firstFree_numbered :
    Fresh.FirstFree "a-Topic" "-" ["a-Topic-2", "a-Topic"] "a-Topic-3" ∧
    Fresh.FirstFree "Import" "" ["Import"] "Import2" ∧
    Fields.keys (numberedStore.generate "a").outputs = ["Out", "Out2", "Out22", "Out3"] ∧
    Fresh.FirstFree "Out" "" ["Out", "Out2", "Out22"] "Out3" := by
  obtain ⟨hname, hvariable, houtputs⟩ := names_firstFree
  have hkeys : Fields.keys (numberedStore.generate "a").outputs = ["Out", "Out2", "Out22", "Out3"] := by decide +kernel
  have htopic : Fresh.name "a-Topic" "-" ["a-Topic-2", "a-Topic"] = "a-Topic-3" := by decide +kernel
  have himport : Reference.variableName "::" [("Import", .null)] = "Import2" := by decide +kernel
  refine ⟨htopic ▸ hname _ _ _, ?_, hkeys, ?_⟩
  · exact himport ▸ hvariable "::" [("Import", .null)]
  · exact ((houtputs numberedStore "a").2 3 _ _ rfl rfl).2

end Regroup
