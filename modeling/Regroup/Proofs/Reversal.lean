/-
  Regroup.Proofs.Reversal — a store and its opposite.

  Turning every edge round swaps what a node needs with what needs it, edge by edge and in the
  order of the store, and doing so twice gives the store back. A way along the edges is a way
  back in the opposite, so the cycles are the same ones turned round, and there is an order in
  both or in neither (`opposite_dual`). The orders themselves, and the nodes that are named where
  there is none, may well differ.
-/

import Regroup.Proofs.Ordering

namespace Regroup.Store

open Relation (TransGen)

variable {s : Store} {x y : Address}

theorem opposite_opposite (s : Store) : s.opposite.opposite = s := by
  have hedges : s.opposite.opposite.edges = s.edges := by
    simp only [opposite, List.map_map]
    exact List.map_id'' Edge.reversed_reversed s.edges
  exact congrArg (fun edges => { s with edges }) hedges

theorem dependencies_opposite (s : Store) (id : Address) :
    s.opposite.dependencies id = (s.dependents id).map Edge.reversed := by
  rw [dependencies, opposite, List.filter_map]
  rfl

theorem dependents_opposite (s : Store) (id : Address) :
    s.opposite.dependents id = (s.dependencies id).map Edge.reversed := by
  rw [dependents, opposite, List.filter_map]
  rfl

theorem needs_opposite : s.opposite.Needs x y ↔ s.Needs y x := by
  constructor
  · rintro ⟨e', he', rfl, rfl⟩
    obtain ⟨e, he, rfl⟩ := List.mem_map.mp he'
    exact ⟨e, he, rfl, rfl⟩
  · rintro ⟨e, he, rfl, rfl⟩
    exact ⟨e.reversed, List.mem_map_of_mem he, rfl, rfl⟩

/-- A cycle is one in both directions. -/
theorem acyclic_opposite : s.opposite.Acyclic ↔ s.Acyclic := by
  have hswap : s.opposite.Needs = Function.swap s.Needs := by
    funext x y
    exact propext needs_opposite
  simp only [Acyclic, hswap, Relation.transGen_swap]

/-- Twice the opposite is the store. What a node needs in the one is what needs it in the other, and
    nodes can be ordered in both or in neither. -/
theorem opposite_dual (hs : s.Consistent) : s.opposite.opposite = s ∧
    (∀ id, s.opposite.dependencies id = (s.dependents id).map Edge.reversed ∧
      s.opposite.dependents id = (s.dependencies id).map Edge.reversed) ∧
    ((∃ nodes, s.opposite.sorted = .ok nodes) ↔ ∃ nodes, s.sorted = .ok nodes) := by
  refine ⟨s.opposite_opposite, fun id => ⟨s.dependencies_opposite id, s.dependents_opposite id⟩, ?_⟩
  have hopposite := hs.opposite
  rw [exists_sorted_iff hs.ids hs.ends, exists_sorted_iff hopposite.ids hopposite.ends, acyclic_opposite]

/-- The disk needs two nodes in the opposite of a page, which has an order of its own. An edge from the disk to
    the cache closes a cycle in both. -/
theorem opposite_dual_page :
    (((pageStore []).opposite.dependencies ⟨"base", "Disk"⟩).map (·.target.name) = ["Cache", "Log"] ∧
      ∃ nodes, (pageStore []).opposite.sorted = .ok nodes) ∧
    ¬∃ nodes, (pageStore [.between ⟨"base", "Disk"⟩ ⟨"web", "Cache"⟩ .imported none]).opposite.sorted = .ok nodes := by
  have hpage : (pageStore []).Consistent := by decide
  have hring : (pageStore [.between ⟨"base", "Disk"⟩ ⟨"web", "Cache"⟩ .imported none]).Consistent := by decide
  obtain ⟨_, hnext, hsorted⟩ := opposite_dual hpage
  refine ⟨⟨?_, hsorted.mpr ⟨_, rfl⟩⟩, fun hopposite => ?_⟩
  · rw [(hnext _).1]
    rfl
  · obtain ⟨nodes, hnodes⟩ := (opposite_dual hring).2.2.mp hopposite
    cases hnodes

end Regroup.Store
