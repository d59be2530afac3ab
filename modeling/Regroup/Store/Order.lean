/-
  Regroup.Store.Order — the nodes, each after everything it depends on.

  A depth-first search from every node in store order, along out-edges in store order, with
  its own stack. A frame holds a node being visited and the targets it has still to look at.
  A target that is finished is passed over, one on the stack closes a cycle, any other is
  entered; a frame with no target left is finished.
-/

import Regroup.Store

namespace Regroup.Store

namespace Order

structure Frame where
  id : Address
  pending : List Address

structure State where
  roots : List Address
  stack : List Frame
  /-- The finished nodes, the last one first. -/
  finished : List Address

def successors (s : Store) (id : Address) : List Address := (s.dependencies id).map (·.target)

def enter (s : Store) (id : Address) (st : State) : State :=
  { st with stack := ⟨id, successors s id⟩ :: st.stack }

/-- One step of the search; the finished nodes when nothing is left to do. -/
def step (s : Store) (st : State) : Except StoreError (State ⊕ List Address) :=
  match st.stack with
  | [] =>
    match st.roots with
    | [] => .ok (.inr st.finished)
    | root :: roots =>
      let st := { st with roots }
      .ok (.inl (if st.finished.contains root then st else enter s root st))
  | ⟨id, []⟩ :: below => .ok (.inl { st with stack := below, finished := id :: st.finished })
  | ⟨id, target :: pending⟩ :: below =>
    let st := { st with stack := ⟨id, pending⟩ :: below }
    if st.finished.contains target then .ok (.inl st)
    else if st.stack.any (·.id == target) then .error (.cycleDetected target)
    else .ok (.inl (enter s target st))

def run (s : Store) : Nat → State → Except StoreError (List Address)
  | 0, st => .ok st.finished
  | fuel + 1, st =>
    match step s st with
    | .error e => .error e
    | .ok (.inr finished) => .ok finished
    | .ok (.inl st) => run s fuel st

/-- A root is taken once, a node entered and finished once, an edge looked at once. -/
def fuel (s : Store) : Nat := 2 * (s.nodes.length + s.edges.length) + 1

end Order

/-- Every node after all that it depends on, nodes that nothing orders as they came. -/
def sorted (s : Store) : Except StoreError (List Node) :=
  (Order.run s (Order.fuel s) ⟨s.ids, [], []⟩).map fun finished => finished.reverse.filterMap s.node?

end Regroup.Store
