/-
  Regroup.Proofs.DepthFirst — the search with a stack is the search by recursion.

  By recursion a node is visited along a path of nodes that are being visited. It is passed over
  when it is finished, it closes a cycle when it is on the path, and otherwise all that it needs is
  visited before it is finished itself (`visit`, `visitAll`). The frames of a stack are the visits
  that have begun: `resume` finishes them from the top and takes the roots that are left. A step
  of the search does not change what `resume` comes to (`Searching.outcome_step`), so the search
  comes to what it comes to at the start (`Searching.run_eq_resume`):
  - `sorted_eq_postOrder`: the same order, or the same node on a cycle.
  - `visitAll_laid`: nodes that each come after all that they need are finished as they come.
-/

import Regroup.Proofs.Ordering

namespace Regroup.Store

namespace Order

/-- The nodes that are not on the path. -/
def offPath (s : Store) (path : List Address) : List Address := s.ids.filter (!path.contains ·)

variable {s : Store} {path finished rest : List Address} {x : Address}

theorem length_offPath_cons (hx : x ∉ path) (hid : x ∈ s.ids) : (offPath s (x :: path)).length < (offPath s path).length := by
  have hin : x ∈ offPath s path := List.mem_filter.mpr ⟨hid, by simpa using hx⟩
  have hout : offPath s (x :: path) = (offPath s path).filter (· != x) := by
    rw [offPath, offPath, List.filter_filter]
    refine List.filter_congr fun y _ => ?_
    simp [bne, beq_eq_decide]
  rw [hout]
  exact List.length_filter_lt_length_iff_exists.mpr ⟨x, hin, by simp⟩

mutual

/-- Visits `x` below the nodes of `path`, and answers the finished nodes, the last one first. A node
    is finished, on the path or neither. -/
def visit (s : Store) (path finished : List Address) (x : Address) : Except StoreError (List Address) :=
  if x ∈ finished then .ok finished
  else if x ∈ path then .error (.cycleDetected x)
  else if x ∈ s.ids then do
    let finished ← visitAll s (x :: path) finished (successors s x)
    return x :: finished
  else .ok finished
termination_by ((offPath s path).length, 0)
decreasing_by exact Prod.Lex.left _ _ (length_offPath_cons ‹_› ‹_›)

/-- Visits one after the other. -/
def visitAll (s : Store) (path finished : List Address) : List Address → Except StoreError (List Address)
  | [] => .ok finished
  | x :: rest => do
    let finished ← visit s path finished x
    visitAll s path finished rest
termination_by rest => ((offPath s path).length, rest.length + 1)
decreasing_by all_goals exact Prod.Lex.right _ (by simp)

end

theorem visit_finished (h : x ∈ finished) : visit s path finished x = .ok finished := by
  rw [visit, if_pos h]

theorem visit_entered (h : x ∉ finished) (hx : x ∈ path) : visit s path finished x = .error (.cycleDetected x) := by
  rw [visit, if_neg h, if_pos hx]

theorem visit_fresh (h : x ∉ finished) (hx : x ∉ path) (hid : x ∈ s.ids) :
    visit s path finished x = (visitAll s (x :: path) finished (successors s x)).map (x :: ·) := by
  rw [visit, if_neg h, if_neg hx, if_pos hid]
  rfl

theorem visitAll_nil : visitAll s path finished [] = .ok finished := by
  rw [visitAll]

theorem visitAll_cons : visitAll s path finished (x :: rest) = (visit s path finished x).bind (visitAll s path · rest) := by
  rw [visitAll]
  rfl

/-! ## The frames of a stack -/

/-- Finishes the visits that the frames have begun, from the top of the stack, and then visits the roots. -/
def resume (s : Store) (roots : List Address) : List Frame → List Address → Except StoreError (List Address)
  | [], finished => visitAll s [] finished roots
  | f :: below, finished =>
    (visitAll s (f.id :: below.map (·.id)) finished f.pending).bind fun finished => resume s roots below (f.id :: finished)

variable {roots pending : List Address} {below : List Frame} {y : Address}

/-- A frame goes on as the visit of its next target, and then of the others. -/
theorem resume_target : resume s roots (⟨x, y :: pending⟩ :: below) finished =
    (visit s (x :: below.map (·.id)) finished y).bind fun finished => resume s roots (⟨x, pending⟩ :: below) finished := by
  rw [resume, visitAll_cons]
  cases visit s (x :: below.map (·.id)) finished y <;> rfl

/-- What an entered node comes to is its visit, and then what the stack below it comes to. -/
theorem resume_enter {stack : List Frame} (h : x ∉ finished) (hx : x ∉ stack.map (·.id)) (hid : x ∈ s.ids) :
    resume s roots (⟨x, successors s x⟩ :: stack) finished =
      (visit s (stack.map (·.id)) finished x).bind (resume s roots stack ·) := by
  rw [visit_fresh h hx hid, resume]
  cases visitAll s (x :: stack.map (·.id)) finished (successors s x) <;> rfl

/-- What the search comes to after a step. -/
def outcome (s : Store) : Except StoreError (State ⊕ List Address) → Except StoreError (List Address)
  | .error e => .error e
  | .ok (.inl st) => resume s st.roots st.stack st.finished
  | .ok (.inr finished) => .ok finished

/-! ## The search -/

namespace Searching

variable {st : State}

theorem outcome_root (h : Searching s ⟨x :: roots, [], finished⟩) :
    outcome s (step s ⟨x :: roots, [], finished⟩) = resume s (x :: roots) [] finished := by
  have hid : x ∈ s.ids := (h.nodes x).mpr (Or.inl (List.mem_cons_self ..))
  have hroot : resume s (x :: roots) [] finished = (visit s [] finished x).bind (resume s roots [] ·) := visitAll_cons
  rw [hroot]
  by_cases hx : x ∈ finished
  · have hstep : step s ⟨x :: roots, [], finished⟩ = .ok (.inl ⟨roots, [], finished⟩) := by simp [step, hx]
    rw [hstep, visit_finished hx]
    rfl
  · have hstep : step s ⟨x :: roots, [], finished⟩ = .ok (.inl (enter s x ⟨roots, [], finished⟩)) := by simp [step, hx]
    rw [hstep]
    exact resume_enter hx List.not_mem_nil hid

theorem outcome_target (hends : ∀ e ∈ s.edges, e.source ∈ s.ids ∧ e.target ∈ s.ids)
    (h : Searching s ⟨roots, ⟨x, y :: pending⟩ :: below, finished⟩) :
    outcome s (step s ⟨roots, ⟨x, y :: pending⟩ :: below, finished⟩) = resume s roots (⟨x, y :: pending⟩ :: below) finished := by
  have hneed : s.Needs x y := h.pursued.2.2.1 y (List.mem_cons_self ..)
  rw [resume_target]
  by_cases hfinished : y ∈ finished
  · rw [visit_finished hfinished]
    simp only [step, List.contains_eq_mem, hfinished, decide_true, if_true]
    rfl
  · by_cases hentered : y ∈ (⟨roots, ⟨x, pending⟩ :: below, finished⟩ : State).entered
    · have hany : (⟨x, pending⟩ :: below).any (·.id == y) = true := State.mem_entered_iff.mp hentered
      have hvisit : visit s (x :: below.map (·.id)) finished y = .error (.cycleDetected y) := visit_entered hfinished hentered
      rw [hvisit]
      simp only [step, List.contains_eq_mem, hfinished, decide_false, Bool.false_eq_true, if_false, hany, if_true]
      rfl
    · have hany : ¬(⟨x, pending⟩ :: below).any (·.id == y) = true := fun h => hentered (State.mem_entered_iff.mpr h)
      simp only [step, List.contains_eq_mem, hfinished, decide_false, Bool.false_eq_true, if_false, hany]
      exact resume_enter hfinished hentered (mem_ids_of_needs hends hneed).2

/-- A step leaves what the search comes to. -/
theorem outcome_step (hends : ∀ e ∈ s.edges, e.source ∈ s.ids ∧ e.target ∈ s.ids) (h : Searching s st) :
    outcome s (step s st) = resume s st.roots st.stack st.finished := by
  obtain ⟨roots, stack, finished⟩ := st
  match stack, roots with
  | [], [] => exact visitAll_nil.symm
  | [], _ :: _ => exact h.outcome_root
  | ⟨_, []⟩ :: _, _ =>
    rw [resume, visitAll_nil]
    rfl
  | ⟨_, _ :: _⟩ :: _, _ => exact h.outcome_target hends

theorem run_eq_resume (hends : ∀ e ∈ s.edges, e.source ∈ s.ids ∧ e.target ∈ s.ids) (h : Searching s st) {fuel : Nat}
    (hfuel : st.remaining s < fuel) : Order.run s fuel st = resume s st.roots st.stack st.finished := by
  induction fuel generalizing st with
  | zero => cases hfuel
  | succ fuel ih =>
    rw [← h.outcome_step hends]
    unfold Order.run
    rcases h.proceeds hends with ⟨hstep, _⟩ | ⟨st', hstep, h', hless⟩ | ⟨x, hstep, _⟩ <;> rw [hstep]
    · rfl
    · exact ih h' (by omega)
    · rfl

end Searching

/-! ## Nodes that are in order -/

theorem visitAll_finished (h : ∀ y ∈ rest, y ∈ finished) : visitAll s path finished rest = .ok finished := by
  induction rest with
  | nil => exact visitAll_nil
  | cons y rest ih =>
    obtain ⟨hy, hrest⟩ := List.forall_mem_cons.mp h
    rw [visitAll_cons, visit_finished hy]
    exact ih hrest

theorem mem_of_pair_sublist {before after : List Address} (hx : x ∉ after) (h : [y, x].Sublist (before ++ x :: after)) :
    y ∈ before := by
  obtain ⟨front, back, hsplit, hfront, hback⟩ := List.sublist_append_iff.mp h
  cases front with
  | nil =>
    rw [List.nil_append] at hsplit
    exact absurd (List.singleton_sublist.mp (hsplit ▸ hback).tail) hx
  | cons z front =>
    rw [List.cons_append, List.cons.injEq] at hsplit
    rw [hsplit.1]
    exact hfront.subset (List.mem_cons_self ..)

/-- Nodes that each come after all that they need are finished as they come. -/
theorem visitAll_laid (hids : s.ids.Nodup) (hlaid : ∀ e ∈ s.edges, [e.target, e.source].Sublist s.ids)
    (h : s.ids = finished.reverse ++ rest) : visitAll s [] finished rest = .ok s.ids.reverse := by
  induction rest generalizing finished with
  | nil =>
    rw [visitAll_nil, h, List.append_nil, List.reverse_reverse]
  | cons x rest ih =>
    have hx : x ∉ finished.reverse ∧ x ∉ rest := by
      have hnodup := h ▸ hids
      rw [List.nodup_middle, List.nodup_cons, List.mem_append, not_or] at hnodup
      exact hnodup.1
    have hneeds : ∀ y ∈ successors s x, y ∈ finished := by
      intro y hy
      obtain ⟨e, he, rfl, rfl⟩ := mem_successors.mp hy
      exact List.mem_reverse.mp (mem_of_pair_sublist hx.2 (h ▸ hlaid e he))
    have hvisit : visit s [] finished x = .ok (x :: finished) := by
      rw [visit_fresh (fun hin => hx.1 (List.mem_reverse.mpr hin)) List.not_mem_nil (h ▸ by simp), visitAll_finished hneeds]
      rfl
    rw [visitAll_cons, hvisit]
    exact ih (by simpa using h)

end Order

/-- The nodes in the order in which the recursion finishes them: the roots in store order, and the
    targets of each node in the order of its edges. -/
def postOrder (s : Store) : Except StoreError (List Node) :=
  (Order.visitAll s [] [] s.ids).map fun finished => finished.reverse.filterMap s.node?

theorem filterMap_node?_ids {s : Store} (hids : s.ids.Nodup) : s.ids.filterMap s.node? = s.nodes := by
  rw [ids, List.filterMap_map]
  have hfound : ∀ node ∈ s.nodes, (s.node? ∘ Node.id) node = some node := fun node hn => node?_of_mem hids hn
  rw [List.filterMap_congr hfound, List.filterMap_some]

/-- The search with a stack answers what the recursion does, be it an order or a node on a cycle.
    Nodes that were each added after all that they need stay as they are. -/
theorem sorted_eq_postOrder {s : Store} (hs : s.Consistent) : s.sorted = s.postOrder ∧
    ((∀ e ∈ s.edges, [e.target, e.source].Sublist s.ids) → s.sorted = .ok s.nodes) := by
  have hrun : Order.run s (Order.fuel s) ⟨s.ids, [], []⟩ = Order.visitAll s [] [] s.ids :=
    (Order.searching_start s).run_eq_resume hs.ends (Order.remaining_start_lt hs.ids hs.ends)
  have heq : s.sorted = s.postOrder := by rw [sorted, postOrder, hrun]
  refine ⟨heq, fun hlaid => ?_⟩
  have hvisited : Order.visitAll s [] [] s.ids = .ok s.ids.reverse := Order.visitAll_laid hs.ids hlaid rfl
  rw [heq, postOrder, hvisited]
  show Except.ok (s.ids.reverse.reverse.filterMap s.node?) = _
  rw [List.reverse_reverse, filterMap_node?_ids hs.ids]

/-- The nodes of a page in an order in which they could have been added. -/
def laidStore : Store :=
  { pageStore [] with
    nodes := [.new ⟨"base", "Disk"⟩ "disk", .new ⟨"web", "Cache"⟩ "cache", .new ⟨"web", "Log"⟩ "log",
      .new ⟨"web", "Page"⟩ "page"] }

/-- The page comes first in its store and last in the order, a cycle is found at the disk, and the nodes that
    are in order stay. -/
theorem sorted_eq_postOrder_page :
    (∃ nodes, (pageStore []).postOrder = .ok nodes ∧ nodes.map (·.id.name) = ["Disk", "Log", "Cache", "Page"]) ∧
    (pageStore [.between ⟨"base", "Disk"⟩ ⟨"web", "Cache"⟩ .imported none]).postOrder =
      .error (.cycleDetected ⟨"base", "Disk"⟩) ∧
    laidStore.sorted = .ok laidStore.nodes := by
  have hpage : (pageStore []).Consistent := by decide
  have hring : (pageStore [.between ⟨"base", "Disk"⟩ ⟨"web", "Cache"⟩ .imported none]).Consistent := by decide
  have hlaid : laidStore.Consistent := by decide
  refine ⟨⟨_, (sorted_eq_postOrder hpage).1.symm, rfl⟩, (sorted_eq_postOrder hring).1.symm, ?_⟩
  exact (sorted_eq_postOrder hlaid).2 (by decide)

end Regroup.Store
