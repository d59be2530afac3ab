/-
  Regroup.Proofs.Ordering — the search finds an order exactly when no edges form a cycle.

  The finished nodes are in an order from the start: what a node needs was finished before it
  (`Topological`). The nodes on the stack each need the one above them, and what else they need
  is either still to be looked at or finished by the time they come up again (`Pursued`). So a
  node is finished only after all that it needs, and a target that is found on the stack closes a
  cycle. `Searching` is what every step keeps.

  A step also uses up some of the work that remains (`State.remaining`): every root is taken once,
  every node entered once with all its edges, and finished once. The fuel is enough for that, so:
  - `sorted_cases`: the result is all nodes in an order, or a node that lies on a cycle.
  - `exists_sorted_iff`: there is an order exactly when there is no cycle.
  - `sorted_sound_complete`: both, for the nodes as they are answered.
-/

import Mathlib.Algebra.BigOperators.Group.Finset.Basic
import Mathlib.Algebra.Order.BigOperators.Group.List
import Mathlib.Algebra.Order.Ring.Nat
import Mathlib.Data.List.Chain
import Mathlib.Logic.Relation
import Regroup.Proofs.Consistency
import Regroup.Store.Order

namespace Regroup.Store

open Relation (TransGen ReflTransGen)

variable {s : Store} {x y : Address}

/-! ## Orders and cycles -/

/-- Some edge leads from `x` to `y`. -/
def Needs (s : Store) (x y : Address) : Prop := ∃ e ∈ s.edges, e.source = x ∧ e.target = y

/-- No way along the edges leads back to where it starts. -/
def Acyclic (s : Store) : Prop := ∀ x, ¬TransGen s.Needs x x

theorem mem_successors : y ∈ Order.successors s x ↔ s.Needs x y := by
  simp [Order.successors, dependencies, Needs, and_assoc]

theorem mem_ids_of_needs (hends : ∀ e ∈ s.edges, e.source ∈ s.ids ∧ e.target ∈ s.ids) (h : s.Needs x y) :
    x ∈ s.ids ∧ y ∈ s.ids := by
  obtain ⟨e, he, rfl, rfl⟩ := h
  exact hends e he

/-- Each node stands before all that it needs, and none stands twice. -/
def Topological (s : Store) : List Address → Prop
  | [] => True
  | x :: rest => x ∉ rest ∧ (∀ y, s.Needs x y → y ∈ rest) ∧ Topological s rest

namespace Topological

variable {order : List Address}

theorem nodup (h : s.Topological order) : order.Nodup := by
  induction order with
  | nil => exact List.nodup_nil
  | cons x rest ih => exact List.nodup_cons.mpr ⟨h.1, ih h.2.2⟩

theorem mem_of_needs (h : s.Topological order) (hx : x ∈ order) (hn : s.Needs x y) : y ∈ order := by
  induction order with
  | nil => cases hx
  | cons z rest ih =>
    rcases List.mem_cons.mp hx with rfl | hx
    · exact List.mem_cons_of_mem _ (h.2.1 y hn)
    · exact List.mem_cons_of_mem _ (ih h.2.2 hx)

theorem mem_of_reaches (h : s.Topological order) (hx : x ∈ order) (hr : ReflTransGen s.Needs x y) : y ∈ order := by
  induction hr with
  | refl => exact hx
  | tail _ hn ih => exact h.mem_of_needs ih hn

/-- All that a node reaches stands behind it, and so it does not reach itself. -/
theorem not_cyclic (h : s.Topological order) (hx : x ∈ order) : ¬TransGen s.Needs x x := by
  induction order with
  | nil => cases hx
  | cons z rest ih =>
    intro hcycle
    rcases List.mem_cons.mp hx with rfl | hx
    · obtain ⟨y, hn, hback⟩ := TransGen.head'_iff.mp hcycle
      exact h.1 (h.2.2.mem_of_reaches (h.2.1 y hn) hback)
    · exact ih h.2.2 hx hcycle

end Topological

/-! ## The stack -/

namespace Order

/-- What a node needs is still to be looked at or `done`, where the nodes above it on the stack
    are done when it comes up again. -/
def Pursued (s : Store) : List Address → List Frame → Prop
  | _, [] => True
  | done, f :: below => f.id ∉ done ∧ (∀ y, s.Needs f.id y → y ∈ f.pending ∨ y ∈ done) ∧
      (∀ y ∈ f.pending, s.Needs f.id y) ∧ Pursued s (f.id :: done) below

namespace Pursued

variable {done done' pending : List Address} {f : Frame} {stack below : List Frame}

theorem not_mem (h : Pursued s done stack) (hf : f ∈ stack) : f.id ∉ done := by
  induction stack generalizing done with
  | nil => cases hf
  | cons g below ih =>
    rcases List.mem_cons.mp hf with rfl | hf
    · exact h.1
    · intro hd
      exact ih h.2.2.2 hf (List.mem_cons_of_mem _ hd)

/-- More may be done, as long as it is nothing that the stack holds. -/
theorem mono (h : Pursued s done stack) (hsub : done ⊆ done') (hnew : ∀ f ∈ stack, f.id ∉ done') : Pursued s done' stack := by
  induction stack generalizing done done' with
  | nil => trivial
  | cons g below ih =>
    obtain ⟨_, hahead, hpending, hbelow⟩ := h
    refine ⟨hnew g (List.mem_cons_self ..), fun y hn => (hahead y hn).imp_right (hsub ·), hpending,
      ih hbelow (List.cons_subset_cons _ hsub) fun f hf hmem => ?_⟩
    rcases List.mem_cons.mp hmem with heq | hmem
    · exact hbelow.not_mem hf (heq ▸ List.mem_cons_self ..)
    · exact hnew f (List.mem_cons_of_mem _ hf) hmem

/-- The next target has been looked at once it is done. -/
theorem look (h : Pursued s done (⟨x, y :: pending⟩ :: below)) (hsub : done ⊆ done') (hy : y ∈ done')
    (hnew : ∀ f ∈ (⟨x, y :: pending⟩ :: below : List Frame), f.id ∉ done') : Pursued s done' (⟨x, pending⟩ :: below) := by
  obtain ⟨hid, hahead, hpending, hbelow⟩ := h.mono hsub hnew
  refine ⟨hid, fun z hn => ?_, fun z hz => hpending z (List.mem_cons_of_mem _ hz), hbelow⟩
  rcases hahead z hn with hz | hz
  · rcases List.mem_cons.mp hz with rfl | hz
    · exact Or.inr hy
    · exact Or.inl hz
  · exact Or.inr hz

end Pursued

/-- Every node on the stack reaches those above it. -/
theorem reaches_top {f : Frame} {below : List Frame} (h : (f :: below).IsChain fun f g => s.Needs g.id f.id) :
    ∀ g ∈ f :: below, ReflTransGen s.Needs g.id f.id := by
  intro g hg
  induction below generalizing f with
  | nil =>
    rw [List.mem_singleton.mp hg]
  | cons f' below ih =>
    obtain ⟨hn, hbelow⟩ := List.isChain_cons_cons.mp h
    rcases List.mem_cons.mp hg with rfl | hg
    · exact .refl
    · exact (ih hbelow hg).tail hn

/-! ## What a step keeps -/

/-- The nodes on the stack. -/
def State.entered (st : State) : List Address := st.stack.map (·.id)

theorem State.mem_entered_iff {st : State} : x ∈ st.entered ↔ st.stack.any (·.id == x) = true := by
  simp [State.entered]

structure Searching (s : Store) (st : State) : Prop where
  /-- The nodes are those still to be taken, those on the stack and those that are finished. -/
  nodes : ∀ x, x ∈ s.ids ↔ x ∈ st.roots ∨ x ∈ st.entered ∨ x ∈ st.finished
  finished : s.Topological st.finished
  pursued : Pursued s st.finished st.stack
  path : st.stack.IsChain fun f g => s.Needs g.id f.id

theorem searching_start (s : Store) : Searching s ⟨s.ids, [], []⟩ :=
  ⟨fun x => by simp [State.entered], trivial, trivial, List.isChain_nil⟩

/-- A node is entered that is not finished, and that the node on the top of the stack needs. -/
theorem searching_enter {st : State} (hnodes : ∀ z, z ∈ s.ids ↔ z = x ∨ z ∈ st.roots ∨ z ∈ st.entered ∨ z ∈ st.finished)
    (hfinished : s.Topological st.finished) (hx : x ∉ st.finished) (hpursued : Pursued s (x :: st.finished) st.stack)
    (hpath : st.stack.IsChain fun f g => s.Needs g.id f.id) (htop : ∀ f ∈ st.stack.head?, s.Needs f.id x) :
    Searching s (enter s x st) := by
  refine ⟨fun z => ?_, hfinished, ⟨hx, fun y hn => Or.inl (mem_successors.mpr hn), fun y hy => mem_successors.mp hy, hpursued⟩,
    List.isChain_cons.mpr ⟨htop, hpath⟩⟩
  rw [hnodes]
  simp only [enter, State.entered, List.map_cons, List.mem_cons]
  tauto

/-! ## The work that remains -/

namespace State

/-- The nodes that are neither on the stack nor finished. -/
def outside (s : Store) (st : State) : List Address := s.ids.filter fun x => decide (x ∉ st.entered ∧ x ∉ st.finished)

/-- The roots to take, the targets on the stack to look at and the nodes there to finish, and as
    much again for every node outside. -/
def remaining (s : Store) (st : State) : Nat :=
  st.roots.length + (st.stack.map (·.pending.length + 1)).sum + ((st.outside s).map fun x => (successors s x).length + 1).sum

variable {st : State}

theorem mem_outside : x ∈ st.outside s ↔ x ∈ s.ids ∧ x ∉ st.entered ∧ x ∉ st.finished := by
  rw [outside, List.mem_filter, decide_eq_true_eq]

theorem outside_enter (s : Store) (x : Address) (st : State) :
    ((enter s x st).outside s).Sublist ((st.outside s).erase x) := by
  have hnot : x ∉ (enter s x st).outside s := fun hin => (mem_outside.mp hin).2.1 (List.mem_cons_self ..)
  have hsub : ((enter s x st).outside s).Sublist (st.outside s) := by
    refine List.monotone_filter_right _ fun z hz => ?_
    rw [decide_eq_true_eq] at hz ⊢
    exact ⟨fun hin => hz.1 (List.mem_cons_of_mem _ hin), hz.2⟩
  rw [← List.erase_of_not_mem hnot]
  exact hsub.erase x

/-- Entering a node takes up the work that was counted for it outside. -/
theorem remaining_enter (hx : x ∈ st.outside s) : (enter s x st).remaining s ≤ st.remaining s := by
  let cost (z : Address) : Nat := (successors s z).length + 1
  have hless : (((enter s x st).outside s).map cost).sum ≤ (((st.outside s).erase x).map cost).sum :=
    ((outside_enter s x st).map cost).sum_le_sum fun _ _ => Nat.zero_le _
  have htotal : cost x + (((st.outside s).erase x).map cost).sum = ((st.outside s).map cost).sum :=
    List.sum_map_erase cost hx
  show st.roots.length + (cost x + (st.stack.map (·.pending.length + 1)).sum) + (((enter s x st).outside s).map cost).sum ≤
    st.roots.length + (st.stack.map (·.pending.length + 1)).sum + ((st.outside s).map cost).sum
  omega

/-- The nodes outside are the same after a step that enters none. -/
theorem outside_congr {st st' : State} (h : ∀ x, x ∈ st'.entered ∨ x ∈ st'.finished ↔ x ∈ st.entered ∨ x ∈ st.finished) :
    st'.outside s = st.outside s := by
  refine List.filter_congr fun x _ => ?_
  rw [decide_eq_decide, ← not_or, h, not_or]

end State

/-! ## A step -/

/-- A step ends the search with all nodes finished, goes on with less to do, or finds a cycle. -/
def Proceeds (s : Store) (st : State) : Prop :=
  (step s st = .ok (.inr st.finished) ∧ ∀ x, x ∈ s.ids ↔ x ∈ st.finished) ∨
  (∃ st', step s st = .ok (.inl st') ∧ Searching s st' ∧ st'.remaining s < st.remaining s) ∨
  ∃ x, step s st = .error (.cycleDetected x) ∧ TransGen s.Needs x x

namespace Searching

variable {roots finished pending : List Address} {below : List Frame}

theorem proceeds_root (h : Searching s ⟨x :: roots, [], finished⟩) : Proceeds s ⟨x :: roots, [], finished⟩ := by
  have hnodes : ∀ z, z ∈ s.ids ↔ z = x ∨ z ∈ roots ∨ z ∈ finished := by
    intro z
    rw [h.nodes]
    simp [State.entered, or_assoc]
  have htaken : (⟨roots, [], finished⟩ : State).remaining s < (⟨x :: roots, [], finished⟩ : State).remaining s := by
    have houtside : (⟨roots, [], finished⟩ : State).outside s = (⟨x :: roots, [], finished⟩ : State).outside s := rfl
    simp [State.remaining, houtside]
  refine Or.inr (Or.inl ?_)
  by_cases hx : x ∈ finished
  · refine ⟨⟨roots, [], finished⟩, by simp [step, hx], ⟨fun z => ?_, h.finished, h.pursued, h.path⟩, htaken⟩
    rw [hnodes]
    simp only [State.entered, List.map_nil, List.not_mem_nil, false_or, or_iff_right_iff_imp]
    rintro rfl
    exact Or.inr hx
  · refine ⟨enter s x ⟨roots, [], finished⟩, by simp [step, hx], ?_, ?_⟩
    · exact searching_enter (fun z => by rw [hnodes]; simp [State.entered]) h.finished hx trivial h.path (by simp)
    · have houtside : x ∈ (⟨roots, [], finished⟩ : State).outside s :=
        State.mem_outside.mpr ⟨(hnodes x).mpr (Or.inl rfl), List.not_mem_nil, hx⟩
      exact Nat.lt_of_le_of_lt (State.remaining_enter houtside) htaken

theorem proceeds_finish (h : Searching s ⟨roots, ⟨x, []⟩ :: below, finished⟩) :
    Proceeds s ⟨roots, ⟨x, []⟩ :: below, finished⟩ := by
  obtain ⟨hx, hahead, _, hbelow⟩ := h.pursued
  refine Or.inr (Or.inl ⟨⟨roots, below, x :: finished⟩, rfl, ⟨fun z => ?_, ?_, hbelow, h.path.tail⟩, ?_⟩)
  · rw [h.nodes]
    simp only [State.entered, List.map_cons, List.mem_cons]
    tauto
  · exact ⟨hx, fun y hn => (hahead y hn).resolve_left List.not_mem_nil, h.finished⟩
  · have houtside : (⟨roots, below, x :: finished⟩ : State).outside s =
        (⟨roots, ⟨x, []⟩ :: below, finished⟩ : State).outside s := by
      refine State.outside_congr fun z => ?_
      simp only [State.entered, List.map_cons, List.mem_cons]
      tauto
    simp only [State.remaining, houtside, List.map_cons, List.sum_cons, List.length_nil]
    omega

theorem proceeds_target (hends : ∀ e ∈ s.edges, e.source ∈ s.ids ∧ e.target ∈ s.ids)
    (h : Searching s ⟨roots, ⟨x, y :: pending⟩ :: below, finished⟩) :
    Proceeds s ⟨roots, ⟨x, y :: pending⟩ :: below, finished⟩ := by
  have hneed : s.Needs x y := h.pursued.2.2.1 y (List.mem_cons_self ..)
  have hlooked : (⟨roots, ⟨x, pending⟩ :: below, finished⟩ : State).remaining s <
      (⟨roots, ⟨x, y :: pending⟩ :: below, finished⟩ : State).remaining s := by
    have houtside : (⟨roots, ⟨x, pending⟩ :: below, finished⟩ : State).outside s =
        (⟨roots, ⟨x, y :: pending⟩ :: below, finished⟩ : State).outside s := rfl
    simp only [State.remaining, houtside, List.map_cons, List.sum_cons, List.length_cons]
    omega
  have hpath : (⟨x, pending⟩ :: below).IsChain fun f g => s.Needs g.id f.id := List.isChain_cons.mpr (List.isChain_cons.mp h.path)
  by_cases hfinished : y ∈ finished
  · refine Or.inr (Or.inl ⟨⟨roots, ⟨x, pending⟩ :: below, finished⟩, by simp [step, hfinished],
      ⟨h.nodes, h.finished, ?_, hpath⟩, hlooked⟩)
    exact h.pursued.look (List.Subset.refl _) hfinished fun f hf => h.pursued.not_mem hf
  · by_cases hentered : y ∈ (⟨roots, ⟨x, y :: pending⟩ :: below, finished⟩ : State).entered
    · -- The target reaches the top of the stack, which needs it.
      have hany : (⟨x, pending⟩ :: below).any (·.id == y) = true := State.mem_entered_iff.mp hentered
      obtain ⟨f, hf, rfl⟩ := List.mem_map.mp hentered
      refine Or.inr (Or.inr ⟨f.id, ?_, TransGen.tail' (reaches_top h.path f hf) hneed⟩)
      simp only [step, List.contains_eq_mem, hfinished, decide_false, Bool.false_eq_true, if_false, hany, if_true]
    · have hany : ¬(⟨x, pending⟩ :: below).any (·.id == y) = true := fun h => hentered (State.mem_entered_iff.mpr h)
      refine Or.inr (Or.inl ⟨enter s y ⟨roots, ⟨x, pending⟩ :: below, finished⟩, ?_, ?_, ?_⟩)
      · simp only [step, List.contains_eq_mem, hfinished, decide_false, Bool.false_eq_true, if_false, hany]
      · refine searching_enter (fun z => ?_) h.finished hfinished ?_ hpath ?_
        · have hknown : z = y → z ∈ s.ids := by
            rintro rfl
            exact (mem_ids_of_needs hends hneed).2
          rw [← or_iff_right_of_imp hknown, h.nodes]
          rfl
        · refine h.pursued.look (List.subset_cons_self _ _) (List.mem_cons_self ..) fun f hf hmem => ?_
          rcases List.mem_cons.mp hmem with rfl | hmem
          · exact hentered (List.mem_map_of_mem hf)
          · exact h.pursued.not_mem hf hmem
        · rintro f ⟨⟩
          exact hneed
      · have houtside : y ∈ (⟨roots, ⟨x, pending⟩ :: below, finished⟩ : State).outside s :=
          State.mem_outside.mpr ⟨(mem_ids_of_needs hends hneed).2, hentered, hfinished⟩
        exact Nat.lt_of_le_of_lt (State.remaining_enter houtside) hlooked

theorem proceeds (hends : ∀ e ∈ s.edges, e.source ∈ s.ids ∧ e.target ∈ s.ids) {st : State} (h : Searching s st) :
    Proceeds s st := by
  obtain ⟨roots, stack, finished⟩ := st
  match stack, roots with
  | [], [] => exact Or.inl ⟨rfl, fun x => by rw [h.nodes]; simp [State.entered]⟩
  | [], _ :: _ => exact h.proceeds_root
  | ⟨_, []⟩ :: _, _ => exact h.proceeds_finish
  | ⟨_, _ :: _⟩ :: _, _ => exact h.proceeds_target hends

/-! ## The whole search -/

/-- With fuel for what remains the search comes to its end. -/
theorem run (hends : ∀ e ∈ s.edges, e.source ∈ s.ids ∧ e.target ∈ s.ids) {st : State} (h : Searching s st) {fuel : Nat}
    (hfuel : st.remaining s < fuel) :
    (∃ order, run s fuel st = .ok order ∧ s.Topological order ∧ ∀ x, x ∈ s.ids ↔ x ∈ order) ∨
    ∃ x, run s fuel st = .error (.cycleDetected x) ∧ TransGen s.Needs x x := by
  induction fuel generalizing st with
  | zero => cases hfuel
  | succ fuel ih =>
    unfold Order.run
    rcases h.proceeds hends with ⟨hstep, hall⟩ | ⟨st', hstep, h', hless⟩ | ⟨x, hstep, hcycle⟩
    · exact Or.inl ⟨st.finished, by rw [hstep], h.finished, hall⟩
    · rw [hstep]
      exact ih h' (by omega)
    · exact Or.inr ⟨x, by rw [hstep], hcycle⟩

end Searching

section Fuel

variable (hids : s.ids.Nodup) (hends : ∀ e ∈ s.edges, e.source ∈ s.ids ∧ e.target ∈ s.ids)

include hids hends

/-- Each edge leads from one node. -/
theorem sum_successors : (s.ids.map fun x => (successors s x).length).sum = s.edges.length := by
  have hcount : ∀ x, (successors s x).length = (s.edges.map (·.source)).count x := by
    intro x
    rw [successors, dependencies, List.length_map, List.count_eq_countP, List.countP_map, List.countP_eq_length_filter]
    rfl
  have hsources : ∀ x ∈ (s.edges.map (·.source) : Multiset Address), x ∈ s.ids.toFinset := by
    intro x hx
    obtain ⟨e, he, rfl⟩ := List.mem_map.mp hx
    exact List.mem_toFinset.mpr (hends e he).1
  calc (s.ids.map fun x => (successors s x).length).sum
    _ = (s.ids.map fun x => (s.edges.map (·.source)).count x).sum := by simp only [hcount]
    _ = ∑ x ∈ s.ids.toFinset, (s.edges.map (·.source) : Multiset Address).count x := by
        simp only [Multiset.coe_count, List.sum_toFinset _ hids]
    _ = (s.edges.map (·.source)).length := Multiset.sum_count_eq_card hsources
    _ = s.edges.length := List.length_map _

theorem remaining_start_lt : (⟨s.ids, [], []⟩ : State).remaining s < fuel s := by
  have houtside : (⟨s.ids, [], []⟩ : State).outside s = s.ids := by simp [State.outside, State.entered]
  have hsum := sum_successors hids hends
  have hlength : s.ids.length = s.nodes.length := List.length_map _
  simp only [State.remaining, houtside, List.sum_map_add, hsum, List.map_const', List.sum_replicate_nat, List.map_nil,
    List.sum_nil, fuel, hlength]
  omega

end Fuel

end Order

/-- The result is every node, each after all that it needs, or a node that lies on a cycle. -/
theorem sorted_cases (hids : s.ids.Nodup) (hends : ∀ e ∈ s.edges, e.source ∈ s.ids ∧ e.target ∈ s.ids) :
    (∃ order, s.sorted = .ok (order.reverse.filterMap s.node?) ∧ s.Topological order ∧ ∀ x, x ∈ s.ids ↔ x ∈ order) ∨
    ∃ x, s.sorted = .error (.cycleDetected x) ∧ TransGen s.Needs x x := by
  unfold sorted
  rcases (Order.searching_start s).run hends (Order.remaining_start_lt hids hends) with ⟨order, hrun, horder⟩ | ⟨x, hrun, hcycle⟩
  · exact Or.inl ⟨order, by rw [hrun]; rfl, horder⟩
  · exact Or.inr ⟨x, by rw [hrun]; rfl, hcycle⟩

theorem exists_sorted_iff (hids : s.ids.Nodup) (hends : ∀ e ∈ s.edges, e.source ∈ s.ids ∧ e.target ∈ s.ids) :
    (∃ nodes, s.sorted = .ok nodes) ↔ s.Acyclic := by
  rcases sorted_cases hids hends with ⟨order, hsorted, horder, hall⟩ | ⟨x, hsorted, hcycle⟩
  · refine iff_of_true ⟨_, hsorted⟩ fun x hx => ?_
    obtain ⟨y, hneed, _⟩ := TransGen.head'_iff.mp hx
    exact horder.not_cyclic ((hall x).mp (mem_ids_of_needs hends hneed).1) hx
  · refine iff_of_false ?_ fun hacyclic => hacyclic x hcycle
    rintro ⟨nodes, hnodes⟩
    rw [hsorted] at hnodes
    cases hnodes

/-! ## The nodes that are answered -/

/-- Turned round, an order has what a node needs before it. -/
theorem Topological.sublist_reverse {order : List Address} (h : s.Topological order) (hx : x ∈ order) (hn : s.Needs x y) :
    [y, x].Sublist order.reverse := by
  induction order with
  | nil => cases hx
  | cons z rest ih =>
    rw [List.reverse_cons]
    rcases List.mem_cons.mp hx with rfl | hx
    · have hy : [y].Sublist rest.reverse := List.singleton_sublist.mpr (List.mem_reverse.mpr (h.2.1 y hn))
      exact hy.append (List.Sublist.refl [x])
    · exact (ih h.2.2 hx).trans (List.sublist_append_left _ _)

section Nodes

variable (hids : s.ids.Nodup) {ids : List Address}

include hids

theorem map_id_filterMap_node? (h : ∀ x ∈ ids, x ∈ s.ids) : (ids.filterMap s.node?).map (·.id) = ids := by
  induction ids with
  | nil => rfl
  | cons x ids ih =>
    obtain ⟨node, hn, rfl⟩ := List.mem_map.mp (h x (List.mem_cons_self ..))
    rw [List.filterMap_cons_some (node?_of_mem hids hn), List.map_cons, ih fun y hy => h y (List.mem_cons_of_mem _ hy)]

/-- The nodes at all addresses are all nodes. -/
theorem perm_filterMap_node? (hnodup : ids.Nodup) (hall : ∀ x, x ∈ s.ids ↔ x ∈ ids) :
    (ids.filterMap s.node?).Perm s.nodes := by
  have hmap := map_id_filterMap_node? hids fun x hx => (hall x).mpr hx
  have hfound : (ids.filterMap s.node?).Nodup := List.Nodup.of_map Node.id (hmap.symm ▸ hnodup)
  have hnodes : s.nodes.Nodup := List.Nodup.of_map Node.id hids
  refine (List.perm_ext_iff_of_nodup hfound hnodes).mpr fun node => ?_
  rw [List.mem_filterMap]
  constructor
  · intro h
    obtain ⟨x, _, hx⟩ := h
    exact List.mem_of_find?_eq_some hx
  · intro hn
    exact ⟨node.id, (hall _).mp (List.mem_map_of_mem hn), node?_of_mem hids hn⟩

end Nodes

/-- There is an order exactly when there is no cycle. It has every node once, and the target of
    each edge before the source; where there is none, a node is named that lies on a cycle. -/
theorem sorted_sound_complete (hs : s.Consistent) :
    ((∃ nodes, s.sorted = .ok nodes) ↔ s.Acyclic) ∧
    (∀ nodes, s.sorted = .ok nodes →
      nodes.Perm s.nodes ∧ ∀ e ∈ s.edges, [e.target, e.source].Sublist (nodes.map (·.id))) ∧
    ∀ err, s.sorted = .error err → ∃ x, err = .cycleDetected x ∧ TransGen s.Needs x x := by
  refine ⟨exists_sorted_iff hs.ids hs.ends, ?_⟩
  rcases sorted_cases hs.ids hs.ends with ⟨order, hsorted, horder, hall⟩ | ⟨x, hsorted, hcycle⟩
  · have hall' : ∀ x, x ∈ s.ids ↔ x ∈ order.reverse := by simpa using hall
    have hids := map_id_filterMap_node? hs.ids fun x hx => (hall' x).mpr hx
    rw [hsorted]
    refine ⟨fun nodes hnodes => ?_, fun err herr => by cases herr⟩
    cases hnodes
    refine ⟨perm_filterMap_node? hs.ids (List.nodup_reverse.mpr horder.nodup) hall', fun e he => ?_⟩
    rw [hids]
    exact horder.sublist_reverse ((hall _).mp (hs.ends e he).1) ⟨e, he, rfl, rfl⟩
  · rw [hsorted]
    refine ⟨fun nodes hnodes => (by cases hnodes), fun err herr => ?_⟩
    cases herr
    exact ⟨x, rfl, hcycle⟩

/-- A page that needs a cache twice and a log, which both need a disk; and the edges `more`. -/
def pageStore (more : List Edge) : Store :=
  let page : Address := ⟨"web", "Page"⟩
  let cache : Address := ⟨"web", "Cache"⟩
  let log : Address := ⟨"web", "Log"⟩
  let disk : Address := ⟨"base", "Disk"⟩
  { nodes := [.new page "page", .new cache "cache", .new disk "disk", .new log "log"]
    edges := [.between page log .value none, .between page cache .structural none,
      .between page cache .attrOf (some "Arn"), .between cache disk .imported none,
      .between log disk .exportLink none] ++ more }

/-- Without more edges there is an order. With one from the disk to the cache there is none. -/
theorem sorted_sound_complete_page :
    (∃ nodes, (pageStore []).sorted = .ok nodes ∧ nodes.Perm (pageStore []).nodes ∧
      [⟨"base", "Disk"⟩, ⟨"web", "Log"⟩].Sublist (nodes.map (·.id)) ∧ (pageStore []).Acyclic) ∧
    ∃ x, (pageStore [.between ⟨"base", "Disk"⟩ ⟨"web", "Cache"⟩ .imported none]).sorted = .error (.cycleDetected x) ∧
      TransGen (pageStore [.between ⟨"base", "Disk"⟩ ⟨"web", "Cache"⟩ .imported none]).Needs x x := by
  have hs : (pageStore []).Consistent := by decide
  have hring : (pageStore [.between ⟨"base", "Disk"⟩ ⟨"web", "Cache"⟩ .imported none]).Consistent := by decide
  obtain ⟨hiff, horder, _⟩ := sorted_sound_complete hs
  obtain ⟨_, _, hcycle⟩ := sorted_sound_complete hring
  obtain ⟨hperm, hbefore⟩ := horder _ rfl
  obtain ⟨x, hx, hreach⟩ := hcycle _ rfl
  have hlog := hbefore (.between ⟨"web", "Log"⟩ ⟨"base", "Disk"⟩ .exportLink none) (by decide)
  refine ⟨⟨_, rfl, hperm, hlog, hiff.mp ⟨_, rfl⟩⟩, x, ?_, hreach⟩
  rw [← hx]
  rfl

end Regroup.Store
