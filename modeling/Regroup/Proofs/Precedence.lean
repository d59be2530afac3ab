/-
  Regroup.Proofs.Precedence — a move and the order of the nodes.

  An edge after a move leads between two nodes that an edge led between before, and the
  orderings that a move adds do so as well (`needs_move`). So a cycle after a move was one before
  it, when the moved node had its old address, and nodes that could be ordered still can be after
  any run of moves. A move can break a cycle, but only by dropping an ordering: when it reports
  none, an edge leads between any two nodes that one led between before (`needs_of_needs_move`).
-/

import Regroup.Proofs.Ordering

namespace Regroup

variable {origin destination : Address}

theorem Address.moved_back {a : Address} (h : a ≠ destination) :
    (a.moved origin destination).moved destination origin = a := by
  by_cases ha : a = origin
  · rw [ha, moved_origin, moved_origin]
  · rw [moved_of_ne ha, moved_of_ne h]

namespace Store

open Relation (TransGen)

variable {s s' : Store} {x y : Address}

/-! ## One move -/

theorem mem_report_dropped {e' : Edge} : e' ∈ (s.departed origin destination).report.dropped ↔
    ∃ e ∈ s.edges, (e.fate origin destination).dropped? = some e' := by
  simp [departed, List.mem_filterMap]

/-- Every edge between two nodes after the move follows one between the same nodes. -/
theorem needs_move (hends : ∀ e ∈ s.edges, e.source ∈ s.ids ∧ e.target ∈ s.ids) (hd : destination ∉ s.ids)
    (h : (s.move origin destination).store.Needs x y) : s.Needs (x.moved destination origin) (y.moved destination origin) := by
  have hback : ∀ e ∈ s.edges, s.Needs ((e.source.moved origin destination).moved destination origin)
      ((e.target.moved origin destination).moved destination origin) := by
    intro e he
    rw [Address.moved_back (ne_of_mem_of_not_mem (hends e he).1 hd), Address.moved_back (ne_of_mem_of_not_mem (hends e he).2 hd)]
    exact ⟨e, he, rfl, rfl⟩
  obtain ⟨e', he', rfl, rfl⟩ := h
  rcases mem_edges_move he' with ⟨e, he, hr⟩ | ⟨e, he, _, rfl⟩
  · obtain ⟨hsource, htarget, _⟩ := Edge.remaining?_fate hr
    rw [hsource, htarget]
    exact hback e he
  · exact hback e he

/-- Where nothing is dropped, every edge is followed by one between the same nodes. -/
theorem needs_move_of_needs (hdropped : (s.move origin destination).report.dropped = []) (h : s.Needs x y) :
    (s.move origin destination).store.Needs (x.moved origin destination) (y.moved origin destination) := by
  obtain ⟨e, he, rfl, rfl⟩ := h
  have hreport : (s.departed origin destination).report.dropped = [] :=
    (congrArg Relocation.dropped (report_move s origin destination)).symm.trans hdropped
  have hstays : ∃ e', (e.fate origin destination).remaining? = some e' := by
    cases hf : e.fate origin destination with
    | dropped e' =>
      have hmem := mem_report_dropped.mpr ⟨e, he, congrArg Fate.dropped? hf⟩
      rw [hreport] at hmem
      cases hmem
    | kept e' => exact ⟨e', rfl⟩
    | converted e' => exact ⟨e', rfl⟩
    | restored e' => exact ⟨e', rfl⟩
  obtain ⟨e', hr⟩ := hstays
  obtain ⟨hsource, htarget, _⟩ := Edge.remaining?_fate hr
  exact ⟨e', remaining_mem_move he hr, hsource, htarget⟩

theorem Acyclic.move (h : s.Acyclic) (hends : ∀ e ∈ s.edges, e.source ∈ s.ids ∧ e.target ∈ s.ids) (hd : destination ∉ s.ids) :
    (s.move origin destination).store.Acyclic := by
  intro x hx
  exact h _ (TransGen.lift (·.moved destination origin) (fun _ _ hn => needs_move hends hd hn) _ _ hx)

theorem Acyclic.of_move (h : (s.move origin destination).store.Acyclic)
    (hdropped : (s.move origin destination).report.dropped = []) : s.Acyclic := by
  intro x hx
  exact h _ (TransGen.lift (·.moved origin destination) (fun _ _ hn => needs_move_of_needs hdropped hn) _ _ hx)

/-! ## Runs -/

theorem Acyclic.relocateAll (h : s.Acyclic) (hs : s.Consistent) {moves : List (Address × Address)}
    (hmoves : s.relocateAll moves = .ok s') : s'.Acyclic := by
  have hboth : s'.Consistent ∧ s'.Acyclic :=
    relocateAll_induction (P := fun s => s.Consistent ∧ s.Acyclic) hmoves
      (fun hd hs => ⟨hs.1.move hd, hs.2.move hs.1.ends hd⟩) ⟨hs, h⟩
  exact hboth.2

/-- Nodes that can be ordered still can be after any moves, and a move that drops no edge makes no
    order where there was none. -/
theorem exists_sorted_relocateAll (hs : s.Consistent) :
    (∀ moves s', s.relocateAll moves = .ok s' → (∃ nodes, s.sorted = .ok nodes) → ∃ nodes, s'.sorted = .ok nodes) ∧
    ∀ origin destination r s', s.relocate origin destination = .ok (r, s') → r.dropped = [] →
      (∃ nodes, s'.sorted = .ok nodes) → ∃ nodes, s.sorted = .ok nodes := by
  constructor
  · intro moves s' hmoves hsorted
    have hs' := hs.relocateAll hmoves
    rw [exists_sorted_iff hs.ids hs.ends] at hsorted
    rw [exists_sorted_iff hs'.ids hs'.ends]
    exact hsorted.relocateAll hs hmoves
  · intro origin destination r s' hr hdropped hsorted
    have hs' := hs.relocate hr
    rw [exists_sorted_iff hs'.ids hs'.ends] at hsorted
    rw [exists_sorted_iff hs.ids hs.ends]
    rcases relocate_eq_ok hr with ⟨_, rfl, _⟩ | ⟨_, _, _, rfl, rfl⟩
    · exact hsorted
    · exact hsorted.of_move hdropped

/-- A reader of a topic and of a queue, of which the queue is filled by the topic. -/
def fannedStore : Store :=
  let topic : Address := ⟨"infra", "Topic"⟩
  let queue : Address := ⟨"infra", "Queue"⟩
  let reader : Address := ⟨"services", "Reader"⟩
  { nodes := [.new reader "reader", .new queue "queue", .new topic "topic"]
    edges := [.between reader topic .imported none, .between reader queue .imported (some "Arn"),
      .between queue topic .value none, .between queue topic .structural none] }

/-- The reader joins the others, and then the queue leaves. -/
def fannedMoves : List (Address × Address) :=
  [(⟨"services", "Reader"⟩, ⟨"infra", "Reader"⟩), (⟨"infra", "Queue"⟩, ⟨"services", "Jobs"⟩)]

/-- The first of the moves drops no edge, the second one does. -/
theorem exists_sorted_relocateAll_reader : ∃ r s₁ s₂,
    fannedStore.relocate ⟨"services", "Reader"⟩ ⟨"infra", "Reader"⟩ = .ok (r, s₁) ∧ r.dropped = [] ∧
    fannedStore.relocateAll fannedMoves = .ok s₂ ∧ s₂.edges.length < s₁.edges.length ∧
    (∃ nodes, s₂.sorted = .ok nodes) ∧ ∃ nodes, fannedStore.sorted = .ok nodes := by
  have hs : fannedStore.Consistent := by decide
  obtain ⟨hrun, hmove⟩ := @exists_sorted_relocateAll fannedStore hs
  exact ⟨_, _, _, rfl, rfl, rfl, by decide, hrun fannedMoves _ rfl ⟨_, rfl⟩,
    hmove ⟨"services", "Reader"⟩ ⟨"infra", "Reader"⟩ _ _ rfl rfl ⟨_, rfl⟩⟩

end Store

end Regroup
