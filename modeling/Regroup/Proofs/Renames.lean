/-
  Regroup.Proofs.Renames — what a rename within a group leaves of the old name.

  The other members' trees and the exports of the renamed node are rewritten, and nothing in
  them names the old name afterwards (`not_names_rename`). The tree of the node itself and the
  exports of the other members are not looked at. So a member that is still written with the
  old name is the renamed one (`id_of_names_localized`), and an export that names it has another
  source (`names_exportsIn_rename`): `names_generate_rename` says that the old name is left in
  these places and in no others, and `generate_rename_leaves_output` is a case of it.
-/

import Regroup.Proofs.Documents

namespace Regroup

variable {old new : String}

/-! ## Trees -/

/-- Nothing in a renamed tree names the old name. -/
theorem Tree.not_names_rename (hcontent : Placeholder.IsContent new) (hdot : '.' ∉ new.toList) (hne : old ≠ new)
    (tree : Tree) : ¬(tree.rename old new).result.Names old := by
  intro hnames
  obtain ⟨r', hr', hname⟩ := hnames
  obtain ⟨r, _, rfl⟩ := exists_of_mem_scan_redirect hr' (Or.inr fun _ _ => Substitution.writable_renamed hcontent hdot)
  exact (Reference.answer_renamed_eq_self_iff hne).mp (Reference.answer_renamed_answer_renamed old new r) hname

/-! ## Stores -/

namespace Store

variable {s s' : Store} {group : String}

/-- Every export after a rename followed its source, and nothing was made. -/
theorem Grounded.exists_followed_rename (hs : s.Grounded) {e' : Export}
    (h : e' ∈ (s.move ⟨group, old⟩ ⟨group, new⟩).store.exports) :
    ∃ e ∈ s.exports, e.Follows ⟨group, old⟩ ⟨group, new⟩ e' := by
  rcases mem_exports_converted (mem_exports_move_iff.mp h).1 with hfollows | ⟨e, he, ht, hk, hap, _⟩
  · exact hfollows
  · exact absurd rfl ((Edge.apart_iff (hs.in_group he hk) ht).mp hap).2

theorem old_not_mem_ids (hne : old ≠ new) (s : Store) :
    ⟨group, old⟩ ∉ (s.move ⟨group, old⟩ ⟨group, new⟩).store.ids := by
  intro h
  rw [ids_move] at h
  obtain ⟨id, _, hid⟩ := List.mem_map.mp h
  unfold Address.moved at hid
  split at hid
  · exact hne (Address.mk.inj hid).2.symm
  · rename_i hnot
    exact hnot hid

section Rename

variable (hcontent : Placeholder.IsContent new) (hdot : '.' ∉ new.toList) (hne : old ≠ new)

include hcontent hdot hne

/-- The other members of the group do not know the old name any more. -/
theorem not_names_of_other {a : Address} {t : Tree} (ht : (s.move ⟨group, old⟩ ⟨group, new⟩).store.tree? a = some t)
    (hgroup : a.group = group) (hother : a ≠ ⟨group, new⟩) : ¬t.Names old := by
  rw [move_eq, if_pos rfl, Underway.tree?_renameIn, if_pos ⟨hgroup, hother⟩] at ht
  obtain ⟨t₀, _, rfl⟩ := Option.map_eq_some_iff.mp ht
  exact t₀.not_names_rename hcontent hdot hne

/-- A member that is still written with the old name is the renamed one. -/
theorem Grounded.id_of_names_localized (hs : s.Grounded) (hd : ⟨group, new⟩ ∉ s.ids) {node : Node}
    (hn : node ∈ (s.move ⟨group, old⟩ ⟨group, new⟩).store.nodes) (hgroup : node.id.group = group)
    (hnames : ((s.move ⟨group, old⟩ ⟨group, new⟩).store.localizedProperties group node).Names old) :
    node.id = ⟨group, new⟩ := by
  have hmoved : (s.move ⟨group, old⟩ ⟨group, new⟩).store.Grounded := hs.move hd
  by_contra hother
  rcases names_localized hnames with hnames | ⟨e, he, hsource⟩
  · exact not_names_of_other hcontent hdot hne (tree?_of_mem hmoved.ids hn) hgroup hother hnames
  · -- No export is left that has the old address as its source.
    exact old_not_mem_ids hne _ (hsource ▸ hmoved.sources e he)

/-- An export of the group still names the old name if it has another source and did before. -/
theorem Grounded.names_exportsIn_rename (hs : s.Grounded) :
    (∃ e' ∈ (s.move ⟨group, old⟩ ⟨group, new⟩).store.exportsIn group, e'.expression.Names old) ↔
      ∃ e ∈ s.exports, e.source.group = group ∧ e.source.name ≠ old ∧
        e.name ∉ (s.move ⟨group, old⟩ ⟨group, new⟩).report.pruned ∧ e.expression.Names old := by
  constructor
  · intro h
    obtain ⟨e', hin, hnames⟩ := h
    obtain ⟨he', hgroup⟩ := List.mem_filter.mp hin
    obtain ⟨e, he, hf⟩ := hs.exists_followed_rename he'
    have hexpression := hf.expression
    split at hexpression
    · rw [hexpression] at hnames
      exact absurd hnames (e.expression.not_names_rename hcontent hdot hne)
    · rename_i hother
      have hsource : e'.source = e.source := by rw [hf.source, Address.moved_of_ne hother]
      have hin : e.source.group = group := by simpa [hsource] using hgroup
      refine ⟨e, he, hin, fun hname => hother (Address.ext hin hname), ?_, hexpression ▸ hnames⟩
      exact hf.name ▸ (mem_exports_move_iff.mp he').2
  · intro h
    obtain ⟨e, he, hgroup, hname, hkept, hnames⟩ := h
    have hother : e.source ≠ ⟨group, old⟩ := fun h => hname (congrArg Address.name h)
    obtain ⟨e', he', hf⟩ := exists_follower_move he hkept
    have hexpression := hf.expression
    rw [if_neg hother] at hexpression
    refine ⟨e', List.mem_filter.mpr ⟨he', ?_⟩, hexpression ▸ hnames⟩
    rw [hf.source, Address.moved_of_ne hother, hgroup]
    exact beq_self_eq_true group

end Rename

/-- After a rename the template names the old name where the rename does not look: in the tree of
    the renamed node, and in what other members of the group publish. -/
theorem names_generate_rename {naming : Naming} {batches : List (List Document)} {r : Relocation}
    (hs : ({ naming } : Store).ingestAll batches = .ok s) (hcontent : Placeholder.IsContent new) (hdot : '.' ∉ new.toList)
    (hne : old ≠ new) (h : s.relocate ⟨group, old⟩ ⟨group, new⟩ = .ok (r, s')) :
    (s'.generate group).Names old ↔
      (∃ node ∈ s'.nodes, node.id = ⟨group, new⟩ ∧ (s'.localizedProperties group node).Names old) ∨
      ∃ e ∈ s.exports, e.source.group = group ∧ e.source.name ≠ old ∧ e.name ∉ r.pruned ∧ e.expression.Names old := by
  rcases relocate_eq_ok h with ⟨hsame, _⟩ | ⟨_, _, hd, rfl, rfl⟩
  · exact absurd (congrArg Address.name hsame) hne
  have hstart := (grounded_empty naming).ingestAll hs
  rw [names_generate_iff (nodup_ids_move hstart.ids hd)]
  refine or_congr ?_ (hstart.names_exportsIn_rename hcontent hdot hne)
  constructor
  · intro h
    obtain ⟨node, hmember, hnames⟩ := h
    obtain ⟨hn, hgroup⟩ := List.mem_filter.mp hmember
    exact ⟨node, hn, hstart.id_of_names_localized hcontent hdot hne hd hn (by simpa using hgroup) hnames, hnames⟩
  · intro h
    obtain ⟨node, hn, hid, hnames⟩ := h
    exact ⟨node, List.mem_filter.mpr ⟨hn, by simp [hid]⟩, hnames⟩

/-- A member that another one refers to, and that publishes itself. -/
def mentionedDocument : Document :=
  ⟨"a", { resources := [("Old", { kind := "topic" }),
            ("B", { kind := "reader", properties := some (Tree.call "From" (Reference.node "Old").construct) })]
          outputs := [("OldRef", { value := (Reference.node "Old").construct, exportName := some (.text "topic") })] }⟩

theorem names_generate_rename_mentioned : ∃ s r s', ({} : Store).ingestAll [[mentionedDocument]] = .ok s ∧
    s.relocate ⟨"a", "Old"⟩ ⟨"a", "New"⟩ = .ok (r, s') ∧ ¬(s'.generate "a").Names "Old" := by
  refine ⟨_, _, _, rfl, rfl, fun hnames => ?_⟩
  have hplaces := (@names_generate_rename "Old" "New" _ _ "a" {} [[mentionedDocument]] _ rfl (by decide) (by decide) (by decide)
    rfl).mp hnames
  exact absurd hplaces (by decide)

/-- A member that publishes a value made of itself and another member. -/
def joinedDocument : Document :=
  ⟨"a", { resources := [("A", { kind := "topic" }), ("Old", { kind := "topic" })]
          outputs := [("Both", { value := Tree.call "Fn::Join" (.list [.text "", .list [(Reference.node "A").construct,
            (Reference.node "Old").construct]]), exportName := some (.text "both") })] }⟩

/-- The published value still names the other member by its old name. -/
theorem generate_rename_leaves_output : ∃ s r s', ({} : Store).ingestAll [[joinedDocument]] = .ok s ∧
    s.relocate ⟨"a", "Old"⟩ ⟨"a", "New"⟩ = .ok (r, s') ∧ (s'.generate "a").Names "Old" :=
  ⟨_, _, _, rfl, rfl, Or.inr ⟨_, List.mem_singleton_self _, .node "Old", by decide, rfl⟩⟩

end Store

end Regroup
