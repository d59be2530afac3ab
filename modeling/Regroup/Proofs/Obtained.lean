/-
  Regroup.Proofs.Obtained — both forms carry every template that there is.

  A template is read from a text, or generated from a store that documents and relocations
  made. Such a store keeps what a template needs to be read back: trees with each field once,
  and nothing declared with a resource by the name of one of its own parts
  (`Store.WellFormed`). Documents bring this along, and a move only redirects trees and puts
  published expressions into them. So JSON and YAML both give every such template back
  (`reads_of_obtained`).
-/

import Regroup.Proofs.Consistency
import Regroup.Proofs.RoundTrip
import Regroup.Template.Text

namespace Regroup

/-- The tree has each field once, and what else is declared has other names than the known parts. -/
structure Node.WellFormed (node : Node) : Prop where
  tree : node.properties.WellKeyed
  extra : (Tree.record (node.metadata.getD [])).WellKeyed
  apart : ∀ key ∈ Fields.keys (node.metadata.getD []), key ∉ Resource.known

namespace Store

variable {s s' : Store} {origin destination : Address}

structure WellFormed (s : Store) : Prop where
  consistent : s.Consistent
  nodes : ∀ node ∈ s.nodes, node.WellFormed
  expressions : ∀ e ∈ s.exports, e.expression.WellKeyed

theorem wellFormed_empty (naming : Naming) : WellFormed { naming } :=
  ⟨consistent_empty naming, by simp, by simp⟩

/-! ## Documents -/

theorem wellFormed_of_mem_nodes {documents : List Document} (hd : ∀ d ∈ documents, d.template.WellFormed) {node : Node}
    (hn : node ∈ documents.flatMap Document.nodes) : node.WellFormed := by
  obtain ⟨d, hin, name, resource, hres, rfl⟩ := mem_nodes_document.mp hn
  have hresource := (hd d hin).resources _ hres
  have hextra : (if resource.extra.isEmpty then none else some resource.extra).getD [] = resource.extra := by
    by_cases hempty : resource.extra.isEmpty = true
    · rw [if_pos hempty, List.isEmpty_iff.mp hempty]
      rfl
    · rw [if_neg hempty]
      rfl
  refine ⟨?_, ?_, ?_⟩
  · show (resource.properties.getD .emptyRecord).WellKeyed
    rcases hproperties : resource.properties with _ | tree
    · exact Tree.wellKeyed_emptyRecord
    · exact (hresource.properties tree hproperties).2
  · dsimp only
    rw [hextra]
    exact hresource.extra
  · dsimp only
    rw [hextra]
    exact hresource.apart

theorem WellFormed.ingest (hs : s.WellFormed) {documents : List Document} (hd : ∀ d ∈ documents, d.template.WellFormed)
    (h : s.ingest documents = .ok s') : s'.WellFormed := by
  refine ⟨hs.consistent.ingest h, fun node hn => ?_, fun e he => ?_⟩
  all_goals obtain ⟨_, _, rfl⟩ := (ingest_eq_ok_iff hs.consistent.ids documents).mp h
  · rcases List.mem_append.mp hn with hn | hn
    · exact hs.nodes node hn
    · exact wellFormed_of_mem_nodes hd hn
  · rcases mem_putAll he with he | he
    · exact hs.expressions e he
    · obtain ⟨d, hin, he⟩ := List.mem_flatMap.mp he
      obtain ⟨outputId, output, hout, _, _, _, he⟩ := mem_exports.mp he
      rw [he]
      exact ((hd d hin).outputs _ hout).value

/-! ## Moves -/

theorem wellKeyed_converted (h : ∀ e ∈ s.exports, e.expression.WellKeyed) :
    ∀ e ∈ (s.converted origin destination).store.exports, e.expression.WellKeyed := by
  intro e' he'
  rcases mem_exports_converted he' with ⟨e, he, hf⟩ | ⟨_, _, _, _, _, hmade⟩
  · rw [hf.expression]
    split
    · exact (h e he).redirect
    · exact h e he
  · rw [Export.expression, hmade.2, Option.getD_some]
    exact Tree.wellKeyed_construct _

theorem wellKeyed_move (hd : destination ∉ s.ids) (h : s.Trees Tree.WellKeyed) (hvalues : ∀ e ∈ s.exports, e.expression.WellKeyed) :
    (s.move origin destination).store.Trees Tree.WellKeyed := by
  have hconverted : (s.converted origin destination).store.Trees Tree.WellKeyed :=
    (h.departed hd).convertAll (fun _ _ ht => ht.redirect) _
  have hinlining : (s.converted origin destination).store.Inlining Tree.WellKeyed :=
    fun e he _ _ ht => ht.substitute (wellKeyed_converted hvalues e he)
  have hrestored := Trees.restoreAll (r := { toUnderway := s.converted origin destination }) hconverted hinlining
    (s.departed origin destination).report.restored
  exact Trees.move_of_restored hrestored fun _ ht => ht.redirect

theorem WellFormed.move (hs : s.WellFormed) (hd : destination ∉ s.ids) : (s.move origin destination).store.WellFormed := by
  have htrees : s.Trees Tree.WellKeyed := by
    intro a t ht
    obtain ⟨node, hn, _, rfl⟩ := exists_of_tree? ht
    exact (hs.nodes node hn).tree
  have hconsistent : (s.move origin destination).store.Consistent := hs.consistent.move hd
  refine ⟨hconsistent, fun node' hn' => ?_, fun e he => ?_⟩
  · -- The node has the metadata of one from before.
    have hheader : node'.header ∈ (s.move origin destination).store.headers := List.mem_map_of_mem hn'
    rw [headers_move, List.mem_map] at hheader
    obtain ⟨header, hin, heq⟩ := hheader
    obtain ⟨node, hn, rfl⟩ := List.mem_map.mp hin
    have hmetadata : node'.metadata = node.metadata := (congrArg (·.2.2) heq).symm
    have hnode := hs.nodes node hn
    refine ⟨wellKeyed_move hd htrees hs.expressions _ _ (tree?_of_mem hconsistent.ids hn'), ?_, ?_⟩
    · rw [hmetadata]
      exact hnode.extra
    · rw [hmetadata]
      exact hnode.apart
  · exact wellKeyed_converted hs.expressions e ((exports_move s origin destination).1.subset he)

theorem WellFormed.relocate (hs : s.WellFormed) {r : Relocation} (h : s.relocate origin destination = .ok (r, s')) :
    s'.WellFormed := by
  rcases relocate_eq_ok h with ⟨_, rfl, _⟩ | ⟨_, _, hd, _, rfl⟩
  · exact hs
  · exact hs.move hd

/-! ## Templates -/

theorem WellFormed.resourceFor (hs : s.WellFormed) (group : String) {node : Node} (hn : node ∈ s.nodes) :
    (s.resourceFor group node).WellFormed := by
  have hnode := hs.nodes node hn
  refine ⟨fun tree htree => ?_, hnode.extra, hnode.apart⟩
  obtain ⟨hempty, htree⟩ := Option.ite_none_left_eq_some.mp htree
  cases htree
  refine ⟨fun hnull => hempty ?_, hnode.tree.redirect⟩
  rw [hnull]
  rfl

theorem keys_outputsFrom (s : Store) (done : Fields Output) (es : List Export) (h : (Fields.keys done).Nodup) :
    (Fields.keys (s.outputsFrom done es)).Nodup := by
  induction es generalizing done with
  | nil => exact h
  | cons e es ih =>
    refine ih _ ?_
    rw [Fields.keys, List.map_append]
    refine List.nodup_append.mpr ⟨h, List.nodup_singleton _, fun a ha b hb heq => ?_⟩
    rw [List.mem_singleton.mp hb] at heq
    exact Fresh.name_not_mem _ _ _ (heq ▸ ha)

theorem WellFormed.generate (hs : s.WellFormed) (group : String) : (s.generate group).WellFormed := by
  refine ⟨Fields.nodup_ofPairs _, keys_outputsFrom s [] _ List.nodup_nil, fun field hf => ?_, fun field hf => ?_⟩
  · obtain ⟨node, hn, rfl⟩ := List.mem_map.mp (Fields.mem_ofPairs hf)
    exact hs.resourceFor group (List.mem_filter.mp hn).1
  · have hout : field.2 ∈ (s.generate group).outputs.map (·.2) := List.mem_map_of_mem hf
    rw [outputs_generate] at hout
    obtain ⟨e, he, heq⟩ := List.mem_map.mp hout
    rw [← heq]
    refine ⟨hs.expressions e (List.mem_filter.mp he).1, fun name hname => ?_⟩
    cases hname
    exact .text e.name

end Store

/-! ## Where templates come from -/

mutual

/-- A template read from a text, or generated from a store that such templates made. -/
inductive Template.Obtained : Template → Prop where
  | parsed {format : Format} {text : String} {t : Template} (h : Template.parse format text = .ok t) : Template.Obtained t
  | generated {s : Store} (hs : Store.Built s) (group : String) : Template.Obtained (s.generate group)

/-- A store made from the empty one by reading documents and relocating nodes. -/
inductive Store.Built : Store → Prop where
  | empty (naming : Naming) : Store.Built { naming }
  | ingest {s s' : Store} {documents : List Document} (hs : Store.Built s) (hd : ∀ d ∈ documents, Template.Obtained d.template)
      (h : s.ingest documents = .ok s') : Store.Built s'
  | relocate {s s' : Store} {origin destination : Address} {r : Relocation} (hs : Store.Built s)
      (h : s.relocate origin destination = .ok (r, s')) : Store.Built s'

end

theorem ok_of_toOption {ε α : Type} {x : Except ε α} {a : α} (h : x.toOption = some a) : x = .ok a := by
  cases x with
  | error e => cases h
  | ok b =>
    cases h
    rfl

theorem Template.wellFormed_of_parse {format : Format} {text : String} {t : Template} (h : parse format text = .ok t) :
    t.WellFormed := by
  have hsome : ∀ o : Option Template, o.elim (.error .json) .ok = (.ok t : Except TemplateError Template) → o = some t := by
    intro o ho
    cases o with
    | none => cases ho
    | some t' =>
      cases ho
      rfl
  unfold parse at h
  cases format with
  | json =>
    obtain ⟨v, _, hread⟩ := Option.bind_eq_some_iff.mp (hsome _ h)
    exact wellFormed_of_ofJson? hread
  | yaml =>
    dsimp only at h
    split at h
    · cases h
    · split at h
      · cases h
      · exact wellFormed_of_ofJson? (hsome _ h)

mutual

theorem Template.Obtained.wellFormed : ∀ {t : Template}, t.Obtained → t.WellFormed
  | _, .parsed h => Template.wellFormed_of_parse h
  | _, .generated hs group => hs.wellFormed.generate group

theorem Store.Built.wellFormed : ∀ {s : Store}, s.Built → s.WellFormed
  | _, .empty naming => Store.wellFormed_empty naming
  | _, .ingest hs hd h => hs.wellFormed.ingest (fun d hin => (hd d hin).wellFormed) h
  | _, .relocate hs h => hs.wellFormed.relocate h

end

/-- What such a template is written as, in JSON or in YAML, is read as the same template. -/
theorem Template.reads_of_obtained {t : Template} (h : t.Obtained) : ofJson? (.ofTree t.toTree) = some t ∧
    ∃ tree, (Yaml.ofTree t.toTree).toTree = .ok tree ∧ ofJson? (.ofTree tree) = some t :=
  h.wellFormed.reads

/-- A queue, and a reader that is ordered after it and refers to it by a tag. -/
def queueText : String :=
  "Resources:\n  Queue:\n    Type: queue\n    Condition: Live\n" ++
  "  Reader:\n    Type: reader\n    DependsOn: [Queue]\n    Properties:\n      From: !GetAtt Queue.Arn\n"

/-- The reader is moved to another group, and imports what it reads from then on. -/
theorem reads_of_obtained_queue : ∃ t s r s', Template.parse .yaml queueText = .ok t ∧
    ({} : Store).ingest [⟨"a", t⟩] = .ok s ∧ s.relocate ⟨"a", "Reader"⟩ ⟨"b", "Reader"⟩ = .ok (r, s') ∧
    r.created = ["a-Queue-Arn"] ∧ Template.ofJson? (.ofTree t.toTree) = some t ∧
    ∃ tree, (Yaml.ofTree (s'.generate "b").toTree).toTree = .ok tree ∧
      Template.ofJson? (.ofTree tree) = some (s'.generate "b") := by
  have hruns : ((Template.parse .yaml queueText).toOption.bind fun t =>
      (({} : Store).ingest [⟨"a", t⟩]).toOption.bind fun s =>
        (s.relocate ⟨"a", "Reader"⟩ ⟨"b", "Reader"⟩).toOption.map fun (r, _) => r.created) = some ["a-Queue-Arn"] := by
    decide +kernel
  obtain ⟨t, ht, hruns⟩ := Option.bind_eq_some_iff.mp hruns
  obtain ⟨s, hs, hruns⟩ := Option.bind_eq_some_iff.mp hruns
  obtain ⟨⟨r, s'⟩, hr, hcreated⟩ := Option.map_eq_some_iff.mp hruns
  have hparsed := ok_of_toOption ht
  have hingested := ok_of_toOption hs
  have hrelocated := ok_of_toOption hr
  have hobtained : t.Obtained := .parsed hparsed
  have hbuilt : s'.Built := .relocate (.ingest (.empty {}) (by simpa using hobtained) hingested) hrelocated
  exact ⟨t, s, r, s', hparsed, hingested, hrelocated, hcreated, (Template.reads_of_obtained hobtained).1,
    (Template.reads_of_obtained (.generated hbuilt "b")).2⟩

end Regroup
