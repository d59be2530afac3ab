/-
  Regroup.Proofs.Departure — a relocation before the trees follow.

  `move` goes through the stores named here: in `departed` the node has its new address and
  every edge its fate; then references are `converted` to imports, imports `restored` to
  references and idle exports `pruned`. What the first of them holds:
  - `fate_cases`: the five things that can happen to an edge.
  - `forall₂_rekeyExportList`: each export follows its source, with the value renamed.
-/

import Regroup.Proofs.Capture
import Regroup.Proofs.Views

namespace Regroup

variable {origin destination : Address}

/-! ## Edges -/

namespace EdgeKind

/-- The kinds of a reference within a group. -/
def IsLocal (k : EdgeKind) : Prop := k = .value ∨ k = .attrOf

theorem IsLocal.ne {k : EdgeKind} (h : k.IsLocal) : k ≠ .structural ∧ k ≠ .imported := by
  rcases h with rfl | rfl
  · exact ⟨by decide, by decide⟩
  · exact ⟨by decide, by decide⟩

theorem isLocal_ofAttr (attr : Option String) : (ofAttr attr).IsLocal := by
  cases attr
  · exact Or.inl rfl
  · exact Or.inr rfl

end EdgeKind

namespace Edge

/-- The endpoints are in different groups after the move. -/
def Apart (origin destination : Address) (e : Edge) : Prop :=
  (e.moved origin destination).source.group ≠ (e.moved origin destination).target.group

/-- The edge as it is when it has become an import. -/
def toImport (origin destination : Address) (e : Edge) : Edge :=
  { e.moved origin destination with kind := .imported, crossGroup := true }

/-- The edge as it is when it has become a reference again. -/
def toReference (origin destination : Address) (e : Edge) : Edge :=
  { e.moved origin destination with kind := .ofAttr e.attr, crossGroup := false }

theorem touches_iff {e : Edge} {id : Address} : e.touches id = true ↔ e.source = id ∨ e.target = id := by
  simp [touches]

theorem moved_of_not_touches {e : Edge} (h : e.touches origin = false) (destination : Address) : e.moved origin destination = e := by
  simp only [touches, Bool.or_eq_false_iff, beq_eq_false_iff_ne] at h
  simp [moved, Address.moved_of_ne h.1, Address.moved_of_ne h.2]

/-- Only the ends matter for what a move does to an edge. -/
theorem apart_congr (origin destination : Address) {e e' : Edge} (hs : e.source = e'.source) (ht : e.target = e'.target) :
    (e.touches origin = e'.touches origin) ∧ (e.Apart origin destination ↔ e'.Apart origin destination) := by
  simp only [touches, Apart, moved, hs, ht, and_self]

/-- What can happen to an edge. -/
theorem fate_cases (origin destination : Address) (e : Edge) :
    (e.touches origin = false ∧ e.fate origin destination = .kept e) ∨
    (e.touches origin = true ∧ e.kind = .structural ∧ e.Apart origin destination ∧
      e.fate origin destination = .dropped (e.moved origin destination)) ∨
    (e.touches origin = true ∧ (e.kind = .exportLink ∨ (e.kind = .imported ↔ e.Apart origin destination)) ∧
      e.fate origin destination = .kept (e.moved origin destination).refreshed) ∨
    (e.touches origin = true ∧ e.kind.IsLocal ∧ e.Apart origin destination ∧
      e.fate origin destination = .converted (e.toImport origin destination)) ∨
    (e.touches origin = true ∧ e.kind = .imported ∧ ¬e.Apart origin destination ∧
      e.fate origin destination = .restored (e.toReference origin destination)) := by
  cases ht : e.touches origin with
  | false => exact Or.inl ⟨rfl, by simp [fate, ht]⟩
  | true =>
    refine Or.inr ?_
    have hkind : (e.moved origin destination).kind = e.kind := rfl
    have hattr : (e.moved origin destination).attr = e.attr := rfl
    simp only [fate, ht, Bool.not_true, Bool.false_eq_true, if_false, hkind, hattr, bne_iff_ne, Apart,
      EdgeKind.IsLocal, toImport, toReference]
    by_cases ha : (e.moved origin destination).source.group = (e.moved origin destination).target.group
    · cases e.kind <;> simp [ha]
    · cases e.kind <;> simp [ha]

theorem converted?_fate {e e' : Edge} : (e.fate origin destination).converted? = some e' ↔
    e.touches origin = true ∧ e.kind.IsLocal ∧ e.Apart origin destination ∧ e' = e.toImport origin destination := by
  rcases e.fate_cases origin destination with
    ⟨ht, hf⟩ | ⟨_, hk, _, hf⟩ | ⟨_, hk, hf⟩ | ⟨ht, hk, ha, hf⟩ | ⟨_, hk, _, hf⟩
  · simp [hf, Fate.converted?, ht]
  · simp [hf, Fate.converted?, EdgeKind.IsLocal, hk]
  · simp only [hf, Fate.converted?, reduceCtorEq, false_iff]
    rintro ⟨_, hl | hl, ha, _⟩ <;> simp [hl, ha] at hk
  · simp [hf, Fate.converted?, ht, hk, ha, eq_comm]
  · simp [hf, Fate.converted?, EdgeKind.IsLocal, hk]

theorem restored?_fate {e e' : Edge} : (e.fate origin destination).restored? = some e' ↔
    e.touches origin = true ∧ e.kind = .imported ∧ ¬e.Apart origin destination ∧ e' = e.toReference origin destination := by
  rcases e.fate_cases origin destination with
    ⟨ht, hf⟩ | ⟨_, hk, _, hf⟩ | ⟨_, hk, hf⟩ | ⟨_, hk, _, hf⟩ | ⟨ht, hk, ha, hf⟩
  · simp [hf, Fate.restored?, ht]
  · simp [hf, Fate.restored?, hk]
  · simp only [hf, Fate.restored?, reduceCtorEq, false_iff]
    rintro ⟨_, hi, ha, _⟩
    simp [hi, ha] at hk
  · simp only [hf, Fate.restored?, reduceCtorEq, false_iff]
    rintro ⟨_, hi, _, _⟩
    simp [EdgeKind.IsLocal, hi] at hk
  · simp [hf, Fate.restored?, ht, hk, ha, eq_comm]

theorem dropped?_fate {e e' : Edge} : (e.fate origin destination).dropped? = some e' ↔
    e.touches origin = true ∧ e.kind = .structural ∧ e.Apart origin destination ∧ e' = e.moved origin destination := by
  rcases e.fate_cases origin destination with
    ⟨ht, hf⟩ | ⟨ht, hk, ha, hf⟩ | ⟨_, hk, hf⟩ | ⟨_, hk, _, hf⟩ | ⟨_, hk, _, hf⟩
  · simp [hf, Fate.dropped?, ht]
  · simp [hf, Fate.dropped?, ht, hk, ha, eq_comm]
  · simp only [hf, Fate.dropped?, reduceCtorEq, false_iff]
    rintro ⟨_, hs, ha, _⟩
    simp [hs, ha] at hk
  · simp [hf, Fate.dropped?, hk.ne.1]
  · simp [hf, Fate.dropped?, hk]

/-- An edge that stays follows its endpoints; its kind changes with its fate only. -/
theorem remaining?_fate {e e' : Edge} (h : (e.fate origin destination).remaining? = some e') :
    e'.source = e.source.moved origin destination ∧ e'.target = e.target.moved origin destination ∧ e'.attr = e.attr ∧
      ((e'.kind = e.kind ∧ (e.touches origin = true → e.kind.IsLocal → ¬e.Apart origin destination) ∧
          (e.touches origin = true → e.kind = .imported → e.Apart origin destination)) ∨
        (e'.kind = .imported ∧ e.touches origin = true ∧ e.kind.IsLocal ∧ e.Apart origin destination) ∨
        (e'.kind = .ofAttr e.attr ∧ e.touches origin = true ∧ e.kind = .imported ∧ ¬e.Apart origin destination)) := by
  rcases e.fate_cases origin destination with
    ⟨ht, hf⟩ | ⟨_, _, _, hf⟩ | ⟨_, hk, hf⟩ | ⟨ht, hk, ha, hf⟩ | ⟨ht, hk, ha, hf⟩ <;> rw [hf] at h <;> cases h
  · have hm := moved_of_not_touches ht destination
    refine ⟨(congrArg Edge.source hm).symm, (congrArg Edge.target hm).symm, rfl, Or.inl ⟨rfl, ?_, ?_⟩⟩ <;> simp [ht]
  · refine ⟨rfl, rfl, rfl, Or.inl ⟨rfl, fun _ hl ha => ?_, fun _ hi => ?_⟩⟩
    · rcases hl with hl | hl <;> simp [hl, ha] at hk
    · rcases hk with hk | hk
      · rw [hi] at hk
        cases hk
      · exact hk.mp hi
  · exact ⟨rfl, rfl, rfl, Or.inr (Or.inl ⟨rfl, ht, hk, ha⟩)⟩
  · exact ⟨rfl, rfl, rfl, Or.inr (Or.inr ⟨rfl, ht, hk, ha⟩)⟩

/-- A reference that is torn apart stays as an import. -/
theorem remaining?_toImport {e : Edge} (ht : e.touches origin = true) (hk : e.kind.IsLocal) (ha : e.Apart origin destination) :
    (e.fate origin destination).remaining? = some (e.toImport origin destination) := by
  have h := converted?_fate.mpr ⟨ht, hk, ha, rfl⟩
  revert h
  cases e.fate origin destination <;> intro h <;> cases h
  rfl

/-- Nothing but an ordering is dropped. -/
theorem exists_remaining?_fate (origin destination : Address) {e : Edge} (h : e.kind ≠ .structural) :
    ∃ e', (e.fate origin destination).remaining? = some e' := by
  rcases e.fate_cases origin destination with
    ⟨_, hf⟩ | ⟨_, hk, _, _⟩ | ⟨_, _, hf⟩ | ⟨_, _, _, hf⟩ | ⟨_, _, _, hf⟩
  · exact ⟨_, by rw [hf]; rfl⟩
  · exact absurd hk h
  all_goals exact ⟨_, by rw [hf]; rfl⟩

/-- The move makes a reference of this import. -/
structure Restored (origin destination : Address) (e : Edge) : Prop where
  touches : e.touches origin = true
  imported : e.kind = .imported
  near : ¬e.Apart origin destination

/-- An import between the same nodes has the same fate. -/
theorem Restored.congr {e e' : Edge} (h : e.Restored origin destination) (hk : e'.kind = .imported)
    (hsource : e'.source = e.source) (htarget : e'.target = e.target) : e'.Restored origin destination := by
  obtain ⟨htouches, hapart⟩ := apart_congr origin destination hsource htarget
  exact ⟨htouches.trans h.touches, hk, fun hap => h.near (hapart.mp hap)⟩

/-- An import that is not restored stays one. -/
theorem remaining_of_imported {e : Edge} (hk : e.kind = .imported) (h : ¬e.Restored origin destination) :
    ∃ e', (e.fate origin destination).remaining? = some e' ∧ e'.kind = .imported ∧
      e'.source = e.source.moved origin destination ∧ e'.target = e.target.moved origin destination ∧ e'.attr = e.attr := by
  obtain ⟨e', hfate⟩ := exists_remaining?_fate origin destination (e := e) (by rw [hk]; decide)
  obtain ⟨hsource, htarget, hattr, hkind⟩ := remaining?_fate hfate
  refine ⟨e', hfate, ?_, hsource, htarget, hattr⟩
  rcases hkind with ⟨hsame, _⟩ | ⟨hsame, _⟩ | ⟨_, ht, _, hnear⟩
  · exact hsame.trans hk
  · exact hsame
  · exact absurd ⟨ht, hk, hnear⟩ h

/-- Only an import may lead to another group. -/
def Within (e : Edge) : Prop := e.kind ≠ .exportLink ∧ (e.kind ≠ .imported → e.source.group = e.target.group)

/-- No edge that stays comes to lead to another group, unless it is an import by then. -/
theorem Within.remaining {e e' : Edge} (h : e.Within) (hr : (e.fate origin destination).remaining? = some e') : e'.Within := by
  rcases e.fate_cases origin destination with
    ⟨_, hf⟩ | ⟨_, _, _, hf⟩ | ⟨_, hk, hf⟩ | ⟨_, _, _, hf⟩ | ⟨_, _, hwhole, hf⟩ <;> rw [hf] at hr <;> cases hr
  · exact h
  · refine ⟨h.1, fun hi => ?_⟩
    rcases hk with hk | hk
    · exact absurd hk h.1
    · exact not_not.mp fun hap => hi (hk.mpr hap)
  · exact ⟨by simp [toImport], fun hi => absurd rfl hi⟩
  · refine ⟨fun hk => ?_, fun _ => not_not.mp hwhole⟩
    rcases EdgeKind.isLocal_ofAttr e.attr with hl | hl <;> cases hl.symm.trans hk

/-- A reference within a group is torn apart by every move of one end to another group. -/
theorem apart_iff {e : Edge} (hgroup : e.source.group = e.target.group) (ht : e.touches origin = true) :
    e.Apart origin destination ↔ e.source ≠ e.target ∧ origin.group ≠ destination.group := by
  have hends : (e.moved origin destination).source = e.source.moved origin destination ∧
      (e.moved origin destination).target = e.target.moved origin destination := ⟨rfl, rfl⟩
  rw [Apart, hends.1, hends.2]
  by_cases hs : e.source = e.target
  · simp [hs]
  · rw [and_iff_right hs]
    rcases touches_iff.mp ht with h | h
    · rw [h] at hgroup hs ⊢
      rw [Address.moved_origin, Address.moved_of_ne (Ne.symm hs), ← hgroup, ne_comm]
    · rw [h] at hgroup hs ⊢
      rw [Address.moved_origin, Address.moved_of_ne hs, hgroup]

end Edge

/-! ## Exports -/

namespace Export

/-- The export `e'` is `e` after its source was moved, or stayed. -/
structure Follows (origin destination : Address) (e e' : Export) : Prop where
  name : e'.name = e.name
  source : e'.source = e.source.moved origin destination
  value : e'.value =
    if e.source = origin then e.value.map fun value => (value.rename origin.name destination.name).result else e.value

theorem rename_construct (name old new : String) :
    ((Reference.node name).construct.rename old new).result = (Reference.node (if name = old then new else name)).construct := by
  have hc : Reference.ofCall? Reference.refKey (.text name) = some (.node name) := rfl
  have hanswer := Reference.answer_renamed_node old new name
  rw [Tree.rename, Tree.redirect, Reference.construct, Tree.call, Tree.redirectAs_construct _ hc, ← hanswer]
  rcases hch : (Reference.node name).change? (Reference.renamed old new) with _ | r'
  · rw [Reference.answer_of_unchanged hch]
    rfl
  · rw [Reference.answer_of_changed hch]

theorem Follows.expression {e e' : Export} (h : e.Follows origin destination e') :
    e'.expression =
      if e.source = origin then (e.expression.rename origin.name destination.name).result else e.expression := by
  unfold Export.expression
  rw [h.value, h.source]
  split
  · rename_i hs
    rcases e.value with _ | value
    · simp [hs, rename_construct]
    · rfl
  · rename_i hs
    rw [Address.moved_of_ne hs]

theorem Follows.import_mem_iff {e e' : Export} (hf : e.Follows origin destination e') (x : String) :
    .imported x ∈ e'.expression.scan ↔ .imported x ∈ e.expression.scan := by
  rw [hf.expression]
  split
  · exact Tree.import_mem_rename _ _ x
  · rfl

end Export

namespace Store

variable {s : Store}

theorem forall₂_rekeyExportList (origin destination : Address) (taken : List String) (es : List Export) :
    List.Forall₂ (Export.Follows origin destination) es (rekeyExportList origin destination taken es) := by
  induction es generalizing taken with
  | nil => exact .nil
  | cons e rest ih =>
    unfold rekeyExportList
    split
    · rename_i hs
      exact .cons ⟨rfl, by rw [hs, Address.moved_origin]; rfl, by rw [if_pos hs]; rfl⟩ (ih _)
    · rename_i hs
      exact .cons ⟨rfl, by rw [Address.moved_of_ne hs], by rw [if_neg hs]⟩ (ih _)

/-- The exports of the other nodes stay as they are. -/
theorem mem_rekeyExportList {e : Export} {es : List Export} (he : e ∈ es) (hs : e.source ≠ origin) (destination : Address)
    (taken : List String) : e ∈ rekeyExportList origin destination taken es := by
  induction es generalizing taken with
  | nil => cases he
  | cons d rest ih =>
    unfold rekeyExportList
    rcases List.mem_cons.mp he with rfl | he
    · rw [if_neg hs]
      exact List.mem_cons_self ..
    · split
      · exact List.mem_cons_of_mem _ (ih he _)
      · exact List.mem_cons_of_mem _ (ih he _)

/-! ## The stores on the way -/

/-- The node at its new address, and each edge after its fate. -/
def departed (s : Store) (origin destination : Address) : Underway :=
  let fates := s.edges.map (Edge.fate origin destination)
  let store := (s.rekeyNode origin destination).rekeyExports origin destination
  ⟨{ store with edges := fates.filterMap Fate.remaining? }, {
    origin, destination
    crossedGroups := origin.group != destination.group
    dropped := fates.filterMap Fate.dropped?
    converted := fates.filterMap Fate.converted?
    restored := fates.filterMap Fate.restored? }⟩

def converted (s : Store) (origin destination : Address) : Underway :=
  (s.departed origin destination).report.converted.foldl (Underway.convert origin destination) (s.departed origin destination)

def restored (s : Store) (origin destination : Address) : Restoring :=
  (s.departed origin destination).report.restored.foldl Restoring.restore { toUnderway := s.converted origin destination }

def pruned (s : Store) (origin destination : Address) : Underway :=
  (s.restored origin destination).idle.foldl Underway.prune (s.restored origin destination).toUnderway

theorem move_eq (s : Store) (origin destination : Address) :
    s.move origin destination = if origin.group = destination.group then (s.pruned origin destination).renameIn origin destination
      else s.pruned origin destination := rfl

/-- A relocation that succeeds changes nothing, or is a move to an empty address. -/
theorem relocate_eq_ok {r : Relocation} {s' : Store} (h : s.relocate origin destination = .ok (r, s')) :
    (origin = destination ∧ s' = s ∧ r.created = [] ∧ r.pruned = []) ∨
    (origin ≠ destination ∧ origin ∈ s.ids ∧ destination ∉ s.ids ∧
      (s.move origin destination).report = r ∧ (s.move origin destination).store = s') := by
  unfold relocate at h
  split at h
  · cases h
  · rename_i horigin
    split at h
    · rename_i heq
      cases h
      exact Or.inl ⟨heq, rfl, rfl, rfl⟩
    · rename_i hne
      split at h
      · cases h
      · rename_i hdest
        cases h
        refine Or.inr ⟨hne, has_iff.mp (by simpa using horigin), fun hmem => hdest (has_iff.mpr hmem), rfl, rfl⟩

theorem headers_departed (s : Store) (origin destination : Address) :
    (s.departed origin destination).store.headers = s.headers.map fun header => (header.1.moved origin destination, header.2) :=
  headers_rekeyNode s origin destination

theorem ids_departed (s : Store) (origin destination : Address) :
    (s.departed origin destination).store.ids = s.ids.map (·.moved origin destination) := by
  rw [ids_eq_headers, headers_departed, ids_eq_headers, List.map_map, List.map_map]
  rfl

theorem tree?_departed {a : Address} (hd : destination ∉ s.ids) (ha : a ≠ destination) :
    (s.departed origin destination).store.tree? (a.moved origin destination) = s.tree? a := tree?_rekeyNode hd ha

theorem exports_departed (s : Store) (origin destination : Address) :
    List.Forall₂ (Export.Follows origin destination) s.exports (s.departed origin destination).store.exports :=
  forall₂_rekeyExportList _ _ _ _

theorem exists_mem_of_forall₂ {α β : Type} {R : α → β → Prop} {xs : List α} {ys : List β} (h : List.Forall₂ R xs ys) {x : α}
    (hx : x ∈ xs) : ∃ y ∈ ys, R x y := by
  induction h with
  | nil => cases hx
  | @cons _ y _ _ hxy _ ih =>
    rcases List.mem_cons.mp hx with rfl | hx
    · exact ⟨y, List.mem_cons_self .., hxy⟩
    · obtain ⟨y', hy, hr⟩ := ih hx
      exact ⟨y', List.mem_cons_of_mem _ hy, hr⟩

theorem exists_follower {e : Export} (origin destination : Address) (h : e ∈ s.exports) :
    ∃ e' ∈ (s.departed origin destination).store.exports, e.Follows origin destination e' :=
  exists_mem_of_forall₂ (exports_departed s origin destination) h

theorem exists_followed {e' : Export} (h : e' ∈ (s.departed origin destination).store.exports) :
    ∃ e ∈ s.exports, e.Follows origin destination e' :=
  exists_mem_of_forall₂ (exports_departed s origin destination).flip h

theorem exportNames_departed (s : Store) (origin destination : Address) :
    (s.departed origin destination).store.exportNames = s.exportNames := by
  have hnames : ∀ {es es' : List Export}, List.Forall₂ (Export.Follows origin destination) es es' →
      es'.map (·.name) = es.map (·.name) := by
    intro es es' h
    induction h with
    | nil => rfl
    | cons hf _ ih => rw [List.map_cons, List.map_cons, hf.name, ih]
  exact hnames (exports_departed s origin destination)

theorem mem_edges_departed {e' : Edge} : e' ∈ (s.departed origin destination).store.edges ↔
    ∃ e ∈ s.edges, (e.fate origin destination).remaining? = some e' := by
  simp [departed, List.mem_filterMap]

theorem mem_report_converted {e' : Edge} : e' ∈ (s.departed origin destination).report.converted ↔
    ∃ e ∈ s.edges, e.touches origin = true ∧ e.kind.IsLocal ∧ e.Apart origin destination ∧
      e' = e.toImport origin destination := by
  simp only [departed, List.mem_filterMap, List.mem_map, exists_exists_and_eq_and, Edge.converted?_fate]

theorem mem_report_restored {e' : Edge} : e' ∈ (s.departed origin destination).report.restored ↔
    ∃ e ∈ s.edges, e.touches origin = true ∧ e.kind = .imported ∧ ¬e.Apart origin destination ∧
      e' = e.toReference origin destination := by
  simp only [departed, List.mem_filterMap, List.mem_map, exists_exists_and_eq_and, Edge.restored?_fate]

end Store

end Regroup
