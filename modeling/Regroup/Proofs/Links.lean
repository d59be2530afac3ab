/-
  Regroup.Proofs.Links — what joins two nodes, and what moves make of it.

  An edge is its two ends and a link, which is a kind and an attribute: the flag follows from them
  (`Edge.Flagged.eq_between`). A move treats the links between two nodes on their own. If one of
  the nodes is moved, only the groups of the two decide what becomes of the links (`relinked`);
  all other links stay (`links_move`).

  What was once made of the links is made anew by the next move of either end
  (`relinked_relinked`), unless the links led to another group to begin with and come to lie
  within one. So two nodes can be moved in either order (`relocateAll_comm`), if nothing but
  imports and export links leads from group to group.
-/

import Regroup.Proofs.Consistency

namespace Regroup

variable {origin destination : Address}

/-! ## Links -/

/-- A kind and an attribute. -/
abbrev Link := EdgeKind × Option String

namespace Link

/-- The link between nodes of different groups, of which none is ordered after the other. -/
def parted : Link → Option Link
  | (.structural, _) => none
  | (.value, attr) | (.attrOf, attr) => some (.imported, attr)
  | link => some link

/-- The link between nodes of one group, where nothing is imported. -/
def joined : Link → Link
  | (.imported, attr) => (.ofAttr attr, attr)
  | link => link

def placed (apart : Bool) (link : Link) : Option Link := if apart then link.parted else some link.joined

def isOrdering (link : Link) : Bool := link.1 == .structural

def isImport (link : Link) : Bool := link.1 == .imported

/-- With an ordering among them. -/
def ordered (links : List Link) : List Link :=
  if links.any isOrdering then links else links ++ [(.structural, none)]

/-- The links between two nodes after one of them was moved. References that were imports come with an
    ordering. -/
def relinked (apart : Bool) (links : List Link) : List Link :=
  if !apart && links.any isImport then ordered (links.filterMap (placed apart)) else links.filterMap (placed apart)

theorem parted_joined (link : Link) : link.joined.parted = link.parted := by
  obtain ⟨kind, attr⟩ := link
  cases kind <;> first | rfl | cases attr <;> rfl

theorem parted_parted (link : Link) : link.parted.bind parted = link.parted := by
  obtain ⟨kind, attr⟩ := link
  cases kind <;> rfl

theorem isImport_joined (link : Link) : link.joined.isImport = false := by
  obtain ⟨kind, attr⟩ := link
  cases kind <;> first | rfl | cases attr <;> rfl

theorem joined_of_not_isImport {link : Link} (h : link.isImport = false) : link.joined = link := by
  obtain ⟨kind, attr⟩ := link
  cases kind <;> first | rfl | cases h

theorem relinked_true (links : List Link) : relinked true links = links.filterMap parted := rfl

theorem relinked_false (links : List Link) :
    relinked false links = if links.any isImport then ordered (links.map joined) else links.map joined := by
  rw [← List.filterMap_eq_map]
  rfl

theorem parted_ordered (links : List Link) : (ordered links).filterMap parted = links.filterMap parted := by
  unfold ordered
  split
  · rfl
  · rw [List.filterMap_append]
    exact List.append_nil _

/-- Nodes that are apart are joined as if they had always been. -/
theorem relinked_true_relinked (apart : Bool) (links : List Link) : relinked true (relinked apart links) = relinked true links := by
  cases apart with
  | true =>
    rw [relinked_true, relinked_true, List.filterMap_filterMap]
    exact List.filterMap_congr fun link _ => link.parted_parted
  | false =>
    have hjoined : (links.map joined).filterMap parted = links.filterMap parted := by
      rw [List.filterMap_map]
      exact List.filterMap_congr fun link _ => link.parted_joined
    rw [relinked_true, relinked_true, relinked_false]
    split
    · rw [parted_ordered, hjoined]
    · exact hjoined

theorem any_isImport_ordered (links : List Link) : (ordered links).any isImport = links.any isImport := by
  unfold ordered
  split
  · rfl
  · rw [List.any_append]
    exact Bool.or_false _

/-- A second move within the group changes nothing. -/
theorem relinked_false_relinked (links : List Link) : relinked false (relinked false links) = relinked false links := by
  have hnone : (relinked false links).any isImport = false := by
    have hjoined : (links.map joined).any isImport = false := by
      rw [List.any_map, List.any_eq_false]
      exact fun link _ => by rw [Function.comp_apply, isImport_joined]; exact Bool.false_ne_true
    rw [relinked_false]
    split
    · rw [any_isImport_ordered, hjoined]
    · exact hjoined
  rw [relinked_false (relinked false links), hnone, if_neg Bool.false_ne_true]
  refine (List.map_congr_left fun link hl => ?_).trans (List.map_id _)
  exact joined_of_not_isImport (by simpa using List.any_eq_false.mp hnone link hl)

/-- The kinds that may lead to another group. -/
def Crossing (link : Link) : Prop := link.1 = .imported ∨ link.1 = .exportLink

theorem relinked_true_of_crossing {links : List Link} (h : ∀ link ∈ links, link.Crossing) : relinked true links = links := by
  have hparted : links.filterMap parted = links.filterMap some := by
    refine List.filterMap_congr fun link hl => ?_
    obtain ⟨kind, attr⟩ := link
    rcases h _ hl with hk | hk <;> cases hk <;> rfl
  rw [relinked_true, hparted, List.filterMap_some]

/-- Where the nodes were between two moves does not matter, or they were apart to begin with. -/
theorem relinked_relinked {between between' after : Bool} {links : List Link} (before : Bool)
    (h : before = true → ∀ link ∈ links, link.Crossing)
    (hplaces : after = false → before = false → between = between') :
    relinked after (relinked between links) = relinked after (relinked between' links) := by
  cases after with
  | true => rw [relinked_true_relinked, relinked_true_relinked]
  | false =>
    cases before with
    | false => rw [hplaces rfl rfl]
    | true =>
      have hsame : ∀ apart, relinked false (relinked apart links) = relinked false links := by
        intro apart
        cases apart with
        | true => rw [relinked_true_of_crossing (h rfl)]
        | false => exact relinked_false_relinked links
      rw [hsame, hsame]

end Link

namespace Edge

def link (e : Edge) : Link := (e.kind, e.attr)

def joins (source target : Address) (e : Edge) : Bool := e.source == source && e.target == target

theorem joins_iff {source target : Address} {e : Edge} : e.joins source target = true ↔ e.source = source ∧ e.target = target := by
  rw [joins, Bool.and_eq_true, beq_iff_eq, beq_iff_eq]

theorem Flagged.eq_between {e : Edge} (h : e.Flagged) : e = .between e.source e.target e.kind e.attr := by
  have hflag : e.crossGroup = crosses e.source e.target e.kind := by
    rw [Bool.eq_iff_iff, crosses, Bool.or_eq_true, beq_iff_eq, bne_iff_ne]
    exact h
  rw [between, ← hflag]

/-- The link of a moved edge is placed as its ends are. -/
theorem link_remaining {e : Edge} (ht : e.touches origin = true) : (e.fate origin destination).remaining?.map link =
    e.link.placed ((e.source.moved origin destination).group != (e.target.moved origin destination).group) := by
  simp only [fate, ht, moved, link, Link.placed]
  by_cases ha : (e.source.moved origin destination).group = (e.target.moved origin destination).group <;> cases e.kind <;>
    simp [ha, Fate.remaining?, refreshed, link, Link.parted, Link.joined]

/-- An edge joins two nodes wherever they are. -/
theorem filter_joins_remaining {e : Edge} {p q : Address} (hsource : e.source ≠ destination) (htarget : e.target ≠ destination)
    (hp : p ≠ destination) (hq : q ≠ destination) :
    (e.fate origin destination).remaining?.filter (joins (p.moved origin destination) (q.moved origin destination)) =
      if e.joins p q then (e.fate origin destination).remaining? else none := by
  rcases hr : (e.fate origin destination).remaining? with _ | e'
  · exact (ite_self _).symm
  · obtain ⟨hsource', htarget', _⟩ := remaining?_fate hr
    have hjoins : e'.joins (p.moved origin destination) (q.moved origin destination) = e.joins p q := by
      rw [Bool.eq_iff_iff, joins_iff, joins_iff, hsource', htarget', Address.moved_inj hsource hp, Address.moved_inj htarget hq]
    rw [Option.filter_some, hjoins]

end Edge

/-! ## The links of a store -/

namespace Store

variable {s s₁ s₂ : Store} {p q : Address}

/-- What joins `source` to `target`, in order. -/
def links (s : Store) (source target : Address) : List Link := (s.edges.filter (Edge.joins source target)).map Edge.link

theorem mem_links {link : Link} : link ∈ s.links p q ↔ ∃ e ∈ s.edges, e.source = p ∧ e.target = q ∧ e.link = link := by
  simp only [links, List.mem_map, List.mem_filter, Edge.joins_iff, and_assoc]

theorem any_links (f : Link → Bool) : (s.links p q).any f = true ↔ ∃ e ∈ s.edges, e.source = p ∧ e.target = q ∧ f e.link = true := by
  rw [List.any_eq_true]
  constructor
  · rintro ⟨link, hl, hf⟩
    obtain ⟨e, he, hsource, htarget, rfl⟩ := mem_links.mp hl
    exact ⟨e, he, hsource, htarget, hf⟩
  · rintro ⟨e, he, hsource, htarget, hf⟩
    exact ⟨e.link, mem_links.mpr ⟨e, he, hsource, htarget, rfl⟩, hf⟩

theorem links_of_not_mem_ids (hends : ∀ e ∈ s.edges, e.source ∈ s.ids ∧ e.target ∈ s.ids) (h : p ∉ s.ids ∨ q ∉ s.ids) :
    s.links p q = [] := by
  refine List.eq_nil_iff_forall_not_mem.mpr fun link hl => ?_
  obtain ⟨e, he, rfl, rfl, _⟩ := mem_links.mp hl
  exact h.elim (· (hends e he).1) (· (hends e he).2)

/-- The edges between two nodes are known from their links. -/
theorem Consistent.filter_joins (hs : s.Consistent) (p q : Address) :
    s.edges.filter (Edge.joins p q) = (s.links p q).map fun link => .between p q link.1 link.2 := by
  rw [links, List.map_map]
  refine (List.map_id _).symm.trans (List.map_congr_left fun e he => ?_)
  obtain ⟨hmem, hj⟩ := List.mem_filter.mp he
  obtain ⟨rfl, rfl⟩ := Edge.joins_iff.mp hj
  exact (hs.flags e hmem).eq_between

/-- Stores with the same links have the same edges. -/
theorem Consistent.perm_edges (hs₁ : s₁.Consistent) (hs₂ : s₂.Consistent) (h : ∀ p q, s₁.links p q = s₂.links p q) :
    s₁.edges.Perm s₂.edges := by
  refine List.perm_iff_count.mpr fun e => ?_
  have hj : e.joins e.source e.target = true := Edge.joins_iff.mpr ⟨rfl, rfl⟩
  rw [← List.count_filter (l := s₁.edges) hj, hs₁.filter_joins, h, ← hs₂.filter_joins, List.count_filter hj]

/-! ## A move -/

theorem links_orderAfter (s : Store) (source target p q : Address) :
    (s.orderAfter source target).links p q = if p = source ∧ q = target then Link.ordered (s.links p q) else s.links p q := by
  have hany : (s.edges.any fun e => e.kind == .structural && e.source == source && e.target == target) =
      (s.links source target).any Link.isOrdering := by
    rw [Bool.eq_iff_iff, any_links, List.any_eq_true]
    simp only [Bool.and_eq_true, beq_iff_eq, Link.isOrdering, Edge.link, and_assoc]
    exact exists_congr fun e => and_congr_right fun _ => by tauto
  unfold orderAfter
  rw [hany]
  by_cases h : p = source ∧ q = target
  · rw [if_pos h]
    obtain ⟨rfl, rfl⟩ := h
    rw [Link.ordered]
    by_cases hordered : (s.links p q).any Link.isOrdering = true
    · rw [if_pos hordered, if_pos hordered]
    · rw [if_neg hordered, if_neg hordered]
      simp [links, Edge.joins, Edge.between, Edge.link]
  · rw [if_neg h]
    split
    · rfl
    · have hj : (Edge.between source target .structural none).joins p q = false := by
        rw [Bool.eq_false_iff, ne_eq, Edge.joins_iff]
        exact fun hend => h ⟨hend.1.symm, hend.2.symm⟩
      simp [links, hj]

/-- One ordering comes with all the restored edges between two nodes. -/
theorem links_restoreAll (es : List Edge) (r : Restoring) (p q : Address) : (es.foldl Restoring.restore r).store.links p q =
    if es.any (Edge.joins p q) then Link.ordered (r.store.links p q) else r.store.links p q := by
  have hordered : ∀ links, Link.ordered (Link.ordered links) = Link.ordered links := by
    intro links
    by_cases h : links.any Link.isOrdering = true
    · simp [Link.ordered, h]
    · simp [Link.ordered, h, Link.isOrdering]
  induction es generalizing r with
  | nil => rfl
  | cons e es ih =>
    have hstep : (r.restore e).store.links p q = (r.store.orderAfter e.source e.target).links p q := by
      rw [links, Restoring.edges_restore, links]
    rw [List.foldl_cons, ih, hstep, links_orderAfter, List.any_cons]
    by_cases h : e.joins p q = true
    · obtain ⟨rfl, rfl⟩ := Edge.joins_iff.mp h
      rw [if_pos (And.intro rfl rfl), h, Bool.true_or, if_pos rfl, hordered, ite_self]
    · have hne : ¬(p = e.source ∧ q = e.target) := fun hends => h (Edge.joins_iff.mpr ⟨hends.1.symm, hends.2.symm⟩)
      rw [if_neg hne, Bool.eq_false_iff.mpr h, Bool.false_or]

section Move

variable (hends : ∀ e ∈ s.edges, e.source ∈ s.ids ∧ e.target ∈ s.ids) (hd : destination ∉ s.ids)
  (hp : p ≠ destination) (hq : q ≠ destination)

include hends hd hp hq

theorem links_departed : (s.departed origin destination).store.links (p.moved origin destination) (q.moved origin destination) =
    if p = origin ∨ q = origin then
      (s.links p q).filterMap (Link.placed ((p.moved origin destination).group != (q.moved origin destination).group))
    else s.links p q := by
  have heach : (s.departed origin destination).store.links (p.moved origin destination) (q.moved origin destination) =
      (s.edges.filter (Edge.joins p q)).filterMap fun e => (e.fate origin destination).remaining?.map Edge.link := by
    rw [links, departed, List.filterMap_map, List.filter_filterMap, List.map_filterMap, List.filterMap_filter]
    refine List.filterMap_congr fun e he => ?_
    rw [Function.comp_apply, Edge.filter_joins_remaining (ne_of_mem_of_not_mem (hends e he).1 hd)
      (ne_of_mem_of_not_mem (hends e he).2 hd) hp hq]
    split <;> rfl
  rw [heach, links]
  by_cases ht : p = origin ∨ q = origin
  · rw [if_pos ht, List.filterMap_map]
    refine List.filterMap_congr fun e he => ?_
    obtain ⟨rfl, rfl⟩ := Edge.joins_iff.mp (List.mem_filter.mp he).2
    exact Edge.link_remaining (Edge.touches_iff.mpr ht)
  · rw [if_neg ht, ← List.filterMap_eq_map]
    refine List.filterMap_congr fun e he => ?_
    obtain ⟨rfl, rfl⟩ := Edge.joins_iff.mp (List.mem_filter.mp he).2
    have hstay : e.touches origin = false := by rwa [Bool.eq_false_iff, ne_eq, Edge.touches_iff]
    simp [Edge.fate, hstay, Fate.remaining?]

/-- A move treats the links between two nodes on their own, and only those of the moved node. -/
theorem links_move : (s.move origin destination).store.links (p.moved origin destination) (q.moved origin destination) =
    if p = origin ∨ q = origin then
      Link.relinked ((p.moved origin destination).group != (q.moved origin destination).group) (s.links p q)
    else s.links p q := by
  have hrestored : (s.departed origin destination).report.restored.any
      (Edge.joins (p.moved origin destination) (q.moved origin destination)) = true ↔
      (p = origin ∨ q = origin) ∧ (p.moved origin destination).group = (q.moved origin destination).group ∧
        (s.links p q).any Link.isImport = true := by
    rw [any_links, List.any_eq_true]
    simp only [mem_report_restored, Edge.joins_iff]
    constructor
    · rintro ⟨_, ⟨e, he, ht, hk, hnear, rfl⟩, hsource, htarget⟩
      obtain rfl := (Address.moved_inj (ne_of_mem_of_not_mem (hends e he).1 hd) hp).mp hsource
      obtain rfl := (Address.moved_inj (ne_of_mem_of_not_mem (hends e he).2 hd) hq).mp htarget
      exact ⟨Edge.touches_iff.mp ht, not_not.mp hnear, e, he, rfl, rfl, beq_iff_eq.mpr hk⟩
    · rintro ⟨ht, hnear, e, he, rfl, rfl, hk⟩
      exact ⟨_, ⟨e, he, Edge.touches_iff.mpr ht, beq_iff_eq.mp hk, not_not.mpr hnear, rfl⟩, rfl, rfl⟩
  have hedges : (s.move origin destination).store.links = (s.restored origin destination).store.links := by
    funext p q
    rw [links, edges_move_eq, links]
  have hconverted : (s.converted origin destination).store.links = (s.departed origin destination).store.links := by
    funext p q
    rw [links, converted, Underway.edges_convertAll, links]
  rw [hedges, restored, links_restoreAll, hconverted, links_departed hends hd hp hq]
  by_cases ht : p = origin ∨ q = origin
  · rw [if_pos ht, if_pos ht, Link.relinked]
    refine if_congr (hrestored.trans ?_) rfl rfl
    rw [and_iff_right ht, Bool.and_eq_true, Bool.not_eq_true', bne_eq_false_iff_eq]
  · rw [if_neg ht, if_neg ht, if_neg fun h => ht (hrestored.mp h).1]

end Move

/-! ## Two moves -/

/-- Nothing but imports and export links leads from group to group. -/
def CrossingsOnly (s : Store) : Prop := ∀ e ∈ s.edges, e.source.group ≠ e.target.group → e.kind = .imported ∨ e.kind = .exportLink

instance (s : Store) : Decidable s.CrossingsOnly := inferInstanceAs (Decidable (∀ e ∈ s.edges, _ → _))

theorem CrossingsOnly.crossing (h : s.CrossingsOnly) (hgroup : p.group ≠ q.group) : ∀ link ∈ s.links p q, link.Crossing := by
  intro link hl
  obtain ⟨e, he, rfl, rfl, rfl⟩ := mem_links.mp hl
  exact h e he hgroup

section Comm

variable {a a' b b' : Address} (hne : a ≠ b) (ha : a' ≠ b) (hb : b' ≠ a)

include hne ha

/-- The other node is met where it was before the move. -/
theorem moved_eq_iff (id : Address) : id.moved a a' = b ↔ id = b := by
  by_cases hid : id = a
  · subst hid
    rw [Address.moved_origin]
    exact iff_of_false ha hne
  · rw [Address.moved_of_ne hid]

include hb

theorem moved_comm (id : Address) : (id.moved a a').moved b b' = (id.moved b b').moved a a' := by
  by_cases hida : id = a
  · subst hida
    rw [Address.moved_origin, Address.moved_of_ne ha, Address.moved_of_ne hne, Address.moved_origin]
  · by_cases hidb : id = b
    · subst hidb
      rw [Address.moved_of_ne hida, Address.moved_origin, Address.moved_of_ne hb]
    · rw [Address.moved_of_ne hida, Address.moved_of_ne hidb, Address.moved_of_ne hida]

theorem headers_move_comm :
    ((s.move a a').store.move b b').store.headers = ((s.move b b').store.move a a').store.headers := by
  rw [headers_move, headers_move, headers_move, headers_move, List.map_map, List.map_map]
  refine List.map_congr_left fun header _ => ?_
  rw [Function.comp_apply, Function.comp_apply, moved_comm hne ha hb]

variable (hs : s.Consistent) (ha' : a' ∉ s.ids) (hb' : b' ∉ s.ids) (hdest : a' ≠ b') (hp : p ∈ s.ids) (hq : q ∈ s.ids)

include hs ha' hb' hdest hp hq

omit hb in
theorem links_move_move :
    ((s.move a a').store.move b b').store.links ((p.moved a a').moved b b') ((q.moved a a').moved b b') =
      let links := if p = a ∨ q = a then Link.relinked ((p.moved a a').group != (q.moved a a').group) (s.links p q)
        else s.links p q
      if p = b ∨ q = b then
        Link.relinked (((p.moved a a').moved b b').group != ((q.moved a a').moved b b').group) links
      else links := by
  have hfree : b' ∉ (s.move a a').store.ids := by
    rw [ids_move]
    rintro hin
    obtain ⟨id, hid, hmoved⟩ := List.mem_map.mp hin
    unfold Address.moved at hmoved
    split at hmoved
    · exact hdest hmoved
    · exact hb' (hmoved ▸ hid)
  rw [links_move (ends_move hs.ends) hfree (ne_of_mem_of_not_mem (mem_ids_move hp a a') hfree)
    (ne_of_mem_of_not_mem (mem_ids_move hq a a') hfree),
    links_move hs.ends ha' (ne_of_mem_of_not_mem hp ha') (ne_of_mem_of_not_mem hq ha')]
  simp only [moved_eq_iff hne ha]

/-- Two moves come to the same links in either order. -/
theorem links_move_comm (hcross : s.CrossingsOnly) :
    ((s.move a a').store.move b b').store.links ((p.moved a a').moved b b') ((q.moved a a').moved b b') =
      ((s.move b b').store.move a a').store.links ((p.moved a a').moved b b') ((q.moved a a').moved b b') := by
  rw [links_move_move hne ha hs ha' hb' hdest hp hq, moved_comm hne ha hb p, moved_comm hne ha hb q,
    links_move_move hne.symm hb hs hb' ha' hdest.symm hp hq, ← moved_comm hne ha hb p, ← moved_comm hne ha hb q]
  by_cases hta : p = a ∨ q = a
  · by_cases htb : p = b ∨ q = b
    · -- The two nodes are the ends, so their groups are known before, between and after the moves.
      simp only [if_pos hta, if_pos htb]
      refine Link.relinked_relinked (p.group != q.group) (fun hgroup => hcross.crossing (by simpa using hgroup)) fun hafter hbefore => ?_
      rw [bne_eq_false_iff_eq] at hafter hbefore
      rcases hta with rfl | rfl
      · obtain rfl := htb.resolve_left hne
        rw [Address.moved_origin, Address.moved_of_ne ha, Address.moved_of_ne hne.symm, Address.moved_origin] at hafter
        rw [Address.moved_origin, Address.moved_of_ne hne.symm, Address.moved_of_ne hne, Address.moved_origin, hafter, hbefore,
          bne_comm]
      · obtain rfl := htb.resolve_right hne
        rw [Address.moved_origin, Address.moved_of_ne ha, Address.moved_of_ne hne.symm, Address.moved_origin] at hafter
        rw [Address.moved_origin, Address.moved_of_ne hne.symm, Address.moved_of_ne hne, Address.moved_origin, hafter, hbefore,
          bne_comm]
    · simp only [if_pos hta, if_neg htb]
      rw [not_or, ← moved_eq_iff hne ha p, ← moved_eq_iff hne ha q] at htb
      rw [Address.moved_of_ne htb.1, Address.moved_of_ne htb.2]
  · simp only [if_neg hta]
    rw [not_or] at hta
    rw [Address.moved_of_ne hta.1, Address.moved_of_ne hta.2]

omit hp hq

theorem perm_edges_move_comm (hcross : s.CrossingsOnly)
    (h₁ : ((s.move a a').store.move b b').store.Consistent) (h₂ : ((s.move b b').store.move a a').store.Consistent) :
    ((s.move a a').store.move b b').store.edges.Perm ((s.move b b').store.move a a').store.edges := by
  have hids := ids_congr (headers_move_comm hne ha hb (s := s))
  refine h₁.perm_edges h₂ fun p q => ?_
  by_cases hknown : p ∈ ((s.move a a').store.move b b').store.ids ∧ q ∈ ((s.move a a').store.move b b').store.ids
  · rw [ids_move, ids_move, List.map_map] at hknown
    obtain ⟨hp, hq⟩ := hknown
    obtain ⟨p₀, hp₀, rfl⟩ := List.mem_map.mp hp
    obtain ⟨q₀, hq₀, rfl⟩ := List.mem_map.mp hq
    exact links_move_comm hne ha hb hs ha' hb' hdest hp₀ hq₀ hcross
  · rw [not_and_or] at hknown
    rw [links_of_not_mem_ids h₁.ends hknown, links_of_not_mem_ids h₂.ends (hids ▸ hknown)]

end Comm

theorem relocate_self {a : Address} {r : Relocation} (h : s.relocate a a = .ok (r, s₁)) : s₁ = s := by
  rcases relocate_eq_ok h with ⟨_, hsame, _⟩ | ⟨hne, _⟩
  · exact hsame
  · exact absurd rfl hne

theorem relocateAll_pair {a a' b b' : Address} (h : s.relocateAll [(a, a'), (b, b')] = .ok s₁) :
    ∃ r t r', s.relocate a a' = .ok (r, t) ∧ t.relocate b b' = .ok (r', s₁) := by
  obtain ⟨r, t, hfirst, hrest⟩ := relocateAll_cons h
  obtain ⟨r', _, hsecond, hend⟩ := relocateAll_cons hrest
  cases hend
  exact ⟨r, t, r', hfirst, hsecond⟩

/-- Two nodes can be moved in either order. The nodes have the same addresses, kinds and metadata
    afterwards, and the same edges lead between them. -/
theorem relocateAll_comm {a a' b b' : Address} (hs : s.Consistent) (hcross : s.CrossingsOnly) (hne : a ≠ b)
    (h₁ : s.relocateAll [(a, a'), (b, b')] = .ok s₁) (h₂ : s.relocateAll [(b, b'), (a, a')] = .ok s₂) :
    s₁.headers = s₂.headers ∧ s₁.edges.Perm s₂.edges := by
  obtain ⟨_, t₁, _, hfirst₁, hsecond₁⟩ := relocateAll_pair h₁
  obtain ⟨_, t₂, _, hfirst₂, hsecond₂⟩ := relocateAll_pair h₂
  have hs₁ := (hs.relocate hfirst₁).relocate hsecond₁
  have hs₂ := (hs.relocate hfirst₂).relocate hsecond₂
  -- A move of a node onto itself changes nothing, so that only the other one counts.
  rcases relocate_eq_ok hfirst₁ with ⟨rfl, rfl, _⟩ | ⟨_, ha, ha', _, rfl⟩
  · rw [hfirst₂] at hsecond₁
    cases hsecond₁
    rw [relocate_self hsecond₂]
    exact ⟨rfl, List.Perm.refl _⟩
  rcases relocate_eq_ok hfirst₂ with ⟨rfl, rfl, _⟩ | ⟨_, hb, hb', _, rfl⟩
  · rw [hfirst₁] at hsecond₂
    cases hsecond₂
    rw [relocate_self hsecond₁]
    exact ⟨rfl, List.Perm.refl _⟩
  rcases relocate_eq_ok hsecond₁ with ⟨rfl, _⟩ | ⟨_, _, hfree, _, rfl⟩
  · exact absurd hb hb'
  rcases relocate_eq_ok hsecond₂ with ⟨rfl, _⟩ | ⟨_, _, _, _, rfl⟩
  · exact absurd ha ha'
  have hdest : a' ≠ b' := by
    have hmem := mem_ids_move ha a a'
    rw [Address.moved_origin] at hmem
    exact ne_of_mem_of_not_mem hmem hfree
  have hab := (ne_of_mem_of_not_mem hb ha').symm
  have hba := (ne_of_mem_of_not_mem ha hb').symm
  exact ⟨headers_move_comm hne hab hba, perm_edges_move_comm hne hab hba hs ha' hb' hdest hcross hs₁ hs₂⟩

/-- A subscription to a topic, and a reader of both in another group. -/
def readTopicStore : Store :=
  let topic : Address := ⟨"infra", "Topic"⟩
  let subscription : Address := ⟨"infra", "Subscription"⟩
  let reader : Address := ⟨"services", "Reader"⟩
  { nodes := [.new topic "topic", .new subscription "subscription", .new reader "reader"]
    edges := [.between subscription topic .structural none, .between subscription topic .attrOf (some "Arn"),
      .between reader topic .imported none, .between reader subscription .imported none] }

/-- The topic and the subscription come to the reader's group. Each brings an ordering, so that the
    edges come in another order. -/
theorem relocateAll_comm_topic : ∃ s₁ s₂,
    readTopicStore.relocateAll [(⟨"infra", "Topic"⟩, ⟨"services", "Topic"⟩),
      (⟨"infra", "Subscription"⟩, ⟨"services", "Subscription"⟩)] = .ok s₁ ∧
    readTopicStore.relocateAll [(⟨"infra", "Subscription"⟩, ⟨"services", "Subscription"⟩),
      (⟨"infra", "Topic"⟩, ⟨"services", "Topic"⟩)] = .ok s₂ ∧
    s₁.edges ≠ s₂.edges ∧ s₁.headers = s₂.headers ∧ s₁.edges.Perm s₂.edges := by
  have hs : readTopicStore.Consistent := by decide
  exact ⟨_, _, rfl, rfl, by decide, @relocateAll_comm readTopicStore _ _ ⟨"infra", "Topic"⟩ ⟨"services", "Topic"⟩
    ⟨"infra", "Subscription"⟩ ⟨"services", "Subscription"⟩ hs (by decide) (by decide) rfl rfl⟩

end Store

end Regroup
