/-
  Regroup.Proofs.Transit — the references of a tree on its way through a move.

  The edges and the trees say the same twice: an edge says that its source refers to its target,
  and a reference in the source's tree says so again (`Edge.Stated`). A move changes the two by
  different code. `Grounded.stated_move` is that they come to the same: what was stated by a
  reference is stated by one of those that it is carried to. `Grounded.import_mem_carriedTo` is
  where the imports come from that are in a tree afterwards.
-/

import Regroup.Proofs.Grounded

namespace Regroup

variable {origin destination : Address}

/-! ## Exports -/

@[simp] theorem Exposure.attr?_ofAttr (attr : Option String) : (ofAttr attr).attr? = attr := by
  cases attr <;> rfl

theorem Exposure.ofReference_ofTarget (name n : String) (attr : Option String) :
    ofReference name (some (.ofTarget n attr)) = if n = name then ofAttr attr else .computed := by
  cases attr <;> rfl

namespace Export

/-- The published expression refers to what the export shows of its source. -/
def Evident (e : Export) : Prop := .ofTarget e.source.name e.exposure.attr? ∈ e.expression.scan

theorem exposure_eq (e : Export) : e.exposure = .ofReference e.source.name e.expression.reference? := by
  unfold exposure expression
  rcases e.value with _ | value
  · simp [reference?_construct, Exposure.ofReference]
  · rfl

theorem Evident.names {e : Export} (h : e.Evident) : e.expression.Names e.source.name :=
  ⟨_, h, Reference.targetName?_ofTarget _ _⟩

/-- An export shows the same after its source was moved. -/
theorem Follows.exposure {e e' : Export} (hf : e.Follows origin destination e') (h : e.expression.Names e.source.name) :
    e'.exposure = e.exposure := by
  have hexpression := hf.expression
  rw [e'.exposure_eq, e.exposure_eq, hexpression, hf.source]
  split
  · rename_i hs
    rw [Tree.rename, Tree.reference?_redirect]
    rcases hr : e.expression.reference? with _ | r
    · rfl
    · -- The expression is one reference, so it is the one to the source.
      obtain ⟨q, hq, hname⟩ := h
      rw [Tree.scan, Tree.scanAs_of_reference? hr, List.mem_singleton] at hq
      subst hq
      rcases q.eq_imported_or_ofTarget with ⟨x, rfl⟩ | ⟨name, attr, rfl⟩
      · cases hname
      · rw [Reference.targetName?_ofTarget, Option.some.injEq] at hname
        rw [hname, Option.map_some, Reference.answer_renamed_ofTarget, hs, if_pos rfl, Address.moved_origin,
          Exposure.ofReference_ofTarget, Exposure.ofReference_ofTarget, if_pos rfl, if_pos rfl]
  · rename_i hs
    rw [Address.moved_of_ne hs]

section Follows

variable {e e' : Export} (hf : e.Follows origin destination e')
  (hren : e.source = origin → e.expression.Renamable origin.name destination.name)

include hf hren

/-- What refers to the source refers to it under its new name, where that can be written. -/
theorem Follows.mem_scan {attr : Option String} (h : .ofTarget e.source.name attr ∈ e.expression.scan) :
    .ofTarget e'.source.name attr ∈ e'.expression.scan := by
  have hexpression := hf.expression
  rw [hf.source, hexpression]
  split
  · rename_i hs
    have hscan := (hren hs).scan_rename.symm.subset (List.mem_map_of_mem h)
    rw [Reference.answer_renamed_ofTarget, hs, if_pos rfl] at hscan
    rwa [hs, Address.moved_origin]
  · rename_i hs
    rwa [Address.moved_of_ne hs]

theorem Follows.names (h : e.expression.Names e.source.name) : e'.expression.Names e'.source.name := by
  obtain ⟨r, hr, hname⟩ := h
  rcases r.eq_imported_or_ofTarget with ⟨x, rfl⟩ | ⟨name, attr, rfl⟩
  · cases hname
  · rw [Reference.targetName?_ofTarget, Option.some.injEq] at hname
    exact ⟨_, hf.mem_scan hren (hname ▸ hr), Reference.targetName?_ofTarget _ _⟩

theorem Follows.evident (h : e.Evident) : e'.Evident := by
  rw [Evident, hf.exposure h.names]
  exact hf.mem_scan hren h

end Follows

theorem Follows.standalone {e e' : Export} (hf : e.Follows origin destination e') (h : e.Standalone) : e'.Standalone := by
  refine ⟨?_, fun x hx => h.no_imports x ((hf.import_mem_iff x).mp hx)⟩
  obtain ⟨fields, hfields⟩ := h.record
  rw [hf.expression]
  split
  · rw [hfields]
    exact Tree.redirect_record fields
  · exact ⟨fields, hfields⟩

/-- The published expression is one whole reference to the source. -/
def Shows (e : Export) (attr : Option String) : Prop := e.expression.reference? = some (.ofTarget e.source.name attr)

theorem Shows.exposure {e : Export} {attr : Option String} (h : e.Shows attr) : e.exposure = .ofAttr attr := by
  rw [e.exposure_eq, h, Exposure.ofReference_ofTarget, if_pos rfl]

theorem Shows.scan {e : Export} {attr : Option String} (h : e.Shows attr) :
    e.expression.scan = [.ofTarget e.source.name attr] := Tree.scanAs_of_reference? h

theorem Shows.evident {e : Export} {attr : Option String} (h : e.Shows attr) : e.Evident := by
  rw [Evident, h.scan, h.exposure, Exposure.attr?_ofAttr]
  exact List.mem_singleton_self _

theorem Shows.standalone {e : Export} {attr : Option String} (h : e.Shows attr) : e.Standalone := by
  refine ⟨?_, fun name hin => ?_⟩
  · unfold Shows at h
    revert h
    cases e.expression with
    | record fields => exact fun _ => ⟨fields, rfl⟩
    | _ => intro h; cases h
  · rw [h.scan, List.mem_singleton] at hin
    cases attr <;> cases hin

theorem Shows.follows {e e' : Export} {origin destination : Address} {attr : Option String} (h : e.Shows attr)
    (hf : e.Follows origin destination e') : e'.Shows attr := by
  unfold Shows at h ⊢
  rw [hf.expression, hf.source]
  split
  · rename_i hs
    rw [Tree.rename, Tree.reference?_redirect, h, Option.map_some, Reference.answer_renamed_ofTarget, hs, if_pos rfl,
      Address.moved_origin]
  · rename_i hs
    rw [h, Address.moved_of_ne hs]

end Export

theorem Store.IsMade.shows {target : Address} {attr : Option String} {e : Export} (h : Store.IsMade target attr e) :
    e.Shows attr := by
  unfold Export.Shows Export.expression
  rw [h.1, h.2, Option.getD_some, reference?_construct]

/-- The reference, in the tree of the edge's source, says what the edge says. -/
def Edge.Stated (exports : List Export) (e : Edge) (r : Reference) : Prop :=
  (e.kind.IsLocal ∧ r = .ofTarget e.target.name e.attr) ∨
    (e.kind = .imported ∧ ∃ ex ∈ exports, ex.source = e.target ∧ ex.exposure.attr? = e.attr ∧ r = .imported ex.name)

namespace Store

variable {s : Store} {a : Address}

/-! ## References -/

theorem renamingAt_imported (x : String) : renamingAt origin destination a (.imported x) = .imported x := by
  unfold renamingAt
  split <;> rfl

theorem isImport_renamingAt (origin destination a : Address) (r : Reference) :
    (renamingAt origin destination a r).isImport = r.isImport := by
  unfold renamingAt
  split
  · exact Reference.isImport_answer_renamed _ _ r
  · rfl

/-- A reference that was restored names a node that no rename changes. -/
theorem renamingAt_restored {t : Address} (hne : origin ≠ destination) (ht : a = origin ∨ t = origin) (attr : Option String) :
    renamingAt origin destination (a.moved origin destination) (.ofTarget (t.moved origin destination).name attr) =
      .ofTarget (t.moved origin destination).name attr := by
  unfold renamingAt
  split
  · rename_i hmember
    obtain ⟨hsame, _, hother⟩ := hmember
    have ht : t = origin := by
      rcases ht with rfl | ht
      · exact absurd (Address.moved_origin a destination) hother
      · exact ht
    have hname : destination.name ≠ origin.name := fun h => hne (Address.ext hsame h.symm)
    rw [ht, Address.moved_origin, Reference.answer_renamed_ofTarget, if_neg hname]
  · rfl

section Step

variable (hs : s.Grounded) (hd : destination ∉ s.ids)

include hs hd

/-- A reference within a group stays one, or becomes an import, as its edge does. -/
theorem Grounded.stated_inGroup {e e' : Edge} (he : e ∈ s.edges) (hk : e.kind.IsLocal) (hother : e.target ≠ e.source)
    (hfate : (e.fate origin destination).remaining? = some e') :
    ∃ r' ∈ s.carriedTo origin destination (e.source.moved origin destination) (.ofTarget e.target.name e.attr),
      e'.Stated (s.converted origin destination).store.exports r' := by
  obtain ⟨_, htarget', hattr', hfate⟩ := Edge.remaining?_fate hfate
  have ha := (hs.ends e he).1
  have hgroup := hs.in_group he hk
  have haway : e.source ≠ destination := ne_of_mem_of_not_mem ha hd
  rcases hs.conversionAt_cases hd ha (.ofTarget e.target.name e.attr) with
    ⟨hsame, hno⟩ | ⟨e₁, he₁, hsource₁, ht₁, hk₁, hap₁, hr₁, ex, hex, hexsource, hexposure, himport⟩
  · -- The edge stays in its group, and the reference with it.
    have hwhole : e.touches origin = true → ¬e.Apart origin destination := fun ht hap => hno e he rfl ht hk hap rfl
    have hkind : e'.kind = e.kind := by
      rcases hfate with ⟨h, _⟩ | ⟨_, ht, _, hap⟩ | ⟨_, _, hi, _⟩
      · exact h
      · exact absurd hap (hwhole ht)
      · exact absurd hi hk.ne.2
    have hnear : e.target = origin → (e.source.moved origin destination).group = destination.group := by
      intro ht
      have := not_not.mp (hwhole (Edge.touches_iff.mpr (Or.inr ht)))
      simpa [Edge.moved, ht] using this
    refine ⟨.ofTarget e'.target.name e'.attr, ?_, Or.inl ⟨hkind ▸ hk, rfl⟩⟩
    rw [carriedTo, hsame, restorationAt_of_local (by simp), List.map_singleton,
      renamingAt_ofTarget haway hgroup hother hnear, htarget', hattr']
    exact List.mem_singleton_self _
  · -- The edge is torn apart, and the reference becomes an import.
    obtain ⟨hname, hattr⟩ := Reference.ofTarget_inj.mp hr₁
    have htarget : e₁.target = e.target := Address.ext (by rw [← hs.in_group he₁ hk₁, hsource₁, hgroup]) hname
    obtain ⟨htouches, hapart⟩ := Edge.apart_congr origin destination hsource₁ htarget
    have hkind : e'.kind = .imported := by
      rcases hfate with ⟨_, hwhole, _⟩ | ⟨h, _⟩ | ⟨_, _, hi, _⟩
      · exact absurd (hapart.mp hap₁) (hwhole (htouches ▸ ht₁) hk)
      · exact h
      · exact absurd hi hk.ne.2
    have hstay : s.restorationAt origin destination (e.source.moved origin destination) (.imported ex.name) =
        [.imported ex.name] := by
      rcases hs.restorationAt_imported hex with ⟨hin, _⟩ | ⟨_, h⟩
      · obtain ⟨e₂, he₂, hsource₂, htarget₂, _, _, hwhole⟩ := (hs.inlines_iff hd ha).mp hin
        rw [hexsource, Address.moved_inj (ne_of_mem_of_not_mem (hs.ends e₂ he₂).2 hd)
          (ne_of_mem_of_not_mem (hs.ends e₁ he₁).2 hd)] at htarget₂
        exact absurd ((Edge.apart_congr origin destination (hsource₂.trans hsource₁.symm) htarget₂).2.mpr hap₁) hwhole
      · exact h
    refine ⟨.imported ex.name, ?_, Or.inr ⟨hkind, ex, hex, ?_, ?_, rfl⟩⟩
    · rw [carriedTo, himport, hstay, List.map_singleton, renamingAt_imported]
      exact List.mem_singleton_self _
    · rw [hexsource, htarget, htarget']
    · rw [hexposure, Exposure.attr?_ofAttr, hattr, hattr']

/-- An import stays one, or gives way to an expression that refers to its source. -/
theorem Grounded.stated_imported (hne : origin ≠ destination) {e e' : Edge}
    (hevident : ∀ ex ∈ (s.converted origin destination).store.exports,
      s.Inlines origin destination (e.source.moved origin destination) ex → ex.Evident) (he : e ∈ s.edges)
    (hk : e.kind = .imported) {ex : Export} (hex : ex ∈ s.exports) (hexsource : ex.source = e.target)
    (hexposure : ex.exposure.attr? = e.attr) (hnamed : ex.expression.Names ex.source.name)
    (hfate : (e.fate origin destination).remaining? = some e') :
    ∃ r' ∈ s.carriedTo origin destination (e.source.moved origin destination) (.imported ex.name),
      e'.Stated (s.converted origin destination).store.exports r' := by
  obtain ⟨_, htarget', hattr', hfate⟩ := Edge.remaining?_fate hfate
  obtain ⟨ex', hex', hf⟩ := exists_follower_converted origin destination hex
  have hsource' : ex'.source = e'.target := by rw [hf.source, htarget', hexsource]
  have hexposure' : ex'.exposure.attr? = e'.attr := by rw [hf.exposure hnamed, hexposure, hattr']
  rw [← hf.name]
  rcases hs.restorationAt_imported hex' with ⟨hin, hrest⟩ | ⟨hout, hrest⟩
  · -- The edge comes to lie within a group, and the expression takes the place of the import.
    obtain ⟨e₂, he₂, hsource₂, htarget₂, ht₂, _, hwhole⟩ := (hs.inlines_iff hd (hs.ends e he).1).mp hin
    rw [hsource', htarget', Address.moved_inj (ne_of_mem_of_not_mem (hs.ends e₂ he₂).2 hd)
      (ne_of_mem_of_not_mem (hs.ends e he).2 hd)] at htarget₂
    obtain ⟨htouches, hiff⟩ := Edge.apart_congr origin destination hsource₂ htarget₂
    have hkind : e'.kind.IsLocal := by
      rcases hfate with ⟨_, _, hap⟩ | ⟨_, _, hl, _⟩ | ⟨h, _⟩
      · exact absurd (hiff.mpr (hap (htouches ▸ ht₂) hk)) hwhole
      · exact absurd hk hl.ne.2
      · exact h ▸ EdgeKind.isLocal_ofAttr _
    refine ⟨.ofTarget e'.target.name e'.attr, ?_, Or.inl ⟨hkind, rfl⟩⟩
    have htouch : e.source = origin ∨ e.target = origin := Edge.touches_iff.mp (htouches ▸ ht₂)
    have hshown := hevident ex' hex' hin
    rw [Export.Evident, hsource', hexposure'] at hshown
    rw [carriedTo, conversionAt_imported, hrest]
    refine List.mem_map.mpr ⟨_, hshown, ?_⟩
    rw [htarget', renamingAt_restored hne htouch]
  · have hkind : e'.kind = .imported := by
      rcases hfate with ⟨h, _⟩ | ⟨h, _⟩ | ⟨_, ht, _, hwhole⟩
      · exact h.trans hk
      · exact h
      · refine absurd ((hs.inlines_iff hd (hs.ends e he).1).mpr ⟨e, he, rfl, ?_, ht, hk, hwhole⟩) hout
        rw [hf.source, hexsource]
    refine ⟨.imported ex'.name, ?_, Or.inr ⟨hkind, ex', hex', hsource', hexposure', rfl⟩⟩
    rw [carriedTo, conversionAt_imported, hrest, List.map_singleton, renamingAt_imported]
    exact List.mem_singleton_self _

/-- What a reference said with an edge, one of those that it is carried to says with the edge as
    it is then. -/
theorem Grounded.stated_move (hne : origin ≠ destination) (hnamed : ∀ ex ∈ s.exports, ex.expression.Names ex.source.name)
    {e e' : Edge} (hevident : ∀ ex ∈ (s.converted origin destination).store.exports,
      s.Inlines origin destination (e.source.moved origin destination) ex → ex.Evident) (he : e ∈ s.edges)
    (hother : e.kind.IsLocal → e.target ≠ e.source) {r : Reference} (hr : e.Stated s.exports r)
    (hfate : (e.fate origin destination).remaining? = some e') :
    ∃ r' ∈ s.carriedTo origin destination (e.source.moved origin destination) r,
      e'.Stated (s.converted origin destination).store.exports r' := by
  rcases hr with ⟨hk, rfl⟩ | ⟨hk, ex, hex, hexsource, hexposure, rfl⟩
  · exact hs.stated_inGroup hd he hk (hother hk) hfate
  · exact hs.stated_imported hd hne hevident he hk hex hexsource hexposure (hnamed ex hex) hfate

/-- An import that a reference is carried to was there, or is that of an edge that was torn apart. -/
theorem Grounded.import_mem_carriedTo (ha : a ∈ s.ids)
    (halone : ∀ ex ∈ (s.converted origin destination).store.exports,
      s.Inlines origin destination (a.moved origin destination) ex → ex.Standalone) {ex : Export}
    (hex : ex ∈ (s.converted origin destination).store.exports) {r : Reference}
    (h : .imported ex.name ∈ s.carriedTo origin destination (a.moved origin destination) r) :
    (r = .imported ex.name ∧ ¬s.Inlines origin destination (a.moved origin destination) ex) ∨
    ∃ e ∈ s.edges, e.source = a ∧ e.touches origin = true ∧ e.kind.IsLocal ∧ e.Apart origin destination ∧
      ex.source = e.target.moved origin destination ∧ ex.exposure = .ofAttr e.attr := by
  have hin : .imported ex.name ∈ s.restorationAt origin destination (a.moved origin destination)
      (s.conversionAt origin destination (a.moved origin destination) r) := by
    obtain ⟨q, hq, hren⟩ := List.mem_map.mp h
    have himport := isImport_renamingAt origin destination (a.moved origin destination) q
    rw [hren] at himport
    cases q with
    | imported x =>
      rw [renamingAt_imported] at hren
      exact hren ▸ hq
    | _ => cases himport
  -- An import that is restored leaves none behind.
  have hrestored : ∀ ex' ∈ (s.converted origin destination).store.exports,
      .imported ex.name ∈ s.restorationAt origin destination (a.moved origin destination) (.imported ex'.name) →
        ex'.name = ex.name ∧ ¬s.Inlines origin destination (a.moved origin destination) ex' := by
    intro ex' hex' hin
    rcases hs.restorationAt_imported hex' with ⟨hinlines, hrest⟩ | ⟨hout, hrest⟩
    · rw [hrest] at hin
      exact absurd hin ((halone ex' hex' hinlines).no_imports _)
    · rw [hrest, List.mem_singleton, Reference.imported.injEq] at hin
      exact ⟨hin.symm, hout⟩
  rcases hs.conversionAt_cases hd ha r with
    ⟨hsame, _⟩ | ⟨e, he, hsource, ht, hk, hap, _, ex', hex', hexsource, hexposure, himport⟩
  · rw [hsame] at hin
    rcases r.eq_imported_or_ofTarget with ⟨x, rfl⟩ | ⟨name, attr, rfl⟩
    · have hx : x = ex.name := by
        rcases hxe : (s.converted origin destination).store.export? x with _ | ex'
        · rw [restorationAt, Restoring.restoration_of_unknown hxe, List.mem_singleton, Reference.imported.injEq] at hin
          exact hin.symm
        · obtain ⟨hex', rfl⟩ := mem_of_export? hxe
          exact (hrestored ex' hex' hin).1
      rw [hx] at hin ⊢
      exact Or.inl ⟨rfl, (hrestored ex hex hin).2⟩
    · rw [restorationAt_of_local (Reference.isImport_ofTarget name attr), List.mem_singleton] at hin
      cases attr <;> cases hin
  · rw [himport] at hin
    have hname := (hrestored ex' hex' hin).1
    have hsame : ex' = ex :=
      List.inj_on_of_nodup_map (nodup_exportNames_converted hs.names) hex' hex hname
    exact Or.inr ⟨e, he, hsource, ht, hk, hap, hsame ▸ hexsource, hsame ▸ hexposure⟩

end Step

end Store

end Regroup
