/-
  Regroup.Proofs.LongForms — a tag means the function that it names.

  A value can be written with the long names of its functions in place of the tags
  (`Yaml.expanded`). The two are the same tree but for the attribute references: the dotted text
  behind a tag is cut when the tree is made, and the one behind a long name when it is read. So
  the trees are compared with all such texts cut (`Tree.undotted`), which no reading can tell
  (`scanAs_undotted`); and with them cut they are equal, or the same key stands in the way of
  both (`toTree_expanded`).
-/

import Mathlib.Data.List.Basic
import Regroup.Proofs.Entries
import Regroup.Proofs.Shapes

namespace Regroup

open Yaml (argumentOf functionOf)

/-! ## Attribute references -/

/-- Either the argument stays, or it is a dotted path that is cut. -/
theorem Yaml.argumentOf_cases (function : String) (arg : Tree) : argumentOf function arg = arg ∨
    ∃ path name attr, function = "Fn::GetAtt" ∧ arg = .text path ∧ Text.cut '.' path = some (name, attr) ∧
      argumentOf function arg = .list [.text name, .text attr] := by
  cases arg with
  | text path =>
    by_cases hf : function = "Fn::GetAtt"
    · rcases hcut : Text.cut '.' path with _ | ⟨name, attr⟩
      · exact Or.inl (by simp [argumentOf, hf, hcut])
      · exact Or.inr ⟨path, name, attr, hf, rfl, hcut, by simp [argumentOf, hf, hcut]⟩
    · exact Or.inl (by simp [argumentOf, hf])
  | _ => exact Or.inl rfl

/-- A path and its two parts are the same reference. -/
theorem Reference.ofCall?_argumentOf (key : String) (arg : Tree) : ofCall? key (argumentOf key arg) = ofCall? key arg := by
  rcases Yaml.argumentOf_cases key arg with heq | ⟨path, name, attr, rfl, rfl, hcut, heq⟩
  · rw [heq]
  · rw [heq]
    simp [ofCall?, refKey, getAttKey, hcut]

namespace Tree

theorem scan_argumentOf (key : String) (arg : Tree) : (argumentOf key arg).scan = arg.scan := by
  rcases Yaml.argumentOf_cases key arg with heq | ⟨path, name, attr, _, rfl, _, heq⟩
  · rw [heq]
  · rw [heq, scan_list]
    simp [scan, scanAs_text]

/-- The argument of a single call, with its path cut. -/
def cutPath : Fields Tree → Fields Tree
  | [(key, arg)] => [(key, argumentOf key arg)]
  | fields => fields

theorem cutPath_of_length {fields : Fields Tree} (h : fields.length ≠ 1) : cutPath fields = fields := by
  unfold cutPath
  split
  · exact absurd rfl h
  · rfl

theorem keys_cutPath (fields : Fields Tree) : Fields.keys (cutPath fields) = Fields.keys fields := by
  unfold cutPath
  split <;> rfl

theorem scan_cutPath (fields : Fields Tree) : (cutPath fields).flatMap (·.2.scan) = fields.flatMap (·.2.scan) := by
  unfold cutPath
  split
  · simp only [List.flatMap_cons, scan_argumentOf]
  · rfl

mutual

/-- The tree with the paths of all attribute references cut into their two parts. -/
def undotted : Tree → Tree
  | .list items => .list (undottedItems items)
  | .record fields => .record (cutPath (undottedFields fields))
  | tree => tree

def undottedItems : List Tree → List Tree
  | [] => []
  | item :: rest => undotted item :: undottedItems rest

def undottedFields : List (String × Tree) → List (String × Tree)
  | [] => []
  | (name, value) :: rest => (name, undotted value) :: undottedFields rest

end

theorem undottedItems_eq (items : List Tree) : undottedItems items = items.map undotted := by
  induction items with
  | nil => rfl
  | cons item rest ih => rw [undottedItems, ih, List.map_cons]

theorem undottedFields_eq (fields : List (String × Tree)) :
    undottedFields fields = fields.map fun field => (field.1, undotted field.2) := by
  induction fields with
  | nil => rfl
  | cons field rest ih => rw [undottedFields, ih, List.map_cons]

theorem undotted_list (items : List Tree) : undotted (.list items) = .list (items.map undotted) := by
  rw [undotted, undottedItems_eq]

theorem undotted_record (fields : List (String × Tree)) :
    undotted (.record fields) = .record (cutPath (fields.map fun field => (field.1, undotted field.2))) := by
  rw [undotted, undottedFields_eq]

theorem undotted_call (key : String) (arg : Tree) : undotted (.call key arg) = .call key (argumentOf key (undotted arg)) := by
  rw [call, undotted_record]
  rfl

/-- It is all one whether the path of a call has been cut before. -/
theorem undotted_call_argumentOf (key : String) (arg : Tree) :
    undotted (.call key (argumentOf key arg)) = undotted (.call key arg) := by
  rcases Yaml.argumentOf_cases key arg with heq | ⟨path, name, attr, rfl, rfl, hcut, heq⟩
  · rw [heq]
  · rw [undotted_call, undotted_call, heq]
    show _ = Tree.call "Fn::GetAtt" (argumentOf "Fn::GetAtt" (.text path))
    rw [heq]
    rfl

theorem undotted_scalar {tree : Tree} (h : tree.isScalar = true) : undotted tree = tree := by
  cases tree <;> first | rfl | cases h

theorem keepsForm_undotted : KeepsForm undotted where
  text tree s h := by
    cases tree with
    | text _ => exact h
    | _ => cases h
  record tree fields h := by
    cases tree with
    | record fields' => exact ⟨fields', rfl⟩
    | _ => cases h

theorem ofCall?_undotted (key : String) (arg : Tree) : Reference.ofCall? key (undotted arg) = Reference.ofCall? key arg := by
  cases arg with
  | record fields => rw [undotted, ofCall?_record, ofCall?_record]
  | list items =>
    rcases hc : Reference.ofCall? key (.list items) with _ | r
    · rw [undotted_list]
      exact keepsForm_undotted.ofCall?_list hc
    · obtain ⟨rfl, name, attr, rfl⟩ := ofCall?_list_eq_some hc
      exact hc
  | _ => rfl

/-! ## Reading -/

/-- No reading can tell whether the paths are cut. -/
theorem scanAs_undotted {role : Role} (tree : Tree) : scanAs role (undotted tree) = scanAs role tree := by
  induction tree using shapes generalizing role with
  | scalar tree hs => rw [undotted_scalar hs]
  | text s => rfl
  | call key arg ih =>
    have hcall : Reference.ofCall? key (argumentOf key (undotted arg)) = Reference.ofCall? key arg := by
      rw [Reference.ofCall?_argumentOf, ofCall?_undotted]
    show scanAs role (undotted (.call key arg)) = _
    rw [undotted_call, call]
    rcases hc : Reference.ofCall? key arg with _ | r
    · -- What is no construct has no path to cut.
      have harg : argumentOf key (undotted arg) = undotted arg := by
        rcases Yaml.argumentOf_cases key (undotted arg) with heq | ⟨path, name, attr, rfl, _, _, heq⟩
        · exact heq
        · rw [hc, heq] at hcall
          cases hcall
      rw [scanAs_call (hcall.trans hc), scanAs_call hc, harg]
      exact ih
    · rw [scanAs_construct (hcall.trans hc), scanAs_construct hc]
  | record fields hlen ih =>
    have hlen' : (fields.map fun field => (field.1, undotted field.2)).length ≠ 1 := by rwa [List.length_map]
    rw [undotted_record, cutPath_of_length hlen', scanAs_record hlen', scanAs_record hlen, List.flatMap_map]
    exact List.flatMap_congr fun field hf => ih field hf
  | pair template vars ih ihrecord =>
    have hvars : (cutPath (vars.map fun var => (var.1, undotted var.2))).flatMap (·.2.scan) = vars.flatMap (·.2.scan) := by
      rw [scan_cutPath, List.flatMap_map]
      exact List.flatMap_congr fun var hv => ih var hv
    have hkeys : Fields.keys (cutPath (vars.map fun var => (var.1, undotted var.2))) = Fields.keys vars := by
      rw [keys_cutPath]
      exact Fields.keys_map undotted vars
    have hrecord : (undotted (.record vars)).scan = (Tree.record vars).scan := ihrecord
    have htemplate : undotted (.text template) = .text template := rfl
    rw [undotted_record] at hrecord
    rw [undotted_list, List.map_cons, List.map_singleton, htemplate, undotted_record, scanAs_pair, scanAs_pair, hkeys, hvars,
      hrecord]
  | list items hp ih =>
    rw [undotted_list, scanAs_list fun h => hp (keepsForm_undotted.isPair h), scanAs_list hp, List.flatMap_map]
    exact List.flatMap_congr fun item hi => ih item hi

end Tree

/-! ## Long names -/

namespace Yaml

/-- The name in a tag, behind its exclamation marks. -/
def tagName (tag : String) : String := String.ofList (tag.toList.dropWhile (· == '!'))

/-- A reference and a condition are called the same in short and in long, all else is a function. -/
def longName : String → String
  | "Ref" => "Ref"
  | "Condition" => "Condition"
  | name => "Fn::" ++ name

theorem longName_eq (name : String) : longName name = if name = "Ref" ∨ name = "Condition" then name else "Fn::" ++ name := by
  unfold longName
  split
  · rfl
  · rfl
  · rename_i href hcondition
    exact (if_neg (not_or.mpr ⟨href, hcondition⟩)).symm

theorem functionOf_eq (tag : String) : functionOf tag = longName (tagName tag) := (longName_eq _).symm

mutual

/-- Each tag gives way to a mapping with the long name as its only key. Keys stay as they are. -/
def expanded : Yaml → Yaml
  | .sequence items => .sequence (expandedItems items)
  | .mapping entries => .mapping (expandedEntries entries)
  | .tagged tag value => .mapping [(.text (longName (tagName tag)), expanded value)]
  | v => v

def expandedItems : List Yaml → List Yaml
  | [] => []
  | item :: rest => expanded item :: expandedItems rest

def expandedEntries : List (Yaml × Yaml) → List (Yaml × Yaml)
  | [] => []
  | (key, value) :: rest => (key, expanded value) :: expandedEntries rest

end

end Yaml

/-! ## Making the trees -/

theorem Fields.put_map {α β : Type} (g : α → β) (key : String) (value : α) (fields : Fields α) :
    put key (g value) (fields.map fun field => (field.1, g field.2)) =
      (put key value fields).map fun field => (field.1, g field.2) := by
  induction fields with
  | nil => rfl
  | cons field rest ih =>
    simp only [List.map_cons, put]
    split
    · rfl
    · rw [ih, List.map_cons]

theorem Fields.ofPairs_map {α β : Type} (g : α → β) (pairs : List (String × α)) :
    ofPairs (pairs.map fun pair => (pair.1, g pair.2)) = (ofPairs pairs).map fun field => (field.1, g field.2) := by
  have hfold : ∀ done : Fields α, (pairs.map fun pair => (pair.1, g pair.2)).foldl (fun fields pair => put pair.1 pair.2 fields)
      (done.map fun field => (field.1, g field.2)) =
      (pairs.foldl (fun fields pair => put pair.1 pair.2 fields) done).map fun field => (field.1, g field.2) := by
    induction pairs with
    | nil => exact fun _ => rfl
    | cons pair rest ih =>
      intro done
      rw [List.map_cons, List.foldl_cons, List.foldl_cons]
      dsimp only
      rw [put_map]
      exact ih _
  exact hfold []

namespace Yaml

section Agreement

variable {ε α β γ δ : Type}

/-- Results that agree in what `g` shows of them agree in all that this decides. -/
theorem map_congr_of_map {x y : Except ε α} {g : α → β} (h : x.map g = y.map g) {f : α → γ} {p : γ → δ} {q : β → δ}
    (hf : ∀ a, p (f a) = q (g a)) : (x.map f).map p = (y.map f).map p := by
  have hall : ∀ z : Except ε α, (z.map f).map p = (z.map g).map q := by
    rintro (e | a)
    · rfl
    · exact congrArg Except.ok (hf a)
  rw [hall, hall, h]

theorem map_cons (g : α → β) (x : Except ε α) (xs : Except ε (List α)) :
    (do let a ← x; let as ← xs; return a :: as : Except ε (List α)).map (List.map g) =
      (do let b ← x.map g; let bs ← xs.map (List.map g); return b :: bs) := by
  cases x with
  | error e => rfl
  | ok a => cases xs <;> rfl

end Agreement

theorem toTree_call (name : String) (value : Yaml) :
    toTree (.mapping [(.text name, value)]) = (toTree value).map (Tree.call name) := by
  rw [toTree, fieldsOf, fieldsOf]
  cases toTree value <;> rfl

mutual

/-- The trees are equal once all paths are cut, or the same key is refused. -/
theorem toTree_expanded : ∀ v : Yaml, v.expanded.toTree.map Tree.undotted = v.toTree.map Tree.undotted
  | .null => rfl
  | .bool _ => rfl
  | .int _ => rfl
  | .float _ => rfl
  | .infinity _ => rfl
  | .nan => rfl
  | .text _ => rfl
  | .sequence items => by
    rw [expanded, toTree, toTree]
    exact map_congr_of_map (treesOf_expanded items) Tree.undotted_list
  | .mapping entries => by
    rw [expanded, toTree, toTree]
    refine map_congr_of_map (fieldsOf_expanded entries) (q := fun fields => .record (Tree.cutPath (Fields.ofPairs fields)))
      fun fields => ?_
    rw [Tree.undotted_record, ← Fields.ofPairs_map]
  | .tagged tag value => by
    have hcut : ((toTree value).map fun arg => Tree.call (functionOf tag) (argumentOf (functionOf tag) arg)).map Tree.undotted =
        ((toTree value).map (Tree.call (functionOf tag))).map Tree.undotted := by
      cases toTree value with
      | error _ => rfl
      | ok arg => exact congrArg Except.ok (Tree.undotted_call_argumentOf _ arg)
    rw [expanded, toTree_call, toTree, ← functionOf_eq, hcut]
    exact map_congr_of_map (toTree_expanded value) (q := fun arg => .call (functionOf tag) (argumentOf (functionOf tag) arg))
      (Tree.undotted_call _)

theorem treesOf_expanded : ∀ items : List Yaml,
    (treesOf (expandedItems items)).map (List.map Tree.undotted) = (treesOf items).map (List.map Tree.undotted)
  | [] => rfl
  | item :: rest => by
    rw [expandedItems, treesOf, treesOf, map_cons, map_cons, toTree_expanded item, treesOf_expanded rest]

theorem fieldsOf_expanded : ∀ entries : List (Yaml × Yaml),
    (fieldsOf (expandedEntries entries)).map (List.map fun field => (field.1, field.2.undotted)) =
      (fieldsOf entries).map (List.map fun field => (field.1, field.2.undotted))
  | [] => rfl
  | (key, value) :: rest => by
    rw [expandedEntries]
    rcases hkey : key.key? with _ | name
    · rw [fieldsOf_cons_none hkey, fieldsOf_cons_none hkey]
    · have hvalue : ((toTree value.expanded).map (name, ·)).map (fun field => (field.1, field.2.undotted)) =
          ((toTree value).map (name, ·)).map fun field => (field.1, field.2.undotted) :=
        map_congr_of_map (toTree_expanded value) (q := fun tree => (name, tree)) fun _ => rfl
      rw [fieldsOf_cons_some hkey, fieldsOf_cons_some hkey, map_cons, map_cons, hvalue, fieldsOf_expanded rest]

end

/-- A value and its long form are both trees or both none, and the trees have the same references in
    the same order. -/
theorem scan_expanded (v : Yaml) : ((∃ tree, v.toTree = .ok tree) ↔ ∃ tree, v.expanded.toTree = .ok tree) ∧
    ∀ tree tree', v.toTree = .ok tree → v.expanded.toTree = .ok tree' → tree.scan = tree'.scan := by
  have hagree := toTree_expanded v
  constructor
  · rw [← exists_map_eq_ok_iff (f := Tree.undotted), ← hagree, exists_map_eq_ok_iff]
  · intro tree tree' hv hlong
    rw [hv, hlong] at hagree
    have hundotted : tree'.undotted = tree.undotted := Except.ok.inj hagree
    rw [Tree.scan, Tree.scan, ← Tree.scanAs_undotted tree, ← Tree.scanAs_undotted tree', hundotted]

/-- A substitution with a path behind the tag of a variable, and tags within the arguments of a tag. -/
def taggedValue : Yaml :=
  .mapping [
    (.text "To", .tagged "Sub" (.sequence [.text "$\x7bBucket.Arn\x7d/$\x7bKey\x7d",
      .mapping [(.text "Key", .tagged "GetAtt" (.text "Table.Stream.Arn"))]])),
    (.text "From", .tagged "Join" (.sequence [.text ",",
      .sequence [.tagged "Ref" (.text "Topic"), .tagged "GetAtt" (.sequence [.text "Queue", .text "Arn"])]]))]

theorem scan_expanded_tagged : ∃ tree tree', taggedValue.toTree = .ok tree ∧ taggedValue.expanded.toTree = .ok tree' ∧
    tree.scan = tree'.scan ∧
    tree'.scan = [.attrOf "Bucket" "Arn", .attrOf "Table" "Stream.Arn", .node "Topic", .attrOf "Queue" "Arn"] := by
  obtain ⟨hexists, hscan⟩ := scan_expanded taggedValue
  obtain ⟨tree, htree⟩ : ∃ tree, taggedValue.toTree = .ok tree := ⟨_, rfl⟩
  obtain ⟨tree', htree'⟩ := hexists.mp ⟨tree, htree⟩
  have hsame := hscan tree tree' htree htree'
  refine ⟨tree, tree', htree, htree', hsame, ?_⟩
  rw [← hsame]
  cases htree
  decide +kernel

end Yaml

end Regroup
