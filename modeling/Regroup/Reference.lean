/-
  Regroup.Reference — what a property tree can refer to, and how a reference is written.

  A node of the same group is named whole or by one attribute; a value of another group is
  imported by the name it was published under. Each has one canonical construct
  (`Reference.construct`); `Tree.reference?` reads that and the shorter dotted form of an
  attribute reference (`reference?_construct`).
-/

import Regroup.Tree
import Regroup.Text

namespace Regroup

inductive Reference where
  | node (name : String)
  | attrOf (name attr : String)
  | imported (name : String)
  deriving DecidableEq, Repr

namespace Reference

def refKey : String := "Ref"
def getAttKey : String := "Fn::GetAtt"
def importKey : String := "Fn::ImportValue"
def subKey : String := "Fn::Sub"

/-- A node of the same group, whole or by attribute. -/
def ofTarget (name : String) : Option String → Reference
  | none => .node name
  | some attr => .attrOf name attr

/-- The name of the node referred to; none for an import. -/
def targetName? : Reference → Option String
  | .node name => some name
  | .attrOf name _ => some name
  | .imported _ => none

def attributeName? : Reference → Option String
  | .attrOf _ attr => some attr
  | _ => none

theorem ofTarget_inj {name name' : String} {attr attr' : Option String} :
    ofTarget name attr = ofTarget name' attr' ↔ name = name' ∧ attr = attr' := by
  cases attr <;> cases attr' <;> simp [ofTarget]

theorem eq_imported_or_ofTarget (r : Reference) : (∃ name, r = .imported name) ∨ ∃ name attr, r = .ofTarget name attr := by
  cases r with
  | node name => exact Or.inr ⟨name, none, rfl⟩
  | attrOf name attr => exact Or.inr ⟨name, some attr, rfl⟩
  | imported name => exact Or.inl ⟨name, rfl⟩

@[simp] theorem targetName?_ofTarget (name : String) (attr : Option String) : (ofTarget name attr).targetName? = some name := by
  cases attr <;> rfl

/-- `Name` or `Name.Attribute`, cut at the first dot. -/
def ofPath (path : String) : Reference :=
  match Text.cut '.' path with
  | some (name, attr) => .attrOf name attr
  | none => .node path

def construct : Reference → Tree
  | .node name => .call refKey (.text name)
  | .attrOf name attr => .call getAttKey (.list [.text name, .text attr])
  | .imported name => .call importKey (.text name)

/-- The reference that the function `key` makes of `arg`. -/
def ofCall? (key : String) (arg : Tree) : Option Reference :=
  if key = refKey then
    match arg with
    | .text name => some (.node name)
    | _ => none
  else if key = getAttKey then
    match arg with
    | .list [.text name, .text attr] => some (.attrOf name attr)
    | .text path => (Text.cut '.' path).map fun (name, attr) => .attrOf name attr
    | _ => none
  else if key = importKey then
    match arg with
    | .text name => some (.imported name)
    | _ => none
  else none

end Reference

/-- The reference a whole tree is; none for a value that merely contains one. -/
def Tree.reference? : Tree → Option Reference
  | .record [(key, arg)] => Reference.ofCall? key arg
  | _ => none

theorem reference?_construct (r : Reference) : r.construct.reference? = some r := by
  cases r <;> simp [Reference.construct, Tree.call, Tree.reference?, Reference.ofCall?, Reference.refKey,
    Reference.getAttKey, Reference.importKey]

end Regroup
