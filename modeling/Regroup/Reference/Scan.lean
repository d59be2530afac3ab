/-
  Regroup.Reference.Scan — every reference of a property tree, in document order.

  A construct counts as one reference and is not entered. In a substitution each placeholder
  that is not one of its variables is a reference, and the variables' values are read after
  them. All other records and lists are read from front to back.
-/

import Regroup.Reference
import Regroup.Placeholder

namespace Regroup

/-- How a tree is read: for itself, or as the argument of the substitution function. -/
inductive Role where
  | value
  | template
  deriving DecidableEq, Repr

/-- The role of the argument of the function `key`. -/
def Role.ofKey (key : String) : Role := if key = Reference.subKey then .template else .value

/-- The references of a template's placeholders, variables aside. -/
def Placeholder.references (template : String) (declared : List String) : List Reference :=
  ((contents template).filter (!declared.contains ·)).map Reference.ofPath

namespace Tree

mutual

def scanAs (role : Role) : Tree → List Reference
  | .text template => if role = .template then Placeholder.references template [] else []
  | .record [(key, arg)] =>
    match Reference.ofCall? key arg with
    | some r => [r]
    | none => scanAs (.ofKey key) arg
  | .record fields => scanFields fields
  | .list [.text template, .record vars] =>
    if role = .template then Placeholder.references template (Fields.keys vars) ++ scanFields vars
    else scanAs .value (.record vars)
  | .list items => scanItems items
  | _ => []

def scanItems : List Tree → List Reference
  | [] => []
  | item :: rest => scanAs .value item ++ scanItems rest

def scanFields : List (String × Tree) → List Reference
  | [] => []
  | (_, value) :: rest => scanAs .value value ++ scanFields rest

end

def scan (tree : Tree) : List Reference := tree.scanAs .value

end Tree

end Regroup
