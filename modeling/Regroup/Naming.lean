/-
  Regroup.Naming — the names given to exports that a relocation makes.
-/

import Regroup.Address

namespace Regroup

structure Naming where
  /-- Joins group, name and attribute in an export's name. -/
  separator : String := "-"
  /-- Ends an output's id. -/
  suffix : String := "Output"
  deriving DecidableEq, Repr

namespace Naming

/-- `group-name` or `group-name-attr`; a dot in the attribute gives way to the separator. -/
def exportName (naming : Naming) (target : Address) (attr : Option String) : String :=
  let undotted (a : String) := String.join (a.toList.map fun c => if c = '.' then naming.separator else c.toString)
  target.group ++ naming.separator ++ target.name ++
    match attr with
    | none => ""
    | some a => naming.separator ++ undotted a

/-- Letters and digits of the name and the attribute, then the suffix. -/
def outputId (naming : Naming) (name : String) (attr : Option String) : String :=
  Text.alphanumeric name ++ Text.alphanumeric (attr.getD "") ++ naming.suffix

end Naming

end Regroup
