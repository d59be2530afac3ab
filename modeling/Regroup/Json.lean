/-
  Regroup.Json — what a JSON text says, before anything is made of it.

  A record keeps repeated members, since some readers refuse them. A literal that no value can
  hold (a number out of range, half a surrogate pair, a list or record nested too deep) is
  `unreadable`: a reader that needs it fails, one that passes it over does not.

  `tree?` makes a property tree of it: the last of repeated members counts, in the place of
  the first. `ofTree` is its inverse on trees without repeated fields.
-/

import Regroup.Tree

namespace Regroup

inductive Json where
  | null
  | bool (b : Bool)
  | int (i : Int64)
  | float (x : Binary64)
  | text (s : String)
  | list (items : List Json)
  | record (members : List (String × Json))
  | unreadable
  deriving Repr, Inhabited

namespace Json

mutual

def tree? : Json → Option Tree
  | .null => some .null
  | .bool b => some (.bool b)
  | .int i => some (.int i)
  | .float x => some (.float x)
  | .text s => some (.text s)
  | .list items => (items? items).map .list
  | .record members => (fields? members).map fun fields => .record (Fields.ofPairs fields)
  | .unreadable => none

def items? : List Json → Option (List Tree)
  | [] => some []
  | item :: rest => do
    let item ← tree? item
    let rest ← items? rest
    return item :: rest

def fields? : List (String × Json) → Option (List (String × Tree))
  | [] => some []
  | (name, value) :: rest => do
    let value ← tree? value
    let rest ← fields? rest
    return (name, value) :: rest

end

mutual

def ofTree : Tree → Json
  | .null => .null
  | .bool b => .bool b
  | .int i => .int i
  | .float x => .float x
  | .text s => .text s
  | .list items => .list (ofItems items)
  | .record fields => .record (ofFields fields)

def ofItems : List Tree → List Json
  | [] => []
  | item :: rest => ofTree item :: ofItems rest

def ofFields : List (String × Tree) → List (String × Json)
  | [] => []
  | (name, value) :: rest => (name, ofTree value) :: ofFields rest

end

end Json

end Regroup
