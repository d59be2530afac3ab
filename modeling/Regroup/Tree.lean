/-
  Regroup.Tree — property trees: the declared values of a resource.

  A record keeps its fields in order. Integers are 64 bits wide; any other number is a
  binary64. A record with a single field is the form of every function call.
-/

import Regroup.Binary64
import Regroup.Fields

namespace Regroup

inductive Tree where
  | null
  | bool (b : Bool)
  | int (i : Int64)
  | float (x : Binary64)
  | text (s : String)
  | list (items : List Tree)
  | record (fields : List (String × Tree))
  deriving Repr, Inhabited

namespace Tree

def emptyRecord : Tree := .record []

/-- A record of one field: `key` called on `arg`. -/
def call (key : String) (arg : Tree) : Tree := .record [(key, arg)]

def asText? : Tree → Option String
  | .text s => some s
  | _ => none

def fields? : Tree → Option (Fields Tree)
  | .record fields => some fields
  | _ => none

/-- Null and the empty record say nothing. -/
def isEmpty : Tree → Bool
  | .null => true
  | .record fields => fields.isEmpty
  | _ => false

end Tree

end Regroup
