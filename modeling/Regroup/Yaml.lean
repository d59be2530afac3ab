/-
  Regroup.Yaml — YAML values, before and after their tags are expanded.

  `toTree` makes a property tree of a value. A tag is a function name in short: `!Ref` and
  `!Condition` stand for themselves, any other `!Name` for `Fn::Name`, and the dotted text of
  a `!GetAtt` is cut into its two parts. Mapping keys must be text, numbers or booleans; the
  first one that is not is the only failure. Keys of equal text fall together: the last value
  counts, in the place of the first.

  `ofTree` writes a property tree without tags.
-/

import Regroup.Binary64.Shortest
import Regroup.Text
import Regroup.Tree

namespace Regroup

inductive Yaml where
  | null
  | bool (b : Bool)
  | int (i : Int)
  | float (x : Binary64)
  | infinity (negative : Bool)
  | nan
  | text (s : String)
  | sequence (items : List Yaml)
  | mapping (entries : List (Yaml × Yaml))
  | tagged (tag : String) (value : Yaml)
  deriving Repr, Inhabited

namespace Yaml

def floatLayout : Layout := ⟨-5, 15, false⟩

/-! ## Equality of keys -/

mutual

/-- Zeros of either sign are the same key, so are two mappings with the same entries. -/
def same : Yaml → Yaml → Bool
  | .null, .null => true
  | .bool a, .bool b => a == b
  | .int a, .int b => a == b
  | .float a, .float b => a.sameValue b
  | .infinity a, .infinity b => a == b
  | .nan, .nan => true
  | .text a, .text b => a == b
  | .sequence a, .sequence b => sameItems a b
  | .mapping a, .mapping b => a.length == b.length && sameEntries a b
  | .tagged t a, .tagged u b => t == u && same a b
  | _, _ => false

def sameItems : List Yaml → List Yaml → Bool
  | [], [] => true
  | a :: as, b :: bs => same a b && sameItems as bs
  | _, _ => false

/-- Every entry of the first has its like in the second. -/
def sameEntries : List (Yaml × Yaml) → List (Yaml × Yaml) → Bool
  | [], _ => true
  | (k, v) :: rest, bs => (bs.any fun b => same k b.1 && same v b.2) && sameEntries rest bs

end

/-! ## Property trees -/

/-- The field name that a mapping key writes. -/
def key? : Yaml → Option String
  | .text s => some s
  | .int i => some (toString i)
  | .float x => some (floatLayout.render x)
  | .infinity negative => some (if negative then "-.inf" else ".inf")
  | .nan => some ".nan"
  | .bool b => some (if b then "true" else "false")
  | _ => none

/-- The function that a tag names. -/
def functionOf (tag : String) : String :=
  let name := String.ofList (tag.toList.dropWhile (· == '!'))
  if name = "Ref" ∨ name = "Condition" then name else "Fn::" ++ name

/-- The argument of a function as the long form has it. -/
def argumentOf (function : String) (arg : Tree) : Tree :=
  match arg with
  | .text path =>
    if function = "Fn::GetAtt" then
      match Text.cut '.' path with
      | some (name, attr) => .list [.text name, .text attr]
      | none => arg
    else arg
  | arg => arg

/-- An integer beyond 64 bits is a float. -/
def treeOfInt (i : Int) : Tree :=
  if Int64.minValue.toInt ≤ i ∧ i ≤ Int64.maxValue.toInt then .int (.ofInt i)
  else (Binary64.ofRatio? (i < 0) i.natAbs 1).elim .null .float

mutual

/-- The tree, or the first key that cannot be a field name. -/
def toTree : Yaml → Except Yaml Tree
  | .null => .ok .null
  | .bool b => .ok (.bool b)
  | .int i => .ok (treeOfInt i)
  | .float x => .ok (.float x)
  | .infinity _ => .ok .null
  | .nan => .ok .null
  | .text s => .ok (.text s)
  | .sequence items => (treesOf items).map .list
  | .mapping entries => (fieldsOf entries).map fun fields => .record (Fields.ofPairs fields)
  | .tagged tag value => (toTree value).map fun arg => .call (functionOf tag) (argumentOf (functionOf tag) arg)

def treesOf : List Yaml → Except Yaml (List Tree)
  | [] => .ok []
  | item :: rest => do
    let item ← toTree item
    let rest ← treesOf rest
    return item :: rest

def fieldsOf : List (Yaml × Yaml) → Except Yaml (List (String × Tree))
  | [] => .ok []
  | (key, value) :: rest => do
    let name ← match key.key? with
      | some name => .ok name
      | none => .error key
    let value ← toTree value
    let rest ← fieldsOf rest
    return (name, value) :: rest

end

mutual

def ofTree : Tree → Yaml
  | .null => .null
  | .bool b => .bool b
  | .int i => .int i.toInt
  | .float x => .float x
  | .text s => .text s
  | .list items => .sequence (ofItems items)
  | .record fields => .mapping (ofFields fields)

def ofItems : List Tree → List Yaml
  | [] => []
  | item :: rest => ofTree item :: ofItems rest

def ofFields : List (String × Tree) → List (Yaml × Yaml)
  | [] => []
  | (name, value) :: rest => (.text name, ofTree value) :: ofFields rest

end

end Yaml

end Regroup
