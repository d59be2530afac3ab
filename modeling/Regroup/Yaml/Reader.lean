/-
  Regroup.Yaml.Reader — YAML texts as values.

  Aliases are followed, as often as a hundred times the size of the document; collections may
  be nested 128 deep, which also ends a node that holds itself. A mapping may not hold one key
  twice.
-/

import Regroup.Yaml.Node
import Regroup.Yaml.Scalar

namespace Regroup.Yaml

namespace Node

/-- What following aliases needs: the numbered nodes, and how many aliases may be followed. -/
structure Links where
  targets : List (Nat × Node)
  limit : Nat

/-- Counts the aliases followed. -/
abbrev Following (α : Type) := StateT Nat Option α

/-- The node, or the one an alias stands for. -/
def follow (links : Links) (n : Node) : Following Node := do
  match n with
  | .alias number =>
    let followed ← get
    if followed ≥ links.limit then failure
    set (followed + 1)
    (links.targets.reverse.lookup number).elim failure pure
  | n => return n

def tagged (tag : Option Tag) (v : Yaml) : Yaml :=
  match tag.bind Tag.name? with
  | some name => .tagged name v
  | none => v

/-- Whether a key is among the entries. -/
def hasKey (entries : List (Yaml × Yaml)) (key : Yaml) : Bool := entries.any fun e => key.same e.1

/-- The value of a node that may go `depth` collections deeper. -/
def value (links : Links) : Nat → Node → Following Yaml
  | depth, n => do
    match ← n.follow links with
    | .scalar _ tag plain s => (Scalar.value? tag plain s).elim failure pure
    | .sequence _ tag items =>
      match depth with
      | 0 => failure
      | depth + 1 => return tagged tag (.sequence (← items.mapM (value links depth)))
    | .mapping _ tag entries =>
      match depth with
      | 0 => failure
      | depth + 1 =>
        let entries ← entries.foldlM (fun done (key, item) => do
          let key ← value links depth key
          if hasKey done key then failure
          return done ++ [(key, ← value links depth item)]) []
        return tagged tag (.mapping entries)
    | .alias _ => failure

def maxDepth : Nat := 128

def links (n : Node) : Links := ⟨n.anchored, 100 * n.size⟩

end Node

/-- The value of a text with one document; a text without any is null. -/
def read? (text : String) : Option Yaml := do
  match ← Node.read? text with
  | none => return .null
  | some n => ((n.value n.links Node.maxDepth).run 0).map (·.1)

end Regroup.Yaml
