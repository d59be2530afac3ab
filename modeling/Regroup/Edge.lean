/-
  Regroup.Edge — typed dependencies between nodes: the source needs the target.

  An edge crosses groups when its endpoints' groups differ, and always when it is an import.
  The flag is stored, since reversing an edge keeps it as it stands.
-/

import Regroup.Address

namespace Regroup

inductive EdgeKind where
  /-- An ordering without data. -/
  | structural
  /-- A reference to the whole target. -/
  | value
  /-- A reference to one attribute of the target. -/
  | attrOf
  /-- The use of a value that the target's group publishes. -/
  | imported
  /-- From a published value to the node it stands for. -/
  | exportLink
  deriving DecidableEq, Repr

namespace EdgeKind

def all : List EdgeKind := [.structural, .value, .attrOf, .imported, .exportLink]

def label : EdgeKind → String
  | .structural => "STRUCTURAL_DEPENDENCY"
  | .value => "VALUE_REFERENCE"
  | .attrOf => "ATTRIBUTE_REFERENCE"
  | .imported => "IMPORTED_VALUE"
  | .exportLink => "EXPORT_LINK"

def ofLabel? (s : String) : Option EdgeKind := all.find? (·.label == s)

theorem ofLabel?_label (k : EdgeKind) : ofLabel? k.label = some k := by cases k <;> rfl

/-- Whether a value flows along the edge. -/
def isReference : EdgeKind → Bool
  | .value | .attrOf | .imported => true
  | .structural | .exportLink => false

/-- The kind of a reference within a group. -/
def ofAttr : Option String → EdgeKind
  | none => .value
  | some _ => .attrOf

end EdgeKind

structure Edge where
  source : Address
  target : Address
  kind : EdgeKind
  crossGroup : Bool
  attr : Option String
  deriving DecidableEq, Repr

namespace Edge

/-- Whether an edge of this kind between these endpoints crosses groups. -/
def crosses (source target : Address) (kind : EdgeKind) : Bool :=
  kind == .imported || source.group != target.group

def between (source target : Address) (kind : EdgeKind) (attr : Option String) : Edge :=
  ⟨source, target, kind, crosses source target kind, attr⟩

/-- The flag set from the endpoints as they stand. -/
def refreshed (e : Edge) : Edge := { e with crossGroup := crosses e.source e.target e.kind }

def touches (e : Edge) (id : Address) : Bool := e.source == id || e.target == id

def reversed (e : Edge) : Edge := { e with source := e.target, target := e.source }

def render (e : Edge) : String :=
  let attr := match e.attr with
    | none => ""
    | some a => " ." ++ a
  e.source.render ++ " -[" ++ e.kind.label ++ attr ++ "]-> " ++ e.target.render
    ++ (if e.crossGroup then " (cross-group)" else "")

theorem reversed_reversed (e : Edge) : e.reversed.reversed = e := rfl

end Edge

end Regroup
