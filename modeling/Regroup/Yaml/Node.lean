/-
  Regroup.Yaml.Node — the one document of a YAML text as a tree of nodes.

  A node keeps its tag, its anchor and, for a scalar, whether it was plain; an alias keeps the
  number of its anchor. Anchors are numbered as they come, by how many names are known then:
  a name given anew takes the next number, which a later new name then shares. Of nodes with
  one number the last one counts.

  The parser goes by tokens; `fuel` bounds its depth and is never used up, since every call
  takes a token or goes down to the next rule.
-/

import Regroup.Yaml.Lexer
import Regroup.Fields

namespace Regroup.Yaml

inductive Node where
  | alias (anchor : Nat)
  | scalar (anchor : Option Nat) (tag : Option Tag) (plain : Bool) (text : String)
  | sequence (anchor : Option Nat) (tag : Option Tag) (items : List Node)
  | mapping (anchor : Option Nat) (tag : Option Tag) (entries : List (Node × Node))
  deriving Repr, Inhabited

namespace Node

/-- The scalar that stands where nothing is written. -/
def absent : Node := .scalar none none true ""

/-! ## Reading -/

/-- The tokens to come, and the numbers of the anchors met. -/
structure Source where
  tokens : List Token
  anchors : Fields Nat := []

/-- A step of the parser, given the meanings of the tag handles. -/
abbrev Parser (α : Type) := ReaderT (Fields Tag) (StateT Source Option) α

namespace Parser

def fail {α : Type} : Parser α := fun _ _ => none

def peek : Parser Token := do return (← get).tokens.headD .streamEnd

def skip : Parser Unit := modify fun s => { s with tokens := s.tokens.drop 1 }

/-- Takes the token, if it is the next one. -/
def skipIf (t : Token) : Parser Bool := do
  if (← peek) == t then
    skip
    return true
  else return false

/-- Takes the comma that must come next. -/
def comma : Parser Unit := do
  if !(← skipIf .comma) then fail

def anchorNumber (name : String) : Parser Nat := do
  let s ← get
  let n := s.anchors.length
  set { s with anchors := Fields.put name n s.anchors }
  return n

def aliasNumber (name : String) : Parser Nat := do
  match (← get).anchors.find? name with
  | some n => return n
  | none => fail

def tagOf (handle : String) (suffix : Tag) : Parser Tag := do
  if handle.isEmpty then return suffix
  match (← read).find? handle with
  | some meaning => return meaning.append suffix
  | none => fail

/-- The anchor and the tag before a node, in either order. -/
def properties : Parser (Option String × Option Tag) := do
  let anchor? : Parser (Option String) := do
    match ← peek with
    | .anchor name => do
      skip
      return some name
    | _ => return none
  let tag? : Parser (Option Tag) := do
    match ← peek with
    | .tag handle suffix => do
      skip
      return some (← tagOf handle suffix)
    | _ => return none
  let anchor ← anchor?
  let tag ← tag?
  if anchor.isNone && tag.isSome then return (← anchor?, tag) else return (anchor, tag)

mutual

/-- A node. Only within a block may it open one; `bare` allows a sequence that opens none. -/
def node (fuel : Nat) (block bare : Bool) : Parser Node :=
  match fuel with
  | 0 => fail
  | fuel + 1 => do
    match ← peek with
    | .alias name =>
      skip
      return .alias (← aliasNumber name)
    | _ =>
      let (name, tag) ← properties
      let number : Parser (Option Nat) := do
        match name with
        | some name => return some (← anchorNumber name)
        | none => return none
      match ← peek with
      | .scalar plain word =>
        skip
        return .scalar (← number) tag plain word
      | .openSequence =>
        skip
        let n ← number
        return .sequence n tag (← flowItems fuel true)
      | .openMapping =>
        skip
        let n ← number
        return .mapping n tag (← flowEntries fuel true)
      | .openBlockSequence =>
        if !block then fail
        skip
        let n ← number
        return .sequence n tag (← blockItems fuel)
      | .openBlockMapping =>
        if !block then fail
        skip
        let n ← number
        return .mapping n tag (← blockEntries fuel)
      | t =>
        if bare && t == .item then
          let n ← number
          return .sequence n tag (← bareItems fuel)
        else if name.isSome || tag.isSome then return .scalar (← number) tag true ""
        else fail

/-- The node behind a mark, absent if one of `ends` comes next. -/
def nodeBefore (fuel : Nat) (block bare : Bool) (ends : List Token) : Parser Node :=
  match fuel with
  | 0 => fail
  | fuel + 1 => do
    if ends.contains (← peek) then return absent else node fuel block bare

def blockItems (fuel : Nat) : Parser (List Node) :=
  match fuel with
  | 0 => fail
  | fuel + 1 => do
    if ← skipIf .closeBlock then return []
    if !(← skipIf .item) then fail
    let n ← nodeBefore fuel true false [.item, .closeBlock]
    return n :: (← blockItems fuel)

/-- The items of a sequence at the column of the mapping it is in. -/
def bareItems (fuel : Nat) : Parser (List Node) :=
  match fuel with
  | 0 => fail
  | fuel + 1 => do
    if !(← skipIf .item) then return []
    let n ← nodeBefore fuel true false [.item, .key, .value, .closeBlock]
    return n :: (← bareItems fuel)

def blockEntries (fuel : Nat) : Parser (List (Node × Node)) :=
  match fuel with
  | 0 => fail
  | fuel + 1 => do
    if ← skipIf .closeBlock then return []
    let ends : List Token := [.key, .value, .closeBlock]
    if !(← skipIf .key) then fail
    let key ← nodeBefore fuel true true ends
    let value ← if ← skipIf .value then nodeBefore fuel true true ends else pure absent
    return (key, value) :: (← blockEntries fuel)

/-- The value of an entry within brackets, up to a comma or the closing mark. -/
def flowValue (fuel : Nat) (close : Token) : Parser Node :=
  match fuel with
  | 0 => fail
  | fuel + 1 => do
    if ← skipIf .value then nodeBefore fuel false false [.comma, close] else return absent

def flowItems (fuel : Nat) (first : Bool) : Parser (List Node) :=
  match fuel with
  | 0 => fail
  | fuel + 1 => do
    if ← skipIf .closeSequence then return []
    if !first then comma
    if ← skipIf .closeSequence then return []
    if ← skipIf .key then
      let key ← if [.value, .comma, .closeSequence].contains (← peek) then
          skip
          pure absent
        else node fuel false false
      let value ← flowValue fuel .closeSequence
      return .mapping none none [(key, value)] :: (← flowItems fuel false)
    else
      let n ← node fuel false false
      return n :: (← flowItems fuel false)

def flowEntries (fuel : Nat) (first : Bool) : Parser (List (Node × Node)) :=
  match fuel with
  | 0 => fail
  | fuel + 1 => do
    if ← skipIf .closeMapping then return []
    if !first then comma
    if ← skipIf .closeMapping then return []
    if ← skipIf .key then
      let key ← nodeBefore fuel false false [.value, .comma, .closeMapping]
      let value ← flowValue fuel .closeMapping
      return (key, value) :: (← flowEntries fuel false)
    else
      let key ← node fuel false false
      return (key, absent) :: (← flowEntries fuel false)

end

end Parser

/-! ## Documents -/

/-- The directives at the front, each at most once, and the tokens after them. -/
def directives : List Token → Bool → Fields Tag → Option (Fields Tag × List Token)
  | .version major minor :: ts, versioned, handles =>
    if versioned || major ≠ 1 || !(minor == 1 || minor == 2) then none else directives ts true handles
  | .handle name meaning :: ts, versioned, handles =>
    if handles.has name then none else directives ts versioned (handles ++ [(name, meaning)])
  | ts, _, handles => some (handles, ts)

/-- The meanings of the handles; the two standard ones may be given another. -/
def withStandard (handles : Fields Tag) : Fields Tag :=
  handles ++ [("!", .ofText "!"), ("!!", .ofText Tag.standardPart)]

/-- The node of a text that holds one document, nothing for a text without any. -/
def read? (text : String) : Option (Option Node) := do
  let ts ← tokens? text
  let fuel := 4 * ts.length + 4
  let (handles, rest) ← directives ts false []
  let parse (p : Parser Node) (ts : List Token) : Option (Option Node) := do
    let (n, s) ← (p (withStandard handles)).run ⟨ts, []⟩
    match s.tokens.dropWhile (· == .documentEnd) with
    | [.streamEnd] => some (some n)
    | _ => none
  match rest with
  | [.streamEnd] => if ts.length = 1 then some none else none
  | .documentStart :: rest =>
    match rest.headD .streamEnd with
    | .documentEnd | .streamEnd => parse (pure absent) rest
    | .documentStart | .version .. | .handle .. => none
    | _ => parse (Parser.node fuel true false) rest
  | _ => if rest.length = ts.length then parse (Parser.node fuel true false) rest else none

/-! ## Anchors -/

mutual

/-- The numbered nodes in document order, each before the nodes in it. -/
def anchored : Node → List (Nat × Node)
  | .alias _ => []
  | .scalar anchor tag plain word => (anchor.map (·, .scalar anchor tag plain word)).toList
  | .sequence anchor tag items => (anchor.map (·, .sequence anchor tag items)).toList ++ anchoredItems items
  | .mapping anchor tag entries => (anchor.map (·, .mapping anchor tag entries)).toList ++ anchoredEntries entries

def anchoredItems : List Node → List (Nat × Node)
  | [] => []
  | item :: rest => anchored item ++ anchoredItems rest

def anchoredEntries : List (Node × Node) → List (Nat × Node)
  | [] => []
  | (key, value) :: rest => anchored key ++ anchored value ++ anchoredEntries rest

end

mutual

/-- How many marks it takes to write the node: one for a leaf, two more for a collection. -/
def size : Node → Nat
  | .alias _ => 1
  | .scalar .. => 1
  | .sequence _ _ items => sizeItems items + 2
  | .mapping _ _ entries => sizeEntries entries + 2

def sizeItems : List Node → Nat
  | [] => 0
  | item :: rest => size item + sizeItems rest

def sizeEntries : List (Node × Node) → Nat
  | [] => 0
  | (key, value) :: rest => size key + size value + sizeEntries rest

end

end Node

end Regroup.Yaml
