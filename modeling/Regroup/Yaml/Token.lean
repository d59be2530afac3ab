/-
  Regroup.Yaml.Token — the tokens of a YAML text, and the characters they are made of.

  Every character carries its place, since indentation and implicit keys go by it. The breaks
  of all systems are one break of a line; the two separators of Unicode keep their identity.
-/

import Regroup.Yaml.Tag

namespace Regroup.Yaml

inductive Token where
  | streamEnd
  | version (major minor : Nat)
  /-- A handle and what it stands for. -/
  | handle (name : String) (meaning : Tag)
  | documentStart
  | documentEnd
  | openBlockSequence
  | openBlockMapping
  | closeBlock
  | openSequence
  | closeSequence
  | openMapping
  | closeMapping
  /-- A dash. -/
  | item
  | comma
  | key
  | value
  | alias (name : String)
  | anchor (name : String)
  | tag (handle : String) (suffix : Tag)
  | scalar (plain : Bool) (text : String)
  deriving DecidableEq, Repr

/-- A character and its place: its line, its column, and the bytes of the text before it. -/
structure Spot where
  char : Char
  line : Nat
  column : Nat
  index : Nat
  deriving Repr

def isBreak (c : Char) : Bool := c == '\n' || c == '\u2028' || c == '\u2029'

def isBlank (c : Char) : Bool := c == ' ' || c == '\t'

/-- Characters of anchors, handles and directive names. -/
def isWord (c : Char) : Bool := c.isAlphanum || c == '_' || c == '-'

/-- The characters that a YAML text may hold. -/
def isAllowed (c : Char) : Bool :=
  let n := c.toNat
  n == 0x09 || n == 0x0a || n == 0x0d || (0x20 ≤ n && n ≤ 0x7e) || n == 0x85 || (0xa0 ≤ n && n ≤ 0xd7ff)
    || (0xe000 ≤ n && n ≤ 0xfffd) || 0x10000 ≤ n

/-- The characters in their places. -/
def place (line column index : Nat) : List Char → List Spot
  | [] => []
  | '\r' :: '\n' :: rest => ⟨'\n', line, column, index⟩ :: place (line + 1) 0 (index + 2) rest
  | c :: rest =>
    let next := index + c.utf8Size
    let c := if c == '\r' || c == '\u0085' then '\n' else c
    ⟨c, line, column, index⟩ ::
      if isBreak c then place (line + 1) 0 next rest else place line (column + 1) next rest

/-- The places of a text; nothing when a character is not allowed. -/
def spots? (text : String) : Option (List Spot) :=
  if text.toList.all isAllowed then some (place 0 0 0 text.toList) else none

namespace Spot

/-- Whether the next character is `c`. -/
def starts (c : Char) : List Spot → Bool
  | s :: _ => s.char == c
  | [] => false

/-- Whether a blank, a break or the end comes next. -/
def atGap : List Spot → Bool
  | s :: _ => isBlank s.char || isBreak s.char
  | [] => true

def atBreak : List Spot → Bool
  | s :: _ => isBreak s.char
  | [] => true

/-- The longest beginning whose characters satisfy `p`, and the rest. -/
def span (p : Char → Bool) (cs : List Spot) : List Char × List Spot :=
  let (front, rest) := List.span (fun s : Spot => p s.char) cs
  (front.map (·.char), rest)

def skip (p : Char → Bool) (cs : List Spot) : List Spot := cs.dropWhile fun s => p s.char

/-- The marker of a document's start or end, if the line begins with one. -/
def marker? : List Spot → Option (Token × List Spot)
  | a :: b :: c :: rest =>
    if a.column == 0 && a.char == b.char && b.char == c.char && atGap rest then
      if a.char == '-' then some (.documentStart, rest)
      else if a.char == '.' then some (.documentEnd, rest)
      else none
    else none
  | _ => none

end Spot

end Regroup.Yaml
