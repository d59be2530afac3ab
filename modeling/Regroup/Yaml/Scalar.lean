/-
  Regroup.Yaml.Scalar — what a plain scalar means.

  A plain text is null, a boolean, an integer (decimal, or hexadecimal, octal or binary after
  `0x`, `0o`, `0b`), a float, or itself. Digits after a leading zero are text, and so is a
  number too large for a float. An integer that needs more than 64 but at most 128 bits has
  no value.
-/

import Regroup.Yaml
import Regroup.Yaml.Tag

namespace Regroup.Yaml

/-- What reading a text as an integer gives. -/
inductive Whole where
  | int (i : Int)
  /-- An integer of more than 64 bits. -/
  | wide
  | none
  deriving DecidableEq, Repr

namespace Scalar

def isNull (s : String) : Bool := ["null", "Null", "NULL", "~"].contains s

def bool? (s : String) : Option Bool :=
  if ["true", "True", "TRUE"].contains s then some true
  else if ["false", "False", "FALSE"].contains s then some false
  else none

/-! ## Integers -/

def digit? (radix : Nat) (c : Char) : Option Nat :=
  let d :=
    if '0' ≤ c ∧ c ≤ '9' then c.toNat - '0'.toNat
    else if 'a' ≤ c ∧ c ≤ 'f' then c.toNat - 'a'.toNat + 10
    else if 'A' ≤ c ∧ c ≤ 'F' then c.toNat - 'A'.toNat + 10
    else radix
  if d < radix then some d else none

/-- At least one digit of the radix, and nothing else. -/
def nat? (radix : Nat) (digits : List Char) : Option Nat :=
  if digits.isEmpty then none else digits.foldlM (fun n c => (digit? radix c).map (radix * n + ·)) 0

def unsigned (cs : List Char) : List Char :=
  match cs with
  | '-' :: rest => rest
  | '+' :: rest => rest
  | cs => cs

/-- More than one digit, the first of them zero. -/
def isPadded (cs : List Char) : Bool :=
  match unsigned cs with
  | '0' :: c :: rest => (c :: rest).all Char.isDigit
  | _ => false

/-- The magnitude that digits write, with or without the mark of a radix. -/
def magnitude? (cs : List Char) : Option Nat :=
  let marked := match cs with
    | '0' :: 'x' :: rest => nat? 16 rest
    | '0' :: 'o' :: rest => nat? 8 rest
    | '0' :: 'b' :: rest => nat? 2 rest
    | _ => none
  marked.or (if isPadded cs then none else nat? 10 cs)

/-- A magnitude up to `bound` is an integer, one up to 127 or 128 bits is wide. -/
def whole (cs : List Char) : Whole :=
  let grade (negative : Bool) (n : Nat) : Whole :=
    if negative then (if n ≤ 1 <<< 63 then .int (-n) else if n ≤ 1 <<< 127 then .wide else .none)
    else (if n < 1 <<< 64 then .int n else if n < 1 <<< 128 then .wide else .none)
  match cs with
  | '-' :: rest => (magnitude? rest).elim .none (grade true)
  | '+' :: rest => (magnitude? rest).elim .none (grade false)
  | cs => (magnitude? cs).elim .none (grade false)

/-! ## Floats -/

/-- Digits with a point and an exponent, none of them needed but one digit. -/
def decimal? (cs : List Char) : Option (Nat × Int) := do
  let (front, rest) := cs.span Char.isDigit
  let (back, rest) := match rest with
    | '.' :: rest => rest.span Char.isDigit
    | rest => ([], rest)
  let digits ← nat? 10 (front ++ back)
  let exponent : Int ← match rest with
    | [] => some 0
    | c :: rest =>
      if c = 'e' ∨ c = 'E' then
        match rest with
        | '-' :: rest => (nat? 10 rest).map fun n => -(n : Int)
        | '+' :: rest => (nat? 10 rest).map fun n => (n : Int)
        | rest => (nat? 10 rest).map fun n => (n : Int)
      else none
  return (digits, exponent - back.length)

def float? (s : String) : Option Yaml :=
  if [".inf", ".Inf", ".INF", "+.inf", "+.Inf", "+.INF"].contains s then some (.infinity false)
  else if ["-.inf", "-.Inf", "-.INF"].contains s then some (.infinity true)
  else if [".nan", ".NaN", ".NAN"].contains s then some .nan
  else
    let negative := s.toList.head? == some '-'
    (decimal? (unsigned s.toList)).bind fun (digits, exponent) =>
      (Binary64.ofDecimal? negative digits exponent).map .float

/-! ## Scalars -/

/-- The value of a plain text. -/
def plain? (s : String) : Option Yaml :=
  if s.isEmpty ∨ isNull s then some .null
  else match bool? s with
    | some b => some (.bool b)
    | none =>
      match whole s.toList with
      | .int i => some (.int i)
      | .wide => none
      | .none => some (if isPadded s.toList then .text s else (float? s).getD (.text s))

/-- Whether a text keeps its meaning when it is written plain. -/
def isPlain (s : String) : Bool :=
  match plain? s with
  | some (.text _) => !isPadded s.toList
  | _ => false

/-- The value of a scalar without a tag of its own. -/
def untagged? (plain : Bool) (s : String) : Option Yaml := if plain then plain? s else some (.text s)

/-- The value of a scalar. A local tag without a name does not count; the standard tags demand
    their kind, other foreign tags make it text. -/
def value? (tag : Option Tag) (plain : Bool) (s : String) : Option Yaml :=
  match tag with
  | none => untagged? plain s
  | some tag =>
    if tag.isLocal then
      (untagged? plain s).map fun v => (tag.name?).elim v (.tagged · v)
    else if tag.isStandard "bool" then (bool? s).map .bool
    else if tag.isStandard "int" then
      match whole s.toList with
      | .int i => some (.int i)
      | _ => none
    else if tag.isStandard "float" then float? s
    else if tag.isStandard "null" then (if isNull s then some .null else none)
    else some (.text s)

end Scalar

end Regroup.Yaml
