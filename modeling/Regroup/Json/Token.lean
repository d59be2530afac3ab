/-
  Regroup.Json.Token — the tokens of a JSON text.

  Numbers with a fraction or an exponent, and integers beyond 64 bits, are read the quick way
  (`Binary64.ofDigits?`): the leading digits that fit 64 bits count, the others only move the
  point. A negative zero is a float.
-/

import Regroup.Json

namespace Regroup.Json

inductive Token where
  | openList
  | closeList
  | openRecord
  | closeRecord
  | comma
  | colon
  | scalar (v : Json)
  /-- A string; nothing when it holds half a surrogate pair. -/
  | string (s : Option String)
  deriving Repr

/-! ## Numbers -/

/-- A number as written: its digits before and after the point and its exponent. -/
structure Numeral where
  negative : Bool
  whole : List Char
  fraction : List Char
  exponent : Option Int
  deriving Repr

def digitOf (c : Char) : Nat := c.toNat - '0'.toNat

def natOf (digits : List Char) : Nat := digits.foldl (fun n c => 10 * n + digitOf c) 0

/-- Digits taken onto `n` while the result fits 64 bits, and how many were left. -/
def takeDigits (n : Nat) : List Char → Nat × Nat
  | [] => (n, 0)
  | c :: rest => if 10 * n + digitOf c < 1 <<< 64 then takeDigits (10 * n + digitOf c) rest else (n, rest.length + 1)

namespace Numeral

def floating? (n : Numeral) : Option Binary64 :=
  let (whole, left) := takeDigits 0 n.whole
  let (digits, dropped) := takeDigits whole n.fraction
  let taken : Int := n.fraction.length - dropped
  Binary64.ofDigits? n.negative digits (left - taken + n.exponent.getD 0)

def value (n : Numeral) : Json :=
  let integral := n.fraction.isEmpty && n.exponent.isNone
  let i : Int := if n.negative then -(natOf n.whole : Int) else natOf n.whole
  if integral && Int64.minValue.toInt ≤ i && i ≤ Int64.maxValue.toInt && !(n.negative && i == 0) then .int (.ofInt i)
  else n.floating?.elim .unreadable .float

end Numeral

def takeWhole : List Char → Option (List Char × List Char)
  | '0' :: rest =>
    match rest with
    | c :: _ => if c.isDigit then none else some (['0'], rest)
    | [] => some (['0'], [])
  | cs => match cs.span Char.isDigit with
    | ([], _) => none
    | found => some found

def takeFraction : List Char → Option (List Char × List Char)
  | '.' :: rest => match rest.span Char.isDigit with
    | ([], _) => none
    | found => some found
  | rest => some ([], rest)

def takeExponent : List Char → Option (Option Int × List Char)
  | c :: rest =>
    if c = 'e' ∨ c = 'E' then
      let (negative, rest) : Bool × List Char := match rest with
        | '+' :: rest => (false, rest)
        | '-' :: rest => (true, rest)
        | rest => (false, rest)
      match rest.span Char.isDigit with
      | ([], _) => none
      | (digits, rest) => some (some (if negative then -(natOf digits : Int) else natOf digits), rest)
    else some (none, c :: rest)
  | [] => some (none, [])

def takeNumeral (cs : List Char) : Option (Numeral × List Char) := do
  let (negative, cs) : Bool × List Char := match cs with
    | '-' :: rest => (true, rest)
    | cs => (false, cs)
  let (whole, cs) ← takeWhole cs
  let (fraction, cs) ← takeFraction cs
  let (exponent, cs) ← takeExponent cs
  return (⟨negative, whole, fraction, exponent⟩, cs)

/-! ## Strings -/

def hexOf? (c : Char) : Option Nat :=
  if c.isDigit then some (digitOf c)
  else if 'a' ≤ c ∧ c ≤ 'f' then some (c.toNat - 'a'.toNat + 10)
  else if 'A' ≤ c ∧ c ≤ 'F' then some (c.toNat - 'A'.toNat + 10)
  else none

/-- The number that hexadecimal digits write. -/
def ofHex? (digits : List Char) : Option Nat :=
  digits.foldlM (fun n c => (hexOf? c).map (16 * n + ·)) 0

def escaped? : Char → Option Char
  | '"' => some '"'
  | '\\' => some '\\'
  | '/' => some '/'
  | 'b' => some '\x08'
  | 'f' => some '\x0c'
  | 'n' => some '\n'
  | 'r' => some '\r'
  | 't' => some '\t'
  | _ => none

def isHigh (unit : Nat) : Bool := 0xd800 ≤ unit && unit < 0xdc00
def isLow (unit : Nat) : Bool := 0xdc00 ≤ unit && unit < 0xe000

/-- A string being read: its characters so far, the last one first, a first half that waits for
    its second, and whether every half so far found the other. -/
structure Reading where
  done : List Char := []
  high : Option Nat := none
  paired : Bool := true

namespace Reading

def push (r : Reading) (c : Char) : Reading :=
  ⟨c :: r.done, none, r.paired && r.high.isNone⟩

def pushUnit (r : Reading) (unit : Nat) : Reading :=
  match r.high with
  | some high =>
    if isLow unit then ⟨Char.ofNat (0x10000 + (high - 0xd800) * 0x400 + (unit - 0xdc00)) :: r.done, none, r.paired⟩
    else ⟨r.done, none, false⟩
  | none =>
    if isHigh unit then { r with high := some unit }
    else if isLow unit then { r with paired := false }
    else r.push (Char.ofNat unit)

def finish (r : Reading) : Option String :=
  if r.paired && r.high.isNone then some (String.ofList r.done.reverse) else none

end Reading

/-- A string after its opening quote. -/
def takeString (r : Reading) : List Char → Option (Option String × List Char)
  | '"' :: rest => some (r.finish, rest)
  | '\\' :: 'u' :: a :: b :: c :: d :: rest => do
    let unit ← ofHex? [a, b, c, d]
    takeString (r.pushUnit unit) rest
  | '\\' :: c :: rest => do
    let c ← escaped? c
    takeString (r.push c) rest
  | c :: rest => if c.toNat < 0x20 then none else takeString (r.push c) rest
  | [] => none

/-! ## Tokens -/

def isBlank (c : Char) : Bool := c == ' ' || c == '\n' || c == '\t' || c == '\r'

def takeToken : List Char → Option (Token × List Char)
  | '[' :: rest => some (.openList, rest)
  | ']' :: rest => some (.closeList, rest)
  | '{' :: rest => some (.openRecord, rest)
  | '}' :: rest => some (.closeRecord, rest)
  | ',' :: rest => some (.comma, rest)
  | ':' :: rest => some (.colon, rest)
  | '"' :: rest => (takeString {} rest).map fun (s, rest) => (.string s, rest)
  | 'n' :: 'u' :: 'l' :: 'l' :: rest => some (.scalar .null, rest)
  | 't' :: 'r' :: 'u' :: 'e' :: rest => some (.scalar (.bool true), rest)
  | 'f' :: 'a' :: 'l' :: 's' :: 'e' :: rest => some (.scalar (.bool false), rest)
  | cs => (takeNumeral cs).map fun (n, rest) => (.scalar n.value, rest)

/-- All tokens; `fuel` bounds their number. -/
def tokensWithin : Nat → List Char → Option (List Token)
  | 0, _ => none
  | fuel + 1, cs =>
    match cs.dropWhile isBlank with
    | [] => some []
    | cs => do
      let (t, rest) ← takeToken cs
      let ts ← tokensWithin fuel rest
      return t :: ts

def tokens? (text : String) : Option (List Token) := tokensWithin (text.length + 1) text.toList

end Regroup.Json
