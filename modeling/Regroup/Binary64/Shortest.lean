/-
  Regroup.Binary64.Shortest — the shortest decimal that reads back as the same number.

  A number owns the interval of reals that round to it, ends included when its significand
  is even. For 1, 2, … 17 digits the two neighbours of the number on that decimal grid are
  tested in exact arithmetic; the first grid with a hit gives the digits, of two hits the
  nearer one, of two equally near the even one.

  `Layout` says how the digits are set out; `Binary64.render` writes them.
-/

import Regroup.Binary64

namespace Regroup

namespace Binary64

/-- `digits * 10 ^ exponent`. -/
structure Decimal where
  digits : Nat
  exponent : Int
  deriving DecidableEq, Repr

/-- The reals that round to a number, in quarters of the least step. -/
structure Interval where
  low : Nat
  centre : Nat
  high : Nat
  closed : Bool

/-- The gap below a power of two is half the gap above it. -/
def interval (x : Binary64) : Interval :=
  let step := 1 <<< x.doublings
  let below := if x.significand == binade && x.doublings > 0 then step else 2 * step
  let centre := 4 * x.scaled
  ⟨centre - below, centre, centre + 2 * step, x.significand % 2 == 0⟩

/-- Whether `num / den` quarters lie in the interval. -/
def Interval.holds (i : Interval) (num den : Nat) : Bool :=
  if i.closed then i.low * den ≤ num && num ≤ i.high * den
  else i.low * den < num && num < i.high * den

/-- Quarters of the least step in one. -/
def quarters : Nat := 1 <<< 1076

/-- The exponent of the leading decimal digit of a number other than zero. -/
def leadingExponent (x : Binary64) : Int :=
  let shifted := 4 * x.scaled * powerOfTen 330 / quarters
  ((Nat.toDigits 10 shifted).length : Int) - 331

/-- The better neighbour of `i.centre` on the grid of step `10 ^ e`, if one reads back. -/
def onGrid (i : Interval) (e : Int) : Option Decimal :=
  let up := powerOfTen e.toNat
  let down := powerOfTen (-e).toNat
  -- a grid point `d` is `d * up * quarters / down` quarters
  let unit := up * quarters
  let d := i.centre * down / unit
  let offset := i.centre * down - d * unit
  let lower := i.holds (d * unit) down
  let upper := i.holds ((d + 1) * unit) down
  match lower, upper with
  | false, false => none
  | true, false => some ⟨d, e⟩
  | false, true => some ⟨d + 1, e⟩
  | true, true =>
    if 2 * offset < unit || (2 * offset == unit && d % 2 == 0) then some ⟨d, e⟩ else some ⟨d + 1, e⟩

/-- The fewest digits that read back, and of those the nearest. Seventeen digits always do. -/
def shortest (x : Binary64) : Decimal :=
  let lead := x.leadingExponent
  ((List.range 17).findSome? fun n : Nat => onGrid x.interval (lead - n)).getD ⟨0, 0⟩

end Binary64

/-- How decimal digits are set out: positionally while the exponent of the leading digit lies in
    a range, else in scientific notation, with or without a sign on a positive exponent. -/
structure Layout where
  least : Int
  greatest : Int
  plus : Bool

namespace Layout

/-- The digits without the zeros at their end. -/
def trim (digits : List Char) : List Char :=
  (digits.reverse.dropWhile (· == '0')).reverse

/-- `digits` with the leading one at exponent `lead`; a fraction is always written. -/
def positional (digits : List Char) (lead : Int) : List Char :=
  if lead < 0 then '0' :: '.' :: (List.replicate (-lead - 1).toNat '0' ++ digits)
  else
    let whole := lead.toNat + 1
    let front := digits.take whole ++ List.replicate (whole - digits.length) '0'
    let back := digits.drop whole
    front ++ '.' :: (if back.isEmpty then ['0'] else back)

def scientific (plus : Bool) (digits : List Char) (lead : Int) : List Char :=
  let body := match digits with
    | [] => []
    | [d] => [d]
    | d :: rest => d :: '.' :: rest
  let sign := if lead < 0 then ['-'] else if plus then ['+'] else []
  body ++ 'e' :: (sign ++ (toString lead.natAbs).toList)

def render (layout : Layout) (x : Binary64) : String :=
  let body :=
    if x.isZero then ['0', '.', '0']
    else
      let d := x.shortest
      let all := (toString d.digits).toList
      let lead := d.exponent + all.length - 1
      let digits := trim all
      if layout.least ≤ lead && lead ≤ layout.greatest then positional digits lead
      else scientific layout.plus digits lead
  String.ofList (if x.negative then '-' :: body else body)

end Layout

end Regroup
