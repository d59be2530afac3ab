/-
  Regroup.Binary64 — finite IEEE 754 binary64 numbers, in exact arithmetic.

  The magnitudes in increasing order are numbered from zero, so a number is a sign and a
  place in that order. The first `2 ^ 52` places are one unit apart; after them each block
  of `2 ^ 52` places (a `binade`) doubles the step. `scaled` is the magnitude counted in the
  least step, `2 ^ -1074`; every operation rounds one quotient of natural numbers to the
  nearest place, a tie to the even one.

  `ofRatio?` fails exactly on overflow; `ofDecimal?` rounds a decimal once, and
  `ofDigits?` is the quick reading that rounds the digits and the power of ten apart.
-/

namespace Regroup

/-- Places in one binade. -/
def Binary64.binade : Nat := 1 <<< 52

/-- Places of finite magnitudes. -/
def Binary64.places : Nat := 2047 * binade

/-- A finite number: its sign, and the place of its magnitude in increasing order. -/
structure Binary64 where
  negative : Bool
  place : Fin Binary64.places
  deriving DecidableEq, Repr

namespace Binary64

/-- Number of doublings of the step at this magnitude. -/
def doublings (x : Binary64) : Nat := x.place / binade - 1

/-- The magnitude counted in steps of its own binade. -/
def significand (x : Binary64) : Nat := x.place - x.doublings * binade

/-- The magnitude counted in the least step, `2 ^ -1074`. -/
def scaled (x : Binary64) : Nat := x.significand <<< x.doublings

def zero : Binary64 := ⟨false, ⟨0, by decide⟩⟩

def isZero (x : Binary64) : Bool := x.place.val == 0

/-- The sign is of no account for zeros, and decides nothing else but itself. -/
def sameValue (x y : Binary64) : Bool := x.place == y.place && (x.negative == y.negative || x.isZero)

/-! ## Rounding -/

/-- `num / den` to the nearest natural number, a tie to the even one. -/
def roundEven (num den : Nat) : Nat :=
  let q := num / den
  let r := num % den
  if 2 * r < den || (2 * r == den && q % 2 == 0) then q else q + 1

/-- The place nearest to `num / den` least steps, beyond the last place too. -/
def nearestPlace (num den : Nat) : Nat :=
  let k := Nat.log2 (num / den) - 52
  roundEven num (den <<< k) + k * binade

/-- The nearest number to `num / den`; nothing when that overflows. -/
def ofRatio? (negative : Bool) (num den : Nat) : Option Binary64 :=
  let p := nearestPlace (num <<< 1074) den
  if h : p < places then some ⟨negative, ⟨p, h⟩⟩ else none

def mul? (x y : Binary64) : Option Binary64 :=
  ofRatio? (x.negative != y.negative) (x.scaled * y.scaled) (1 <<< 2148)

def div? (x y : Binary64) : Option Binary64 :=
  if y.isZero then none else ofRatio? (x.negative != y.negative) x.scaled y.scaled

def powerOfTen (n : Nat) : Nat := Nat.pow 10 n

/-- `digits * 10 ^ exponent`, rounded once; nothing when that overflows. -/
def ofDecimal? (negative : Bool) (digits : Nat) (exponent : Int) : Option Binary64 :=
  let width : Int := (Nat.toDigits 10 digits).length
  if digits == 0 || width + exponent < -330 then some { zero with negative }
  else if width + exponent > 310 then none
  else if exponent ≥ 0 then ofRatio? negative (digits * powerOfTen exponent.toNat) 1
  else ofRatio? negative digits (powerOfTen (-exponent).toNat)

def ofNat? (n : Nat) : Option Binary64 := ofRatio? false n 1

/-- The quick reading of `digits * 10 ^ exponent`: the digits are rounded, then multiplied or
    divided by a rounded power of ten, in two steps below `10 ^ -308`. The last place may be off
    by one against `ofDecimal?`. -/
def ofDigits? (negative : Bool) (digits : Nat) (exponent : Int) : Option Binary64 := do
  let x ← ofNat? digits
  let magnitude ←
    if exponent > 308 then (if x.isZero then some x else none)
    else if exponent ≥ 0 then do x.mul? (← ofNat? (powerOfTen exponent.toNat))
    else
      let e := (-exponent).toNat
      if e ≤ 308 then do x.div? (← ofNat? (powerOfTen e))
      else if e ≤ 616 then do (← x.div? (← ofNat? (powerOfTen 308))).div? (← ofNat? (powerOfTen (e - 308)))
      else some zero
  return { magnitude with negative }

end Binary64

end Regroup
