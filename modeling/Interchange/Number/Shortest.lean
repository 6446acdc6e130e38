import Interchange.Number.Binary64

/-!
# Shortest decimals

The fewest decimal digits that read back to a given number, and of those the nearest to it.

The decimals that read back to a number are those between the halfway points to its two
neighbours, the halfway points themselves included exactly when the significand is even.  On the
grid of multiples of a power of ten only the two grid points around the number need to be tried:
if any point of the grid lies in the interval, one of these does.
-/

namespace Interchange

/-- A decimal magnitude `digits * 10 ^ exponent`. -/
structure Decimal where
  digits : Nat
  exponent : Int
deriving DecidableEq, Repr

namespace Decimal

/-- Moves trailing zeros of the digits into the exponent. -/
def strip : Nat → Decimal → Decimal
  | 0, d => d
  | fuel + 1, d =>
    if d.digits ≠ 0 ∧ d.digits % 10 = 0 then strip fuel ⟨d.digits / 10, d.exponent + 1⟩ else d

/-- The digits as characters. -/
def text (d : Decimal) : List Char := (toString d.digits).toList

/-- The power of ten of the first digit. -/
def order (d : Decimal) : Int := d.exponent + d.text.length - 1

end Decimal

namespace Binary64

/-- A number and the ends of the interval that reads back to it, over one denominator. -/
structure Interval where
  low : Nat
  value : Nat
  high : Nat
  denominator : Nat
  closed : Bool

/-- The interval of a finite number that is no zero. -/
def interval (x : Binary64) : Interval :=
  let m := x.significand
  let unit := Nat.pow 2 x.scale
  let below := if m = leadingBit ∧ 0 < x.scale then 1 else 2
  { low := (4 * m - below) * unit
    value := 4 * m * unit
    high := (4 * m + 2) * unit
    denominator := Nat.pow 2 1076
    closed := m % 2 = 0 }

namespace Interval

/-- The interval counted in powers of ten. -/
def rescale (i : Interval) (exponent : Int) : Interval :=
  if 0 ≤ exponent then { i with denominator := i.denominator * Nat.pow 10 exponent.toNat }
  else
    let f := Nat.pow 10 (-exponent).toNat
    { i with low := i.low * f, value := i.value * f, high := i.high * f }

/-- Whether a whole number lies in the interval. -/
def holds (i : Interval) (n : Nat) : Bool :=
  let n := n * i.denominator
  if i.closed then i.low ≤ n && n ≤ i.high else i.low < n && n < i.high

/-- The whole number nearest to the value among its two neighbours, if one lies in the interval. -/
def neighbour? (i : Interval) : Option Nat :=
  let c := i.value / i.denominator
  match i.holds c, i.holds (c + 1) with
  | false, false => none
  | true, false => some c
  | false, true => some (c + 1)
  | true, true =>
    let middle := (2 * c + 1) * i.denominator
    if 2 * i.value < middle then some c
    else if middle < 2 * i.value then some (c + 1)
    else some (c + c % 2)

/-- The least power of ten above the value, near a guess. -/
def ceiling (i : Interval) (guess : Int) : Int :=
  let above (k : Int) : Bool :=
    let j := i.rescale k
    j.value < j.denominator
  (([-2, -1, 0, 1, 2].map (guess + ·)).find? above).getD (guess + 3)

end Interval

/-- The fewest digits that read back to a finite number. -/
def shortest (x : Binary64) : Decimal :=
  if x.isZero then ⟨0, 0⟩
  else
    let i := x.interval
    let top := i.ceiling (((x.units.log2 : Int) - 1074) * 30103 / 100000)
    let grid (n : Nat) : Option Decimal :=
      let exponent := top - n
      ((i.rescale exponent).neighbour?).map fun d ↦ Decimal.strip 17 ⟨d, exponent⟩
    ((List.range 17).findSome? fun n ↦ grid (n + 1)).getD ⟨x.units * Nat.pow 5 1074, -1074⟩

end Binary64

end Interchange
