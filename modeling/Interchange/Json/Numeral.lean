import Interchange.Number.Shortest

/-!
# Numerals

A JSON number as it is written: a sign, whole digits, digits after a point, and an exponent.

An integer is written with whole digits alone.  A float is written with the fewest digits that read
back to it, positionally from `0.00001` up to below `10 ^ 16` and with an exponent of ten otherwise.

A numeral is read as a float in three steps.  The digits make a whole number, as far as it fits 64
bits; further whole digits only count for the exponent, and further digits after the point not at
all.  This number is rounded to a float.  A product or a quotient with a power of ten, rounded once
more, gives the result.  Readings beyond the largest float are refused.
-/

namespace Interchange.Json

/-- A number as it is written. -/
structure Numeral where
  negative : Bool
  whole : List Char
  /-- The digits after the point; there is no point without them. -/
  fraction : List Char
  /-- Whether the exponent is negative, and its digits. -/
  exponent : Option (Bool × List Char)
deriving DecidableEq, Repr

namespace Numeral

/-- The text of a numeral. -/
def text (n : Numeral) : List Char :=
  (if n.negative then ['-'] else []) ++ n.whole ++
    (if n.fraction = [] then [] else '.' :: n.fraction) ++
    match n.exponent with
    | none => []
    | some (negative, digits) => 'e' :: (if negative then '-' else '+') :: digits

/-- Decimal digits of a number. -/
def digits (n : Nat) : List Char := Nat.toDigits 10 n

def ofInt (i : Int) : Numeral := ⟨i < 0, digits i.natAbs, [], none⟩

/-- The least and the first excluded power of ten of floats that are written positionally. -/
def positional : Int × Int := (-5, 16)

/-- The fewest digits that read back to a finite float. -/
def ofFloat (x : Binary64) : Numeral :=
  let d := x.shortest
  let ds := d.text
  let order := d.order
  if positional.1 ≤ order ∧ order < positional.2 then
    if order < 0 then ⟨x.negative, ['0'], List.replicate (-order - 1).toNat '0' ++ ds, none⟩
    else
      let n := order.toNat + 1
      let fraction := ds.drop n
      ⟨x.negative, ds.take n ++ List.replicate (n - ds.length) '0',
        if fraction = [] then ['0'] else fraction, none⟩
  else ⟨x.negative, ds.take 1, ds.drop 1, some (order < 0, digits order.natAbs)⟩

/-! ## Readings -/

/-- Whether a numeral has neither a fraction nor an exponent. -/
def isWhole (n : Numeral) : Bool := n.fraction = [] && n.exponent = none

def digitValue (c : Char) : Nat := c.toNat - '0'.toNat

/-- The value of digits. -/
def valueOf (ds : List Char) : Nat := ds.foldl (fun n c ↦ 10 * n + digitValue c) 0

/-- The integer that a numeral writes, if 64 bits hold it: without a sign up to `2 ^ 64 - 1`, with
one from `-1` down to `-2 ^ 63`. -/
def toInt? (n : Numeral) : Option Int :=
  let v := valueOf n.whole
  if !n.isWhole then none
  else if n.negative then if 1 ≤ v ∧ v ≤ Int64.minValue.toInt.natAbs then some (-v) else none
  else if v < UInt64.size then some v else none

/-- Digits taken in as far as they fit 64 bits, and the power of ten they count. -/
structure Intake where
  significand : Nat
  exponent : Int
  isFull : Bool

namespace Intake

/-- Takes in a whole digit; one that does not fit counts for the exponent. -/
def addWhole (a : Intake) (c : Char) : Intake :=
  let s := 10 * a.significand + digitValue c
  if a.isFull || UInt64.size ≤ s then { a with exponent := a.exponent + 1, isFull := true }
  else { a with significand := s }

/-- Takes in a digit after the point; from the first one that does not fit they do not count. -/
def addFraction (a : Intake) (c : Char) : Intake :=
  let s := 10 * a.significand + digitValue c
  if a.isFull || UInt64.size ≤ s then { a with isFull := true }
  else { a with significand := s, exponent := a.exponent - 1 }

end Intake

/-- The digits of a numeral taken in. -/
def intake (n : Numeral) : Intake :=
  let whole := n.whole.foldl Intake.addWhole ⟨0, 0, false⟩
  n.fraction.foldl Intake.addFraction { whole with isFull := false }

/-- A float times a power of ten; the power is applied in parts that are floats themselves. -/
def scale? : Nat → Binary64 → Int → Option Binary64
  | 0, x, _ => some x
  | fuel + 1, x, e =>
    if e.natAbs ≤ 308 then
      if e < 0 then some (x.div (.tenTo e.natAbs))
      else
        let y := x.mul (.tenTo e.natAbs)
        if y.isFinite then some y else none
    else if x.isZero then some x
    else if 0 ≤ e then none
    else scale? fuel (x.div (.tenTo 308)) (e + 308)

/-- Exponents stay within 32 bits. -/
def clamp (e : Int) : Int := max Int32.minValue.toInt (min e Int32.maxValue.toInt)

/-- The magnitude that a numeral reads as, if it is not beyond the largest float.  An exponent that
does not fit 32 bits leaves zero or is beyond every float. -/
def magnitude? (n : Numeral) : Option Binary64 :=
  let a := n.intake
  match n.exponent with
  | none => scale? 4 (.ofInt a.significand) a.exponent
  | some (negative, ds) =>
    let e : Int := valueOf ds
    if Int32.maxValue.toInt < e then
      if a.significand = 0 ∨ negative then some (.ofInt 0) else none
    else
      scale? 4 (.ofInt a.significand) (clamp (if negative then a.exponent - e else a.exponent + e))

/-- The float that a numeral reads as, if it is not beyond the largest. -/
def toFloat? (n : Numeral) : Option Binary64 :=
  n.magnitude?.map fun x ↦ if n.negative then x.neg else x

end Numeral

end Interchange.Json
