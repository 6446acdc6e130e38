/-!
# Binary64 numbers

A 64-bit binary floating-point number is its word: a sign bit, eleven bits of exponent, 52 bits of
fraction.  Two words are equal as words exactly when they are the same word, and equal as numbers
(`equal`) when neither is a NaN and they are the same word or both a zero.

Every finite magnitude is a whole number of units of `2 ^ -1074`.  Rounding takes an exact quotient
to the nearest magnitude, a tie to the one whose last bit is zero, and magnitudes from
`2 ^ 1024 - 2 ^ 970` on to infinity; products and quotients are the exact ones, rounded once.
-/

namespace Interchange

/-- A floating-point number, by its word. -/
structure Binary64 where
  bits : UInt64
deriving DecidableEq, Repr

namespace Binary64

/-- Words with this bit set are negative. -/
def signBit : Nat := 0x8000000000000000

/-- The leading bit of a significand, which is not part of the word. -/
def leadingBit : Nat := 0x10000000000000

def negative (x : Binary64) : Bool := signBit ≤ x.bits.toNat

/-- The word without its sign. -/
def magnitude (x : Binary64) : Nat := x.bits.toNat % signBit

/-- The eleven bits of exponent. -/
def exponent (x : Binary64) : Nat := x.magnitude / leadingBit

/-- The 52 bits of fraction. -/
def fraction (x : Binary64) : Nat := x.magnitude % leadingBit

/-- The magnitude of an infinity; larger ones are NaNs. -/
def infinite : Nat := 2047 * leadingBit

def isNaN (x : Binary64) : Bool := infinite < x.magnitude

def isFinite (x : Binary64) : Bool := x.magnitude < infinite

def isZero (x : Binary64) : Bool := x.magnitude = 0

/-- Equality of numbers: a NaN equals nothing, and the two zeros are equal. -/
def equal (x y : Binary64) : Bool :=
  !x.isNaN && !y.isNaN && (x = y || (x.isZero && y.isZero))

/-- A number that is no NaN equals itself. -/
@[simp] theorem equal_self (x : Binary64) : x.equal x = !x.isNaN := by
  simp [equal]

/-- The bits of a finite magnitude that count, the leading one included. -/
def significand (x : Binary64) : Nat :=
  if x.exponent = 0 then x.fraction else leadingBit + x.fraction

/-- The power of two that the significand counts, in units. -/
def scale (x : Binary64) : Nat := x.exponent - 1

/-- A finite magnitude in units of `2 ^ -1074`. -/
def units (x : Binary64) : Nat := x.significand * Nat.pow 2 x.scale

/-- The whole number nearest to a quotient; a half goes to the even neighbour. -/
def roundHalfEven (n d : Nat) : Nat :=
  let q := n / d
  let twice := 2 * (n % d)
  if twice < d then q
  else if d < twice then q + 1
  else q + q % 2

/-- The number nearest to a quotient. -/
def ofRatio (negative : Bool) (n d : Nat) : Binary64 :=
  let n := n * Nat.pow 2 1074
  let e := (n / d).log2 - 52
  let word := min (e * leadingBit + roundHalfEven n (d * Nat.pow 2 e)) infinite
  ⟨UInt64.ofNat (if negative then signBit + word else word)⟩

/-- The number nearest to an integer. -/
def ofInt (i : Int) : Binary64 := ofRatio (i < 0) i.natAbs 1

/-- The product of two finite numbers. -/
def mul (x y : Binary64) : Binary64 :=
  ofRatio (x.negative != y.negative) (x.units * y.units) (Nat.pow 2 2148)

/-- The quotient of two finite numbers, the second no zero. -/
def div (x y : Binary64) : Binary64 := ofRatio (x.negative != y.negative) x.units y.units

/-- The number with the other sign. -/
def neg (x : Binary64) : Binary64 := ⟨x.bits ^^^ 0x8000000000000000⟩

/-- The number nearest to a power of ten. -/
def tenTo (k : Nat) : Binary64 := ofRatio false (Nat.pow 10 k) 1

end Binary64

end Interchange
