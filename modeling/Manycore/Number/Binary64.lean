import Manycore.Number.Natural

/-! # Binary64 numbers

The values of a network are IEEE 754 binary64 numbers, kept as their 64 bits so that the payload
of a NaN survives. A finite number is a whole count of units of `2 ^ -1074`, so every operation
is one exact integer computation followed by one rounding to nearest, ties to even.
-/

namespace Manycore

/-- A binary64 number, given by its bits. -/
structure Binary64 where
  bits : UInt64
  deriving DecidableEq, Repr

namespace Binary64

instance : Inhabited Binary64 := ⟨⟨0⟩⟩

/-- The units in one: `2 ^ 1074` of the least positive number. -/
def unitsPerOne : Nat := twoTo 1074

/-- The bits of positive infinity; every smaller pattern without a sign is finite. -/
def infinityBits : Nat := 2047 * twoTo 52

/-- Whether the sign bit is set. -/
def isNegative (x : Binary64) : Bool := decide (twoTo 63 ≤ x.bits.toNat)

/-- The bits below the sign. -/
def magnitudeBits (x : Binary64) : Nat := x.bits.toNat % twoTo 63

/-- The eleven exponent bits. -/
def exponentField (x : Binary64) : Nat := x.magnitudeBits / twoTo 52

/-- The fifty-two fraction bits. -/
def fraction (x : Binary64) : Nat := x.magnitudeBits % twoTo 52

def isNaN (x : Binary64) : Bool := decide (infinityBits < x.magnitudeBits)

def isInfinite (x : Binary64) : Bool := decide (x.magnitudeBits = infinityBits)

def isFinite (x : Binary64) : Bool := decide (x.magnitudeBits < infinityBits)

/-- Put a sign in front of magnitude bits. -/
def ofMagnitude (negative : Bool) (magnitude : Nat) : Binary64 :=
  ⟨UInt64.ofNat ((if negative then twoTo 63 else 0) + magnitude)⟩

/-- The quiet NaN that operations give. -/
def nan : Binary64 := ⟨0x7ff8000000000000⟩

def infinity (negative : Bool) : Binary64 := ofMagnitude negative infinityBits

def zero (negative : Bool) : Binary64 := ofMagnitude negative 0

/-- The magnitude of a finite number, in units. -/
def units (x : Binary64) : Nat :=
  if x.exponentField = 0 then x.fraction
  else (twoTo 52 + x.fraction) <<< (x.exponentField - 1)

/-- The value of a finite number, in units. An infinity counts as `2 ^ 2100` units, beyond every
finite number. -/
def signedUnits (x : Binary64) : Int :=
  let magnitude : Nat := if x.isInfinite then twoTo 2100 else x.units
  if x.isNegative then -(magnitude : Int) else magnitude

/-- The quotient rounded to the nearest integer, a tie going to the even one. -/
def roundQuotient (num den : Nat) : Nat :=
  let quotient := num / den
  let twice := 2 * (num % den)
  if twice < den then quotient
  else if den < twice then quotient + 1
  else if quotient % 2 = 0 then quotient
  else quotient + 1

/-- The number nearest to `num / den` units, ties to the even significand. `place` is the power of
two that the last significand bit counts; a significand that rounds up to `2 ^ 53` carries into the
exponent field by the addition. -/
def round (negative : Bool) (num den : Nat) : Binary64 :=
  let place := (num / den).log2 - 52
  let magnitude := place * twoTo 52 + roundQuotient num (den <<< place)
  ofMagnitude negative (min magnitude infinityBits)

/-- The number nearest to `num / den`. -/
def ofRatio (negative : Bool) (num den : Nat) : Binary64 :=
  round negative (num * unitsPerOne) den

def ofNat (n : Nat) : Binary64 := ofRatio false n 1

def ofInt (n : Int) : Binary64 := ofRatio (decide (n < 0)) n.natAbs 1

def one : Binary64 := ofNat 1

/-- Two to a power, which may be negative. -/
def powerOfTwo (power : Int) : Binary64 :=
  ofRatio false (twoTo power.toNat) (twoTo (-power).toNat)

def neg (x : Binary64) : Binary64 := ofMagnitude (!x.isNegative) x.magnitudeBits

/-- A sum that is exactly zero is positive unless both terms are negative. -/
def add (x y : Binary64) : Binary64 :=
  if x.isNaN || y.isNaN then nan
  else if x.isInfinite then
    if y.isInfinite && x.isNegative != y.isNegative then nan else x
  else if y.isInfinite then y
  else
    let sum := x.signedUnits + y.signedUnits
    if sum = 0 then zero (x.isNegative && y.isNegative)
    else round (decide (sum < 0)) sum.natAbs 1

def sub (x y : Binary64) : Binary64 := add x (neg y)

def mul (x y : Binary64) : Binary64 :=
  let negative := x.isNegative != y.isNegative
  if x.isNaN || y.isNaN then nan
  else if x.isInfinite || y.isInfinite then
    if x.magnitudeBits = 0 || y.magnitudeBits = 0 then nan else infinity negative
  else round negative (x.units * y.units) unitsPerOne

def div (x y : Binary64) : Binary64 :=
  let negative := x.isNegative != y.isNegative
  if x.isNaN || y.isNaN || (x.isInfinite && y.isInfinite) then nan
  else if x.isInfinite then infinity negative
  else if y.isInfinite then zero negative
  else if y.units = 0 then
    if x.units = 0 then nan else infinity negative
  else round negative (x.units * unitsPerOne) y.units

instance : Add Binary64 := ⟨add⟩
instance : Sub Binary64 := ⟨sub⟩
instance : Mul Binary64 := ⟨mul⟩
instance : Div Binary64 := ⟨div⟩
instance : Neg Binary64 := ⟨neg⟩

/-- The IEEE order: nothing compares with a NaN, and the two zeros are equal. -/
def le (x y : Binary64) : Bool :=
  !x.isNaN && !y.isNaN && decide (x.signedUnits ≤ y.signedUnits)

def lt (x y : Binary64) : Bool :=
  !x.isNaN && !y.isNaN && decide (x.signedUnits < y.signedUnits)

/-- The exponential function, to the precision of the machine's own. -/
def exp (x : Binary64) : Binary64 :=
  ⟨(Float.exp (Float.ofBits x.bits)).toBits⟩

/-- `x * 2 ^ power` with the fraction dropped; a NaN counts as zero. -/
def scaledTrunc (x : Binary64) (power : Int) : Int :=
  if x.isNaN then 0
  else (x.signedUnits * twoTo power.toNat).tdiv (unitsPerOne * twoTo (-power).toNat : Nat)

/-- The integer part, kept within `low` and `high`. -/
def truncWithin (low high : Int) (x : Binary64) : Int :=
  max low (min high (x.scaledTrunc 0))

/-- The least integer not below the number, kept within `0` and `high`; a NaN counts as zero. -/
def ceilWithin (high : Nat) (x : Binary64) : Nat :=
  if x.isNaN || x.isNegative then 0
  else min high ((x.signedUnits.toNat + (unitsPerOne - 1)) / unitsPerOne)

/-- The bits by which equal contents are recognised: the zeros share one pattern, and so do all
NaNs. -/
def contentBits (x : Binary64) : UInt64 :=
  if x.magnitudeBits = 0 then 0
  else if x.isNaN then nan.bits
  else x.bits

/-- The bits by which equal time constants are recognised: the zeros share one pattern, and NaNs
stay apart by their payload. -/
def exactBits (x : Binary64) : UInt64 :=
  if x.magnitudeBits = 0 then 0 else x.bits

end Binary64

end Manycore
