import Manycore.DataError
import Manycore.Number.Binary64

/-! # Fixed-point words

A format says how many bits of a 32-bit word are used, how many of them count fractions, and
whether the raw integer is two's complement. Encoding drops what is below the last bit and stops
at the ends of the format's range.
-/

namespace Manycore

/-- A fixed-point format of one to thirty-two bits. -/
structure FixedPoint where
  bits : Nat
  fraction : Int
  signed : Bool
  bits_pos : 0 < bits := by omega
  bits_le : bits ≤ 32 := by omega
  fraction_ge : -32 ≤ fraction := by omega
  fraction_le : fraction ≤ 32 := by omega
  deriving DecidableEq, Repr

namespace FixedPoint

/-- Sign, sixteen whole bits and fifteen fraction bits. -/
def s1615 : FixedPoint where
  bits := 32
  fraction := 15
  signed := true

instance : Inhabited FixedPoint := ⟨s1615⟩

/-- The format with these fields; the width is checked before the fraction. -/
def ofFields (bits : Nat) (fraction : Int) (signed : Bool) : Except DataError FixedPoint :=
  if hb : 0 < bits ∧ bits ≤ 32 then
    if hf : -32 ≤ fraction ∧ fraction ≤ 32 then
      .ok ⟨bits, fraction, signed, hb.1, hb.2, hf.1, hf.2⟩
    else .error (.badParameter (.fixedPointFraction fraction))
  else .error (.badParameter (.fixedPointWidth bits))

/-- The least raw integer. -/
def minRaw (f : FixedPoint) : Int := if f.signed then -(twoTo (f.bits - 1) : Int) else 0

/-- The greatest raw integer. -/
def maxRaw (f : FixedPoint) : Int :=
  if f.signed then (twoTo (f.bits - 1) : Int) - 1 else (twoTo f.bits : Int) - 1

/-- The raw integer of a number: scaled, truncated toward zero and kept within the range. -/
def raw (f : FixedPoint) (x : Binary64) : Int :=
  (x * .powerOfTwo f.fraction).truncWithin f.minRaw f.maxRaw

/-- The word of a number, negative raw integers in two's complement. -/
def encode (f : FixedPoint) (x : Binary64) : UInt32 :=
  UInt32.ofNat (f.raw x % twoTo f.bits).toNat

/-- The raw integer that a word stands for; bits above the format's are ignored. -/
def rawOf (f : FixedPoint) (word : UInt32) : Int :=
  let low := word.toNat % twoTo f.bits
  if f.signed && decide (twoTo (f.bits - 1) ≤ low) then (low : Int) - twoTo f.bits else low

/-- The number that a word stands for: its raw integer, scaled back. -/
def decode (f : FixedPoint) (word : UInt32) : Binary64 :=
  .ofInt (f.rawOf word) * .powerOfTwo (-f.fraction)

/-- The format as diagnostics show it. -/
def text (f : FixedPoint) : String :=
  s!"FixedPointFormat \x7b n_bits: {f.bits}, n_frac: {f.fraction}, signed: {f.signed} \x7d"

end FixedPoint

end Manycore
