import Manycore.Number.FixedPoint

/-! # Words

How numbers become 32-bit words.
-/

namespace Manycore

inductive WordFormat where
  /-- Truncated toward zero, kept within the unsigned range. -/
  | unsigned
  /-- Truncated toward zero, kept within the signed range, as two's complement. -/
  | signed
  | fixed (format : FixedPoint)
  deriving DecidableEq, Repr

namespace WordFormat

/-- Words are fixed-point numbers unless told otherwise. -/
def standard : WordFormat := .fixed .s1615

def encode : WordFormat → Binary64 → UInt32
  | unsigned, x => UInt32.ofNat (x.truncWithin 0 (wordRange - 1 : Int)).toNat
  | signed, x => UInt32.ofNat (x.truncWithin (-(twoTo 31 : Int)) (twoTo 31 - 1 : Int) % wordRange).toNat
  | fixed format, x => format.encode x

def text : WordFormat → String
  | unsigned => "Unsigned"
  | signed => "Signed"
  | fixed format => s!"FixedPoint({format.text})"

end WordFormat

end Manycore
