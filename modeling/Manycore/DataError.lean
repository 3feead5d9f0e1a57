import Manycore.Slice.Basic

/-! # Rejected data

The causes for which slices, number formats, matrices and objects are refused, and their texts.
-/

namespace Manycore

/-- The rows and columns of a matrix. -/
structure Shape where
  rows : Nat
  cols : Nat
  deriving DecidableEq, Repr

def Shape.text (s : Shape) : String := s!"{s.rows}x{s.cols}"

/-- The number of a network object. -/
structure ObjectId where
  number : UInt32
  deriving DecidableEq, Repr

def ObjectId.text (id : ObjectId) : String := s!"#{id.number.toNat}"

/-- A parameter outside its range. -/
inductive BadParameter where
  | emptySlice (start stop : Nat)
  | noStop (index : Nat)
  | splitCount (slice : Slice) (pieces : Nat)
  | fixedPointWidth (bits : Nat)
  | fixedPointFraction (bits : Int)
  | registered (id : ObjectId)
  | unknownObject (id : ObjectId)
  | outsideObjects (preSlice postSlice : Slice) (sizeOut sizeIn : Nat)
  deriving DecidableEq

def BadParameter.message : BadParameter → String
  | emptySlice start stop => s!"Slice start ({start}) must be below stop ({stop})"
  | noStop index => s!"Slice at index {index} has no stop"
  | splitCount slice pieces => s!"Cannot split {slice.text} into {pieces} slices"
  | fixedPointWidth bits => s!"Fixed-point width must be 1..=32 bits, got {bits}"
  | fixedPointFraction bits => s!"Fixed-point fractional bits must be -32..=32, got {bits}"
  | registered id => s!"Object {id.text} is already registered"
  | unknownObject id => s!"Unknown object {id.text}"
  | outsideObjects preSlice postSlice sizeOut sizeIn =>
    s!"{preSlice.text} / {postSlice.text} exceed object sizes {sizeOut} / {sizeIn}"

/-- What has the wrong shape. -/
inductive Shaped where
  | row (index : Nat)
  | scalarSlices
  | diagonal
  | dense
  | input
  deriving DecidableEq

def Shaped.text : Shaped → String
  | row index => s!"row {index} of transform"
  | scalarSlices => "scalar transform slices"
  | diagonal => "diagonal transform"
  | dense => "dense transform"
  | input => "transform input"

inductive DataError where
  | badParameter (cause : BadParameter)
  | shapeMismatch (what : Shaped) (expected found : Shape)
  /-- More than can be held or counted. -/
  | tooLarge
  deriving DecidableEq

def DataError.message : DataError → String
  | badParameter cause => s!"Bad Parameters: {cause.message}"
  | shapeMismatch what expected found =>
    s!"Shape mismatch in {what.text}: expected {expected.text}, found {found.text}"
  | tooLarge => "Too large"

end Manycore
