import Manycore.Matrix
import Manycore.Memory.Subregion
import Manycore.Memory.Word

/-! # Tables of numbers

Regions that hold a list or a matrix of numbers, with counts in front where they are asked for.
-/

namespace Manycore

namespace Slice

/-- How many of the first `count` indices lie in the slice. -/
def overlap (s : Slice) (count : Nat) : Nat := min s.stop count - s.start

/-- The part of a list that the slice covers. -/
def part {α : Type} (s : Slice) (xs : List α) : List α := (xs.take s.stop).drop s.start

end Slice

/-- A count as a word; what exceeds thirty-two bits is lost. -/
def countWord (n : Nat) : UInt32 := UInt32.ofNat n

/-- The same list of numbers for every slice. -/
structure ValueTable where
  values : List Binary64
  format : WordFormat
  /-- Start with the number of atoms of the slice. -/
  leadingAtoms : Bool
  /-- Start with the number of values, after the atoms. -/
  leadingLength : Bool

namespace ValueTable

/-- Given words, unchanged. -/
def ofWords (words : List UInt32) : ValueTable where
  values := words.map fun w => .ofNat w.toNat
  format := .unsigned
  leadingAtoms := false
  leadingLength := false

/-- The words in front of the values. -/
def leading (t : ValueTable) (s : Slice) : List UInt32 :=
  (if t.leadingAtoms then [countWord s.size] else [])
    ++ (if t.leadingLength then [countWord t.values.length] else [])

def sizeWords (t : ValueTable) : Nat :=
  (if t.leadingAtoms then 1 else 0) + (if t.leadingLength then 1 else 0) + t.values.length

/-- The size, unless it cannot be counted. -/
def countWords (t : ValueTable) : Except DataError Nat := counted t.sizeWords

def words (t : ValueTable) (s : Slice) : List UInt32 :=
  t.leading s ++ t.values.map t.format.encode

end ValueTable

/-- Which axis of a matrix follows the atoms of the slice. -/
inductive MatrixAxis where
  | rows
  | columns
  deriving DecidableEq

/-- A word in front of a matrix. -/
inductive MatrixCount where
  | atoms
  | rows
  | columns
  /-- The number of entries written. -/
  | entries
  /-- The place of the slice among the slices of its vertex. -/
  | index
  deriving DecidableEq

/-- What a matrix table holds. -/
inductive MatrixContent where
  | filled (matrix : Matrix) (format : WordFormat)
  | reserved (shape : Shape)

def MatrixContent.shape : MatrixContent → Shape
  | filled matrix _ => matrix.shape
  | reserved shape => shape

/-- A matrix row by row, whole or only where the slice covers its axis. -/
structure MatrixTable where
  content : MatrixContent
  axis : Option MatrixAxis
  counts : List MatrixCount

namespace MatrixTable

/-- The shape of what is written for a slice. -/
def shapeFor (t : MatrixTable) (s : Slice) : Shape :=
  let shape := t.content.shape
  match t.axis with
  | none => shape
  | some .rows => { shape with rows := s.overlap shape.rows }
  | some .columns => { shape with cols := s.overlap shape.cols }

/-- The part of a matrix that is written for a slice. -/
def cut (axis : Option MatrixAxis) (s : Slice) (m : Matrix) : Matrix :=
  match axis with
  | none => m
  | some .rows => m.rowRange s.start s.stop
  | some .columns => m.columnRange s.start s.stop

def sizeWords (t : MatrixTable) (s : Slice) : Nat :=
  (t.shapeFor s).rows * (t.shapeFor s).cols + t.counts.length

/-- The size for a slice, unless it cannot be counted. -/
def countWords (t : MatrixTable) (s : Slice) : Except DataError Nat := do
  let entries ← counted ((t.shapeFor s).rows * (t.shapeFor s).cols)
  counted (entries + t.counts.length)

/-- The word of a count, for a matrix of this shape. -/
def count (shape : Shape) (s : Slice) (index : Nat) : MatrixCount → UInt32
  | .atoms => countWord s.size
  | .rows => countWord shape.rows
  | .columns => countWord shape.cols
  | .entries => countWord (shape.rows * shape.cols)
  | .index => countWord index

def render (t : MatrixTable) (s : Slice) (index : Nat) : Subregion :=
  match t.content with
  | .reserved _ => .reserved (t.sizeWords s)
  | .filled matrix format =>
    let part := cut t.axis s matrix
    .filled (t.counts.map (count part.shape s index) ++ part.entries.map format.encode)

end MatrixTable

end Manycore
