import Manycore.Capacity
import Manycore.Matrix
import Manycore.Slice.Split

/-! # Transforms

What a connection does to the values it carries, and its expansion to a full matrix: one row per
input of the receiving object, one column per output of the sending one.
-/

namespace Manycore

/-- A transform between the selected outputs of one object and the selected inputs of another. -/
inductive Transform where
  /-- Every selected value times one factor. -/
  | scalar (factor : Binary64)
  /-- Each selected value times a factor of its own. -/
  | diagonal (factors : List Binary64)
  /-- A full matrix over the selected inputs and outputs. -/
  | dense (matrix : Matrix)

namespace Transform

/-- Why a transform does not fit between slices of these sizes. -/
def mismatch? (t : Transform) (nPost nPre : Nat) : Option DataError :=
  match t with
  | scalar _ =>
    if nPre = nPost then none
    else some (.shapeMismatch .scalarSlices ⟨nPost, nPost⟩ ⟨nPost, nPre⟩)
  | diagonal ks =>
    if nPre = nPost ∧ ks.length = nPre then none
    else some (.shapeMismatch .diagonal ⟨nPost, nPre⟩ ⟨ks.length, ks.length⟩)
  | dense m =>
    if m.shape = ⟨nPost, nPre⟩ then none
    else some (.shapeMismatch .dense ⟨nPost, nPre⟩ m.shape)

/-- The entries of a transform with the places where they go, from the starts of both slices on. -/
def cells (t : Transform) (preSlice postSlice : Slice) : List (Nat × Nat × Binary64) :=
  match t with
  | scalar k => (postSlice.indices.zip preSlice.indices).map fun (i, j) => (i, j, k)
  | diagonal ks =>
    ((postSlice.indices.zip preSlice.indices).zip ks).map fun ((i, j), k) => (i, j, k)
  | dense m =>
    postSlice.indices.zipIdx.flatMap fun (i, r) =>
      preSlice.indices.zipIdx.map fun (j, c) => (i, j, m.entry r c)

/-- The full matrix of a transform: zeros, with the transform put at the selected rows and
columns. -/
def full (t : Transform) (sizeOut sizeIn : Nat) (preSlice postSlice : Slice) :
    Except DataError Matrix :=
  if sizeOut < preSlice.stop ∨ sizeIn < postSlice.stop then
    .error (.badParameter (.outsideObjects preSlice postSlice sizeOut sizeIn))
  else
    match t.mismatch? postSlice.size preSlice.size with
    | some e => .error e
    | none => .ok ((Matrix.fill sizeIn sizeOut (.zero false)).setAll (t.cells preSlice postSlice))

/-- The full matrix, unless nothing of its shape can be held. -/
def expand (t : Transform) (sizeOut sizeIn : Nat) (preSlice postSlice : Slice) :
    Except DataError Matrix :=
  if preSlice.stop ≤ sizeOut ∧ postSlice.stop ≤ sizeIn ∧ ¬ Shape.isHoldable ⟨sizeIn, sizeOut⟩ then
    .error .tooLarge
  else t.full sizeOut sizeIn preSlice postSlice

end Transform

end Manycore
