import Manycore.Matrix

/-! # Functions on connections

A function computed on the values that a connection carries. Functions cannot be compared by what
they compute, so each carries a handle, and two are the same when their handles are.
-/

namespace Manycore

structure VectorFunction where
  handle : Nat
  name : String
  /-- The length that results are declared to have. -/
  sizeOut : Nat
  apply : List Binary64 → List Binary64

namespace VectorFunction

def text (f : VectorFunction) : String := s!"FunctionRef({f.name}, size_out={f.sizeOut})"

/-- A result of another length than declared. -/
structure WrongLength where
  name : String
  found : Nat
  declared : Nat
  deriving DecidableEq

/-- The results for all rows, which must have the declared length. -/
def evaluateRows (f : VectorFunction) :
    List (List Binary64) → Except WrongLength { rows : List (List Binary64) // ∀ row ∈ rows, row.length = f.sizeOut }
  | [] => .ok ⟨[], by simp⟩
  | point :: points =>
    let result := f.apply point
    if h : result.length = f.sizeOut then
      match evaluateRows f points with
      | .error e => .error e
      | .ok ⟨rows, hrows⟩ => .ok ⟨result :: rows, by simpa [h] using hrows⟩
    else .error ⟨f.name, result.length, f.sizeOut⟩

/-- The function applied to the selected columns of every row. -/
def evaluate (f : VectorFunction) (points : Matrix) (s : Slice) : Except WrongLength Matrix :=
  match f.evaluateRows (points.columns s).rows with
  | .error e => .error e
  | .ok ⟨rows, h⟩ => .ok ⟨f.sizeOut, rows, h⟩

end VectorFunction

end Manycore
