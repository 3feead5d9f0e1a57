import Manycore.Capacity
import Manycore.Number.Binary64

/-! # Matrices

A matrix is a list of rows of one length. Two matrices are the same when their shapes and their
contents agree, the zeros counting as one value and the NaNs as one value.
-/

namespace Manycore

/-- A matrix of binary64 numbers, row by row. A matrix without rows still has a width. -/
structure Matrix where
  nCols : Nat
  rows : List (List Binary64)
  row_length : ∀ row ∈ rows, row.length = nCols

namespace Matrix

def nRows (m : Matrix) : Nat := m.rows.length

def shape (m : Matrix) : Shape := ⟨m.nRows, m.nCols⟩

/-- The entries in row-major order. -/
def entries (m : Matrix) : List Binary64 := m.rows.flatten

/-- The entry at a place inside the matrix; zero outside. -/
def entry (m : Matrix) (i j : Nat) : Binary64 :=
  (m.rows.getD i []).getD j (.zero false)

/-- The matrix whose entry at `(i, j)` is `f i j`. -/
def ofFn (nRows nCols : Nat) (f : Nat → Nat → Binary64) : Matrix where
  nCols
  rows := (List.range nRows).map fun i => (List.range nCols).map (f i)
  row_length := by simp

def fill (nRows nCols : Nat) (value : Binary64) : Matrix where
  nCols
  rows := List.replicate nRows (List.replicate nCols value)
  row_length := by
    intro row h
    rw [List.eq_of_mem_replicate h, List.length_replicate]

/-- The matrix with another entry at a place. A place outside leaves it as it is. -/
def set (i j : Nat) (value : Binary64) (m : Matrix) : Matrix where
  nCols := m.nCols
  rows := m.rows.modify i (·.set j value)
  row_length := by
    intro row h
    obtain ⟨k, hk, rfl⟩ := List.mem_iff_getElem.mp h
    rw [List.length_modify] at hk
    rw [List.getElem_modify]
    split <;> simp [m.row_length m.rows[k] (List.getElem_mem hk)]

/-- The matrix with other entries at several places, put there one after the other. -/
def setAll (cells : List (Nat × Nat × Binary64)) (m : Matrix) : Matrix :=
  cells.foldl (fun m (i, j, value) => m.set i j value) m

@[simp] theorem shape_fill (nRows nCols : Nat) (value : Binary64) :
    (fill nRows nCols value).shape = ⟨nRows, nCols⟩ := by
  simp [shape, Matrix.nRows, fill]

@[simp] theorem shape_set (i j : Nat) (value : Binary64) (m : Matrix) :
    (m.set i j value).shape = m.shape := by
  simp [shape, Matrix.nRows, set]

@[simp] theorem shape_setAll (cells : List (Nat × Nat × Binary64)) (m : Matrix) :
    (m.setAll cells).shape = m.shape := by
  unfold setAll
  induction cells generalizing m with
  | nil => rfl
  | cons cell rest ih => rw [List.foldl_cons, ih, shape_set]

def identity (n : Nat) : Matrix :=
  ofFn n n fun i j => if i = j then .one else .zero false

/-- The identity, unless nothing of its shape can be held. -/
def heldIdentity (n : Nat) : Except DataError Matrix :=
  if Shape.isHoldable ⟨n, n⟩ then .ok (identity n) else .error .tooLarge

/-- The first row, counted from `index`, whose length differs from the width. -/
def raggedRow? (nCols : Nat) (index : Nat) : List (List Binary64) → Option (Nat × Nat)
  | [] => none
  | row :: rows =>
    if row.length = nCols then raggedRow? nCols (index + 1) rows
    else some (index, row.length)

theorem length_of_raggedRow?_eq_none {nCols index : Nat} {rows : List (List Binary64)}
    (h : raggedRow? nCols index rows = none) : ∀ row ∈ rows, row.length = nCols := by
  induction rows generalizing index with
  | nil => simp
  | cons first rest ih =>
    simp only [raggedRow?] at h
    split at h
    · rename_i hfirst
      intro row hrow
      rcases List.mem_cons.mp hrow with rfl | hrest
      · exact hfirst
      · exact ih h row hrest
    · simp at h

/-- The matrix with these rows. The first row gives the width; another length is refused. -/
def ofRows (rows : List (List Binary64)) : Except DataError Matrix :=
  let nCols := (rows.headD []).length
  match h : raggedRow? nCols 0 rows with
  | none => .ok ⟨nCols, rows, length_of_raggedRow?_eq_none h⟩
  | some (index, length) => .error (.shapeMismatch (.row index) ⟨1, nCols⟩ ⟨1, length⟩)

def map (f : Binary64 → Binary64) (m : Matrix) : Matrix where
  nCols := m.nCols
  rows := m.rows.map (List.map f)
  row_length := by
    intro row h
    obtain ⟨row', h', rfl⟩ := List.mem_map.mp h
    rw [List.length_map, m.row_length row' h']

/-- Every entry times `factor`. -/
def scaled (factor : Binary64) (m : Matrix) : Matrix := m.map (· * factor)

/-- The rows from `start` up to `stop`, as far as there are any. -/
def rowRange (start stop : Nat) (m : Matrix) : Matrix where
  nCols := m.nCols
  rows := (m.rows.take stop).drop start
  row_length row h := m.row_length row (List.mem_of_mem_take (List.mem_of_mem_drop h))

/-- The columns from `start` up to `stop`, as far as there are any. -/
def columnRange (start stop : Nat) (m : Matrix) : Matrix where
  nCols := min stop m.nCols - start
  rows := m.rows.map fun row => (row.take stop).drop start
  row_length := by
    intro row h
    obtain ⟨row', h', rfl⟩ := List.mem_map.mp h
    rw [List.length_drop, List.length_take, m.row_length row' h']

/-- The columns of a slice. -/
def columns (s : Slice) (m : Matrix) : Matrix := m.columnRange s.start s.stop

/-- The rows of `m` above the rows of `below`, which has the same width. -/
def above (m below : Matrix) (h : below.nCols = m.nCols) : Matrix where
  nCols := m.nCols
  rows := m.rows ++ below.rows
  row_length := by
    intro row hrow
    rcases List.mem_append.mp hrow with hm | hb
    · exact m.row_length row hm
    · rw [below.row_length row hb, h]

/-- What decides whether two matrices are the same: the shape and the content bits in row-major
order. -/
def content (m : Matrix) : Shape × List UInt64 :=
  (m.shape, m.entries.map Binary64.contentBits)

/-- Whether two matrices have the same shape and content. -/
def same (a b : Matrix) : Bool :=
  decide (a.shape = b.shape) && decide (a.content = b.content)

theorem same_iff {a b : Matrix} : a.same b = true ↔ a.content = b.content := by
  simp only [same, Bool.and_eq_true, decide_eq_true_eq, and_iff_right_iff_imp]
  intro h
  exact congrArg Prod.fst h

/-- The value that every entry shares, if there is one. -/
def uniformValue? (m : Matrix) : Option Binary64 :=
  match m.entries with
  | [] => none
  | first :: rest =>
    if rest.all fun x => x.contentBits == first.contentBits then some first else none

/-- The sum of products, from zero and from the left. -/
def dot (row input : List Binary64) : Binary64 :=
  (row.zip input).foldl (fun sum (a, x) => sum + a * x) (.zero false)

/-- The matrix applied to a vector of its width. -/
def apply (m : Matrix) (input : List Binary64) : Except DataError (List Binary64) :=
  if input.length = m.nCols then .ok (m.rows.map fun row => dot row input)
  else .error (.shapeMismatch .input ⟨m.nCols, 1⟩ ⟨input.length, 1⟩)

end Matrix

end Manycore
