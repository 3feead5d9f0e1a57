/-! # Slices

A slice is a non-empty range of indices: the atoms of a vertex that one core runs, or the
dimensions of an object that a connection reads or writes.
-/

namespace Manycore

/-- A non-empty range of indices, `start` included and `stop` left out. -/
structure Slice where
  start : Nat
  stop : Nat
  start_lt_stop : start < stop
  deriving DecidableEq, Repr

namespace Slice

/-- The number of indices in the slice. -/
def size (s : Slice) : Nat := s.stop - s.start

/-- The indices of the slice, in order. -/
def indices (s : Slice) : List Nat := (List.range s.size).map (s.start + ·)

def contains (s : Slice) (index : Nat) : Bool := decide (s.start ≤ index ∧ index < s.stop)

def text (s : Slice) : String := s!"Slice({s.start}, {s.stop})"

theorem size_pos (s : Slice) : 0 < s.size := by
  have := s.start_lt_stop
  simp only [size]
  omega

theorem mem_indices {s : Slice} {i : Nat} : i ∈ s.indices ↔ s.start ≤ i ∧ i < s.stop := by
  have := s.start_lt_stop
  simp only [indices, size, List.mem_map, List.mem_range]
  constructor
  · rintro ⟨k, hk, rfl⟩
    omega
  · intro h
    exact ⟨i - s.start, by omega, by omega⟩

end Slice

end Manycore
