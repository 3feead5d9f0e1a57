import Manycore.Capacity

/-! # Making and splitting slices

The checked constructors, and the balanced split of a slice into contiguous pieces.
-/

namespace Manycore.Slice

/-- The slice from `start` to `stop`; an empty range is refused. -/
def ofBounds (start stop : Nat) : Except DataError Slice :=
  if h : start < stop then .ok ⟨start, stop, h⟩
  else .error (.badParameter (.emptySlice start stop))

/-- The slice of the first `count` indices. -/
def full (count : Nat) : Except DataError Slice := ofBounds 0 count

/-- The slice of one index; the largest index has no stop. -/
def single (index : Nat) : Except DataError Slice :=
  if index < maxCount then ofBounds index (index + 1)
  else .error (.badParameter (.noStop index))

/-- Consecutive pieces from `start`: `larger` of size `size + 1`, then `rest` of size `size`. -/
def run (start size : Nat) (size_pos : 0 < size) : Nat → Nat → List Slice
  | 0, 0 => []
  | 0, rest + 1 =>
    ⟨start, start + size, by omega⟩ :: run (start + size) size size_pos 0 rest
  | larger + 1, rest =>
    ⟨start, start + (size + 1), by omega⟩ :: run (start + (size + 1)) size size_pos larger rest

/-- The slice cut into `count` contiguous pieces whose sizes differ by at most one, the larger
ones first. -/
def pieces (s : Slice) (count : Nat) (count_pos : 0 < count) (count_le : count ≤ s.size) :
    List Slice :=
  run s.start (s.size / count) (Nat.div_pos count_le count_pos) (s.size % count)
    (count - s.size % count)

/-- Split into exactly `count` pieces; refused unless every piece gets an index. -/
def splitInto (s : Slice) (count : Nat) : Except DataError (List Slice) :=
  if h : 0 < count ∧ count ≤ s.size then .ok (s.pieces count h.1 h.2)
  else .error (.badParameter (.splitCount s count))

/-- Split into exactly `count` pieces, unless no list can hold so many. -/
def split (s : Slice) (count : Nat) : Except DataError (List Slice) :=
  if count ≤ s.size ∧ ¬ canList count then .error .tooLarge else s.splitInto count

theorem split_eq_splitInto {s : Slice} {count : Nat} (h : canList count = true) :
    s.split count = s.splitInto count :=
  if_neg fun hmany => hmany.2 h

end Manycore.Slice
