import Manycore.DataError
import Manycore.Number.Natural

/-! # What can be counted and held

Counts have sixty-four bits. No block of memory has more than `2 ^ 63 - 1` bytes. A number takes
eight of them, a slice sixteen.
-/

namespace Manycore

/-- A number, unless it is larger than every count. -/
def counted (n : Nat) : Except DataError Nat := if n ≤ maxCount then .ok n else .error .tooLarge

theorem counted_eq_ok_iff {n m : Nat} : counted n = .ok m ↔ n ≤ maxCount ∧ n = m := by
  by_cases hn : n ≤ maxCount
  · rw [counted, if_pos hn, Except.ok.injEq]
    exact ⟨fun h => ⟨hn, h⟩, And.right⟩
  · rw [counted, if_neg hn]
    exact ⟨nofun, fun h => absurd h.1 hn⟩

/-- What goes on with a number and does not make it smaller needs no check before the last one. -/
theorem counted_bind {g : Nat → Except DataError Nat} {f : Nat → Nat} {n : Nat}
    (hg : ∀ m ≤ maxCount, g m = counted (f m)) (hle : n ≤ f n) :
    (counted n).bind g = counted (f n) := by
  by_cases hn : n ≤ maxCount
  · rw [counted, if_pos hn]
    exact hg n hn
  · have hlarge : ¬ f n ≤ maxCount := fun h => hn (Nat.le_trans hle h)
    rw [counted, if_neg hn, counted, if_neg hlarge]
    rfl

/-- The bytes of the largest block of memory. -/
def largestBlock : Nat := twoTo 63 - 1

/-- Whether a list of so many slices can be held. -/
def Slice.canList (count : Nat) : Bool := decide (16 * count ≤ largestBlock)

/-- Whether a matrix of this shape can be held. The product of its axes, an empty one left out, must
be within bounds too. -/
def Shape.isHoldable (s : Shape) : Bool :=
  decide (max 1 s.rows * max 1 s.cols ≤ largestBlock ∧ 8 * (s.rows * s.cols) ≤ largestBlock)

end Manycore
