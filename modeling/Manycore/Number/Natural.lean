/-! # Natural numbers

Powers of two and of ten, totals of lists, and the bounds of words and counts.
-/

namespace Manycore

/-- Two to a power. -/
def twoTo (n : Nat) : Nat := Nat.pow 2 n

/-- Ten to a power. -/
def tenTo (n : Nat) : Nat := Nat.pow 10 n

/-- The sum of a list. -/
def total : List Nat → Nat
  | [] => 0
  | n :: rest => n + total rest

/-- The naturals below this fit into a word of thirty-two bits. -/
def wordRange : Nat := twoTo 32

/-- The largest count and the largest index: sixty-four bits. -/
def maxCount : Nat := twoTo 64 - 1

theorem twoTo_zero : twoTo 0 = 1 := rfl

theorem twoTo_succ (n : Nat) : twoTo (n + 1) = 2 * twoTo n := Nat.mul_comm (twoTo n) 2

theorem twoTo_pos (n : Nat) : 0 < twoTo n := Nat.pow_pos (by omega)

theorem shiftLeft_eq_mul_twoTo (m n : Nat) : m <<< n = m * twoTo n := Nat.shiftLeft_eq m n

@[simp] theorem total_cons (n : Nat) (ns : List Nat) : total (n :: ns) = n + total ns := rfl

theorem total_append (xs ys : List Nat) : total (xs ++ ys) = total xs + total ys := by
  induction xs with
  | nil => simp [total]
  | cons x rest ih => simp only [List.cons_append, total_cons, ih, Nat.add_assoc]

theorem le_total {n : Nat} {ns : List Nat} (h : n ∈ ns) : n ≤ total ns := by
  induction ns with
  | nil => cases h
  | cons m rest ih =>
      rw [total_cons]
      rcases List.mem_cons.mp h with rfl | h
      · exact Nat.le_add_right _ _
      · exact Nat.le_add_left_of_le (ih h)

end Manycore
