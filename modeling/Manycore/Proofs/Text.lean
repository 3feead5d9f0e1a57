import Manycore.Text.Blank
import Manycore.Text.Quoted
import Mathlib.Data.List.Basic

/-! # Text in pieces, and numbers in text

Text that is joined at a separator is split into what was joined, and a number that is filled up
with zeros can still be told.
-/

namespace Manycore.Text

variable {p : Char → Bool} {c : Char} {xs ys : List Char}

theorem splitOn_ne_nil (p : Char → Bool) (xs : List Char) : splitOn p xs ≠ [] := by
  cases xs with
  | nil => simp [splitOn]
  | cons x rest =>
      unfold splitOn
      split
      · simp
      · split <;> simp

theorem splitOn_cons_of_pos (hc : p c = true) : splitOn p (c :: xs) = [] :: splitOn p xs := by
  obtain ⟨piece, pieces, h⟩ := List.exists_cons_of_ne_nil (splitOn_ne_nil p xs)
  simp [splitOn, h, hc]

theorem splitOn_cons_of_neg {piece : List Char} {pieces : List (List Char)} (hc : p c = false)
    (h : splitOn p xs = piece :: pieces) : splitOn p (c :: xs) = (c :: piece) :: pieces := by
  simp [splitOn, h, hc]

theorem splitOn_eq_singleton (h : ∀ c ∈ xs, p c = false) : splitOn p xs = [xs] := by
  induction xs with
  | nil => rfl
  | cons x rest ih =>
      obtain ⟨hx, hrest⟩ := List.forall_mem_cons.mp h
      exact splitOn_cons_of_neg hx (ih hrest)

theorem splitOn_append_cons (hc : p c = true) (xs ys : List Char) :
    splitOn p (xs ++ c :: ys) = splitOn p xs ++ splitOn p ys := by
  induction xs with
  | nil => exact splitOn_cons_of_pos hc
  | cons x rest ih =>
      cases hx : p x with
      | true => rw [List.cons_append, splitOn_cons_of_pos hx, splitOn_cons_of_pos hx, ih]; rfl
      | false =>
          obtain ⟨piece, pieces, h⟩ := List.exists_cons_of_ne_nil (splitOn_ne_nil p rest)
          rw [h, List.cons_append] at ih
          rw [List.cons_append, splitOn_cons_of_neg hx ih, splitOn_cons_of_neg hx h]
          rfl

theorem isDigit_of_mem_zeroPadded {width n : Nat} (h : c ∈ (zeroPadded width n).toList) :
    c.isDigit = true := by
  simp only [zeroPadded, String.toList_ofList, List.mem_append, List.mem_replicate] at h
  rcases h with ⟨-, rfl⟩ | h
  · rfl
  · exact Nat.isDigit_of_mem_toDigits (by decide) (by decide) h

theorem ofDigitChars_zeroPadded (width n : Nat) :
    Nat.ofDigitChars 10 (zeroPadded width n).toList 0 = n := by
  rw [zeroPadded, String.toList_ofList, Nat.ofDigitChars_append, Nat.ofDigitChars_replicate_zero,
    Nat.mul_zero, Nat.ofDigitChars_ten_toDigits]

theorem zeroPadded_inj {width n m : Nat} :
    (zeroPadded width n).toList = (zeroPadded width m).toList ↔ n = m := by
  constructor
  · intro h
    rw [← ofDigitChars_zeroPadded width n, h, ofDigitChars_zeroPadded]
  · rintro rfl
    rfl

end Manycore.Text
