import Manycore.Proofs.Connection.KeyEquality

/-! # Tables of transforms

The table of the transforms of some streams has every transform once, in the order of first use, and
one index for every stream. The rows of the transforms lie side by side, and every row up to the
width belongs to one of them.
-/

namespace Manycore.TransformTable

open List (Forall₂)

variable {t : TransformTable} {ms : List Matrix} {i j row : Nat}

/-- The rows in front of the transform at a place. -/
def rowsBefore (ms : List Matrix) (i : Nat) : Nat := total ((ms.take i).map Matrix.nRows)

theorem rowsBefore_succ {m : Matrix} (h : ms[i]? = some m) :
    rowsBefore ms (i + 1) = rowsBefore ms i + m.nRows := by
  simp [rowsBefore, List.take_add_one, h, total_append, total]

theorem rowsBefore_mono (ms : List Matrix) (h : i ≤ j) : rowsBefore ms i ≤ rowsBefore ms j := by
  induction h with
  | refl => exact Nat.le_refl _
  | @step j _ ih =>
      refine Nat.le_trans ih ?_
      cases hm : ms[j]? with
      | some m => exact rowsBefore_succ hm ▸ Nat.le_add_right _ _
      | none =>
          have hlength := List.getElem?_eq_none_iff.mp hm
          rw [rowsBefore, rowsBefore, List.take_of_length_le hlength,
            List.take_of_length_le (Nat.le_succ_of_le hlength)]

theorem width_eq (t : TransformTable) : t.width = rowsBefore t.transforms t.transforms.length := by
  rw [width, rowsBefore, List.take_length]

theorem offsetsFrom_eq (start : Nat) (ms : List Matrix) :
    offsetsFrom start ms = (List.range ms.length).map fun i => start + rowsBefore ms i := by
  induction ms generalizing start with
  | nil => rfl
  | cons m rest ih =>
      rw [offsetsFrom, ih, List.length_cons, List.range_succ_eq_map, List.map_cons, List.map_map]
      congr 1
      refine List.map_congr_left fun i _ => ?_
      simp [rowsBefore, Nat.add_assoc]

theorem getElem?_rowOffsets (h : i < t.transforms.length) :
    t.rowOffsets[i]? = some (rowsBefore t.transforms i) := by
  simp [rowOffsets, offsetsFrom_eq, h]

/-- The row is one of the transform at the place. -/
def HasRow (t : TransformTable) (row i : Nat) : Prop :=
  ∃ offset m, t.rowOffsets[i]? = some offset ∧ t.transforms[i]? = some m ∧ offset ≤ row
    ∧ row < offset + m.nRows

theorem hasRow_iff : t.HasRow row i ↔ i < t.transforms.length
    ∧ rowsBefore t.transforms i ≤ row ∧ row < rowsBefore t.transforms (i + 1) := by
  constructor
  · rintro ⟨offset, m, hoffset, hm, hrow⟩
    have hi := (List.getElem?_eq_some_iff.mp hm).1
    rw [getElem?_rowOffsets hi] at hoffset
    cases hoffset
    rw [rowsBefore_succ hm]
    exact ⟨hi, hrow⟩
  · rintro ⟨hi, hrow⟩
    have hm := List.getElem?_eq_getElem hi
    rw [rowsBefore_succ hm] at hrow
    exact ⟨_, _, getElem?_rowOffsets hi, hm, hrow⟩

theorem HasRow.place_eq (h : t.HasRow row i) (h' : t.HasRow row j) : i = j := by
  obtain ⟨-, hstart, hend⟩ := hasRow_iff.mp h
  obtain ⟨-, hstart', hend'⟩ := hasRow_iff.mp h'
  rcases Nat.lt_trichotomy i j with hbefore | hsame | hafter
  · have hle : rowsBefore t.transforms (i + 1) ≤ rowsBefore t.transforms j :=
      rowsBefore_mono _ hbefore
    omega
  · exact hsame
  · have hle : rowsBefore t.transforms (j + 1) ≤ rowsBefore t.transforms i :=
      rowsBefore_mono _ hafter
    omega

end Manycore.TransformTable
