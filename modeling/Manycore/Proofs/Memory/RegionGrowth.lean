import Manycore.Memory.Vertex
import Manycore.Proofs.Slice.Split

/-! # Growth of regions

A region is no smaller for a larger slice, and for two slices side by side it is no larger than for
each of them apart: what does not depend on the slice is counted twice, and bits that fill up a word
share it. So no slice uses more than its atoms would one by one.
-/

namespace Manycore

namespace Slice

/-- One slice lies in another. -/
structure Within (a b : Slice) : Prop where
  start_le : b.start ≤ a.start
  stop_le : a.stop ≤ b.stop

/-- Two slices side by side as one. -/
def join (a b : Slice) (h : a.stop = b.start) : Slice :=
  ⟨a.start, b.stop, Nat.lt_trans a.start_lt_stop (h ▸ b.start_lt_stop)⟩

theorem within_atom {s : Slice} {i : Nat} (hstart : s.start ≤ i) (hstop : i < s.stop) :
    (atom i).Within s := ⟨hstart, hstop⟩

theorem length_part {α : Type} (s : Slice) (xs : List α) :
    (s.part xs).length = s.overlap xs.length := by
  rw [part, overlap, List.length_drop, List.length_take]

theorem exists_join {s : Slice} (h : 1 < s.size) :
    ∃ (front : Slice) (hmeet : _), s = front.join (atom (s.stop - 1)) hmeet ∧ front.size + 1 = s.size
      ∧ front.Within s := by
  obtain ⟨start, stop, hlt⟩ := s
  simp only [size] at h
  refine ⟨⟨start, stop - 1, by omega⟩, rfl, ?_, ?_, ⟨Nat.le_refl _, Nat.sub_le _ _⟩⟩
  · simp only [join, atom, mk.injEq, true_and]
    omega
  · simp only [size]
    omega

theorem Tiles.exists_mem {start stop i : Nat} {slices : List Slice} (h : Tiles start stop slices)
    (hstart : start ≤ i) (hstop : i < stop) : ∃ s ∈ slices, (atom i).Within s := by
  obtain ⟨s, hs, hcontains⟩ := h.exists_contains_iff.mpr ⟨hstart, hstop⟩
  rw [contains_iff] at hcontains
  exact ⟨s, hs, within_atom hcontains.1 hcontains.2⟩

end Slice

/-- A size that is no smaller for a larger slice, and no larger for two slices side by side than for
each apart. -/
structure Grows (size : Slice → Nat) : Prop where
  mono : ∀ a b, a.Within b → size a ≤ size b
  join : ∀ a b h, size (a.join b h) ≤ size a + size b

namespace Grows

variable {f g : Slice → Nat}

theorem const (n : Nat) : Grows fun _ => n where
  mono _ _ _ := Nat.le_refl n
  join _ _ _ := Nat.le_add_left n n

theorem size : Grows Slice.size where
  mono a b h := by
    have hstart := h.start_le
    have hstop := h.stop_le
    simp only [Slice.size]
    omega
  join a b h := by
    have ha := a.start_lt_stop
    have hb := b.start_lt_stop
    simp only [Slice.size, Slice.join]
    omega

theorem overlap (count : Nat) : Grows fun s => s.overlap count where
  mono a b h := by
    have hstart := h.start_le
    have hstop := h.stop_le
    simp only [Slice.overlap]
    omega
  join a b h := by
    simp only [Slice.overlap, Slice.join]
    omega

theorem add (hf : Grows f) (hg : Grows g) : Grows fun s => f s + g s where
  mono a b h := Nat.add_le_add (hf.mono a b h) (hg.mono a b h)
  join a b h := by
    have hfirst := hf.join a b h
    have hsecond := hg.join a b h
    omega

theorem mul (hf : Grows f) (n : Nat) : Grows fun s => f s * n where
  mono a b h := Nat.mul_le_mul_right n (hf.mono a b h)
  join a b h := by
    rw [← Nat.add_mul]
    exact Nat.mul_le_mul_right n (hf.join a b h)

theorem bitWords (hf : Grows f) : Grows fun s => RegionContent.bitWords (f s) where
  mono a b h := Nat.div_le_div_right (Nat.add_le_add_right (hf.mono a b h) 31)
  join a b h := by
    have hbits := hf.join a b h
    simp only [RegionContent.bitWords]
    omega

theorem total {α : Type} {size : α → Slice → Nat} {xs : List α} (h : ∀ x ∈ xs, Grows (size x)) :
    Grows fun s => total (xs.map fun x => size x s) := by
  induction xs with
  | nil => exact const 0
  | cons x rest ih =>
      obtain ⟨hx, hrest⟩ := List.forall_mem_cons.mp h
      exact hx.add (ih hrest)

/-- What no atom of a slice exceeds, the slice exceeds at most as often as it has atoms. -/
theorem le_size_mul (hf : Grows f) {bound : Nat} {s : Slice}
    (hatoms : ∀ i, s.start ≤ i → i < s.stop → f (.atom i) ≤ bound) : f s ≤ s.size * bound := by
  -- The induction is on the size, and splits off the last atom.
  induction hsize : s.size generalizing s with
  | zero => exact absurd s.size_pos (by omega)
  | succ n ih =>
      have hlt := s.start_lt_stop
      rcases Nat.eq_zero_or_pos n with rfl | hpos
      · rw [Slice.eq_atom hsize, Nat.one_mul]
        exact hatoms s.start (Nat.le_refl _) hlt
      · obtain ⟨front, hmeet, heq, hfront, hwithin⟩ := s.exists_join (by omega)
        have hbefore : f front ≤ n * bound := by
          refine ih (fun i hstart hstop => ?_) (by omega)
          have hfirst := hwithin.start_le
          have hlast := hwithin.stop_le
          exact hatoms i (by omega) (by omega)
        calc f s = f (front.join (.atom (s.stop - 1)) hmeet) := congrArg f heq
          _ ≤ f front + f (.atom (s.stop - 1)) := hf.join _ _ _
          _ ≤ n * bound + bound :=
              Nat.add_le_add hbefore (hatoms _ (by omega) (by omega))
          _ = (n + 1) * bound := (Nat.succ_mul n bound).symm

end Grows

theorem MatrixTable.grows_sizeWords (t : MatrixTable) : Grows t.sizeWords := by
  have hmatrix : Grows fun s => (t.shapeFor s).rows * (t.shapeFor s).cols := by
    obtain ⟨content, axis, counts⟩ := t
    cases axis with
    | none => exact .const (content.shape.rows * content.shape.cols)
    | some axis =>
        cases axis with
        | rows => exact (Grows.overlap content.shape.rows).mul content.shape.cols
        | columns =>
            have hcolumns := (Grows.overlap content.shape.cols).mul content.shape.rows
            simp only [Nat.mul_comm _ content.shape.rows] at hcolumns
            exact hcolumns
  exact hmatrix.add (.const _)

theorem KeyTable.grows_sizeWords (t : KeyTable) : Grows t.sizeWords := by
  have hrecords : Grows fun s => (t.keysFor s).length := by
    unfold keysFor
    cases t.partitioned with
    | false => exact .const t.keys.length
    | true =>
        simp only [if_true, Slice.length_part]
        exact .overlap t.keys.length
  exact (hrecords.mul _).add (.const _)

theorem Region.grows_sizeWords (r : Region) : Grows r.sizeWords := by
  obtain ⟨content, shared⟩ := r
  cases content with
  | values table => exact .const table.sizeWords
  | matrix table => exact table.grows_sizeWords
  | keys table => exact table.grows_sizeWords
  | recording ticks => exact Grows.size.bitWords.mul ticks

theorem RegionedVertex.grows_regionBytes (v : RegionedVertex) (chosen : Region → Bool) :
    Grows (v.regionBytes chosen) := by
  refine Grows.total fun r _ => ?_
  simp only [Nat.mul_comm 4]
  exact r.grows_sizeWords.mul 4

end Manycore
