import Manycore.Slice.Split
import Mathlib.Tactic.Ring

/-! # Pieces of a slice

The pieces of a slice lie side by side from its start to its stop, as many as were asked for, the
larger ones first. A slice can be split whenever every piece gets an index.
-/

namespace Manycore.Slice

/-- The slice of a single atom. -/
def atom (i : Nat) : Slice := ⟨i, i + 1, Nat.lt_succ_self i⟩

theorem eq_atom {s : Slice} (h : s.size = 1) : s = atom s.start := by
  obtain ⟨start, stop, hlt⟩ := s
  obtain rfl : stop = start + 1 := by
    simp only [size] at h
    omega
  rfl

theorem contains_iff {s : Slice} {i : Nat} : s.contains i = true ↔ s.start ≤ i ∧ i < s.stop := by
  simp [contains]

/-- The slices lie side by side from `start` to `stop`. -/
def Tiles (start stop : Nat) : List Slice → Prop
  | [] => start = stop
  | s :: rest => s.start = start ∧ Tiles s.stop stop rest

namespace Tiles

variable {start stop : Nat} {slices : List Slice}

theorem le (h : Tiles start stop slices) : start ≤ stop := by
  induction slices generalizing start with
  | nil => exact Nat.le_of_eq h
  | cons s rest ih =>
      obtain ⟨rfl, hrest⟩ := h
      exact Nat.le_trans (Nat.le_of_lt s.start_lt_stop) (ih hrest)

theorem bounds (h : Tiles start stop slices) {s : Slice} (hs : s ∈ slices) :
    start ≤ s.start ∧ s.stop ≤ stop := by
  induction slices generalizing start with
  | nil => cases hs
  | cons t rest ih =>
      obtain ⟨rfl, hrest⟩ := h
      rcases List.mem_cons.mp hs with rfl | hs
      · exact ⟨Nat.le_refl _, hrest.le⟩
      · have hlater := ih hrest hs
        have := t.start_lt_stop
        omega

theorem nodup (h : Tiles start stop slices) : slices.Nodup := by
  induction slices generalizing start with
  | nil => exact List.nodup_nil
  | cons s rest ih =>
      obtain ⟨-, hrest⟩ := h
      refine List.nodup_cons.mpr ⟨fun hs => ?_, ih hrest⟩
      have hlater := (hrest.bounds hs).1
      have := s.start_lt_stop
      omega

theorem ordered (h : Tiles start stop slices) : slices.Pairwise fun s t => s.stop ≤ t.start := by
  induction slices generalizing start with
  | nil => exact List.Pairwise.nil
  | cons s rest ih =>
      obtain ⟨-, hrest⟩ := h
      exact List.pairwise_cons.mpr ⟨fun t ht => (hrest.bounds ht).1, ih hrest⟩

/-- The slices have the indices between the outer bounds, and no others. -/
theorem exists_contains_iff (h : Tiles start stop slices) {i : Nat} :
    (∃ s ∈ slices, s.contains i = true) ↔ start ≤ i ∧ i < stop := by
  simp only [contains_iff]
  constructor
  · rintro ⟨s, hs, hin⟩
    have hbounds := h.bounds hs
    omega
  · intro hi
    induction slices generalizing start with
    | nil =>
        obtain rfl : start = stop := h
        omega
    | cons s rest ih =>
        obtain ⟨rfl, hrest⟩ := h
        by_cases hin : i < s.stop
        · exact ⟨s, by simp, hi.1, hin⟩
        · obtain ⟨t, ht, hcontains⟩ := ih hrest ⟨by omega, hi.2⟩
          exact ⟨t, by simp [ht], hcontains⟩

theorem ne_nil (h : Tiles start stop slices) (hlt : start < stop) : slices ≠ [] := by
  rintro rfl
  exact absurd h (Nat.ne_of_lt hlt)

theorem eq_atoms (h : Tiles start stop slices) (hsize : ∀ s ∈ slices, s.size = 1) :
    slices = (List.range' start (stop - start)).map atom := by
  induction slices generalizing start with
  | nil =>
      obtain rfl : start = stop := h
      simp
  | cons s rest ih =>
      obtain ⟨hs, hrest⟩ := List.forall_mem_cons.mp hsize
      obtain ⟨rfl, htiles⟩ := h
      obtain ⟨start, rfl⟩ : ∃ start, s = atom start := ⟨_, eq_atom hs⟩
      have hlater := htiles.le
      simp only [atom] at hlater ⊢
      rw [ih htiles hrest, show stop - start = stop - (start + 1) + 1 by omega, List.range'_succ]
      rfl

end Tiles

theorem tiles_run (start size : Nat) (size_pos : 0 < size) (larger rest : Nat) :
    Tiles start (start + larger * (size + 1) + rest * size) (run start size size_pos larger rest) := by
  fun_induction run start size size_pos larger rest with
  | case1 start => simp [Tiles]
  | case2 start rest ih =>
      refine ⟨rfl, ?_⟩
      rw [show start + 0 * (size + 1) + (rest + 1) * size
        = start + size + 0 * (size + 1) + rest * size by ring]
      exact ih
  | case3 start larger rest ih =>
      refine ⟨rfl, ?_⟩
      rw [show start + (larger + 1) * (size + 1) + rest * size
        = start + (size + 1) + larger * (size + 1) + rest * size by ring]
      exact ih

theorem sizes_run (start size : Nat) (size_pos : 0 < size) (larger rest : Nat) :
    (run start size size_pos larger rest).map Slice.size
      = List.replicate larger (size + 1) ++ List.replicate rest size := by
  fun_induction run start size size_pos larger rest with
  | case1 start => rfl
  | case2 start rest ih => simp [ih, Slice.size, List.replicate_succ]
  | case3 start larger rest ih => simp [ih, Slice.size, List.replicate_succ]

section

variable {s : Slice} {count : Nat} {slices : List Slice}

theorem tiles_pieces (count_pos : 0 < count) (count_le : count ≤ s.size) :
    Tiles s.start s.stop (s.pieces count count_pos count_le) := by
  have hrun := tiles_run s.start (s.size / count) (Nat.div_pos count_le count_pos) (s.size % count)
    (count - s.size % count)
  have hmod := Nat.mod_lt s.size count_pos
  -- The larger pieces have one index more than the others, which makes up for the remainder.
  have htotal : s.size % count * (s.size / count + 1) + (count - s.size % count) * (s.size / count)
      = s.size := by
    obtain ⟨others, hothers⟩ := Nat.exists_eq_add_of_lt hmod
    calc s.size % count * (s.size / count + 1) + (count - s.size % count) * (s.size / count)
        = s.size % count * (s.size / count + 1) + (others + 1) * (s.size / count) := by
          rw [show count - s.size % count = others + 1 by omega]
      _ = (s.size % count + others + 1) * (s.size / count) + s.size % count := by ring
      _ = count * (s.size / count) + s.size % count := by rw [← hothers]
      _ = s.size := Nat.div_add_mod _ _
  have hstop : s.start + s.size = s.stop := Nat.add_sub_cancel' (Nat.le_of_lt s.start_lt_stop)
  rwa [Nat.add_assoc, htotal, hstop] at hrun

theorem sizes_pieces (count_pos : 0 < count) (count_le : count ≤ s.size) :
    (s.pieces count count_pos count_le).map Slice.size
      = List.replicate (s.size % count) (s.size / count + 1)
        ++ List.replicate (count - s.size % count) (s.size / count) :=
  sizes_run _ _ _ _ _

theorem size_eq_one_of_mem_pieces (size_pos : 0 < s.size) {t : Slice}
    (ht : t ∈ s.pieces s.size size_pos (Nat.le_refl _)) : t.size = 1 := by
  have hsize := List.mem_map_of_mem (f := Slice.size) ht
  rw [sizes_pieces, Nat.mod_self, Nat.div_self size_pos, List.replicate_zero,
    List.nil_append] at hsize
  exact List.eq_of_mem_replicate hsize

theorem pieces_size (size_pos : 0 < s.size) :
    s.pieces s.size size_pos (Nat.le_refl _) = (List.range' s.start s.size).map atom :=
  (tiles_pieces size_pos (Nat.le_refl _)).eq_atoms fun _ => size_eq_one_of_mem_pieces size_pos

theorem splitInto_eq_ok_iff :
    s.splitInto count = .ok slices ↔ ∃ hpos hle, s.pieces count hpos hle = slices := by
  rw [splitInto]
  split
  · rename_i h
    exact ⟨fun hok => ⟨h.1, h.2, Except.ok.inj hok⟩, fun ⟨_, _, heq⟩ => congrArg Except.ok heq⟩
  · rename_i h
    exact ⟨fun hok => (nomatch hok), fun ⟨hpos, hle, _⟩ => absurd ⟨hpos, hle⟩ h⟩

end

end Manycore.Slice
