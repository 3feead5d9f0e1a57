import Manycore.Proofs.Lists
import Manycore.Proofs.Slice.Split
import Mathlib.Algebra.Order.Floor.Div

/-! # Balanced splits

A slice can be split into any number of pieces that leaves an index for each. The pieces are as
equal as whole numbers allow, and the place of a piece says all about it: every index of the slice
is in the piece at one place and in no other.
-/

namespace Manycore.Slice

variable {s t t' : Slice} {count place place' i : Nat} {slices : List Slice}

section

variable {start stop : Nat} (h : Tiles start stop slices)
include h

theorem Tiles.place_eq (ht : slices[place]? = some t) (ht' : slices[place']? = some t')
    (hi : t.contains i = true) (hi' : t'.contains i = true) : place = place' := by
  rw [contains_iff] at hi hi'
  rcases Nat.lt_trichotomy place place' with hbefore | hsame | hafter
  · have hordered := pairwise_getElem? h.ordered ht ht' hbefore
    omega
  · exact hsame
  · have hordered := pairwise_getElem? h.ordered ht' ht hafter
    omega

/-- An index between the outer bounds belongs to one place, any other index to none. -/
theorem Tiles.existsUnique_place :
    (∃! place : Nat, ∃ t : Slice, slices[place]? = some t ∧ t.contains i = true)
      ↔ start ≤ i ∧ i < stop := by
  rw [← h.exists_contains_iff]
  constructor
  · rintro ⟨place, ⟨t, ht, hi⟩, -⟩
    exact ⟨t, List.mem_of_getElem? ht, hi⟩
  · rintro ⟨t, hmem, hi⟩
    obtain ⟨place, ht⟩ := List.mem_iff_getElem?.mp hmem
    refine ⟨place, ⟨t, ht, hi⟩, ?_⟩
    rintro place' ⟨t', ht', hi'⟩
    exact h.place_eq ht' ht hi' hi

end

theorem ceilDiv_of_mod_ne_zero {n k : Nat} (hk : 0 < k) (h : n % k ≠ 0) :
    n ⌈/⌉ k = n / k + 1 := by
  obtain ⟨m, rfl⟩ : ∃ m, n = m + 1 := Nat.exists_eq_succ_of_ne_zero (by rintro rfl; simp at h)
  have hdvd : ¬ k ∣ m + 1 := fun hdvd => h (Nat.mod_eq_zero_of_dvd hdvd)
  rw [Nat.ceilDiv_eq_add_pred_div, Nat.succ_div_of_not_dvd hdvd,
    show m + 1 + k - 1 = m + k by omega, Nat.add_div_right m hk]

theorem sizes_of_splitInto (h : s.splitInto count = .ok slices) : slices.map Slice.size
    = List.replicate (s.size % count) (s.size ⌈/⌉ count)
      ++ List.replicate (count - s.size % count) (s.size / count) := by
  obtain ⟨hpos, hle, rfl⟩ := splitInto_eq_ok_iff.mp h
  rw [sizes_pieces]
  by_cases hmod : s.size % count = 0
  · rw [hmod, List.replicate_zero, List.replicate_zero]
  · rw [ceilDiv_of_mod_ne_zero hpos hmod]

theorem tiles_of_splitInto (h : s.splitInto count = .ok slices) : Tiles s.start s.stop slices := by
  obtain ⟨hpos, hle, rfl⟩ := splitInto_eq_ok_iff.mp h
  exact tiles_pieces hpos hle

theorem splitInto_eq_error_iff {e : DataError} : s.splitInto count = .error e ↔
    (count = 0 ∨ s.size < count) ∧ e = .badParameter (.splitCount s count) := by
  rw [splitInto]
  split
  · rename_i h
    simp
    omega
  · rename_i h
    simp only [Except.error.injEq, eq_comm (a := e), iff_and_self]
    omega

/-- The slices are `count` pieces that lie side by side over the whole slice, the first of them
larger by one where the sizes cannot be equal. -/
structure BalancedSplit (s : Slice) (count : Nat) (slices : List Slice) : Prop where
  length : slices.length = count
  tiles : Tiles s.start s.stop slices
  sizes : slices.map Slice.size
    = List.replicate (s.size % count) (s.size ⌈/⌉ count)
      ++ List.replicate (count - s.size % count) (s.size / count)
  apart : ∀ (place place' : Nat) (t t' : Slice), slices[place]? = some t →
    slices[place']? = some t' → place ≠ place' →
    t ≠ t' ∧ ∀ i, ¬ (t.contains i = true ∧ t'.contains i = true)
  owner : ∀ i, (∃! place : Nat, ∃ t : Slice, slices[place]? = some t ∧ t.contains i = true)
    ↔ s.contains i = true

theorem balancedSplit_of_splitInto (h : s.splitInto count = .ok slices) :
    BalancedSplit s count slices := by
  have htiles := tiles_of_splitInto h
  have hsizes := sizes_of_splitInto h
  obtain ⟨hpos, -⟩ := splitInto_eq_ok_iff.mp h
  refine ⟨?_, htiles, hsizes, ?_, fun i => ?_⟩
  · have hlength := congrArg List.length hsizes
    simp only [List.length_map, List.length_append, List.length_replicate] at hlength
    have hmod := Nat.mod_lt s.size hpos
    omega
  · intro place place' t t' ht ht' hne
    refine ⟨?_, fun i hi => hne (htiles.place_eq ht ht' hi.1 hi.2)⟩
    rintro rfl
    have hfirst : t.contains t.start = true := contains_iff.mpr ⟨Nat.le_refl _, t.start_lt_stop⟩
    exact hne (htiles.place_eq ht ht' hfirst hfirst)
  · rw [htiles.existsUnique_place, contains_iff]

/-- Splitting fails when there is no piece to make or no index for one of the pieces, and only
then; else the pieces are a balanced split. -/
theorem splitInto_balanced (s : Slice) (count : Nat) :
    (∀ e, s.splitInto count = .error e ↔
      (count = 0 ∨ s.size < count) ∧ e = .badParameter (.splitCount s count))
    ∧ (0 < count → count ≤ s.size →
      ∃ slices, s.splitInto count = .ok slices ∧ BalancedSplit s count slices) := by
  refine ⟨fun e => splitInto_eq_error_iff, fun hpos hle => ?_⟩
  have hok := splitInto_eq_ok_iff.mpr ⟨hpos, hle, rfl⟩
  exact ⟨_, hok, balancedSplit_of_splitInto hok⟩

/-- Six pieces of ten indices, four of them of two. -/
theorem splitInto_balanced_six : ∃ slices, (⟨5, 15, by decide⟩ : Slice).splitInto 6 = .ok slices
    ∧ slices.map Slice.size = [2, 2, 2, 2, 1, 1] ∧ BalancedSplit ⟨5, 15, by decide⟩ 6 slices := by
  obtain ⟨-, hsplit⟩ := splitInto_balanced ⟨5, 15, by decide⟩ 6
  obtain ⟨slices, hok, hbalanced⟩ := hsplit (by decide) (by decide)
  exact ⟨slices, hok, by rw [hbalanced.sizes]; decide, hbalanced⟩

end Manycore.Slice
