import Manycore.Proofs.Memory.RegionGrowth
import Manycore.Proofs.Number.Order
import Manycore.Proofs.Partition.Search

/-! # Refused workloads

A workload that uses no less for a larger slice is refused for one of two reasons. Either an atom
takes more than there is by itself, and no count of slices would do. Or all atoms at once call for
more slices than there are atoms, which ends the search at its first try. The second reason says
nothing about single atoms, so it also refuses what could have been split.
-/

namespace Manycore

open Binary64

/-- A fraction of what there is of a resource. -/
structure Budget where
  resource : Resource
  limit : Nat
  fraction : Binary64

namespace Budget

def constraint (b : Budget) : Constraint := .usageLimit b.resource b.limit b.fraction

/-- There is something to use. -/
def Positive (b : Budget) : Prop := (zero false).lt (.ofNat b.limit * b.fraction) = true

instance (b : Budget) : Decidable b.Positive := inferInstanceAs (Decidable (_ = true))

end Budget

namespace Workload

/-- A slice uses no less than what lies in it. -/
def IsMonotone (w : Workload) : Prop :=
  ∀ r s t, s.Within t → t.stop ≤ w.atomCount → w.usage r s ≤ w.usage r t

/-- More slices are called for than will do. -/
def Refused (w : Workload) (constraints : List Constraint) : Prop :=
  ∃ required, w.partition constraints = .error (.infeasible w.label w.atomCount required)

/-- Some count of slices meets every constraint. -/
def CanSplit (w : Workload) (hatoms : 0 < w.atomCount) (constraints : List Constraint) : Prop :=
  ∃ count slices, (w.whole hatoms).splitInto count = .ok slices
    ∧ ∀ c ∈ constraints, ∀ s ∈ slices, c.required w s ≤ 1

end Workload

theorem Budget.required_mono {w : Workload} {b : Budget} {s t : Slice} (hmono : w.IsMonotone)
    (hpositive : b.Positive) (hwithin : s.Within t) (hstop : t.stop ≤ w.atomCount) :
    b.constraint.required w s ≤ b.constraint.required w t := by
  simp only [constraint, Constraint.required_usageLimit]
  apply Constraint.slicesWithin_mono hpositive
  exact hmono b.resource s t hwithin hstop

namespace Workload

variable {w : Workload} {constraints : List Constraint} {hatoms : 0 < w.atomCount}

/-- What is not refused has been split. -/
theorem refused_or_canSplit (w : Workload) (hatoms : 0 < w.atomCount)
    (constraints : List Constraint) :
    w.Refused constraints ∨ w.CanSplit hatoms constraints := by
  have hends : w.Ends constraints (w.whole hatoms) (w.partition constraints) :=
    ends_partition hatoms
  unfold Refused
  generalize w.partition constraints = result at hends ⊢
  cases hends with
  | found _ hsplit hmet => exact Or.inr ⟨_, _, hsplit, hmet⟩
  | infeasible => exact Or.inl ⟨_, rfl⟩

theorem refused_of_whole {c : Constraint} (hc : c ∈ constraints)
    (hmany : w.atomCount < c.required w (w.whole hatoms)) : w.Refused constraints := by
  have hle : c.required w (w.whole hatoms) ≤ w.requirement constraints [w.whole hatoms] :=
    required_le_requirement hc (List.mem_singleton.mpr rfl)
  have hmore : 1 < w.requirement constraints [w.whole hatoms] := by omega
  have hlast : w.atomCount < w.requirement constraints [w.whole hatoms] := by omega
  exact ⟨_, partition_eq_infeasible hatoms .first (splitInto_one hatoms)
    (mostRequired_requirement hmore) hmore (Or.inl hlast)⟩

theorem not_canSplit_of_atom {budgets : List Budget} {b : Budget} {s : Slice}
    (hmono : w.IsMonotone) (hpositive : b.Positive) (hb : b ∈ budgets) (hsize : s.size = 1)
    (hstop : s.stop ≤ w.atomCount) (hlarge : 1 < b.constraint.required w s) :
    ¬ w.CanSplit hatoms (budgets.map Budget.constraint) := by
  rintro ⟨count, slices, hsplit, hmet⟩
  obtain ⟨hpos, hle, rfl⟩ := Slice.splitInto_eq_ok_iff.mp hsplit
  have htiles := Slice.tiles_pieces hpos hle
  have hstart : s.start < w.atomCount := Nat.lt_of_lt_of_le s.start_lt_stop hstop
  obtain ⟨t, ht, hwithin⟩ := htiles.exists_mem (Nat.zero_le s.start) hstart
  have hgrown := b.required_mono hmono hpositive hwithin (htiles.bounds ht).2
  have hfits := hmet _ (List.mem_map_of_mem hb) t ht
  rw [← Slice.eq_atom hsize] at hgrown
  omega

/-- A monotone workload is refused exactly when all its atoms at once call for more slices than there
are atoms, or no count of slices meets the budgets. -/
theorem refused_iff {budgets : List Budget} (hatoms : 0 < w.atomCount) (hmono : w.IsMonotone)
    (hpositive : ∀ b ∈ budgets, b.Positive) :
    w.Refused (budgets.map Budget.constraint) ↔
      (∃ b ∈ budgets, w.atomCount < b.constraint.required w (w.whole hatoms))
        ∨ ¬ w.CanSplit hatoms (budgets.map Budget.constraint) := by
  constructor
  · rintro ⟨reported, hrefused⟩
    have hends : w.Ends (budgets.map Budget.constraint) (w.whole hatoms) _ := ends_partition hatoms
    rw [hrefused] at hends
    cases hends with
    | infeasible _ hsplit hmost hmore hlast =>
        obtain ⟨hpos, hle, rfl⟩ := Slice.splitInto_eq_ok_iff.mp hsplit
        obtain ⟨⟨c, hc, s, hs, rfl⟩, -⟩ := hmost
        obtain ⟨b, hb, rfl⟩ := List.mem_map.mp hc
        obtain ⟨hstart, hstop⟩ := (Slice.tiles_pieces hpos hle).bounds hs
        rcases hlast with hmany | rfl
        · -- all atoms call for no less than the slice does
          have hgrown := b.required_mono hmono (hpositive b hb) ⟨hstart, hstop⟩ (Nat.le_refl _)
          exact Or.inl ⟨b, hb, Nat.lt_of_lt_of_le hmany hgrown⟩
        · have hsize := Slice.size_eq_one_of_mem_pieces hpos hs
          exact Or.inr (not_canSplit_of_atom hmono (hpositive b hb) hb hsize hstop hmore)
  · rintro (⟨b, hb, hmany⟩ | hnone)
    · exact refused_of_whole (List.mem_map_of_mem hb) hmany
    · exact (w.refused_or_canSplit hatoms _).resolve_right hnone

/-- Cycles of a core for each step. -/
def cycles (limit : Nat) : Budget := ⟨.cpu, limit, .one⟩

/-- Every atom is connected to all atoms of its slice. -/
def crowded : Workload where
  id := ⟨0⟩
  label := "crowded"
  atomCount := 3
  usage r s := match r with
    | .cpu => s.size * s.size
    | _ => 0

theorem isMonotone_crowded : crowded.IsMonotone := by
  intro r s t hwithin _
  cases r with
  | cpu => exact Nat.mul_le_mul (Grows.size.mono s t hwithin) (Grows.size.mono s t hwithin)
  | dtcm | sdram => exact Nat.le_refl 0

/-- Two cycles are enough for each atom, but all at once call for five slices. -/
theorem crowded_whole :
    crowded.atomCount < (cycles 2).constraint.required crowded (crowded.whole (by decide)) := by
  decide +kernel

theorem canSplit_crowded : ∀ limit ∈ [2, 4],
    crowded.CanSplit (by decide) [(cycles limit).constraint] := by
  intro limit hlimit
  refine ⟨3, _, splitInto_atoms (by decide), ?_⟩
  revert limit
  decide +kernel

/-- What can be split is refused with two cycles, and not with four. -/
theorem refused_iff_crowded :
    (0 < crowded.atomCount ∧ crowded.IsMonotone ∧ (cycles 2).Positive ∧ (cycles 4).Positive)
    ∧ crowded.Refused [(cycles 2).constraint] ∧ ¬ crowded.Refused [(cycles 4).constraint] := by
  have hatoms : 0 < crowded.atomCount := by decide
  have htwo : (cycles 2).Positive := by decide +kernel
  have hfour : (cycles 4).Positive := by decide +kernel
  have hfew : ¬ crowded.atomCount
      < (cycles 4).constraint.required crowded (crowded.whole (by decide)) := by
    decide +kernel
  refine ⟨⟨hatoms, isMonotone_crowded, htwo, hfour⟩, ?_, ?_⟩
  · apply (refused_iff hatoms isMonotone_crowded (List.forall_mem_singleton.mpr htwo)).mpr
    exact Or.inl ⟨_, List.mem_singleton.mpr rfl, crowded_whole⟩
  · rw [show [(cycles 4).constraint] = [cycles 4].map Budget.constraint from rfl,
      refused_iff hatoms isMonotone_crowded (List.forall_mem_singleton.mpr hfour)]
    rintro (⟨b, hb, hmany⟩ | hnone)
    · cases List.mem_singleton.mp hb
      exact hfew hmany
    · exact hnone (canSplit_crowded 4 (by decide))

/-- Every atom takes one cycle more than a limit from which it cannot be told apart by its nearest
number. -/
def heavy : Workload where
  id := ⟨0⟩
  label := "heavy"
  atomCount := 3
  usage r s := match r with
    | .cpu => 9007199254740993 * s.size
    | _ => 0

theorem isMonotone_heavy : heavy.IsMonotone := by
  intro r s t hwithin _
  cases r with
  | cpu => exact Nat.mul_le_mul_left _ (Grows.size.mono s t hwithin)
  | dtcm | sdram => exact Nat.le_refl 0

/-- A refusal means that no count of slices would do. -/
def RefusedRightly (w : Workload) (hatoms : 0 < w.atomCount) (budgets : List Budget) : Prop :=
  w.IsMonotone → (∀ b ∈ budgets, b.Positive) → w.Refused (budgets.map Budget.constraint) →
    ¬ w.CanSplit hatoms (budgets.map Budget.constraint)

/-- Not every refusal is right, be it that a use grows faster than its slice or that it is rounded. -/
theorem refused_though_split :
    ¬ crowded.RefusedRightly (by decide) [cycles 2]
    ∧ ¬ heavy.RefusedRightly (by decide) [cycles 9007199254740992] := by
  constructor
  · intro h
    have hrefused := refused_of_whole (List.mem_singleton.mpr rfl) crowded_whole
    apply h isMonotone_crowded (by decide +kernel) hrefused
    exact canSplit_crowded 2 (by decide)
  · intro h
    have hmany : heavy.atomCount
        < (cycles 9007199254740992).constraint.required heavy (heavy.whole (by decide)) := by
      decide +kernel
    have hrefused := refused_of_whole (List.mem_singleton.mpr rfl) hmany
    apply h isMonotone_heavy (by decide +kernel) hrefused
    exact ⟨3, _, splitInto_atoms (by decide), by decide +kernel⟩

end Workload

end Manycore
