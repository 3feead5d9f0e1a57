import Manycore.Proofs.Memory.CountedSizes
import Manycore.Proofs.Partition.Search

/-! # Complete partitions

A vertex made of regions is refused only if one of its atoms by itself exceeds a budget. No slice uses
more than its atoms one by one, so as long as every atom fits, no slice calls for more pieces than it
has atoms, and the search goes on until it has found some that fit. This holds where the bytes of all
atoms can be counted and every use is read as it is: a use that is rounded may meet a budget that it
exceeds.
-/

namespace Manycore

open Binary64

/-- What a core or its node has for one slice: some memory, or room for some atoms. -/
inductive Limit where
  | memory (r : Resource) (isMemory : r ≠ .cpu) (limit : Nat) (fraction : Binary64)
  | atoms (n : Nat)

namespace Limit

def constraint : Limit → Constraint
  | memory r _ limit fraction => .usageLimit r limit fraction
  | atoms n => .atomLimit n

/-- There is a budget to use. -/
def Positive : Limit → Prop
  | memory _ _ limit fraction => (zero false).lt (.ofNat limit * fraction) = true
  | atoms _ => True

/-- A slice takes more than there is, the budget and the use of it read as exact numbers. -/
def Exceeded (v : RegionedVertex) (s : Slice) : Limit → Prop
  | memory r _ limit fraction =>
    (Binary64.ofNat limit * fraction).signedUnits < (v.usage r s * unitsPerOne : Nat)
  | atoms n => max n 1 < s.size

instance (v : RegionedVertex) (s : Slice) (l : Limit) : Decidable (l.Exceeded v s) :=
  match l with
  | memory .. => inferInstanceAs (Decidable (_ < _))
  | atoms _ => inferInstanceAs (Decidable (_ < _))

end Limit

namespace RegionedVertex

variable {v : RegionedVertex}

/-- The numbers of atoms and of bytes are held as they are. -/
structure ReadExactly (v : RegionedVertex) : Prop where
  sizes : ∀ s : Slice, s.stop ≤ v.atomCount → Exact s.size
  uses : ∀ s : Slice, s.stop ≤ v.atomCount → ∀ r, r ≠ .cpu → Exact (v.usage r s)

theorem grows_usage (v : RegionedVertex) {r : Resource} (hr : r ≠ .cpu) : Grows (v.usage r) := by
  cases r with
  | cpu => exact absurd rfl hr
  | dtcm => exact v.grows_regionBytes _
  | sdram => exact v.grows_regionBytes _

theorem regionBytes_le (v : RegionedVertex) (chosen : Region → Bool) (s : Slice) :
    v.regionBytes chosen s ≤ v.regionBytes (fun _ => true) s := by
  unfold regionBytes
  induction v.regions.filterMap fun slot => slot with
  | nil => exact Nat.le_refl _
  | cons r rest ih =>
      rw [List.filter_cons, List.filter_cons_of_pos rfl]
      split
      · exact Nat.add_le_add_left ih _
      · exact Nat.le_trans ih (Nat.le_add_left _ _)

theorem usage_le_sdram (v : RegionedVertex) {r : Resource} (hr : r ≠ .cpu) (s : Slice) :
    v.usage r s ≤ v.usage .sdram s := by
  cases r with
  | cpu => exact absurd rfl hr
  | dtcm => exact v.regionBytes_le _ s
  | sdram => exact Nat.le_refl _

theorem readExactly_of_lt (hatoms : 0 < v.atomCount) (hcount : v.atomCount < twoTo 53)
    (huse : v.usage .sdram (v.workload.whole hatoms) < twoTo 53) : v.ReadExactly where
  sizes s hs := exact_of_lt (by
    simp only [Slice.size]
    omega)
  uses s hs r hr := by
    have hwithin : s.Within (v.workload.whole hatoms) := ⟨Nat.zero_le _, hs⟩
    have hmemory : Resource.sdram ≠ .cpu := by decide
    have hgrown := (v.grows_usage hmemory).mono _ _ hwithin
    exact exact_of_lt (Nat.lt_of_le_of_lt (v.usage_le_sdram hr s)
      (Nat.lt_of_le_of_lt hgrown huse))

end RegionedVertex

namespace Limit

variable {v : RegionedVertex} {l : Limit} {s : Slice}

theorem Positive.isNaN {r : Resource} {hr : r ≠ .cpu} {limit : Nat} {fraction : Binary64}
    (h : (memory r hr limit fraction).Positive) :
    (Binary64.ofNat limit * fraction).isNaN = false :=
  (lt_iff.mp h).2.1

theorem required_le_one_iff (hexact : v.ReadExactly) (hpositive : l.Positive)
    (hs : s.stop ≤ v.atomCount) :
    l.constraint.required v.workload s ≤ 1 ↔ ¬ l.Exceeded v s := by
  cases l with
  | memory r hr limit fraction =>
      rw [constraint, Constraint.required_usageLimit,
        Constraint.slicesWithin_le_one_iff hpositive.isNaN]
      simp only [Exceeded, Int.not_lt, ← (hexact.uses s hs r hr).signedUnits]
      exact Iff.rfl
  | atoms n =>
      have hmax : 0 < max n 1 := Nat.lt_of_lt_of_le Nat.one_pos (Nat.le_max_right n 1)
      simp only [constraint, Constraint.atomLimit, Exceeded]
      rw [← Nat.lt_succ_iff, Nat.div_lt_iff_lt_mul hmax]
      omega

/-- A slice whose atoms fit by themselves calls for no more pieces than it has atoms. -/
theorem required_le_size (hexact : v.ReadExactly) (hpositive : l.Positive)
    (hs : s.stop ≤ v.atomCount)
    (hatoms : ∀ i, s.start ≤ i → i < s.stop → ¬ l.Exceeded v (.atom i)) :
    l.constraint.required v.workload s ≤ s.size := by
  cases l with
  | memory r hr limit fraction =>
      rw [constraint, Constraint.required_usageLimit]
      refine Constraint.slicesWithin_le (hexact.uses s hs r hr) (hexact.sizes s hs) s.size_pos
        hpositive ?_
      have hsingle : ∀ i, s.start ≤ i → i < s.stop → v.usage r (.atom i) * unitsPerOne
          ≤ (Binary64.ofNat limit * fraction).signedUnits.toNat := by
        intro i hstart hstop
        have hfits := hatoms i hstart hstop
        simp only [Exceeded, Int.not_lt] at hfits
        omega
      have hunits := ((v.grows_usage hr).mul unitsPerOne).le_size_mul hsingle
      have hbudget : 0 ≤ (Binary64.ofNat limit * fraction).signedUnits := by
        have hlt := (lt_iff.mp hpositive).2.2
        rw [signedUnits_zero] at hlt
        exact Int.le_of_lt hlt
      rw [← Int.toNat_of_nonneg hbudget, ← Int.natCast_mul]
      exact Int.ofNat_le.mpr hunits
  | atoms n =>
      obtain ⟨m, hm⟩ := Nat.exists_eq_add_one.mpr (Nat.le_max_right n 1)
      obtain ⟨k, hk⟩ := Nat.exists_eq_add_one.mpr s.size_pos
      simp only [constraint, Constraint.atomLimit]
      rw [hm, hk]
      refine Nat.div_le_of_le_mul ?_
      have hproduct := Nat.zero_le (m * k)
      rw [Nat.add_mul, Nat.mul_add]
      omega

theorem Exceeded.mono {t : Slice} (h : l.Exceeded v s) (hwithin : s.Within t) :
    l.Exceeded v t := by
  cases l with
  | memory r hr limit fraction =>
      have hgrown := ((v.grows_usage hr).mul unitsPerOne).mono _ _ hwithin
      exact Int.lt_of_lt_of_le h (Int.ofNat_le.mpr hgrown)
  | atoms n => exact Nat.lt_of_lt_of_le h (Grows.size.mono _ _ hwithin)

end Limit

namespace RegionedVertex

variable {v : RegionedVertex} {limits : List Limit}

/-- Some atom takes more by itself than there is. -/
def HasLargeAtom (v : RegionedVertex) (limits : List Limit) : Prop :=
  ∃ i < v.atomCount, ∃ l ∈ limits, l.Exceeded v (.atom i)

theorem stop_le_of_mem_splitInto {hatoms : 0 < v.atomCount} {count : Nat} {slices : List Slice}
    (h : (v.workload.whole hatoms).splitInto count = .ok slices) {s : Slice} (hs : s ∈ slices) :
    s.stop ≤ v.atomCount := by
  obtain ⟨hpos, hle, rfl⟩ := Slice.splitInto_eq_ok_iff.mp h
  exact ((Slice.tiles_pieces hpos hle).bounds hs).2

theorem not_hasLargeAtom_of_ok {slices : List Slice} (hexact : v.ReadExactly)
    (hpositive : ∀ l ∈ limits, l.Positive) (htiles : Slice.Tiles 0 v.atomCount slices)
    (hmet : ∀ s ∈ slices, ∀ l ∈ limits, l.constraint.required v.workload s ≤ 1) :
    ¬ v.HasLargeAtom limits := by
  rintro ⟨i, hi, l, hl, hlarge⟩
  obtain ⟨s, hs, hwithin⟩ := htiles.exists_mem (Nat.zero_le i) hi
  exact (Limit.required_le_one_iff hexact (hpositive l hl) (htiles.bounds hs).2).mp
    (hmet s hs l hl) (hlarge.mono hwithin)

theorem exists_slices (hatoms : 0 < v.atomCount) (hexact : v.ReadExactly)
    (hpositive : ∀ l ∈ limits, l.Positive) (hsmall : ¬ v.HasLargeAtom limits) :
    ∃ slices, v.workload.partition (limits.map Limit.constraint) = .ok slices
      ∧ Slice.Tiles 0 v.atomCount slices
      ∧ ∀ s ∈ slices, ∀ l ∈ limits, l.constraint.required v.workload s ≤ 1 := by
  rcases Workload.partition_cases (w := v.workload) hatoms with
    ⟨slices, hslices, -, htiles, hmet⟩
      | ⟨required, count, _, slices, -, -, hsplit, hmost, hmore, hlast⟩
  · exact ⟨slices, hslices, htiles, fun s hs l hl => hmet _ (List.mem_map_of_mem hl) s hs⟩
  · exfalso
    obtain ⟨⟨c, hc, s, hs, hrequired⟩, -⟩ := hmost
    obtain ⟨l, hl, rfl⟩ := List.mem_map.mp hc
    have hstop := stop_le_of_mem_splitInto hsplit hs
    have hle : l.constraint.required v.workload s ≤ s.size := by
      refine Limit.required_le_size hexact (hpositive l hl) hstop fun i _ hi hlarge => ?_
      exact hsmall ⟨i, Nat.lt_of_lt_of_le hi hstop, l, hl, hlarge⟩
    rcases hlast with hover | hsingle
    · have hsize : s.size ≤ v.atomCount := Nat.le_trans (Nat.sub_le _ _) hstop
      have hover : v.atomCount < required := hover
      omega
    · have hsize := hsingle s hs
      omega

/-- What all atoms use can be counted, and so what the atoms of any slice use. -/
theorem countUsage_of_whole {hatoms : 0 < v.atomCount} {n : Nat}
    (hcounted : v.countUsage .sdram (v.workload.whole hatoms) = .ok n) {s : Slice}
    (hs : s.stop ≤ v.atomCount) {r : Resource} (hr : r ≠ .cpu) :
    v.countUsage r s = .ok (v.usage r s) := by
  rw [countUsage_eq, counted_eq_ok_iff] at hcounted ⊢
  have hwithin : s.Within (v.workload.whole hatoms) := ⟨Nat.zero_le _, hs⟩
  have hgrown := (v.grows_usage (r := .sdram) nofun).mono _ _ hwithin
  exact ⟨Nat.le_trans (v.usage_le_sdram hr s) (Nat.le_trans hgrown hcounted.1), rfl⟩

/-- Regions grow with their slices. So a vertex made of them is refused exactly when one of its atoms
exceeds a limit by itself, and else cut into slices that lie side by side over all atoms and exceed
none. -/
theorem partition_infeasible_iff {n : Nat} (hatoms : 0 < v.atomCount)
    (hcounted : v.countUsage .sdram (v.workload.whole hatoms) = .ok n) (hexact : v.ReadExactly)
    (hpositive : ∀ l ∈ limits, l.Positive) :
    (∀ r : Region, GrowsWhereCounted r.countWords)
    ∧ (∀ s : Slice, s.stop ≤ v.atomCount → ∀ r, r ≠ .cpu → v.countUsage r s = .ok (v.usage r s))
    ∧ ((∃ required, v.workload.partition (limits.map Limit.constraint)
        = .error (.infeasible v.label v.atomCount required)) ↔ v.HasLargeAtom limits)
    ∧ (¬ v.HasLargeAtom limits → ∃ slices,
      v.workload.partition (limits.map Limit.constraint) = .ok slices
      ∧ Slice.Tiles 0 v.atomCount slices
      ∧ ∀ s ∈ slices, ∀ l ∈ limits,
        l.constraint.required v.workload s ≤ 1 ∧ ¬ l.Exceeded v s) := by
  refine ⟨Region.growsWhereCounted, fun s hs r hr => countUsage_of_whole hcounted hs hr,
    ⟨?_, ?_⟩, fun hsmall => ?_⟩
  · rintro ⟨required, hrefused⟩
    by_contra hsmall
    obtain ⟨slices, hslices, -⟩ := exists_slices hatoms hexact hpositive hsmall
    rw [hrefused] at hslices
    cases hslices
  · intro hlarge
    rcases Workload.partition_cases (w := v.workload) hatoms with
      ⟨slices, -, -, htiles, hmet⟩ | ⟨required, _, _, _, hrefused, -⟩
    · exact absurd hlarge (not_hasLargeAtom_of_ok hexact hpositive htiles
        fun s hs l hl => hmet _ (List.mem_map_of_mem hl) s hs)
    · exact ⟨required, hrefused⟩
  · obtain ⟨slices, hslices, htiles, hmet⟩ := exists_slices hatoms hexact hpositive hsmall
    refine ⟨slices, hslices, htiles, fun s hs l hl => ⟨hmet s hs l hl, ?_⟩⟩
    exact (Limit.required_le_one_iff hexact (hpositive l hl) (htiles.bounds hs).2).mp
      (hmet s hs l hl)

/-- One atom with a matrix whose bytes are four more than a power of two. -/
def wide : RegionedVertex := .ofRegions ⟨0⟩ "wide" 1
  [some ⟨.matrix ⟨.reserved ⟨1, twoTo 53 + 1⟩, none, []⟩, true⟩]

/-- A slice need not have a size because a part of it has one, and a budget may be exceeded by bytes
that are lost when they are rounded. -/
theorem not_forall_partition_infeasible :
    (¬ ∀ (r : Region) (a b : Slice) (n : Nat), a.Within b → r.countWords a = .ok n →
      ∃ m, r.countWords b = .ok m ∧ n ≤ m)
    ∧ ¬ ∀ (v : RegionedVertex) (limits : List Limit) (n : Nat) (hatoms : 0 < v.atomCount),
      v.countUsage .sdram (v.workload.whole hatoms) = .ok n → (∀ l ∈ limits, l.Positive) →
      v.HasLargeAtom limits → ∃ required,
        v.workload.partition (limits.map Limit.constraint)
          = .error (.infeasible v.label v.atomCount required) := by
  constructor
  · intro h
    have hwithin : Slice.Within ⟨0, 32, by decide⟩ ⟨0, 64, by decide⟩ := ⟨by decide, by decide⟩
    obtain ⟨m, hm, -⟩ := h ⟨.recording (twoTo 63), false⟩ _ _ (twoTo 63) hwithin (by decide)
    have hlarge : Region.countWords ⟨.recording (twoTo 63), false⟩ ⟨0, 64, by decide⟩
        = .error .tooLarge := by
      decide
    rw [hlarge] at hm
    cases hm
  · intro h
    have hatoms : 0 < wide.atomCount := by decide
    have hcounted : wide.countUsage .sdram (wide.workload.whole (by decide))
        = .ok (twoTo 55 + 4) := by
      decide
    have hpositive : ∀ l ∈ [Limit.memory .sdram nofun (twoTo 55) .one], l.Positive := by
      simp only [List.forall_mem_singleton, Limit.Positive]
      decide +kernel
    have hlarge : wide.HasLargeAtom [.memory .sdram nofun (twoTo 55) .one] := by
      unfold HasLargeAtom
      decide +kernel
    obtain ⟨required, hrefused⟩ := h wide _ _ hatoms hcounted hpositive hlarge
    have hmet : ∀ c ∈ [Limit.constraint (.memory .sdram nofun (twoTo 55) .one)],
        ∀ s ∈ [wide.workload.whole (by decide)], c.required wide.workload s ≤ 1 := by
      simp only [List.forall_mem_singleton]
      decide +kernel
    have haccepted := Workload.partition_of_tried hatoms .first (Workload.splitInto_one hatoms) hmet
    cases haccepted.symm.trans hrefused

/-- A bit for each atom and tick, and two words for each atom behind a header. -/
def recorded : RegionedVertex := .ofRegions ⟨0⟩ "recorded" 64
  [some ⟨.recording 10, false⟩, none,
    some ⟨.matrix ⟨.reserved ⟨64, 2⟩, some .rows, [.atoms]⟩, false⟩]

/-- One atom takes 52 bytes of the node's memory, and all of them 596. -/
def nodeLimits (bytes : Nat) : List Limit :=
  [.memory .sdram nofun bytes .one, .memory .dtcm nofun 400 .one, .atoms 40]

theorem partition_infeasible_iff_recorded :
    (0 < recorded.atomCount
      ∧ recorded.countUsage .sdram (recorded.workload.whole (by decide)) = .ok 596
      ∧ recorded.ReadExactly ∧ (∀ l ∈ nodeLimits 52, l.Positive)
      ∧ ∀ l ∈ nodeLimits 51, l.Positive)
    ∧ (∃ slices, recorded.workload.partition ((nodeLimits 52).map Limit.constraint) = .ok slices
      ∧ Slice.Tiles 0 64 slices ∧ ∀ s ∈ slices, ∀ l ∈ nodeLimits 52, ¬ l.Exceeded recorded s)
    ∧ ∃ required, recorded.workload.partition ((nodeLimits 51).map Limit.constraint)
      = .error (.infeasible "recorded" 64 required) := by
  have hatoms : 0 < recorded.atomCount := by decide
  have hcounted : recorded.countUsage .sdram (recorded.workload.whole (by decide)) = .ok 596 := by
    decide
  have huse : recorded.usage .sdram (recorded.workload.whole (by decide)) < twoTo 53 := by
    decide +kernel
  have hexact : recorded.ReadExactly := readExactly_of_lt hatoms (by decide) huse
  have hroomy : ∀ l ∈ nodeLimits 52, l.Positive := by
    simp only [nodeLimits, List.forall_mem_cons, Limit.Positive]
    exact ⟨by decide +kernel, by decide +kernel, trivial, nofun⟩
  have htight : ∀ l ∈ nodeLimits 51, l.Positive := by
    simp only [nodeLimits, List.forall_mem_cons, Limit.Positive]
    exact ⟨by decide +kernel, by decide +kernel, trivial, nofun⟩
  refine ⟨⟨hatoms, hcounted, hexact, hroomy, htight⟩, ?_, ?_⟩
  · obtain ⟨-, -, -, hslices⟩ := partition_infeasible_iff hatoms hcounted hexact hroomy
    have hsmall : ¬ recorded.HasLargeAtom (nodeLimits 52) := by
      unfold HasLargeAtom
      decide +kernel
    obtain ⟨slices, hok, htiles, hmet⟩ := hslices hsmall
    exact ⟨slices, hok, htiles, fun s hs l hl => (hmet s hs l hl).2⟩
  · obtain ⟨-, -, hrefused, -⟩ := partition_infeasible_iff hatoms hcounted hexact htight
    have hlarge : recorded.HasLargeAtom (nodeLimits 51) := by
      unfold HasLargeAtom
      decide +kernel
    exact hrefused.mpr hlarge

end RegionedVertex

end Manycore
