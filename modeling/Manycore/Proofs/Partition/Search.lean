import Manycore.Proofs.Partition
import Manycore.Proofs.Slice.Split

/-! # The search for a partition

Every retry of the search calls for more slices than the last one, and never for more than there
are atoms. So the search ends, every count that it tries can be split into, and what it finds is
either a tiling that meets all constraints or a split that no larger one can mend.
-/

namespace Manycore.Workload

variable {w : Workload} {constraints : List Constraint} {slices : List Slice}

/-- All atoms in one slice. -/
def whole (w : Workload) (hatoms : 0 < w.atomCount) : Slice := ⟨0, w.atomCount, hatoms⟩

theorem splitInto_one (hatoms : 0 < w.atomCount) :
    (w.whole hatoms).splitInto 1 = .ok [w.whole hatoms] := by
  refine Slice.splitInto_eq_ok_iff.mpr ⟨Nat.one_pos, Slice.size_pos _, ?_⟩
  simp [Slice.pieces, whole, Slice.size, Nat.mod_one, Slice.run]

theorem splitInto_atoms (hatoms : 0 < w.atomCount) :
    (w.whole hatoms).splitInto w.atomCount = .ok ((List.range' 0 w.atomCount).map Slice.atom) :=
  Slice.splitInto_eq_ok_iff.mpr ⟨hatoms, Nat.le_refl _, Slice.pieces_size (Slice.size_pos _)⟩

/-- Some constraint calls for `required` on some slice, and none calls for more on any. -/
def MostRequired (w : Workload) (constraints : List Constraint) (slices : List Slice)
    (required : Nat) : Prop :=
  (∃ c ∈ constraints, ∃ s ∈ slices, c.required w s = required)
    ∧ ∀ c ∈ constraints, ∀ s ∈ slices, c.required w s ≤ required

theorem mostRequired_requirement (h : 1 < w.requirement constraints slices) :
    w.MostRequired constraints slices (w.requirement constraints slices) := by
  refine ⟨?_, fun c hc s hs => required_le_requirement hc hs⟩
  unfold requirement at h ⊢
  cases hmax : (slices.flatMap fun s => constraints.map fun c => c.required w s).max? with
  | none =>
      rw [hmax] at h
      exact absurd h (Nat.lt_irrefl 1)
  | some most =>
      obtain ⟨hmem, -⟩ := List.max?_eq_some_iff.mp hmax
      obtain ⟨s, hs, hmem⟩ := List.mem_flatMap.mp hmem
      obtain ⟨c, hc, hrequired⟩ := List.mem_map.mp hmem
      exact ⟨c, hc, s, hs, hrequired⟩

theorem requirement_le_one (h : ∀ c ∈ constraints, ∀ s ∈ slices, c.required w s ≤ 1) :
    w.requirement constraints slices ≤ 1 := by
  refine Nat.not_lt.mp fun hmore => ?_
  obtain ⟨⟨c, hc, s, hs, hrequired⟩, -⟩ := mostRequired_requirement hmore
  have hmet := h c hc s hs
  omega

theorem MostRequired.requirement_eq {required : Nat}
    (h : w.MostRequired constraints slices required) (hmore : 1 < required) :
    w.requirement constraints slices = required := by
  obtain ⟨⟨c, hc, s, hs, rfl⟩, hmost⟩ := h
  have hle : c.required w s ≤ w.requirement constraints slices := required_le_requirement hc hs
  obtain ⟨⟨c', hc', s', hs', hrequired⟩, -⟩ :=
    mostRequired_requirement (Nat.lt_of_lt_of_le hmore hle)
  exact Nat.le_antisymm (hrequired ▸ hmost c' hc' s' hs') hle

/-- The counts that the search comes to, each with the number of counts tried before it. -/
inductive Tried (w : Workload) (constraints : List Constraint) (full : Slice) : Nat → Nat → Prop
  | first : Tried w constraints full 1 0
  -- What the sum has beyond the size is cut off, so it needs no bound of its own.
  | retry {count before required : Nat} {slices : List Slice} : Tried w constraints full count before →
      full.splitInto count = .ok slices → w.MostRequired constraints slices required →
      1 < required → required ≤ full.size → count ≠ full.size →
      Tried w constraints full (min (max required (count + (before + 1))) full.size) (before + 1)

section

variable {full : Slice} {count before : Nat}

theorem Tried.bounds (h : w.Tried constraints full count before) :
    before < count ∧ count ≤ full.size := by
  induction h with
  | first => exact ⟨Nat.one_pos, full.size_pos⟩
  | retry _ _ _ _ _ hmore ih => omega

theorem Tried.exists_splitInto (h : w.Tried constraints full count before) :
    ∃ slices, full.splitInto count = .ok slices := by
  obtain ⟨hbefore, hle⟩ := h.bounds
  exact ⟨_, Slice.splitInto_eq_ok_iff.mpr ⟨Nat.zero_lt_of_lt hbefore, hle, rfl⟩⟩

/-- How the search ends at a split that it has tried: it meets all constraints, or more slices are
called for than there are atoms or than there are in it. -/
inductive Ends (w : Workload) (constraints : List Constraint) (full : Slice) :
    Except PartitionError (List Slice) → Prop
  | found {count before : Nat} {slices : List Slice} : w.Tried constraints full count before →
      full.splitInto count = .ok slices →
      (∀ c ∈ constraints, ∀ s ∈ slices, c.required w s ≤ 1) → Ends w constraints full (.ok slices)
  | infeasible {count before required : Nat} {slices : List Slice} :
      w.Tried constraints full count before → full.splitInto count = .ok slices →
      w.MostRequired constraints slices required → 1 < required →
      full.size < required ∨ count = full.size →
      Ends w constraints full (.error (.infeasible w.label full.size required))

theorem ends_search (count step : Nat) (count_pos : 0 < count) (count_le : count ≤ full.size)
    (h : w.Tried constraints full count step) :
    w.Ends constraints full (w.search constraints full count step count_pos count_le) := by
  have hsplit := Slice.splitInto_eq_ok_iff.mpr ⟨count_pos, count_le, rfl⟩
  rw [search]
  -- The cases are those of one turn of the search.
  split
  · rename_i hmet
    refine .found h hsplit fun c hc s hs => ?_
    exact Nat.le_trans (required_le_requirement hc hs) hmet
  · rename_i hunmet
    have hmost := mostRequired_requirement (Nat.not_le.mp hunmet)
    split
    · rename_i hlast
      exact .infeasible h hsplit hmost (Nat.not_le.mp hunmet) hlast
    · rename_i hmore
      apply ends_search
      apply h.retry hsplit hmost <;> omega
termination_by full.size - count
decreasing_by omega

end

theorem ends_partition (hatoms : 0 < w.atomCount) :
    w.Ends constraints (w.whole hatoms) (w.partition constraints) := by
  have hfull : Slice.full w.atomCount = .ok (w.whole hatoms) := dif_pos hatoms
  have hfirst : w.Tried constraints (w.whole hatoms) 1 0 := .first
  unfold partition
  rw [hfull]
  exact ends_search 1 0 Nat.one_pos (Slice.size_pos _) hfirst

/-- A tried count is one that the search comes to. -/
theorem search_of_tried {full : Slice} {count before : Nat}
    (h : w.Tried constraints full count before) (count_pos : 0 < count)
    (count_le : count ≤ full.size) :
    w.search constraints full 1 0 Nat.one_pos full.size_pos
      = w.search constraints full count before count_pos count_le := by
  induction h with
  | first => rfl
  | @retry count before required slices htried hsplit hmost hmore hle hne ih =>
      obtain ⟨hpos, hcount, rfl⟩ := Slice.splitInto_eq_ok_iff.mp hsplit
      have hrequirement := hmost.requirement_eq hmore
      rw [ih hpos hcount, search]
      simp only [hrequirement]
      rw [if_neg (by omega), dif_neg (by omega)]

theorem partition_of_tried (hatoms : 0 < w.atomCount) {count before : Nat}
    (h : w.Tried constraints (w.whole hatoms) count before)
    (hsplit : (w.whole hatoms).splitInto count = .ok slices)
    (hmet : ∀ c ∈ constraints, ∀ s ∈ slices, c.required w s ≤ 1) :
    w.partition constraints = .ok slices := by
  obtain ⟨hpos, hle, rfl⟩ := Slice.splitInto_eq_ok_iff.mp hsplit
  have hfull : Slice.full w.atomCount = .ok (w.whole hatoms) := dif_pos hatoms
  unfold partition
  rw [hfull]
  change w.search constraints (w.whole hatoms) 1 0 Nat.one_pos (Slice.size_pos _) = _
  rw [search_of_tried h hpos hle, search]
  simp only [if_pos (requirement_le_one hmet)]

/-- The first tried split that no larger one can mend ends the search. -/
theorem partition_eq_infeasible (hatoms : 0 < w.atomCount) {count before required : Nat}
    (h : w.Tried constraints (w.whole hatoms) count before)
    (hsplit : (w.whole hatoms).splitInto count = .ok slices)
    (hmost : w.MostRequired constraints slices required) (hmore : 1 < required)
    (hlast : w.atomCount < required ∨ count = w.atomCount) :
    w.partition constraints = .error (.infeasible w.label w.atomCount required) := by
  obtain ⟨hpos, hle, rfl⟩ := Slice.splitInto_eq_ok_iff.mp hsplit
  have hfull : Slice.full w.atomCount = .ok (w.whole hatoms) := dif_pos hatoms
  have hlast : (w.whole hatoms).size < required ∨ count = (w.whole hatoms).size := hlast
  unfold partition
  rw [hfull]
  change w.search constraints (w.whole hatoms) 1 0 Nat.one_pos (Slice.size_pos _) = _
  rw [search_of_tried h hpos hle, search]
  simp only [hmost.requirement_eq hmore, if_neg (Nat.not_le.mpr hmore), dif_pos hlast]
  rfl

theorem partition_of_no_atoms (hnone : ¬ 0 < w.atomCount) :
    ∃ cause, w.partition constraints = .error (.data cause) := by
  unfold partition
  rw [show Slice.full w.atomCount = .error _ from dif_neg hnone]
  exact ⟨_, rfl⟩

theorem exists_splitInto_of_partition (h : w.partition constraints = .ok slices) :
    ∃ (hatoms : 0 < w.atomCount) (count : Nat), (w.whole hatoms).splitInto count = .ok slices
      ∧ ∀ c ∈ constraints, ∀ s ∈ slices, c.required w s ≤ 1 := by
  by_cases hatoms : 0 < w.atomCount
  · have hends : w.Ends constraints (w.whole hatoms) _ := ends_partition hatoms
    rw [h] at hends
    cases hends with
    | found _ hsplit hmet => exact ⟨hatoms, _, hsplit, hmet⟩
  · obtain ⟨cause, herror⟩ : ∃ cause, w.partition constraints = _ := partition_of_no_atoms hatoms
    rw [h] at herror
    cases herror

theorem tiles_of_partition (h : w.partition constraints = .ok slices) :
    Slice.Tiles 0 w.atomCount slices := by
  obtain ⟨hatoms, count, hsplit, -⟩ := exists_splitInto_of_partition h
  obtain ⟨hpos, hle, rfl⟩ := Slice.splitInto_eq_ok_iff.mp hsplit
  exact Slice.tiles_pieces hpos hle

theorem required_le_one_of_mem (h : w.partition constraints = .ok slices) {c : Constraint}
    (hc : c ∈ constraints) {s : Slice} (hs : s ∈ slices) : c.required w s ≤ 1 := by
  obtain ⟨-, -, -, hmet⟩ := exists_splitInto_of_partition h
  exact hmet c hc s hs

theorem partition_ne_unknownVertex (id : ObjectId) :
    w.partition constraints ≠ .error (.unknownVertex id) := by
  intro h
  by_cases hatoms : 0 < w.atomCount
  · have hends : w.Ends constraints (w.whole hatoms) _ := ends_partition hatoms
    rw [h] at hends
    cases hends
  · obtain ⟨cause, herror⟩ : ∃ cause, w.partition constraints = _ := partition_of_no_atoms hatoms
    rw [h] at herror
    cases herror

theorem partition_cases (hatoms : 0 < w.atomCount) :
    (∃ slices, w.partition constraints = .ok slices ∧ slices ≠ []
      ∧ Slice.Tiles 0 w.atomCount slices
      ∧ ∀ c ∈ constraints, ∀ s ∈ slices, c.required w s ≤ 1)
    ∨ ∃ required count before slices,
      w.partition constraints = .error (.infeasible w.label w.atomCount required)
      ∧ w.Tried constraints (w.whole hatoms) count before
      ∧ (w.whole hatoms).splitInto count = .ok slices
      ∧ w.MostRequired constraints slices required ∧ 1 < required
      ∧ (w.atomCount < required ∨ ∀ s ∈ slices, s.size = 1) := by
  have hends : w.Ends constraints (w.whole hatoms) (w.partition constraints) :=
    ends_partition hatoms
  generalize w.partition constraints = result at hends ⊢
  cases hends with
  | found htried hsplit hmet =>
      obtain ⟨hpos, hle, rfl⟩ := Slice.splitInto_eq_ok_iff.mp hsplit
      have htiles := Slice.tiles_pieces hpos hle
      exact Or.inl ⟨_, rfl, htiles.ne_nil hatoms, htiles, hmet⟩
  | @infeasible count _ _ _ htried hsplit hmost hunmet hlast =>
      refine Or.inr ⟨_, _, _, _, rfl, htried, hsplit, hmost, hunmet, hlast.imp_right ?_⟩
      rintro rfl s hs
      obtain ⟨hpos, _, rfl⟩ := Slice.splitInto_eq_ok_iff.mp hsplit
      exact Slice.size_eq_one_of_mem_pieces hpos hs

/-- The search for a partition tries fewer counts than there are atoms before its last one, each of
which can be split into, and ends in slices that lie side by side over all atoms and meet every
constraint, or at a split that no larger one can mend. -/
theorem partition_ends (hatoms : 0 < w.atomCount) :
    (∀ count before, w.Tried constraints (w.whole hatoms) count before →
      before < w.atomCount ∧ ∃ slices, (w.whole hatoms).splitInto count = .ok slices)
    ∧ ((∃ slices, w.partition constraints = .ok slices ∧ slices ≠ []
        ∧ Slice.Tiles 0 w.atomCount slices
        ∧ ∀ c ∈ constraints, ∀ s ∈ slices, c.required w s ≤ 1)
      ∨ ∃ required count before slices,
        w.partition constraints = .error (.infeasible w.label w.atomCount required)
        ∧ w.Tried constraints (w.whole hatoms) count before
        ∧ (w.whole hatoms).splitInto count = .ok slices
        ∧ w.MostRequired constraints slices required ∧ 1 < required
        ∧ (w.atomCount < required ∨ ∀ s ∈ slices, s.size = 1)) := by
  refine ⟨fun count before h => ?_, partition_cases hatoms⟩
  obtain ⟨hbefore, hle⟩ := h.bounds
  exact ⟨Nat.lt_of_lt_of_le hbefore hle, h.exists_splitInto⟩

def fiveAtoms : Workload := ⟨⟨0⟩, "five", 5, fun _ _ => 0⟩

/-- A constraint that no slice meets. -/
def unmet : Constraint := ⟨"unmet", fun _ _ => 2⟩

/-- Pairs of atoms can be had, and what cannot be met ends at single atoms. -/
theorem partition_ends_fiveAtoms :
    0 < fiveAtoms.atomCount
    ∧ (∃ slices, fiveAtoms.partition [.atomLimit 2] = .ok slices ∧ Slice.Tiles 0 5 slices
      ∧ ∀ s ∈ slices, (Constraint.atomLimit 2).required fiveAtoms s ≤ 1)
    ∧ ∃ slices, fiveAtoms.partition [unmet] = .error (.infeasible "five" 5 2)
      ∧ fiveAtoms.MostRequired [unmet] slices 2 ∧ ∀ s ∈ slices, s.size = 1 := by
  have hatoms : 0 < fiveAtoms.atomCount := by decide
  refine ⟨hatoms, ?_, ?_⟩
  · have hok : (fiveAtoms.partition [.atomLimit 2]).isOk = true := by cbv
    rcases (partition_ends hatoms).2 with ⟨slices, hslices, -, htiles, hmet⟩ | ⟨_, _, _, _, h, -⟩
    · exact ⟨slices, hslices, htiles, hmet _ (List.mem_singleton.mpr rfl)⟩
    · rw [h] at hok
      cases hok
  · have herror : (fiveAtoms.partition [unmet]).isOk = false := by cbv
    rcases (partition_ends hatoms).2 with
      ⟨slices, hslices, -⟩ | ⟨required, _, _, slices, h, -, -, hmost, -, hlast⟩
    · rw [hslices] at herror
      cases herror
    · have htwo : required = 2 := by
        obtain ⟨⟨c, hc, s, -, hrequired⟩, -⟩ := hmost
        cases List.mem_singleton.mp hc
        exact hrequired.symm
      subst htwo
      exact ⟨slices, h, hmost, hlast.resolve_left (by decide)⟩

end Manycore.Workload
