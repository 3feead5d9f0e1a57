import Manycore.Partition.Search
import Manycore.Proofs.Lists
import Manycore.Proofs.Number.Budget
import Manycore.Proofs.Results
import Mathlib.Data.List.TakeWhile

/-! # Accepted partitions

What is known of the workloads of a network that has been partitioned. One that has a single atom
cannot be cut, so it meets every constraint as a whole.
-/

namespace Manycore

namespace Workload

variable {w : Workload} {constraints : List Constraint} {slices : List Slice}

/-- All of a workload that has one atom. -/
def onlySlice : Slice := ⟨0, 1, Nat.one_pos⟩

theorem required_le_requirement {c : Constraint} (hc : c ∈ constraints) {s : Slice}
    (hs : s ∈ slices) : c.required w s ≤ w.requirement constraints slices := by
  have hmem : c.required w s ∈ slices.flatMap fun s => constraints.map fun c => c.required w s :=
    List.mem_flatMap.mpr ⟨s, hs, List.mem_map_of_mem hc⟩
  rw [requirement]
  cases hmax : (slices.flatMap fun s => constraints.map fun c => c.required w s).max? with
  | none =>
      rw [List.max?_eq_none_iff] at hmax
      rw [hmax] at hmem
      cases hmem
  | some most => exact (List.max?_eq_some_iff.mp hmax).2 _ hmem

/-- A single atom is taken as it is or not at all. -/
theorem partition_eq_ok_iff (hatoms : w.atomCount = 1) :
    w.partition constraints = .ok slices
      ↔ slices = [onlySlice] ∧ w.requirement constraints [onlySlice] ≤ 1 := by
  have hfull : Slice.full w.atomCount = .ok onlySlice := by rw [hatoms]; rfl
  have hpieces : onlySlice.pieces 1 Nat.one_pos (Slice.size_pos _) = [onlySlice] := by
    simp [Slice.pieces, Slice.run, onlySlice, Slice.size]
  rw [partition, hfull]
  change w.search constraints onlySlice 1 0 Nat.one_pos (Slice.size_pos _) = .ok slices ↔ _
  rw [search]
  simp only [hpieces]
  split
  · rename_i hle
    exact ⟨fun h => ⟨(Except.ok.inj h).symm, hle⟩, fun h => congrArg Except.ok h.1.symm⟩
  · rename_i hmore
    have hwhole : 1 = onlySlice.size := rfl
    rw [dif_pos (Or.inr hwhole)]
    exact ⟨fun h => (nomatch h), fun h => absurd h.2 hmore⟩

theorem required_le_one (hatoms : w.atomCount = 1) (h : w.partition constraints = .ok slices)
    {c : Constraint} (hc : c ∈ constraints) : c.required w onlySlice ≤ 1 :=
  Nat.le_trans (required_le_requirement hc (List.mem_singleton.mpr rfl))
    ((partition_eq_ok_iff hatoms).mp h).2

end Workload

variable {constraints : List Constraint} {ws : List Workload} {ps : Partitions}

theorem exists_partition (h : partitionSearchable constraints ws = .ok ps) {w : Workload}
    (hw : w ∈ ws) : ∃ slices, w.partition constraints = .ok slices := by
  rw [partitionSearchable, bind_eq_ok_iff] at h
  obtain ⟨_, hall, h⟩ := h
  split at h
  · cases h
  · rename_i hlength
    have hwhole : ws.takeWhile (Workload.isSearchable constraints) = ws :=
      (List.takeWhile_sublist _).eq_of_length_le (Nat.not_lt.mp hlength)
    rw [hwhole, partitionAll, bind_eq_ok_iff] at hall
    obtain ⟨results, hresults, -⟩ := hall
    obtain ⟨_, -, hresult⟩ := exists_right_of_forall₂ (forall₂_of_mapM_ok hresults) hw
    obtain ⟨slices, hslices, -⟩ := bind_eq_ok_iff.mp hresult
    exact ⟨slices, hslices⟩

/-- Every workload in one piece. -/
def Partitions.whole (ws : List Workload) : Partitions :=
  ws.foldl (fun all w =>
    Groups.update (fun a b => decide (a = b)) w.id (fun _ => [Workload.onlySlice]) all) []

theorem partitionSearchable_of_single (hatoms : ∀ w ∈ ws, w.atomCount = 1)
    (hsearchable : ∀ w ∈ ws, w.isSearchable constraints = true)
    (hmet : ∀ w ∈ ws, w.requirement constraints [Workload.onlySlice] ≤ 1) :
    partitionSearchable constraints ws = .ok (.whole ws) := by
  have hwhole : ws.takeWhile (Workload.isSearchable constraints) = ws :=
    List.takeWhile_eq_self_iff.mpr hsearchable
  have hresults : (ws.mapM fun w => do
      let slices ← w.partition constraints
      pure (w.id, slices)) = .ok (ws.map fun w => (w.id, [Workload.onlySlice])) := by
    refine mapM_eq_ok fun w hw => ?_
    rw [(Workload.partition_eq_ok_iff (hatoms w hw)).mpr ⟨rfl, hmet w hw⟩]
    rfl
  rw [partitionSearchable, hwhole, partitionAll, hresults]
  simp [List.foldl_map, Partitions.whole]

end Manycore
