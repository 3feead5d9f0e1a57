import Manycore.Compiler.Network
import Manycore.Proofs.Config
import Manycore.Proofs.Memory.CountedSizes
import Manycore.Proofs.Memory.Regions
import Manycore.Proofs.Partition

/-! # Sizes of accepted vertices

A vertex of one atom cannot be cut, so all of its regions are within the memory of a node when its
network has been partitioned, and their words can be counted by a word.
-/

namespace Manycore

namespace Compiler

variable {c : Compiler} {vs : Groups ObjectId RegionedVertex} {ps : Partitions}

/-- The budget of the memory of a node. -/
def sdramLimit (c : Compiler) : Constraint :=
  .usageLimit .sdram c.config.machine.sdramPerNode.toNat c.config.machine.usageFraction

theorem sdramLimit_mem (c : Compiler) : c.sdramLimit ∈ c.allConstraints := by
  simp [allConstraints, sdramLimit]

/-- What is within the budget is less than twice what a node can have. -/
theorem usage_lt_of_required (hvalid : c.config.validate = .ok ()) {v : RegionedVertex} {s : Slice}
    (hrequired : c.sdramLimit.required v.workload s ≤ 1) : v.usage .sdram s < twoTo 33 := by
  have haccepted := Config.validate_eq_ok_iff.mp hvalid
  rw [sdramLimit, Constraint.required_usageLimit] at hrequired
  by_contra hused
  have hsmall : c.config.machine.sdramPerNode.toNat < twoTo 32 := UInt32.toNat_lt _
  have hmore := Constraint.one_lt_slicesWithin hsmall haccepted.fraction_pos
    haccepted.fraction_le (Nat.not_lt.mp hused)
  exact Nat.not_le.mpr hmore hrequired

theorem usage_lt (hvalid : c.config.validate = .ok ())
    (hps : partitionSearchable c.allConstraints (vs.map (·.2.workload)) = .ok ps)
    {x : ObjectId × RegionedVertex} (hx : x ∈ vs) (hatoms : x.2.atomCount = 1) :
    x.2.usage .sdram Workload.onlySlice < twoTo 33 := by
  obtain ⟨slices, hslices⟩ :=
    exists_partition hps (List.mem_map_of_mem (f := fun x => x.2.workload) hx)
  exact usage_lt_of_required hvalid (Workload.required_le_one hatoms hslices c.sdramLimit_mem)

theorem length_lt (hvalid : c.config.validate = .ok ())
    (hps : partitionSearchable c.allConstraints (vs.map (·.2.workload)) = .ok ps)
    {x : ObjectId × RegionedVertex} (hx : x ∈ vs) (hatoms : x.2.atomCount = 1)
    {words : List UInt32} (hwords : ValueFilter.wordRegion words ∈ x.2.regions) :
    words.length < wordRange := by
  have hle := RegionedVertex.sizeWords_le_usage hwords Workload.onlySlice
  have hlt := usage_lt hvalid hps hx hatoms
  simp only [Region.sizeWords, RegionContent.sizeWords, ValueTable.sizeWords_ofWords] at hle
  rw [show twoTo 33 = 2 * wordRange from rfl] at hlt
  omega

end Compiler

end Manycore
