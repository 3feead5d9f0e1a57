import Manycore.Memory.Region
import Manycore.Partition.Workload

/-! # Vertices made of regions

A vertex whose use of memory is the size of its regions. An empty slot keeps its place among the
regions.
-/

namespace Manycore

structure RegionedVertex where
  id : ObjectId
  label : String
  atomCount : Nat
  regions : List (Option Region)
  /-- Processor cycles per step for a slice. -/
  cpu : Slice → Nat

namespace RegionedVertex

/-- A vertex that uses no processor time. -/
def ofRegions (id : ObjectId) (label : String) (atomCount : Nat) (regions : List (Option Region)) :
    RegionedVertex where
  id
  label
  atomCount
  regions
  cpu _ := 0

/-- The bytes of the chosen regions. -/
def regionBytes (v : RegionedVertex) (chosen : Region → Bool) (s : Slice) : Nat :=
  total (((v.regions.filterMap fun slot => slot).filter chosen).map fun r => 4 * r.sizeWords s)

def usage (v : RegionedVertex) : Resource → Slice → Nat
  | .cpu, s => v.cpu s
  | .dtcm, s => v.regionBytes Region.inCore s
  | .sdram, s => v.regionBytes (fun _ => true) s

/-- The bytes of the chosen regions, counted one region after the other. -/
def countBytes (v : RegionedVertex) (chosen : Region → Bool) (s : Slice) : Except DataError Nat :=
  ((v.regions.filterMap fun slot => slot).filter chosen).foldlM (fun sum r => do
    let words ← r.countWords s
    let bytes ← counted (4 * words)
    counted (sum + bytes)) 0

/-- The use of a resource, unless it cannot be counted. -/
def countUsage (v : RegionedVertex) : Resource → Slice → Except DataError Nat
  | .cpu, s => counted (v.cpu s)
  | .dtcm, s => v.countBytes Region.inCore s
  | .sdram, s => v.countBytes (fun _ => true) s

def workload (v : RegionedVertex) : Workload where
  id := v.id
  label := v.label
  atomCount := v.atomCount
  usage := v.usage

/-- Render one slot. -/
def renderSlot (slot : Option Region) (s : Slice) (index : Nat) :
    Keying MemoryError (Option Subregion) :=
  match slot with
  | none => pure none
  | some r => do
    let subregion ← r.render s index
    pure (some subregion)

/-- Render every region for a slice at its place among the slices of the vertex. -/
def render (v : RegionedVertex) (s : Slice) (index : Nat) : Keying MemoryError Slots :=
  v.regions.mapM fun slot => renderSlot slot s index

/-- Render every region, up to one whose size cannot be counted. -/
def renderCounted (v : RegionedVertex) (s : Slice) (index : Nat) : Keying MemoryError Slots :=
  v.regions.mapM fun slot => slot.mapM fun r => r.renderCounted s index

/-- The vertex as diagnostics show it. -/
def text (v : RegionedVertex) : String :=
  s!"RegionedVertex \x7b id: ObjectId({v.id.number.toNat}), label: " ++ Text.quoted v.label
    ++ s!", n_atoms: {v.atomCount}, n_regions: {v.regions.length} \x7d"

end RegionedVertex

end Manycore
