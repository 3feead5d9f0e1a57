import Manycore.Capacity
import Manycore.Groups
import Manycore.Partition.Workload

/-! # The search for a partition

A workload is cut into one slice, then into more and more, until every constraint is met on every
slice. The step grows with every try, so that uses with a fixed part for each slice are met too,
and no slice is ever left without an atom.
-/

namespace Manycore

inductive PartitionError where
  /-- Slices of one atom do not meet the constraints, or more slices than atoms are called for. -/
  | infeasible (label : String) (atomCount required : Nat)
  | unknownVertex (id : ObjectId)
  | data (cause : DataError)

def PartitionError.message : PartitionError → String
  | infeasible label atomCount required =>
    s!"Cannot partition '{label}': {atomCount} atoms would need {required} slices"
  | unknownVertex id => s!"Edge refers to vertex {id.text} which has not been partitioned"
  | data cause => cause.message

namespace Workload

/-- The largest count that a constraint calls for on some slice; one when nothing is constrained. -/
def requirement (w : Workload) (constraints : List Constraint) (slices : List Slice) : Nat :=
  ((slices.flatMap fun s => constraints.map fun c => c.required w s).max?).getD 1

/-- Cut into `count` slices, and into more until every constraint is met. -/
def search (w : Workload) (constraints : List Constraint) (full : Slice) (count step : Nat)
    (count_pos : 0 < count) (count_le : count ≤ full.size) : Except PartitionError (List Slice) :=
  let slices := full.pieces count count_pos count_le
  let required := w.requirement constraints slices
  if required ≤ 1 then .ok slices
  else if h : full.size < required ∨ count = full.size then
    .error (.infeasible w.label full.size required)
  else
    w.search constraints full (min (max required (count + (step + 1))) full.size) (step + 1)
      (by omega) (by omega)
termination_by full.size - count
decreasing_by omega

/-- The slices of a workload under constraints. -/
def partition (w : Workload) (constraints : List Constraint) :
    Except PartitionError (List Slice) := do
  let full ← (Slice.full w.atomCount).mapError .data
  w.search constraints full 1 0 Nat.one_pos full.size_pos

/-- Whether the search can be carried out: the uses of the whole workload can be counted, and the
slices that it is cut into next can be held. -/
def isSearchable (constraints : List Constraint) (w : Workload) : Bool :=
  match Slice.full w.atomCount with
  | .error _ => true
  | .ok full =>
    let required := w.requirement constraints [full]
    [Resource.cpu, .dtcm, .sdram].all (fun r => decide (w.usage r full ≤ maxCount))
      && (decide (required ≤ 1 ∨ full.size < required)
        || Slice.canList (min (max required 2) full.size))

end Workload

/-- The slices of every vertex. -/
abbrev Partitions := Groups ObjectId (List Slice)

/-- Partition one workload after the other. Of workloads with one number, the last one counts. -/
def partitionAll (constraints : List Constraint) (ws : List Workload) :
    Except PartitionError Partitions := do
  let results ← ws.mapM fun w => do
    let slices ← w.partition constraints
    pure (w.id, slices)
  pure (results.foldl (fun all (id, slices) =>
    Groups.update (fun a b => decide (a = b)) id (fun _ => slices) all) [])

/-- Partition workloads up to the first one that is too large to be searched. -/
def partitionSearchable (constraints : List Constraint) (ws : List Workload) :
    Except PartitionError Partitions := do
  let searchable := ws.takeWhile (Workload.isSearchable constraints)
  let partitions ← partitionAll constraints searchable
  if searchable.length < ws.length then .error (.data .tooLarge) else pure partitions

end Manycore
