import Manycore.Number.Decimal
import Manycore.Slice.Split

/-! # Workloads and constraints

A workload is a number of atoms that cores may share, each taking a slice. A constraint tells into
how many slices a slice would have to be cut; one or none means that it fits.
-/

namespace Manycore

/-- What a slice of a workload uses up. -/
inductive Resource where
  /-- Processor cycles per step. -/
  | cpu
  /-- Bytes of the core's own memory. -/
  | dtcm
  /-- Bytes of the node's shared memory. -/
  | sdram
  deriving DecidableEq

def Resource.text : Resource → String
  | cpu => "cpu"
  | dtcm => "dtcm"
  | sdram => "sdram"

structure Workload where
  id : ObjectId
  label : String
  atomCount : Nat
  usage : Resource → Slice → Nat

structure Constraint where
  name : String
  required : Workload → Slice → Nat

namespace Constraint

def text (c : Constraint) : String := s!"Constraint({c.name})"

/-- How many slices a use takes within a budget. Without a budget, no count is enough. -/
def slicesWithin (budget used : Binary64) : Nat :=
  if used.le budget then 1
  else if budget.le (.zero false) then maxCount
  else (used / budget).ceilWithin maxCount

/-- The use of a resource stays within a fraction of a limit. -/
def usageLimit (r : Resource) (limit : Nat) (fraction : Binary64) : Constraint :=
  let budget := .ofNat limit * fraction
  { name := s!"max_{r.text}({limit}, {fraction.plainText})"
    required := fun w s => slicesWithin budget (.ofNat (w.usage r s)) }

/-- A slice holds at most `n` atoms, and at least one however small `n` is. -/
def atomLimit (n : Nat) : Constraint where
  name := s!"max_atoms({n})"
  required _ s := (s.size + (max n 1 - 1)) / max n 1

end Constraint

end Manycore
