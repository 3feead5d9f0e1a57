import Manycore.Config.Problem
import Manycore.Connection.Error
import Manycore.Memory.Error
import Manycore.Partition.Split

/-! # Failed compilations

Every stage of a compilation has its own errors; the stages between add three more.
-/

namespace Manycore

/-- Why split vertices cannot be placed as asked. -/
inductive InvalidPlacement where
  | usedCore (x y p : UInt32)
  | placedTwice (split : SplitVertex)
  | notAPartition (split : SplitVertex)

def InvalidPlacement.message : InvalidPlacement → String
  | usedCore x y p => s!"core ({x.toNat}, {y.toNat}, {p.toNat}) is used more than once"
  | placedTwice split => s!"{split.text} is placed more than once"
  | notAPartition split => s!"{split.text} is not a partition of its vertex"

inductive CompileError where
  | config (cause : ConfigError)
  | key (cause : Keyspace.KeyError)
  | connection (cause : ConnectionError)
  | partition (cause : PartitionError)
  | memory (cause : MemoryError)
  | data (cause : DataError)
  /-- No assembler is registered for the kind of an object. -/
  | unsupportedKind (kind : ObjectKind) (label : String)
  /-- A stream without a keyspace reaches a vertex. -/
  | unkeyed (object : ObjectId)
  | placement (cause : InvalidPlacement)

/-- What is told about an error, if its stage tells anything. -/
def CompileError.message? : CompileError → Option String
  | .config cause => cause.message?
  | .key cause => some cause.message
  | .connection cause => some cause.message
  | .partition cause => some cause.message
  | .memory cause => cause.message?
  | .data cause => some cause.message
  | .unsupportedKind kind label => some s!"Unsupported object kind {kind.text} for '{label}'"
  | .unkeyed object => some s!"Connection received by {object.text} has no keyspace"
  | .placement cause => some s!"Invalid placement: {cause.message}"

end Manycore
