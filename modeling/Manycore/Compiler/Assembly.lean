import Manycore.Compiler.Error
import Manycore.Memory.Vertex

/-! # Assembling vertices

An assembler makes the vertex of an object from the final tree, or tells that the object needs none.
-/

namespace Manycore

/-- What an assembler sees of a compilation. -/
structure AssemblyContext where
  tree : StreamTree
  config : Config
  format : WordFormat

namespace AssemblyContext

/-- A millionth. -/
def microsecond : Binary64 := .ofRatio false 1 1000000

/-- The length of a step in seconds. -/
def timestep (c : AssemblyContext) : Binary64 :=
  .ofNat c.config.application.timerPeriod.toNat * microsecond

end AssemblyContext

abbrev Assembler := NetworkObject → AssemblyContext → Keying CompileError (Option RegionedVertex)

/-- The keyspaces of the values of one stream. -/
def Stream.keyspaces (origin : ObjectId) (s : Stream) : Keying CompileError (List Keyspace) :=
  match s.keyspace with
  | none => throw (.unkeyed origin)
  | some k =>
    (List.range s.width).mapM fun d => (k.bind [(Keyspace.dimensionField, d)]).mapError .key

/-- One keyspace for each value that is transmitted, stream by stream. -/
def keyspacesWithDimensions (origin : ObjectId) (ss : List Stream) :
    Keying CompileError (List Keyspace) := do
  let keyspaces ← ss.mapM fun s => s.keyspaces origin
  pure keyspaces.flatten

end Manycore
