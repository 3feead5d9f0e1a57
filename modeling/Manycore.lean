import Manycore.Compiler.Placement
import Manycore.Compiler.ValueFilter
import Manycore.Config.Json
import Manycore.Config.Search
import Manycore.DebugFlags
import Manycore.Proofs.Compiler.SplitEdges
import Manycore.Proofs.Compiler.UniqueKeys
import Manycore.Proofs.Keyspace.Composition
import Manycore.Proofs.Keyspace.Explicit
import Manycore.Proofs.Keyspace.Flat
import Manycore.Proofs.Memory.LoadPlan
import Manycore.Slice.Json
import Manycore.Proofs.Distinct
import Manycore.Proofs.Connection.Reduction
import Manycore.Proofs.Connection.Rebuilding
import Manycore.Proofs.Connection.Filling
import Manycore.Proofs.Memory.RegionSizes
import Manycore.Proofs.Compiler.KeyRoom
import Manycore.Proofs.Connection.Renaming
import Manycore.Proofs.Partition.Complete
import Manycore.Proofs.Compiler.NodeRoom
import Manycore.Proofs.Compiler.Renderable
import Manycore.Proofs.Number.Order
import Manycore.Proofs.Partition.Refusal
import Manycore.Proofs.Keyspace.FirstFit
import Manycore.Proofs.Keyspace.StepwiseBinding
import Manycore.Proofs.Keyspace.Failure
import Manycore.Proofs.Compiler.FilterRows
import Manycore.Proofs.Memory.KeyMasks
import Manycore.Proofs.Memory.SplitData
import Manycore.Proofs.FullMatrix
import Manycore.Proofs.Number.FixedPoint
import Manycore.Proofs.Connection.Incoming
import Manycore.Proofs.Memory.PlacementOrder
import Manycore.Proofs.Slice.Balanced
import Manycore.Proofs.Config.Arguments
import Manycore.Proofs.Connection.Inhibition
import Manycore.Proofs.Memory.Addresses
import Manycore.Proofs.Connection.KeyEquality
import Manycore.Proofs.Connection.TransformTable
import Manycore.Proofs.ObjectTable
