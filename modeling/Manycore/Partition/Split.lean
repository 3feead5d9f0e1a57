import Manycore.Connection.StreamTree
import Manycore.Partition.Search

/-! # Split vertices and split edges

A partitioned vertex becomes one split vertex for each slice, and an edge becomes one split edge
for each pair of split vertices at its ends.
-/

namespace Manycore

/-- The part of a vertex that one core runs. -/
structure SplitVertex where
  vertex : ObjectId
  slice : Slice
  deriving DecidableEq

def SplitVertex.text (v : SplitVertex) : String :=
  s!"{v.vertex.text}[{v.slice.start}:{v.slice.stop}]"

/-- The split vertices of every vertex. -/
abbrev SplitVertices := Groups ObjectId (List SplitVertex)

namespace Partitions

def splitVertices (ps : Partitions) : SplitVertices :=
  ps.map fun (vertex, slices) => (vertex, slices.map fun slice => { vertex, slice })

end Partitions

structure SplitEdge where
  pre : SplitVertex
  post : SplitVertex
  keyspace : Option Keyspace
  deriving DecidableEq

def SplitEdge.text (e : SplitEdge) : String := s!"{e.pre.text} -> {e.post.text}"

namespace SplitVertices

/-- The split vertices of one vertex. -/
def ofVertex? (vs : SplitVertices) (id : ObjectId) : Option (List SplitVertex) :=
  Groups.find? (fun a b => decide (a = b)) id vs

def ofVertex (vs : SplitVertices) (id : ObjectId) : Except PartitionError (List SplitVertex) :=
  match vs.ofVertex? id with
  | some splits => .ok splits
  | none => .error (.unknownVertex id)

/-- The split edges of an edge. -/
def splitEdge (vs : SplitVertices) (e : Edge) : Except PartitionError (List SplitEdge) := do
  let pres ← vs.ofVertex e.pre
  let posts ← vs.ofVertex e.post
  pure (pres.flatMap fun pre => posts.map fun post => { pre, post, keyspace := e.keyspace })

/-- Every edge with its split edges. -/
def splitEdges (vs : SplitVertices) (es : List Edge) :
    Except PartitionError (List (Edge × List SplitEdge)) :=
  es.mapM fun e => do
    let split ← vs.splitEdge e
    pure (e, split)

end SplitVertices

end Manycore
