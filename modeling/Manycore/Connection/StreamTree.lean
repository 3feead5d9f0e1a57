import Manycore.Connection.Expansion
import Manycore.Keyspace.Standard

/-! # The tree of streams

Streams by the object that sends them, and receivers by stream, all in the order of first use.
Equal streams of one object are merged, so one transmission feeds every receiver under it.
-/

namespace Manycore

/-- The streams of one object with their receivers. -/
abbrev Outgoing := Groups Stream (List Receiver)

/-- The streams that reach one object, by inlet and filter: the keyspace of each. -/
abbrev Incoming := Groups Inlet (Groups Filter (List (Option Keyspace)))

/-- One stream between two objects. -/
structure Edge where
  pre : ObjectId
  post : ObjectId
  keyspace : Option Keyspace
  deriving DecidableEq

structure StreamTree where
  origins : Groups ObjectId Outgoing

namespace StreamTree

def sameId (a b : ObjectId) : Bool := decide (a = b)

def empty : StreamTree := ⟨[]⟩

/-- Add one receiver of a stream. -/
def insert (t : StreamTree) (origin : ObjectId) (s : Stream) (r : Receiver) : StreamTree :=
  ⟨Groups.update sameId origin (fun out => Groups.push Stream.same s r (out.getD [])) t.origins⟩

/-- Add every receiver of a stream. -/
def insertAll (t : StreamTree) (origin : ObjectId) (s : Stream) (rs : List Receiver) : StreamTree :=
  rs.foldl (fun t r => t.insert origin s r) t

/-- Every sender and stream with its receivers, in order. -/
def branches (t : StreamTree) : List (ObjectId × Stream × List Receiver) :=
  t.origins.flatMap fun (origin, out) => out.map fun (s, rs) => (origin, s, rs)

/-- Every sender, stream and receiver, in order. -/
def leaves (t : StreamTree) : List (ObjectId × Stream × Receiver) :=
  t.branches.flatMap fun (origin, s, rs) => rs.map fun r => (origin, s, r)

/-- The tree of expanded connections, reduced one after the other. -/
def ofExpansions (es : List Expansion) : Except ConnectionError StreamTree :=
  es.foldlM (fun t e => do
    let s ← e.stream
    let r ← e.receiver
    pure (t.insert e.pre s r)) empty

/-- The distinct objects of a list, in order of first use. -/
def distinctIds (ids : List ObjectId) : List ObjectId := (distinct sameId ids).1

/-- The objects that send. -/
def originating (t : StreamTree) : List ObjectId := t.origins.map (·.1)

/-- The objects that receive, in order of first use. -/
def terminating (t : StreamTree) : List ObjectId :=
  distinctIds (t.leaves.map fun (_, _, r) => r.object)

/-- All objects of the tree, senders first. -/
def objects (t : StreamTree) : List ObjectId := distinctIds (t.originating ++ t.terminating)

/-- The streams of an object; none when it sends nothing. -/
def outgoing (t : StreamTree) (object : ObjectId) : Outgoing :=
  (Groups.find? sameId object t.origins).getD []

/-- The streams that an object sends. -/
def streams (t : StreamTree) (object : ObjectId) : List Stream := (t.outgoing object).map (·.1)

/-- The receivers at an object with the stream that each listens to, in order. -/
def arrivals (t : StreamTree) (object : ObjectId) : List (Stream × Receiver) :=
  (t.leaves.filter fun (_, _, r) => r.object = object).map (·.2)

/-- The streams that reach an object, grouped by inlet and then by filter. -/
def incoming (t : StreamTree) (object : ObjectId) : Incoming :=
  (t.arrivals object).foldl (fun g (s, r) =>
    Groups.update (fun a b => decide (a = b)) r.inlet
      (fun filters => Groups.push Filter.same r.filter s.keyspace (filters.getD [])) g) []

/-- Rename objects at the sending end, the receiving end, or both. -/
def replaceObjects (rename : ObjectId → ObjectId) (originating terminating : Bool)
    (t : StreamTree) : StreamTree :=
  t.leaves.foldl (fun tree (origin, s, r) =>
    tree.insert (if originating then rename origin else origin) s
      { r with object := if terminating then rename r.object else r.object }) empty

/-- The stream with a keyspace: its own, or the default bound to the places of its object and of
itself among the object's streams. -/
def keyed (default : Keyspace) (origin place : Nat) (s : Stream) : Keying Keyspace.KeyError Stream :=
  match s.keyspace with
  | some _ => pure s
  | none => do
    let k ← default.bind [(Keyspace.objectField, origin)]
    let k ← k.bind [(Keyspace.connectionField, place)]
    pure (s.withKeyspace k)

/-- Give every stream without a keyspace one of its own. -/
def applyKeyspace (t : StreamTree) (default : Keyspace) : Keying Keyspace.KeyError StreamTree :=
  t.origins.zipIdx.foldlM (fun tree ((origin, out), o) =>
    out.zipIdx.foldlM (fun tree ((s, rs), i) => do
      let s ← keyed default o i s
      pure (tree.insertAll origin s rs)) tree) empty

/-- One edge for each receiver of each stream. -/
def edges (t : StreamTree) : List Edge :=
  t.leaves.map fun (origin, s, r) => ⟨origin, r.object, s.keyspace⟩

/-- Whether two trees hold the same streams with the same lists of receivers. The order of senders
and of streams does not count, that of receivers does. -/
def same (a b : StreamTree) : Bool :=
  Groups.sameContent sameId
    (Groups.sameContent Stream.same fun rs rs' =>
      rs.length == rs'.length && (rs.zip rs').all fun (r, r') => r.same r')
    a.origins b.origins

end StreamTree

/-- The distinct filters of some receivers in order of first use, and each receiver's place among
them. -/
def combineFilters (rs : List Receiver) : List Filter × List Nat :=
  distinct Filter.same (rs.map (·.filter))

/-- The distinct transforms of some streams. -/
structure TransformTable where
  /-- In order of first use. -/
  transforms : List Matrix
  /-- The place of each stream's transform. -/
  indices : List Nat

namespace TransformTable

def ofStreams (ss : List Stream) : TransformTable :=
  let (transforms, indices) := distinct Matrix.same (ss.map (·.transform))
  { transforms, indices }

/-- The rows of all distinct transforms together. -/
def width (t : TransformTable) : Nat := total (t.transforms.map Matrix.nRows)

/-- Where rows of consecutive blocks begin, counted from `start`. -/
def offsetsFrom (start : Nat) : List Matrix → List Nat
  | [] => []
  | m :: rest => start :: offsetsFrom (start + m.nRows) rest

/-- The first row of each distinct transform. -/
def rowOffsets (t : TransformTable) : List Nat := offsetsFrom 0 t.transforms

end TransformTable

end Manycore
