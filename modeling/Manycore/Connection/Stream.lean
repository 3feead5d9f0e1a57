import Manycore.Connection.Filter
import Manycore.Connection.Function
import Manycore.Keyspace.Pool

/-! # Streams and receivers

A connection falls into what its sender transmits, a stream, and where the stream goes, a receiver.
Connections whose streams are the same share one transmission.
-/

namespace Manycore

/-- The number of a learning rule. -/
structure RuleId where
  number : UInt32
  deriving DecidableEq, Repr

/-- The input of an object that a connection is delivered to. -/
inductive Inlet where
  | standardInput
  | globalInhibition
  | learningRule (rule : RuleId)
  deriving DecidableEq, Repr

def Inlet.text : Inlet → String
  | standardInput => "StandardInput"
  | globalInhibition => "GlobalInhibition"
  | learningRule rule => s!"LearningRule(LearningRuleId({rule.number.toNat}))"

/-- Where and how a stream is received. -/
structure Receiver where
  object : ObjectId
  slice : Slice
  inlet : Inlet
  filter : Filter

namespace Receiver

/-- What decides whether two receivers are the same. -/
def content (r : Receiver) : ObjectId × Slice × Inlet × UInt64 × Bool :=
  (r.object, r.slice, r.inlet, r.filter.content)

def same (a b : Receiver) : Bool := decide (a.content = b.content)

end Receiver

/-- How decoders are solved for. -/
structure Solver where
  name : String
  regularization : Binary64

namespace Solver

def content (s : Solver) : String × UInt64 := (s.name, s.regularization.bits)

def same (a b : Solver) : Bool := decide (a.content = b.content)

end Solver

/-- What produces the values of a stream. -/
inductive Source where
  /-- Values computed directly. -/
  | plain (function : Option VectorFunction)
  /-- Values decoded from an ensemble. Two such sources are the same when they sample the same
  values on the same points, whichever function the values came from. -/
  | decoded (evalPoints : Matrix) (solver : Solver) (samples : Matrix) (rule : Option RuleId)
      (function : Option VectorFunction)

namespace Source

def function? : Source → Option VectorFunction
  | plain function => function
  | decoded _ _ _ _ function => function

/-- Whether two sources produce the same values. -/
def same : Source → Source → Bool
  | plain f, plain g => decide (f.map (·.handle) = g.map (·.handle))
  | decoded points solver samples rule _, decoded points' solver' samples' rule' _ =>
    points.same points' && solver.same solver' && samples.same samples' && decide (rule = rule')
  | _, _ => false

end Source

/-- What an object transmits for one or more connections. -/
structure Stream where
  /-- The number of values. -/
  width : Nat
  transform : Matrix
  preSlice : Slice
  postSlice : Slice
  keyspace : Option Keyspace
  source : Source

namespace Stream

/-- Whether two streams carry the same values under the same keys. -/
def same (a b : Stream) : Bool :=
  decide (a.width = b.width) && a.transform.same b.transform
    && decide (a.preSlice = b.preSlice) && decide (a.postSlice = b.postSlice)
    && decide (a.keyspace = b.keyspace) && a.source.same b.source

/-- The stream with every entry of its transform times `factor`. -/
def scaled (factor : Binary64) (s : Stream) : Stream :=
  { s with transform := s.transform.scaled factor }

def withKeyspace (s : Stream) (k : Keyspace) : Stream := { s with keyspace := some k }

def isDecoded (s : Stream) : Bool :=
  match s.source with
  | .plain _ => false
  | .decoded .. => true

end Stream

end Manycore
