import Manycore.Connection.Stream
import Manycore.Object

/-! # Refused connections

Why a connection cannot be compiled. Objects appear by the text that shows them.
-/

namespace Manycore

/-- What no vertex can implement. -/
inductive Unsupported where
  | synapse (synapse : Synapse)
  | learningRule (name pre post : String)
  | learningFrom (pre : String)
  | inhibitionBetween (pre post : ObjectKind)
  | unevenInhibition (pre post : ObjectId)
  | functionFromFilter (label : String)
  | inletOfFilter (label : String) (inlet : Inlet)

def Unsupported.message : Unsupported → String
  | .synapse s => s!"synapse {s.text} has no filter implementation"
  | .learningRule name pre post => s!"learning rule '{name}' on connection {pre} -> {post}"
  | learningFrom pre => s!"PES learning on connection from non-ensemble {pre}"
  | inhibitionBetween pre post =>
    s!"global inhibition requires an ensemble -> neurons connection, got {pre.text} -> {post.text}"
  | unevenInhibition pre post =>
    s!"non-uniform transform on inhibitory connection {pre.text} -> {post.text}"
  | functionFromFilter label => s!"function on connection from filter '{label}'"
  | inletOfFilter label inlet => s!"filter '{label}' cannot receive on {inlet.text}"

/-- What contradicts the sizes of objects or functions. -/
inductive InvalidConnection where
  | beyondOutputs (slice : Slice) (sizeOut : Nat) (pre : String)
  | noEvalPoints (pre : String)
  | evalPointColumns (pre : String) (found expected : Nat)
  | functionResult (cause : VectorFunction.WrongLength)
  | filterColumns (label : String) (found expected : Nat)

def InvalidConnection.message : InvalidConnection → String
  | beyondOutputs slice sizeOut pre => s!"{slice.text} exceeds the {sizeOut} outputs of {pre}"
  | noEvalPoints pre => s!"{pre} has no evaluation points"
  | evalPointColumns pre found expected =>
    s!"Evaluation points for {pre} have {found} columns, expected {expected}"
  | functionResult cause =>
    s!"Function '{cause.name}' returned {cause.found} values, expected {cause.declared}"
  | filterColumns label found expected =>
    s!"transform from filter '{label}' has {found} columns, expected {expected}"

inductive ConnectionError where
  | unsupported (cause : Unsupported)
  | invalid (cause : InvalidConnection)
  | data (cause : DataError)

def ConnectionError.message : ConnectionError → String
  | unsupported cause => s!"Unsupported construct: {cause.message}"
  | invalid cause => s!"Invalid connection: {cause.message}"
  | data cause => cause.message

end Manycore
