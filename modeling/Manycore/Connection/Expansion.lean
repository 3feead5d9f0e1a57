import Manycore.Connection.Error
import Manycore.Transform

/-! # Expanding connections

A connection as the front end gives it, its expansion to a full transform between two known
objects, and the reduction of the expansion to a stream and a receiver.
-/

namespace Manycore

inductive LearningRule where
  /-- Decoders adapt to an error signal on the rule's own inlet. -/
  | pes (id : RuleId) (rate : Binary64)
  /-- A rule that nothing implements. -/
  | other (name : String)

/-- A connection between two objects. -/
structure Connection where
  pre : ObjectId
  post : ObjectId
  /-- The outputs read; all of them when none are given. -/
  preSlice : Option Slice
  /-- The inputs written; all of them when none are given. -/
  postSlice : Option Slice
  transform : Transform
  synapse : Option Synapse
  function : Option VectorFunction
  solver : Solver
  evalPoints : Option Matrix
  learningRule : Option LearningRule
  keyspace : Option Keyspace
  inlet : Inlet
  accumulatory : Bool

namespace Connection

/-- The time constant of the synapse that a connection has unless told otherwise: `0.005`. -/
def defaultTau : Binary64 := .ofRatio false 5 1000

/-- Least squares with a penalty of `0.1`. -/
def defaultSolver : Solver := ⟨"LstsqL2", .ofRatio false 1 10⟩

/-- A connection of everything to everything. -/
def between (pre post : ObjectId) : Connection where
  pre
  post
  preSlice := none
  postSlice := none
  transform := .scalar .one
  synapse := some (.lowpass defaultTau)
  function := none
  solver := defaultSolver
  evalPoints := none
  learningRule := none
  keyspace := none
  inlet := .standardInput
  accumulatory := true

end Connection

/-- A connection between known objects, its transform expanded to one row per input of the receiver
and one column per value that enters it. -/
structure Expansion where
  pre : ObjectId
  preKind : ObjectKind
  post : ObjectId
  postKind : ObjectKind
  preSlice : Slice
  postSlice : Slice
  transform : Matrix
  synapse : Option Synapse
  function : Option VectorFunction
  solver : Solver
  /-- Present for ensembles only. -/
  evalPoints : Option Matrix
  keyspace : Option Keyspace
  accumulatory : Bool
  learningRule : Option LearningRule
  inlet : Inlet
  width : Nat

namespace Expansion

/-- A slice, or all of `count` when none is given. -/
def sliceOr (given : Option Slice) (count : Nat) : Except ConnectionError Slice :=
  match given with
  | some s => .ok s
  | none => (Slice.full count).mapError .data

/-- The full matrix. A function reads the selected outputs, and the transform all of its results. -/
def fullTransform (c : Connection) (sizeOut sizeIn : Nat) (preSlice postSlice : Slice) :
    Except DataError Matrix :=
  match c.function with
  | some f => do
    let results ← Slice.full f.sizeOut
    c.transform.expand f.sizeOut sizeIn results postSlice
  | none => c.transform.expand sizeOut sizeIn preSlice postSlice

/-- The evaluation points of a connection from an ensemble: its own, or else the ensemble's. -/
def resolvePoints (c : Connection) (pre : NetworkObject) :
    Except ConnectionError (Option Matrix) :=
  if pre.kind = .ensemble then
    match c.evalPoints <|> pre.evalPoints with
    | none => .error (.invalid (.noEvalPoints pre.text))
    | some points =>
      if points.nCols = pre.sizeOut then .ok (some points)
      else .error (.invalid (.evalPointColumns pre.text points.nCols pre.sizeOut))
  else .ok none

/-- Whether the learning rule of a connection can be implemented. -/
def checkRule (c : Connection) (pre post : NetworkObject) : Except ConnectionError Unit :=
  match c.learningRule with
  | some (.other name) => .error (.unsupported (.learningRule name pre.text post.text))
  | some (.pes ..) =>
    if pre.kind = .ensemble then .ok () else .error (.unsupported (.learningFrom pre.text))
  | none => .ok ()

/-- The filter of a synapse. -/
def filterOf (synapse : Option Synapse) (accumulatory : Bool) : Except ConnectionError Filter :=
  (Filter.ofSynapse? synapse accumulatory).mapError fun s => .unsupported (.synapse s)

/-- Expand a connection between objects of the table. -/
def ofConnection (c : Connection) (objects : ObjectTable) : Except ConnectionError Expansion := do
  let pre ← (objects.get c.pre).mapError .data
  let post ← (objects.get c.post).mapError .data
  let preSlice ← sliceOr c.preSlice pre.sizeOut
  let postSlice ← sliceOr c.postSlice post.sizeIn
  if pre.sizeOut < preSlice.stop then
    throw (.invalid (.beyondOutputs preSlice pre.sizeOut pre.text))
  let transform ← (fullTransform c pre.sizeOut post.sizeIn preSlice postSlice).mapError .data
  let evalPoints ← resolvePoints c pre
  checkRule c pre post
  let _ ← filterOf c.synapse c.accumulatory
  pure {
    pre := pre.id
    preKind := pre.kind
    post := post.id
    postKind := post.kind
    preSlice
    postSlice
    transform
    synapse := c.synapse
    function := c.function
    solver := c.solver
    evalPoints
    keyspace := c.keyspace
    accumulatory := c.accumulatory
    learningRule := c.learningRule
    inlet := c.inlet
    width := transform.nRows }

/-- The values at the evaluation points: the function's results, or the selected columns. -/
def samples (e : Expansion) (points : Matrix) : Except ConnectionError Matrix :=
  match e.function with
  | some f => (f.evaluate points e.preSlice).mapError fun w => .invalid (.functionResult w)
  | none => .ok (points.columns e.preSlice)

/-- The rule that adapts the sender's decoders. -/
def senderRule (e : Expansion) : Option RuleId :=
  match e.learningRule with
  | some (.pes id _) => some id
  | _ => none

/-- What produces the values. -/
def source (e : Expansion) : Except ConnectionError Source :=
  match e.evalPoints with
  | none => .ok (.plain e.function)
  | some points =>
    (e.samples points).map fun samples =>
      .decoded points e.solver samples e.senderRule e.function

/-- What the sender transmits. -/
def stream (e : Expansion) : Except ConnectionError Stream :=
  e.source.map fun source =>
    { width := e.width
      transform := e.transform
      preSlice := e.preSlice
      postSlice := e.postSlice
      keyspace := e.keyspace
      source }

/-- Where the stream goes. -/
def receiver (e : Expansion) : Except ConnectionError Receiver := do
  let slice ← (Slice.full e.width).mapError .data
  let filter ← filterOf e.synapse e.accumulatory
  pure { object := e.post, slice, inlet := e.inlet, filter }

/-- Collapse a connection from an ensemble to neurons, all of whose factors are equal, to a single
row on the global inhibition inlet. -/
def toGlobalInhibition (e : Expansion) : Except ConnectionError Expansion :=
  if e.preKind ≠ .ensemble ∨ e.postKind ≠ .neurons then
    .error (.unsupported (.inhibitionBetween e.preKind e.postKind))
  else
    match e.transform.uniformValue? with
    | none => .error (.unsupported (.unevenInhibition e.pre e.post))
    | some gain =>
      .ok { e with
        transform := .fill 1 e.transform.nCols gain
        width := 1
        postSlice := ⟨0, 1, Nat.one_pos⟩
        inlet := .globalInhibition }

end Expansion

end Manycore
