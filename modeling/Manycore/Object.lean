import Manycore.DataError
import Manycore.Matrix

/-! # Network objects

The objects of a network and the table that holds them in the order of their registration.
-/

namespace Manycore

inductive ObjectKind where
  | ensemble
  | node
  /-- The neurons of an ensemble, addressed directly. -/
  | neurons
  /-- The target of a global inhibition connection. -/
  | globalInhibitionTarget
  | filter
  | valueSource
  | valueSink
  deriving DecidableEq, Repr

namespace ObjectKind

def text : ObjectKind → String
  | ensemble => "Ensemble"
  | node => "Node"
  | neurons => "Neurons"
  | globalInhibitionTarget => "GlobalInhibitionTarget"
  | filter => "Filter"
  | valueSource => "ValueSource"
  | valueSink => "ValueSink"

def all : List ObjectKind :=
  [ensemble, node, neurons, globalInhibitionTarget, filter, valueSource, valueSink]

/-- The kind with this name. -/
def ofText? (name : String) : Option ObjectKind := all.find? fun kind => kind.text == name

/-- Whether the output is decoded from an internal state. -/
def isStateful (kind : ObjectKind) : Bool := kind == ensemble

end ObjectKind

structure NetworkObject where
  id : ObjectId
  label : String
  kind : ObjectKind
  sizeIn : Nat
  sizeOut : Nat
  /-- One row per point, one column per output. -/
  evalPoints : Option Matrix

def NetworkObject.text (o : NetworkObject) : String := s!"{o.kind.text} '{o.label}' ({o.id.text})"

/-- The objects of a network, in the order in which they were registered. -/
structure ObjectTable where
  objects : List NetworkObject

namespace ObjectTable

def empty : ObjectTable := ⟨[]⟩

def find? (t : ObjectTable) (id : ObjectId) : Option NetworkObject :=
  t.objects.find? fun o => o.id = id

def contains (t : ObjectTable) (id : ObjectId) : Bool := (t.find? id).isSome

def get (t : ObjectTable) (id : ObjectId) : Except DataError NetworkObject :=
  match t.find? id with
  | some o => .ok o
  | none => .error (.badParameter (.unknownObject id))

/-- Register an object at the end; a number can be used once. -/
def insert (t : ObjectTable) (o : NetworkObject) : Except DataError ObjectTable :=
  if t.contains o.id then .error (.badParameter (.registered o.id))
  else .ok ⟨t.objects ++ [o]⟩

/-- One more than the largest number in use; nothing follows the largest number there is. -/
def nextId? (t : ObjectTable) : Option ObjectId :=
  if t.objects.any fun o => o.id.number = 0xFFFFFFFF then none
  else some ⟨t.objects.foldl (fun next o => max next (o.id.number + 1)) 0⟩

end ObjectTable

end Manycore
