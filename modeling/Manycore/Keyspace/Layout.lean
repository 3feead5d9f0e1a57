import Manycore.Keyspace.Error

/-! # Key layouts

A layout holds the fields of keys of one width, in the order in which they were added. Fields are
added and bound under the bindings made so far, so that branches of a hierarchy may share bits.
Once a key or mask has been rendered no field can be added.
-/

namespace Manycore.Keyspace

structure Layout where
  /-- Bits in a whole key. -/
  width : Nat
  fields : List (String × Field)
  frozen : Bool
  deriving DecidableEq

namespace Layout

/-- A layout without fields; a key has one to sixty-four bits. -/
def ofWidth (width : Nat) : Except KeyError Layout :=
  if 0 < width ∧ width ≤ 64 then .ok ⟨width, [], false⟩ else .error (.invalidWidth width)

def find? (l : Layout) (name : String) : Option Field :=
  (l.fields.find? fun pair => pair.1 = name).map (·.2)

def contains (l : Layout) (name : String) : Bool := (l.find? name).isSome

/-- The fields that exist under these bindings, in the order of their addition. -/
def enabled (l : Layout) (b : Bindings) : List (String × Field) :=
  l.fields.filter fun (_, f) => f.isEnabled b

/-- The first positioned field that some key may hold together with a field added under `b` and
whose range meets the range from `start` up to `stop`. A field of open length counts as one bit. -/
def overlap? (l : Layout) (b : Bindings) (start stop : Nat) : Option (String × Nat × Nat) :=
  l.fields.findSome? fun (name, f) =>
    match f.start with
    | none => none
    | some otherStart =>
      let otherStop := otherStart + f.length.getD 1
      if f.mayMeet b && decide (otherStart < stop) && decide (start < otherStop) then
        some (name, otherStart, otherStop)
      else none

/-- Why a field at this position cannot be added under `b`. -/
def positionConflict? (l : Layout) (b : Bindings) (spec : FieldSpec) (start : Nat) :
    Option FieldConflict :=
  let span := spec.length.getD 1
  if l.width < span ∨ l.width - span < start then some (.outside spec.name l.width)
  else
    (l.overlap? b start (start + span)).map fun (other, otherStart, otherStop) =>
      .overlap spec.name start (start + span) other otherStart otherStop

/-- Why a field cannot be added under `b`, the first reason that applies. -/
def addConflict? (l : Layout) (b : Bindings) (spec : FieldSpec) : Option FieldConflict :=
  if l.frozen then some (.frozen spec.name)
  else if l.contains spec.name then some (.duplicate spec.name)
  else if spec.length = some 0 then some (.zeroLength spec.name)
  else spec.start.bind (l.positionConflict? b spec)

/-- Add a field that exists under the bindings `b`. -/
def add (l : Layout) (b : Bindings) (spec : FieldSpec) : Except KeyError Layout :=
  match l.addConflict? b spec with
  | some cause => .error (.conflict cause)
  | none =>
    .ok { l with
      fields := l.fields ++ [(spec.name, {
        length := spec.length
        start := spec.start
        tags := spec.tags
        conditions := b
        maxValue := 1 })] }

/-- Collect new values on top of those gathered; each must name a field that is still unbound. -/
def gather (l : Layout) (b gathered : Bindings) : List (String × Nat) → Except BindingFault Bindings
  | [] => .ok gathered
  | (name, value) :: rest =>
    if !l.contains name then .error (.undefined name)
    else if (b.get? name).isSome || (gathered.get? name).isSome then .error (.rebound name)
    else gather l b (gathered.insert name value) rest

/-- The first bound field, by name, that does not exist under the bindings themselves. -/
def unavailable? (l : Layout) (b : Bindings) : Option BindingFault :=
  b.findSome? fun (name, _) =>
    match l.find? name with
    | none => none
    | some f => if f.isEnabled b then none else some (.requires name (b.unmet f.conditions))

/-- The first value, by field name, that its field is too short for. -/
def tooLarge? (l : Layout) (values : Bindings) : Option BindingFault :=
  values.findSome? fun (name, value) =>
    match (l.find? name).bind (·.length) with
    | none => none
    | some length => if ones length < value then some (.tooLarge value length name) else none

/-- Remember the largest value bound to each field. -/
def noteValues (l : Layout) (values : Bindings) : Layout :=
  { l with
    fields := l.fields.map fun (name, f) =>
      match values.get? name with
      | some value => (name, { f with maxValue := max f.maxValue value })
      | none => (name, f) }

/-- Bind more fields on top of `b`. -/
def bind (l : Layout) (b : Bindings) (pairs : List (String × Nat)) :
    Except KeyError (Bindings × Layout) :=
  match l.gather b [] pairs with
  | .error fault => .error (.binding fault)
  | .ok values =>
    let all := b.merge values
    match l.unavailable? all with
    | some fault => .error (.binding fault)
    | none =>
      match l.tooLarge? values with
      | some fault => .error (.binding fault)
      | none => .ok (all, l.noteValues values)

/-- A field that exists under the bindings. -/
def available (l : Layout) (b : Bindings) (name : String) : Except KeyError Field :=
  match l.find? name with
  | none => .error (.unknownField name)
  | some f =>
    if f.isEnabled b then .ok f else .error (.unavailable name (b.unmet f.conditions))

/-- The value bound to an available field. -/
def get (l : Layout) (b : Bindings) (name : String) : Except KeyError (Option Nat) :=
  (l.available b name).map fun _ => b.get? name

/-- The enabled fields with their values, a question mark where there is none. -/
def text (l : Layout) (b : Bindings) : String :=
  let shown := (l.enabled b).map fun (name, _) =>
    match b.get? name with
    | some value => s!"'{name}':{value}"
    | none => s!"'{name}':?"
  s!"<{l.width}-bit Keyspace " ++ String.intercalate ", " shown ++ ">"

end Layout

end Manycore.Keyspace
