import Manycore.Number.Natural
import Manycore.Text.Blank

/-! # Key fields

A field is a named range of bits in a routing key. It exists only under the bindings that it was
added under, and its length and position may be left open until a key needs them.
-/

namespace Manycore.Keyspace

/-- Values bound to fields, in ascending order of the fields' names. -/
abbrev Bindings := List (String × Nat)

namespace Bindings

/-- The value bound to a field. -/
def get? (b : Bindings) (name : String) : Option Nat :=
  (b.find? fun pair => pair.1 = name).map (·.2)

/-- Bind a field, at its place in the order. -/
def insert (name : String) (value : Nat) : Bindings → Bindings
  | [] => [(name, value)]
  | (other, v) :: rest =>
    if name = other then (name, value) :: rest
    else if name < other then (name, value) :: (other, v) :: rest
    else (other, v) :: insert name value rest

/-- All bindings of `b`, and those of `more` on top. -/
def merge (b more : Bindings) : Bindings :=
  more.foldl (fun all (name, value) => insert name value all) b

/-- Whether every binding of `wanted` holds. -/
def holds (b wanted : Bindings) : Bool :=
  wanted.all fun (name, value) => b.get? name == some value

/-- Whether no field is bound to different values. -/
def agree (a b : Bindings) : Bool :=
  a.all fun (name, value) => match b.get? name with
    | none => true
    | some v => v == value

/-- The bindings of `wanted` that do not hold. -/
def unmet (b wanted : Bindings) : Bindings :=
  wanted.filter fun (name, value) => b.get? name != some value

/-- The bindings as a requirement. -/
def text (b : Bindings) : String :=
  String.intercalate ", " (b.map fun (name, value) => s!"'{name}' == {value}")

end Bindings

/-- The number with the lowest `length` bits set, of sixty-four at most. -/
def ones (length : Nat) : Nat := twoTo (min length 64) - 1

/-- The bits needed to hold a value, one at least. -/
def bitLength (value : Nat) : Nat := (max value 1).log2 + 1

structure Field where
  length : Option Nat
  start : Option Nat
  /-- In ascending order, without repeats. -/
  tags : List String
  /-- The bindings under which the field exists. -/
  conditions : Bindings
  /-- The largest value ever bound; it sizes a field of open length. -/
  maxValue : Nat
  deriving DecidableEq

namespace Field

/-- Whether the field exists under these bindings. -/
def isEnabled (f : Field) (b : Bindings) : Bool := b.holds f.conditions

/-- Whether some key may hold this field together with one added under `conditions`. -/
def mayMeet (f : Field) (conditions : Bindings) : Bool := f.conditions.agree conditions

/-- The bits of a field, once both its length and its position are fixed. -/
def mask (f : Field) : Nat :=
  match f.length, f.start with
  | some length, some start => ones length <<< start
  | _, _ => 0

/-- The field with its length fixed: the given one, or as many bits as the largest value needs. -/
def fixedLength (f : Field) : Nat := f.length.getD (bitLength f.maxValue)

end Field

/-- A field to add. -/
structure FieldSpec where
  name : String
  length : Option Nat
  start : Option Nat
  tags : List String

namespace FieldSpec

/-- A field of open length and position, without tags. -/
def named (name : String) : FieldSpec := ⟨name, none, none, []⟩

/-- Put a tag at its place in the order; a tag is kept once. -/
def insertTag (tag : String) : List String → List String
  | [] => [tag]
  | other :: rest =>
    if tag = other then other :: rest
    else if tag < other then tag :: other :: rest
    else other :: insertTag tag rest

/-- Add one tag, as it is. -/
def tagged (spec : FieldSpec) (tag : String) : FieldSpec :=
  { spec with tags := insertTag tag spec.tags }

/-- Add the tags of a list of words. -/
def taggedWords (spec : FieldSpec) (text : String) : FieldSpec :=
  (Text.words text.toList).foldl (fun s word => s.tagged (String.ofList word)) spec

/-- Fix the range of bits. -/
def placed (spec : FieldSpec) (start length : Nat) : FieldSpec :=
  { spec with start := some start, length := some length }

end FieldSpec

end Manycore.Keyspace
