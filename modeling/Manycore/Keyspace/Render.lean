import Manycore.Keyspace.Layout

/-! # Rendering keys and masks

Before bits are rendered, the open lengths and positions of the fields involved are fixed: lengths
by the largest value ever bound, positions by first fit from bit zero in the order of addition.
What was fixed stays fixed, even when a later field finds no room.
-/

namespace Manycore.Keyspace

/-- Which fields a key or mask is made of. -/
inductive Selector where
  | all
  | tag (tag : String)
  | field (name : String)
  deriving DecidableEq

namespace Layout

/-- The lowest position at which `length` bits are free. -/
def firstFit? (width occupied length : Nat) : Option Nat :=
  if length ≤ width then
    (List.range (width - length + 1)).find? fun start => occupied &&& (ones length <<< start) == 0
  else none

/-- Fix the length and the position of one field. -/
def placeField (width occupied : Nat) (f : Field) : Field :=
  let length := f.fixedLength
  { f with
    length := some length
    start := f.start <|> firstFit? width occupied length }

/-- Whether a field with a fixed length and position lies inside the width. -/
def fits (width : Nat) (f : Field) : Bool :=
  match f.length, f.start with
  | some length, some start => decide (length ≤ width ∧ start ≤ width - length)
  | _, _ => false

/-- Fix the wanted fields from left to right. Stops at the first that does not fit and tells which;
the fields after it are left alone. -/
def placeAll (width : Nat) (wanted : String → Bool) (occupied : Nat) :
    List (String × Field) → Option FieldConflict × List (String × Field)
  | [] => (none, [])
  | (name, f) :: rest =>
    if wanted name then
      let placed := placeField width occupied f
      if fits width placed then
        let (conflict, done) := placeAll width wanted (occupied ||| placed.mask) rest
        (conflict, (name, placed) :: done)
      else (some (.noRoom name f.fixedLength width), (name, placed) :: rest)
    else
      let (conflict, done) := placeAll width wanted occupied rest
      (conflict, (name, f) :: done)

/-- The bits of all fields that are enabled and fixed already. -/
def occupied (l : Layout) (b : Bindings) : Nat :=
  (l.enabled b).foldl (fun bits (_, f) => bits ||| f.mask) 0

/-- Fix the length and position of the named fields, as seen under the bindings `b`. -/
def assign (l : Layout) (b : Bindings) (names : List String) : Option FieldConflict × Layout :=
  let (conflict, fields) := placeAll l.width (names.contains ·) (l.occupied b) l.fields
  (conflict, { l with fields })

/-- The names of the selected fields, in the order of addition. -/
def select (l : Layout) (b : Bindings) : Selector → Except KeyError (List String)
  | .all => .ok ((l.enabled b).map (·.1))
  | .tag tag =>
    match ((l.enabled b).filter fun (_, f) => f.tags.contains tag).map (·.1) with
    | [] => .error (.unknownTag tag)
    | names => .ok names
  | .field name => (l.available b name).map fun _ => [name]

/-- The fields to fix before a key is rendered: those with the tag for a tag, otherwise all that
are enabled. -/
def neededForKey (l : Layout) (b : Bindings) (selected : List String) : Selector → List String
  | .tag _ => selected
  | _ => (l.enabled b).map (·.1)

/-- The bound values at the positions of their fields. -/
def keyBits (l : Layout) (b : Bindings) (names : List String) : Nat :=
  names.foldl (fun key name =>
    key ||| ((b.get? name).getD 0 <<< (((l.find? name).bind (·.start)).getD 0))) 0

/-- All bits of the named fields. -/
def maskBits (l : Layout) (names : List String) : Nat :=
  names.foldl (fun mask name => mask ||| ((l.find? name).map Field.mask).getD 0) 0

/-- The key made of the selected fields, all of which must be bound. Success freezes the layout. -/
def renderKey (l : Layout) (b : Bindings) (selector : Selector) : Except KeyError Nat × Layout :=
  match l.select b selector with
  | .error e => (.error e, l)
  | .ok selected =>
    match selected.filter fun name => (b.get? name).isNone with
    | first :: more => (.error (.incomplete (first :: more)), l)
    | [] =>
      match l.assign b (l.neededForKey b selected selector) with
      | (some conflict, l) => (.error (.conflict conflict), l)
      | (none, l) => (.ok (l.keyBits b selected), { l with frozen := true })

/-- The mask of the selected fields, bound or not. Success freezes the layout. -/
def renderMask (l : Layout) (b : Bindings) (selector : Selector) : Except KeyError Nat × Layout :=
  match l.select b selector with
  | .error e => (.error e, l)
  | .ok selected =>
    match l.assign b ((l.enabled b).map (·.1)) with
    | (some conflict, l) => (.error (.conflict conflict), l)
    | (none, l) => (.ok (l.maskBits selected), { l with frozen := true })

end Layout

end Manycore.Keyspace
