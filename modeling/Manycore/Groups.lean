/-! # Groups in order of first use

Lists of keys and values in which a key is found by a given equality and a new key goes to the end.
-/

namespace Manycore

/-- Values by key, in the order in which the keys were first used. -/
abbrev Groups (κ ν : Type) := List (κ × ν)

namespace Groups

variable {κ ν : Type}

/-- The value of the first key that is the same. -/
def find? (same : κ → κ → Bool) (key : κ) : Groups κ ν → Option ν
  | [] => none
  | (k, v) :: rest => if same k key then some v else find? same key rest

/-- Change the value of a key, which keeps its place; a new key goes to the end. -/
def update (same : κ → κ → Bool) (key : κ) (f : Option ν → ν) : Groups κ ν → Groups κ ν
  | [] => [(key, f none)]
  | (k, v) :: rest =>
    if same k key then (k, f (some v)) :: rest else (k, v) :: update same key f rest

/-- Append to the list of a key. -/
def push {α : Type} (same : κ → κ → Bool) (key : κ) (value : α) (g : Groups κ (List α)) :
    Groups κ (List α) :=
  update same key (fun values => values.getD [] ++ [value]) g

/-- Two groupings hold the same keys with the same values, in any order. -/
def sameContent (sameKey : κ → κ → Bool) (sameValue : ν → ν → Bool) (a b : Groups κ ν) : Bool :=
  a.length == b.length && a.all fun (k, v) =>
    match find? sameKey k b with
    | some w => sameValue v w
    | none => false

end Groups

/-- Add an element unless the list has the same one already, and tell its place. -/
def intern {α : Type} (same : α → α → Bool) (x : α) (known : List α) : List α × Nat :=
  match known.findIdx? fun k => same k x with
  | some i => (known, i)
  | none => (known ++ [x], known.length)

/-- The distinct elements in order of first use, and the place of every element among them. -/
def distinct {α : Type} (same : α → α → Bool) (xs : List α) : List α × List Nat :=
  xs.foldl (fun (known, places) x =>
    let (known, place) := intern same x known
    (known, places ++ [place])) ([], [])

end Manycore
