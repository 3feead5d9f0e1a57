import Manycore.Memory.Region.Keys

/-! # Regions

A region is a block of a vertex's memory. It says how large it is for a slice, and renders itself
for a slice at its place among the slices of the vertex.
-/

namespace Manycore

/-- What a region holds. -/
inductive RegionContent where
  | values (table : ValueTable)
  | matrix (table : MatrixTable)
  | keys (table : KeyTable)
  /-- One bit per atom and tick, filled by the running application. -/
  | recording (ticks : Nat)

namespace RegionContent

/-- The words that `count` bits take for each tick. -/
def bitWords (count : Nat) : Nat := (count + 31) / 32

/-- The size for a slice. -/
def sizeWords (c : RegionContent) (s : Slice) : Nat :=
  match c with
  | values table => table.sizeWords
  | matrix table => table.sizeWords s
  | keys table => table.sizeWords s
  | recording ticks => bitWords s.size * ticks

/-- The size for a slice, unless it cannot be counted. -/
def countWords (c : RegionContent) (s : Slice) : Except DataError Nat :=
  match c with
  | values table => table.countWords
  | matrix table => table.countWords s
  | keys table => table.countWords s
  | recording ticks => counted (bitWords s.size * ticks)

/-- Whether only space is reserved. -/
def isReserved : RegionContent → Bool
  | matrix ⟨.reserved _, _, _⟩ => true
  | recording _ => true
  | _ => false

/-- The subregion for a slice at a place among the slices of its vertex. -/
def render (c : RegionContent) (s : Slice) (index : Nat) : Keying MemoryError Subregion :=
  match c with
  | values table => pure (.filled (table.words s))
  | matrix table => pure (table.render s index)
  | keys table => do
    let words ← table.words s index
    pure (.filled words)
  | recording _ => pure (.reserved (c.sizeWords s))

end RegionContent

structure Region where
  content : RegionContent
  /-- Kept in the shared memory of the node only, not copied to the core. -/
  shared : Bool

namespace Region

/-- Whether the region is copied to the memory of the core. Recordings never are. -/
def inCore (r : Region) : Bool :=
  match r.content with
  | .recording _ => false
  | _ => !r.shared

def sizeWords (r : Region) (s : Slice) : Nat := r.content.sizeWords s

def countWords (r : Region) (s : Slice) : Except DataError Nat := r.content.countWords s

def render (r : Region) (s : Slice) (index : Nat) : Keying MemoryError Subregion :=
  r.content.render s index

/-- Render the region, unless its size cannot be counted. -/
def renderCounted (r : Region) (s : Slice) (index : Nat) : Keying MemoryError Subregion := do
  let _ ← Keying.ofExcept ((r.countWords s).mapError fun _ => .tooLarge)
  r.render s index

end Region

end Manycore
