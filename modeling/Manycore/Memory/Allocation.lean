import Manycore.Memory.Error
import Manycore.Memory.PointerTable

/-! # Allocation

Every core gets one block of its node's memory, for its pointer table and its slots. Blocks are
given out in the order of the cores and downward from the top of the node's memory.
-/

namespace Manycore

/-- A core and what it is to hold. -/
structure PlacedCore where
  x : UInt32
  y : UInt32
  p : UInt32
  slots : Slots
  timerPeriod : UInt32

namespace PlacedCore

/-- Cores go by node, and by number within a node. -/
def precedes (a b : PlacedCore) : Bool :=
  if a.x = b.x then
    if a.y = b.y then decide (a.p ≤ b.p) else decide (a.y < b.y)
  else decide (a.x < b.x)

/-- The slots with the pointer table in front. -/
def blockSlots (c : PlacedCore) (header : TableHeader) : Slots :=
  some (c.slots.pointerTable header c.timerPeriod) :: c.slots

end PlacedCore

/-- The memory of every node. -/
structure NodeMemory where
  /-- The bytes that blocks may take. -/
  size : Nat
  /-- The address of the first byte. -/
  base : UInt32
  header : TableHeader

/-- The memory given to a core. -/
structure Block where
  core : PlacedCore
  /-- The pointer table and the core's slots. -/
  slots : Slots
  base : UInt32

namespace NodeMemory

/-- The bytes of a node that the blocks leave free. -/
def free (m : NodeMemory) (blocks : List Block) (x y : UInt32) : Nat :=
  let onNode := blocks.filter fun b => b.core.x = x ∧ b.core.y = y
  m.size - total (onNode.map fun b => b.slots.totalBytes)

/-- The block of one more core. -/
def place (m : NodeMemory) (blocks : List Block) (c : PlacedCore) : Except MemoryError Block :=
  let slots := c.blockSlots m.header
  let requested := slots.totalBytes
  let available := m.free blocks c.x c.y
  if ¬ c.slots.hasTable ∨ maxCount < requested then .error .tooLarge
  else if available < requested then .error (.insufficient requested available)
  else
    let address := available - requested + m.base.toNat
    if address < wordRange then .ok ⟨c, slots, UInt32.ofNat address⟩
    else if maxCount < address then .error .tooLarge
    else .error (.beyondAddresses c.x c.y c.p address)

/-- The blocks of cores that come one after the other. -/
def placeAll (m : NodeMemory) (blocks : List Block) : List PlacedCore → Except MemoryError (List Block)
  | [] => .ok blocks
  | c :: rest => do
    let block ← m.place blocks c
    m.placeAll (blocks ++ [block]) rest

/-- A block for every core, in order of the cores. -/
def allocate (m : NodeMemory) (cores : List PlacedCore) : Except MemoryError (List Block) :=
  m.placeAll [] (cores.mergeSort PlacedCore.precedes)

end NodeMemory

end Manycore
