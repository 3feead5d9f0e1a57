import Manycore.FileTree
import Manycore.Memory.Allocation

/-! # Load plans

What the loader has to do: copy files to addresses, and write the address of every pointer table
to the register of its core. Nothing is written before every block has found its place.
-/

namespace Manycore

/-- Copy a file to an address of a node. -/
structure RegionWrite where
  x : UInt32
  y : UInt32
  base : UInt32
  sizeBytes : UInt32
  path : String
  deriving DecidableEq

/-- Write a value to an address of a node. -/
structure RegisterWrite where
  x : UInt32
  y : UInt32
  address : UInt32
  byteCount : UInt32
  value : UInt32
  deriving DecidableEq

structure LoadPlan where
  registers : List RegisterWrite
  regions : List RegionWrite
  deriving DecidableEq

/-- A computation that writes files and may fail. -/
abbrev Writing (α : Type) := ExceptT MemoryError (StateM FileTree) α

/-- Write a file or fail with its path. -/
def writeFile (path : String) (content : List UInt8) : Writing Unit := do
  match (← get).write? path content with
  | some tree => set tree
  | none => throw (.file path)

/-- Make a directory or fail with its path. -/
def makeDirectory (path : String) : Writing Unit := do
  let (made, tree) := (← get).makeDirectories path
  set tree
  if made then pure () else throw (.file path)

/-- The name of the file of a slot. -/
def slotFileName (x y p : UInt32) (slot : Nat) : String :=
  Text.zeroPadded 3 x.toNat ++ "_" ++ Text.zeroPadded 3 y.toNat ++ "_"
    ++ Text.zeroPadded 2 p.toNat ++ "_" ++ Text.zeroPadded 3 slot ++ ".bin"

/-- Write the filled slots from number `index` on, the first of which begins at `address`. Reserved
space is not written but moves the address on. -/
def writeSlotsFrom (x y p : UInt32) (directory : String) (address : UInt32) (index : Nat) :
    Slots → Writing (List RegionWrite)
  | [] => pure []
  | slot :: rest => do
    let here ← match slot with
      | some (.filled words) => do
        let subregion := Subregion.filled words
        let path := joinPath directory (slotFileName x y p index)
        writeFile path subregion.bytes
        pure [{ x, y, base := address, sizeBytes := slotLength slot, path : RegionWrite }]
      | _ => pure []
    let others ← writeSlotsFrom x y p directory (address + slotLength slot) (index + 1) rest
    pure (here ++ others)

/-- Write every filled slot of a core to its own file. -/
def writeSlots (x y p : UInt32) (slots : Slots) (base : UInt32) (directory : String) :
    Writing (List RegionWrite) :=
  writeSlotsFrom x y p directory base 0 slots

/-- The register that takes the address of a core's pointer table. -/
abbrev RegisterMap := UInt32 → UInt32 → UInt32 → UInt32

namespace Block

def writeFiles (b : Block) (directory : String) : Writing (List RegionWrite) :=
  writeSlots b.core.x b.core.y b.core.p b.slots b.base directory

def registerWrite (b : Block) (register : RegisterMap) : RegisterWrite where
  x := b.core.x
  y := b.core.y
  address := register b.core.x b.core.y b.core.p
  byteCount := 4
  value := b.base

end Block

/-- Find a place for every core, then write all files into a directory. -/
def NodeMemory.generate (m : NodeMemory) (cores : List PlacedCore) (register : RegisterMap)
    (directory : String) : Writing LoadPlan := do
  let blocks ← (ExceptT.mk (pure (m.allocate cores)) : Writing (List Block))
  makeDirectory directory
  let regions ← blocks.mapM fun b => b.writeFiles directory
  pure { registers := blocks.map fun b => b.registerWrite register, regions := regions.flatten }

end Manycore
