import Manycore.Memory.Subregion

/-! # Pointer tables

The first block of every core: a header, and where each slot begins, counted in bytes from the
start of the table. Addresses are words, and sums of words are taken modulo `2 ^ 32`.
-/

namespace Manycore

/-- The leading words of a pointer table. -/
structure TableHeader where
  magic : UInt32
  version : UInt32
  deriving DecidableEq

def TableHeader.standard : TableHeader := ⟨0xAD130AD6, 0x00010000⟩

/-- The bytes of a slot as a word. -/
def slotLength (slot : Option Subregion) : UInt32 := UInt32.ofNat (slotBytes slot)

namespace Slots

/-- Where consecutive slots begin, the first at `start`. -/
def startsFrom (start : UInt32) : Slots → List UInt32
  | [] => []
  | slot :: rest => start :: startsFrom (start + slotLength slot) rest

/-- Where the slots begin, counted from the first one. -/
def offsets (slots : Slots) : List UInt32 := startsFrom 0 slots

/-- The bytes of a pointer table for these slots: four words, and one for each slot. -/
def tableLength (slots : Slots) : UInt32 := UInt32.ofNat (4 * (4 + slots.length))

/-- The pointer table in front of the slots. -/
def pointerTable (slots : Slots) (header : TableHeader) (timerPeriod : UInt32) : Subregion :=
  .filled ([header.magic, header.version, timerPeriod, 0]
    ++ slots.offsets.map (· + slots.tableLength))

/-- Whether the sums behind a pointer table stay within a word: the lengths of all slots, and the
length of the table with every offset. -/
def hasTable (slots : Slots) : Bool :=
  decide (total (slots.map fun slot => (slotLength slot).toNat) < wordRange)
    && slots.offsets.all fun offset =>
      decide (offset.toNat + slots.tableLength.toNat < wordRange)

/-- Whether the slots can be counted: their bytes, and the sums behind their pointer table. -/
def isCountable (slots : Slots) : Bool :=
  decide (slots.totalBytes ≤ maxCount) && slots.hasTable

/-- The pointer table in front of the slots, unless these cannot be counted. -/
def countedTable (slots : Slots) (header : TableHeader) (timerPeriod : UInt32) :
    Except DataError Subregion :=
  if slots.isCountable then .ok (slots.pointerTable header timerPeriod) else .error .tooLarge

end Slots

end Manycore
