import Manycore.Capacity

/-! # Rendered regions

A subregion is what one region becomes for one slice of a vertex: words to write, or space that
the running application fills. The slots of a core keep their places, also the empty ones.
-/

namespace Manycore

inductive Subregion where
  | filled (words : List UInt32)
  | reserved (sizeWords : Nat)
  deriving DecidableEq

/-- The four bytes of a word, the lowest first. -/
def wordBytes (w : UInt32) : List UInt8 :=
  [w.toUInt8, (w >>> 8).toUInt8, (w >>> 16).toUInt8, (w >>> 24).toUInt8]

/-- The words of bytes; a last word of fewer bytes is filled up with zeros. -/
def wordsOfBytes : List UInt8 → List UInt32
  | a :: b :: c :: d :: rest =>
    (a.toUInt32 + b.toUInt32 <<< 8 + c.toUInt32 <<< 16 + d.toUInt32 <<< 24) :: wordsOfBytes rest
  | [a, b, c] => [a.toUInt32 + b.toUInt32 <<< 8 + c.toUInt32 <<< 16]
  | [a, b] => [a.toUInt32 + b.toUInt32 <<< 8]
  | [a] => [a.toUInt32]
  | [] => []

namespace Subregion

def sizeWords : Subregion → Nat
  | filled words => words.length
  | reserved n => n

def sizeBytes (s : Subregion) : Nat := 4 * s.sizeWords

/-- The bytes, unless they cannot be counted. -/
def countBytes (s : Subregion) : Except DataError Nat := counted s.sizeBytes

/-- The words to write; none for reserved space. -/
def words : Subregion → List UInt32
  | filled words => words
  | reserved _ => []

/-- The bytes to write; none for reserved space. -/
def bytes (s : Subregion) : List UInt8 := s.words.flatMap wordBytes

def isReserved : Subregion → Bool
  | filled _ => false
  | reserved _ => true

end Subregion

/-- The subregions of a core by slot. -/
abbrev Slots := List (Option Subregion)

/-- The bytes that a slot takes. -/
def slotBytes (slot : Option Subregion) : Nat := (slot.map Subregion.sizeBytes).getD 0

/-- The bytes that all slots take. -/
def Slots.totalBytes (slots : Slots) : Nat := total (slots.map slotBytes)

end Manycore
