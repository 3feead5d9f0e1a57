import Manycore.Keyspace.Error
import Manycore.Text.Quoted

/-! # Refused memory images

Why a region cannot be rendered, placed, written or read back.
-/

namespace Manycore

inductive MemoryError where
  | insufficient (requested available : Nat)
  /-- A key of more than thirty-two bits; `owner` says what it was rendered for. -/
  | keyTooWide (key : Nat) (owner : String)
  /-- A core whose block would start above the last address. -/
  | beyondAddresses (x y p : UInt32) (address : Nat)
  /-- Sizes, offsets or addresses that go beyond what a count or a word can tell. -/
  | tooLarge
  | key (cause : Keyspace.KeyError)
  /-- A file or directory that cannot be made or read. -/
  | file (path : String)
  /-- A load plan that cannot be read back. -/
  | manifest
  deriving DecidableEq

/-- What is told about an error; sizes, files and manifests have no text of their own. -/
def MemoryError.message? : MemoryError → Option String
  | .insufficient requested available =>
    some s!"Attempted to request {requested}B of memory, only {available}B are available"
  | .keyTooWide value owner =>
    some ("Key 0x" ++ Text.hex value ++ s!" from {owner} does not fit in a 32-bit word")
  | .beyondAddresses x y p address =>
    some (s!"Invalid region: core ({x.toNat}, {y.toNat}, {p.toNat}) would start at 0x"
      ++ Text.hex address ++ ", beyond the 32-bit address space")
  | .tooLarge => none
  | .key cause => some cause.message
  | .file _ => none
  | .manifest => none

end Manycore
