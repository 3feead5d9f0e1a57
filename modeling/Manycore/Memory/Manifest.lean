import Manycore.Json.Reader
import Manycore.Memory.LoadPlan

/-! # Manifests

A load plan as JSON.
-/

namespace Manycore

open Json (Value)

namespace RegisterWrite

def fieldNames : List String := ["x", "y", "address", "n_bytes", "value"]

def toValue (w : RegisterWrite) : Value :=
  .ofFields (fieldNames.zip
    ([w.x, w.y, w.address, w.byteCount, w.value].map fun n => Value.ofNat n.toNat))

end RegisterWrite

/-- The word that a value holds. -/
def wordOfValue? (v : Value) : Option UInt32 := (v.natural? (wordRange - 1)).map UInt32.ofNat

def RegisterWrite.ofValue? (v : Value) : Option RegisterWrite := do
  match ← (← v.fields? fieldNames).mapM wordOfValue? with
  | [x, y, address, byteCount, value] => some { x, y, address, byteCount, value }
  | _ => none

namespace RegionWrite

def fieldNames : List String := ["x", "y", "base_address", "size_bytes", "path"]

def toValue (w : RegionWrite) : Value :=
  .ofFields (fieldNames.zip
    (([w.x, w.y, w.base, w.sizeBytes].map fun n => Value.ofNat n.toNat) ++ [.ofString w.path]))

def ofValue? (v : Value) : Option RegionWrite := do
  match ← v.fields? fieldNames with
  | [x, y, base, sizeBytes, path] =>
    some {
      x := ← wordOfValue? x
      y := ← wordOfValue? y
      base := ← wordOfValue? base
      sizeBytes := ← wordOfValue? sizeBytes
      path := ← path.text? }
  | _ => none

end RegionWrite

namespace LoadPlan

def fieldNames : List String := ["register_writes", "region_writes"]

/-- The text of the plan's manifest. -/
def manifest (plan : LoadPlan) : String :=
  Value.pretty 0 (.ofFields (fieldNames.zip
    [.array (plan.registers.map RegisterWrite.toValue),
      .array (plan.regions.map RegionWrite.toValue)]))

/-- The plan that a manifest describes. -/
def ofManifest? (text : String) : Option LoadPlan := do
  match ← (← Value.ofText? text).fields? fieldNames with
  | [registers, regions] =>
    some {
      registers := ← (← registers.items?).mapM RegisterWrite.ofValue?
      regions := ← (← regions.items?).mapM RegionWrite.ofValue? }
  | _ => none

def saveManifest (plan : LoadPlan) (path : String) : Writing Unit :=
  writeFile path plan.manifest.toUTF8.toList

/-- Read a manifest; a file that is missing or not text fails with its path. -/
def loadManifest (path : String) : Writing LoadPlan := do
  match (← get).readText? path with
  | none => throw (.file path)
  | some text =>
    match ofManifest? text with
    | some plan => pure plan
    | none => throw .manifest

end LoadPlan

end Manycore
