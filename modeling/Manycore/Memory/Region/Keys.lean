import Manycore.Keyspace.Pool
import Manycore.Memory.Error
import Manycore.Memory.Region.Tables

/-! # Tables of routing keys

One record for each keyspace: its key, then any further words computed from the keyspace. With a
fill-in field, the key is that of the keyspace with the field bound to the index of the slice;
the further words are computed from the keyspace as it was given.
-/

namespace Manycore

/-- A word of a record after the key, from the keyspace and the index of the slice. -/
abbrev KeyWord := Keyspace → Nat → Keying MemoryError Nat

/-- The mask of the keyspace. -/
def KeyWord.mask : KeyWord := fun k _ => (k.renderMask .all).mapError .key

structure KeyTable where
  keys : List Keyspace
  /-- The field bound to the index of the slice. -/
  fill : Option String
  further : List KeyWord
  /-- One record for each atom of the slice, instead of one for each keyspace. -/
  partitioned : Bool
  /-- Start with the number of records. -/
  leadingCount : Bool

namespace KeyTable

/-- A table of keys alone. -/
def ofKeys (keys : List Keyspace) : KeyTable where
  keys
  fill := none
  further := []
  partitioned := false
  leadingCount := false

/-- The keyspaces that are written for a slice. -/
def keysFor (t : KeyTable) (s : Slice) : List Keyspace :=
  if t.partitioned then s.part t.keys else t.keys

def sizeWords (t : KeyTable) (s : Slice) : Nat :=
  (t.keysFor s).length * (1 + t.further.length) + (if t.leadingCount then 1 else 0)

/-- The size for a slice, unless it cannot be counted. -/
def countWords (t : KeyTable) (s : Slice) : Except DataError Nat := do
  let records ← counted ((t.keysFor s).length * (1 + t.further.length))
  counted (records + (if t.leadingCount then 1 else 0))

/-- A value of the keyspace as a word. -/
def narrow (k : Keyspace) (value : Nat) : Keying MemoryError UInt32 := do
  if value < wordRange then pure (UInt32.ofNat value)
  else throw (.keyTooWide value (k.text (← get)))

/-- The key of a record. -/
def key (t : KeyTable) (k : Keyspace) (index : Nat) : Keying Keyspace.KeyError Nat :=
  match t.fill with
  | some field => do
    let filled ← k.bind [(field, index)]
    filled.renderKey .all
  | none => k.renderKey .all

/-- The key, then the further words. -/
def record (t : KeyTable) (k : Keyspace) (index : Nat) : Keying MemoryError (List UInt32) := do
  let key ← (t.key k index).mapError .key
  let first ← narrow k key
  let rest ← t.further.mapM fun word => do
    let value ← word k index
    narrow k value
  pure (first :: rest)

/-- The words in front of the records. -/
def leading (t : KeyTable) (s : Slice) : List UInt32 :=
  if t.leadingCount then [countWord (t.keysFor s).length] else []

def words (t : KeyTable) (s : Slice) (index : Nat) : Keying MemoryError (List UInt32) := do
  let records ← (t.keysFor s).mapM fun k => t.record k index
  pure (t.leading s ++ records.flatten)

/-- The table as diagnostics show it. -/
def text (t : KeyTable) (p : Pool) : String :=
  let keys := String.intercalate ", " (t.keys.map fun k => k.text p)
  let fill := match t.fill with
    | some field => "Some(" ++ Text.quoted field ++ ")"
    | none => "None"
  s!"KeysRegion \x7b keys: [{keys}], fill_in_field: {fill}, extra_fields: {t.further.length}, "
    ++ s!"partitioned: {t.partitioned}, prepend_n_keys: {t.leadingCount} \x7d"

end KeyTable

end Manycore
