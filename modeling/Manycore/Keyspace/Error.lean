import Manycore.Keyspace.Field

/-! # Refused keys

Why a field, a binding or a key is refused.
-/

namespace Manycore.Keyspace

/-- Why a field cannot be added or placed. -/
inductive FieldConflict where
  | frozen (name : String)
  | duplicate (name : String)
  | zeroLength (name : String)
  | outside (name : String) (width : Nat)
  | overlap (name : String) (start stop : Nat) (other : String) (otherStart otherStop : Nat)
  | noRoom (name : String) (length width : Nat)
  deriving DecidableEq

def FieldConflict.message : FieldConflict → String
  | frozen name => s!"Cannot add field '{name}': keys have already been generated"
  | duplicate name => s!"Field with identifier '{name}' already exists"
  | zeroLength name => s!"Field '{name}' must be at least one bit in length"
  | outside name width => s!"Field '{name}' doesn't fit within {width}-bit keyspace"
  | overlap name start stop other otherStart otherStop =>
    s!"Field '{name}' (range {start}-{stop}) overlaps field '{other}' (range {otherStart}-{otherStop})"
  | noRoom name length width => s!"{length}-bit field '{name}' does not fit in {width}-bit keyspace"

/-- Why a value cannot be bound. -/
inductive BindingFault where
  | undefined (name : String)
  | rebound (name : String)
  | requires (name : String) (unmet : Bindings)
  | tooLarge (value length : Nat) (name : String)
  deriving DecidableEq

def BindingFault.message : BindingFault → String
  | undefined name => s!"Field '{name}' not defined"
  | rebound name => s!"Field '{name}' already has value"
  | requires name unmet => s!"Field '{name}' requires that {unmet.text}"
  | tooLarge value length name => s!"Value {value} too large for {length}-bit field '{name}'"

inductive KeyError where
  /-- Fields collide, or one cannot be placed. -/
  | conflict (cause : FieldConflict)
  | binding (cause : BindingFault)
  /-- A key was asked for while fields in it are unbound. -/
  | incomplete (missing : List String)
  | unknownField (name : String)
  | unavailable (name : String) (unmet : Bindings)
  | unknownTag (tag : String)
  | invalidWidth (width : Nat)
  deriving DecidableEq

def KeyError.message : KeyError → String
  | conflict cause => s!"Field conflict: {cause.message}"
  | binding cause => s!"Binding error: {cause.message}"
  | incomplete missing =>
    "Cannot generate key with undefined fields " ++ String.intercalate ", " missing
  | unknownField name => s!"Field '{name}' does not exist"
  | unavailable name unmet => s!"Field '{name}' requires that {unmet.text}"
  | unknownTag tag => s!"Tag '{tag}' does not exist"
  | invalidWidth width => s!"Invalid keyspace width {width}, must be 1..=64 bits"

end Manycore.Keyspace
