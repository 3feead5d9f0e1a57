import Manycore.Keyspace.Pool

/-! # Ready-made layouts

The fixed layout of chip coordinates, and the layout that gives every stream of a network a key of
its own.
-/

namespace Manycore.Keyspace

/-- The tag of the fields that routers match on. -/
def routingTag : String := "routing"

/-- The tag of the fields by which a receiver picks the filter for a stream. -/
def filterRoutingTag : String := "filter_routing"

/-- Bound to the place of the sending object. -/
def objectField : String := "o"

/-- Bound to the place of a stream among those of its object. -/
def connectionField : String := "i"

/-- Bound to the place of the sending split vertex when keys are rendered. -/
def subvertexField : String := "s"

/-- Bound to the dimension of a transmitted value. -/
def dimensionField : String := "d"

/-- The 32-bit layout `x:8 y:8 p:5 i:5 d:6`, the highest bits first; all but `d` are routed on. -/
def standard : Keying KeyError Keyspace := do
  let k ← ofWidth 32
  k.add (((FieldSpec.named "x").placed 24 8).tagged routingTag)
  k.add (((FieldSpec.named "y").placed 16 8).tagged routingTag)
  k.add (((FieldSpec.named "p").placed 11 5).tagged routingTag)
  k.add (((FieldSpec.named "i").placed 6 5).tagged routingTag)
  k.add ((FieldSpec.named "d").placed 0 6)
  pure k

/-- The layout for streams without a key of their own. The dimension and the split vertex are bound
while regions are rendered and have fixed places in the low bits; the stream and its object are
sized by what was bound to them and packed above. -/
def forStreams (width subvertexBits dimensionBits : Nat) : Keying KeyError Keyspace := do
  let k ← ofWidth width
  k.add ((FieldSpec.named dimensionField).placed 0 dimensionBits)
  k.add (((FieldSpec.named subvertexField).placed dimensionBits subvertexBits).tagged routingTag)
  k.add (((FieldSpec.named connectionField).tagged routingTag).tagged filterRoutingTag)
  k.add (((FieldSpec.named objectField).tagged routingTag).tagged filterRoutingTag)
  pure k

/-- The key of all fields. -/
def key (k : Keyspace) : Keying KeyError Nat := k.renderKey .all

def mask (k : Keyspace) : Keying KeyError Nat := k.renderMask .all

/-- The key of the fields that routers match on. -/
def routingKey (k : Keyspace) : Keying KeyError Nat := k.renderKey (.tag routingTag)

def routingMask (k : Keyspace) : Keying KeyError Nat := k.renderMask (.tag routingTag)

end Manycore.Keyspace
