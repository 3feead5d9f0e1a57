import Manycore.Groups
import Manycore.Number.Decimal

/-! # Synapses and filters

The synapse of a connection, and the filter that its receiver applies. The only filter is the
lowpass; a connection without a synapse gets one with a zero time constant.
-/

namespace Manycore

inductive Synapse where
  | lowpass (tau : Binary64)
  | alpha (tau : Binary64)
  | linear (num den : List Binary64)

/-- A list of numbers in brackets. -/
def numbersText (xs : List Binary64) : String :=
  "[" ++ String.intercalate ", " (xs.map Binary64.marked) ++ "]"

def Synapse.text : Synapse → String
  | lowpass tau => s!"Lowpass \x7b tau: {tau.marked} \x7d"
  | alpha tau => s!"Alpha \x7b tau: {tau.marked} \x7d"
  | linear num den => s!"LinearFilter \x7b num: {numbersText num}, den: {numbersText den} \x7d"

/-- A lowpass filter on the receiving core. -/
structure Filter where
  tau : Binary64
  /-- Whether values that arrive in one step add up. -/
  accumulatory : Bool

namespace Filter

/-- What decides whether two filters are the same. -/
def content (f : Filter) : UInt64 × Bool := (f.tau.exactBits, f.accumulatory)

def same (a b : Filter) : Bool := decide (a.content = b.content)

/-- The filter of a synapse, if it has one. -/
def ofSynapse? (synapse : Option Synapse) (accumulatory : Bool) : Except Synapse Filter :=
  match synapse with
  | none => .ok ⟨.zero false, accumulatory⟩
  | some (.lowpass tau) => .ok ⟨tau, accumulatory⟩
  | some other => .error other

end Filter

end Manycore
