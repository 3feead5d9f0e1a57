import Manycore.Config.Basic
import Manycore.Number.Decimal

/-! # Refused configurations

What a configuration is checked for, and why one cannot be found, read or changed.
-/

namespace Manycore

namespace Config

/-- A budget that must not be zero. -/
inductive Budget where
  | sdram
  | dtcm
  | cycles
  deriving DecidableEq

def Budget.name : Budget → String
  | sdram => "machine.sdram_per_node"
  | dtcm => "machine.dtcm_per_core"
  | cycles => "machine.cpu_cycles_per_tick"

def Budget.of (m : Machine) : Budget → UInt32
  | sdram => m.sdramPerNode
  | dtcm => m.dtcmPerCore
  | cycles => m.cyclesPerTick

/-- What a check finds. -/
inductive Problem where
  | keyWidth (width : UInt32)
  | noRoutingBits (reserved : Nat) (width : UInt32)
  | zeroBudget (budget : Budget)
  | usageFraction (fraction : Binary64)
  | memoryEnd
  | fixedBits (bits : UInt32)
  | fixedFraction (fraction : Int)
  | noDirectory

/-- A field whose value lies outside a range. -/
def outsideText (field value range : String) : String :=
  s!"{field} = {value} is outside valid range ({range})"

/-- A field whose value does not go with others. -/
def invalidText (field reason : String) : String :=
  s!"Invalid configuration value for {field}: {reason}"

def Problem.message : Problem → String
  | keyWidth width => outsideText "keyspace.width" (toString width.toNat) "1-64"
  | noRoutingBits reserved width =>
    invalidText "keyspace.subvertex_bits"
      (s!"sub-vertex and dimension fields use {reserved} of {width.toNat} key bits, "
        ++ "leaving none for routing")
  | zeroBudget budget => invalidText budget.name "budget must be non-zero"
  | usageFraction fraction =>
    outsideText "machine.usage_fraction" fraction.plainText "0.0 exclusive - 1.0 inclusive"
  | memoryEnd =>
    invalidText "machine.sdram_base_address"
      "base address plus sdram_per_node exceeds the 32-bit address space"
  | fixedBits bits => outsideText "fixed_point.n_bits" (toString bits.toNat) "1-32"
  | fixedFraction fraction => outsideText "fixed_point.n_frac" (toString fraction) "-32-32"
  | noDirectory => "Missing required configuration: output.directory"

/-- The bits that no routing field can use, kept within a word. -/
def reservedBits (k : Keys) : Nat :=
  min (k.subvertexBits.toNat + k.dimensionBits.toNat) (wordRange - 1)

/-- A problem, if it is there. -/
def problemIf (there : Bool) (p : Problem) : List Problem := if there then [p] else []

/-- Every problem of a configuration, in the order of the checks. -/
def problems (c : Config) : List Problem :=
  problemIf (c.keys.width == 0 || decide (64 < c.keys.width)) (.keyWidth c.keys.width)
    ++ problemIf (decide (c.keys.width.toNat ≤ reservedBits c.keys))
        (.noRoutingBits (reservedBits c.keys) c.keys.width)
    ++ [Budget.sdram, .dtcm, .cycles].flatMap (fun b => problemIf (b.of c.machine == 0) (.zeroBudget b))
    ++ problemIf
        (!((Binary64.zero false).lt c.machine.usageFraction && c.machine.usageFraction.le .one))
        (.usageFraction c.machine.usageFraction)
    ++ problemIf (decide (wordRange ≤ c.machine.sdramBase.toNat + c.machine.sdramPerNode.toNat)) .memoryEnd
    ++ problemIf (c.fixed.bits == 0 || decide (32 < c.fixed.bits)) (.fixedBits c.fixed.bits)
    ++ problemIf (!decide (-32 ≤ c.fixed.fraction ∧ c.fixed.fraction ≤ 32))
        (.fixedFraction c.fixed.fraction)
    ++ problemIf (c.output.directory == "") .noDirectory

end Config

inductive ConfigError where
  /-- The path that was asked for does not exist. -/
  | missingPath (path : String)
  /-- No directory that was searched has a configuration. -/
  | notFound
  | unreadable
  | malformed
  | invalid (problems : List Config.Problem)
  | notAnInteger (key value : String)
  | notANumber (key value : String)

/-- What is told about an error; searches and readers have no text of their own. -/
def ConfigError.message? : ConfigError → Option String
  | missingPath path =>
    some ("No configuration file found (searched Config file specified by SPINN_CONFIG_PATH "
      ++ s!"not found: {path})")
  | notFound => none
  | unreadable => none
  | malformed => none
  | invalid problems =>
    some ("Configuration rejected:\nConfiguration validation failed:\n"
      ++ String.intercalate "\n" (problems.map fun p => "  - " ++ p.message))
  | notAnInteger key value => some s!"Bad override: {key} = '{value}' is not an integer"
  | notANumber key value => some s!"Bad override: {key} = '{value}' is not a number"

/-- Accept a configuration without problems. -/
def Config.validate (c : Config) : Except ConfigError Unit :=
  match c.problems with
  | [] => .ok ()
  | problems => .error (.invalid problems)

end Manycore
