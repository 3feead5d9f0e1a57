import Manycore.Config.Problem
import Manycore.Toml.Reader

/-! # Configurations in TOML

Every section and every field may be left out. A section may also be an array of its first fields.
-/

namespace Manycore

open Toml (Value)

namespace Config

/-- The values of fields in the order of their names, where they are given. -/
def given? (names : List String) : Value → Option (List (Option Value))
  | .table entries => some (names.map fun name => entries.lookup name)
  | .array items => some ((List.range names.length).map fun i => items[i]?)
  | .dateTime => some (names.map fun _ => none)
  | _ => none

/-- Read a field that may be left out. -/
def orElse {α : Type} (standard : α) (read : Value → Option α) : Option Value → Option α
  | none => some standard
  | some v => read v

def word? : Value → Option UInt32
  | .integer n => if 0 ≤ n ∧ n < wordRange then some (UInt32.ofNat n.toNat) else none
  | _ => none

def signedWord? : Value → Option Int
  | .integer n => if -(twoTo 31 : Int) ≤ n ∧ n < twoTo 31 then some n else none
  | _ => none

def number? : Value → Option Binary64
  | .integer n => some (.ofInt n)
  | .float x => some x
  | _ => none

def flag? : Value → Option Bool
  | .boolean b => some b
  | _ => none

def text? : Value → Option String
  | .string s => some s
  | _ => none

def Keys.ofValue? (v : Value) : Option Keys := do
  match ← given? ["width", "subvertex_bits", "dimension_bits"] v with
  | [width, subvertexBits, dimensionBits] =>
    some {
      width := ← orElse Keys.standard.width word? width
      subvertexBits := ← orElse Keys.standard.subvertexBits word? subvertexBits
      dimensionBits := ← orElse Keys.standard.dimensionBits word? dimensionBits }
  | _ => none

def Machine.ofValue? (v : Value) : Option Machine := do
  match ← given? ["sdram_per_node", "sdram_base_address", "dtcm_per_core", "cpu_cycles_per_tick",
      "usage_fraction"] v with
  | [sdramPerNode, sdramBase, dtcmPerCore, cyclesPerTick, usageFraction] =>
    some {
      sdramPerNode := ← orElse Machine.standard.sdramPerNode word? sdramPerNode
      sdramBase := ← orElse Machine.standard.sdramBase word? sdramBase
      dtcmPerCore := ← orElse Machine.standard.dtcmPerCore word? dtcmPerCore
      cyclesPerTick := ← orElse Machine.standard.cyclesPerTick word? cyclesPerTick
      usageFraction := ← orElse Machine.standard.usageFraction number? usageFraction }
  | _ => none

def Application.ofValue? (v : Value) : Option Application := do
  match ← given? ["magic_number", "version", "timer_period"] v with
  | [magic, version, timerPeriod] =>
    some {
      magic := ← orElse Application.standard.magic word? magic
      version := ← orElse Application.standard.version word? version
      timerPeriod := ← orElse Application.standard.timerPeriod word? timerPeriod }
  | _ => none

def Fixed.ofValue? (v : Value) : Option Fixed := do
  match ← given? ["n_bits", "n_frac", "signed"] v with
  | [bits, fraction, signed] =>
    some {
      bits := ← orElse Fixed.standard.bits word? bits
      fraction := ← orElse Fixed.standard.fraction signedWord? fraction
      signed := ← orElse Fixed.standard.signed flag? signed }
  | _ => none

def Output.ofValue? (v : Value) : Option Output := do
  match ← given? ["directory", "write_manifest"] v with
  | [directory, writeManifest] =>
    some {
      directory := ← orElse Output.standard.directory text? directory
      writeManifest := ← orElse Output.standard.writeManifest flag? writeManifest }
  | _ => none

def Logging.ofValue? (v : Value) : Option Logging := do
  match ← given? ["level"] v with
  | [level] => some { level := ← orElse Logging.standard.level text? level }
  | _ => none

/-- The configuration that a table of sections describes. -/
def ofValue? (v : Value) : Option Config := do
  match ← given? ["keyspace", "machine", "application", "fixed_point", "output", "logging"] v with
  | [keys, machine, application, fixed, output, logging] =>
    some {
      keys := ← orElse .standard Keys.ofValue? keys
      machine := ← orElse .standard Machine.ofValue? machine
      application := ← orElse .standard Application.ofValue? application
      fixed := ← orElse .standard Fixed.ofValue? fixed
      output := ← orElse .standard Output.ofValue? output
      logging := ← orElse .standard Logging.ofValue? logging }
  | _ => none

/-- The configuration that a document describes. -/
def ofDocument (text : String) : Except ConfigError Config :=
  match (Value.ofDocument? text).bind ofValue? with
  | some c => .ok c
  | none => .error .malformed

end Config

end Manycore
