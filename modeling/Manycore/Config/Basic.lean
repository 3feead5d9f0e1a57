import Manycore.Number.Binary64

/-! # Configuration

The settings of a compilation by section, and what they are when nothing is said.
-/

namespace Manycore

/-- How the keys of connections are laid out. -/
structure Config.Keys where
  width : UInt32
  /-- The bits of the field that tells the slices of a vertex apart. -/
  subvertexBits : UInt32
  /-- The bits of the field that tells the values of a stream apart. -/
  dimensionBits : UInt32
  deriving DecidableEq

/-- What a node and a core offer. -/
structure Config.Machine where
  sdramPerNode : UInt32
  /-- The address of the first byte of that memory. -/
  sdramBase : UInt32
  dtcmPerCore : UInt32
  cyclesPerTick : UInt32
  /-- The part of every budget that may be planned for. -/
  usageFraction : Binary64

/-- What the pointer tables carry. -/
structure Config.Application where
  magic : UInt32
  version : UInt32
  /-- In microseconds. -/
  timerPeriod : UInt32
  deriving DecidableEq

/-- The fixed-point format of regions that name none. -/
structure Config.Fixed where
  bits : UInt32
  fraction : Int
  signed : Bool
  deriving DecidableEq

structure Config.Output where
  directory : String
  writeManifest : Bool
  deriving DecidableEq

structure Config.Logging where
  level : String
  deriving DecidableEq

structure Config where
  keys : Config.Keys
  machine : Config.Machine
  application : Config.Application
  fixed : Config.Fixed
  output : Config.Output
  logging : Config.Logging

namespace Config

def Keys.standard : Keys where
  width := 32
  subvertexBits := 8
  dimensionBits := 6

def Machine.standard : Machine where
  sdramPerNode := 119 * 1024 * 1024
  sdramBase := 0x60000000
  dtcmPerCore := 64 * 1024
  cyclesPerTick := 200000
  usageFraction := .ofRatio false 9 10

def Application.standard : Application where
  magic := 0xAD130AD6
  version := 0x00010000
  timerPeriod := 1000

def Fixed.standard : Fixed where
  bits := 32
  fraction := 15
  signed := true

def Output.standard : Output where
  directory := "spinn_output"
  writeManifest := true

def Logging.standard : Logging where
  level := "info"

/-- Every section as it is when nothing is said. -/
def standard : Config where
  keys := .standard
  machine := .standard
  application := .standard
  fixed := .standard
  output := .standard
  logging := .standard

end Config

end Manycore
