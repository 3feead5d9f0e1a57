import Manycore.Config.Problem
import Manycore.Text.Blank

/-! # Overrides

Settings changed by environment variables, which are passed over where they cannot be read, and by
arguments of the command line, which are refused.
-/

namespace Manycore

/-- Names with values: environment variables, or arguments. -/
abbrev Assignments := List (String × String)

namespace Config

/-- A word in base ten, or in base sixteen after `0x`, blanks around it dropped. -/
def readWord? (text : String) : Option UInt32 :=
  let text := Text.trim text.toList
  let value := match text with
    | '0' :: 'x' :: digits => Text.readNatural? 16 digits
    | '0' :: 'X' :: digits => Text.readNatural? 16 digits
    | _ => Text.readNatural? 10 text
  match value with
  | some n => if n < wordRange then some (UInt32.ofNat n) else none
  | none => none

/-- Three words mean yes, in either case; everything else means no. -/
def readFlag (text : String) : Bool :=
  ["true", "1", "yes"].contains (text.map Char.toLower)

/-- A setting that is a word. -/
inductive WordSetting where
  | keyWidth
  | sdramPerNode
  | sdramBase
  | dtcmPerCore
  | cyclesPerTick
  | timerPeriod
  deriving DecidableEq

namespace WordSetting

def set (c : Config) (w : UInt32) : WordSetting → Config
  | keyWidth => { c with keys := { c.keys with width := w } }
  | sdramPerNode => { c with machine := { c.machine with sdramPerNode := w } }
  | sdramBase => { c with machine := { c.machine with sdramBase := w } }
  | dtcmPerCore => { c with machine := { c.machine with dtcmPerCore := w } }
  | cyclesPerTick => { c with machine := { c.machine with cyclesPerTick := w } }
  | timerPeriod => { c with application := { c.application with timerPeriod := w } }

/-- The environment variables of words. -/
def environmentNames : List (String × WordSetting) :=
  [("SPINN_KEYSPACE_WIDTH", keyWidth), ("SPINN_SDRAM_PER_NODE", sdramPerNode),
    ("SPINN_SDRAM_BASE_ADDRESS", sdramBase), ("SPINN_DTCM_PER_CORE", dtcmPerCore),
    ("SPINN_CPU_CYCLES_PER_TICK", cyclesPerTick), ("SPINN_TIMER_PERIOD", timerPeriod)]

/-- The arguments of words, in the order in which they are read. -/
def argumentNames : List (String × WordSetting) :=
  [("keyspace_width", keyWidth), ("sdram_per_node", sdramPerNode),
    ("sdram_base_address", sdramBase), ("dtcm_per_core", dtcmPerCore),
    ("timer_period", timerPeriod)]

end WordSetting

def setDirectory (c : Config) (directory : String) : Config :=
  { c with output := { c.output with directory } }

def setManifest (c : Config) (text : String) : Config :=
  { c with output := { c.output with writeManifest := readFlag text } }

def setLevel (c : Config) (level : String) : Config := { c with logging := { level } }

/-- Change a setting if a name is given. -/
def setIf (given : Assignments) (name : String) (set : Config → String → Config) (c : Config) : Config :=
  match given.lookup name with
  | some text => set c text
  | none => c

/-- Set a word if it can be read. -/
def setWord (s : WordSetting) (c : Config) (text : String) : Config :=
  match readWord? text with
  | some w => s.set c w
  | none => c

/-- The configuration under environment variables. -/
def withEnvironment (c : Config) (env : Assignments) : Config :=
  let c := WordSetting.environmentNames.foldl (fun c (name, s) => setIf env name (setWord s) c) c
  setIf env "SPINN_LOG_LEVEL" setLevel
    (setIf env "SPINN_WRITE_MANIFEST" setManifest
      (setIf env "SPINN_OUTPUT_DIR" setDirectory c))

/-- A computation that changes a configuration and may fail; what was changed before stays. -/
abbrev Overriding (α : Type) := ExceptT ConfigError (StateM Config) α

/-- Set a word from an argument. -/
def overrideWord (args : Assignments) (name : String) (s : WordSetting) : Overriding Unit :=
  match args.lookup name with
  | none => pure ()
  | some text =>
    match readWord? text with
    | some w => modify fun c => s.set c w
    | none => throw (.notAnInteger name text)

/-- Set the usage fraction from an argument. -/
def overrideFraction (args : Assignments) : Overriding Unit :=
  match args.lookup "usage_fraction" with
  | none => pure ()
  | some text =>
    match Binary64.read? text with
    | some x => modify fun c => { c with machine := { c.machine with usageFraction := x } }
    | none => throw (.notANumber "usage_fraction" text)

/-- Apply the arguments of a command line one after the other. -/
def applyArguments (args : Assignments) : Overriding Unit := do
  WordSetting.argumentNames.forM fun (name, s) => overrideWord args name s
  overrideFraction args
  modify (setIf args "output_dir" setDirectory)
  modify (setIf args "write_manifest" setManifest)
  modify (setIf args "log_level" setLevel)

/-- The outcome of applying arguments, and the configuration they leave. -/
def withArguments (c : Config) (args : Assignments) : Except ConfigError Unit × Config :=
  (applyArguments args).run.run c

end Config

end Manycore
