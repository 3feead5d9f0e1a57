import Manycore.Text.Blank

/-! # Debug flags

The parts of the program whose messages are shown in full, by arguments and by the environment.
-/

namespace Manycore

/-- The names of the parts for which debug messages are on, in order and without repetition. -/
structure DebugFlags where
  names : List String
  deriving DecidableEq

namespace DebugFlags

/-- The parts that there are. -/
def known : List String :=
  ["spinn", "spinn-config", "spinn-structures", "spinn-keyspace", "spinn-connectivity",
    "spinn-partitioning", "spinn-memory"]

def empty : DebugFlags := ⟨[]⟩

/-- Insert a name in its place. -/
def insertName (name : String) : List String → List String
  | [] => [name]
  | n :: rest =>
    if name < n then name :: n :: rest
    else if name = n then n :: rest
    else n :: insertName name rest

def enable (f : DebugFlags) (name : String) : DebugFlags := ⟨insertName name f.names⟩

def enableEach (f : DebugFlags) (names : List String) : DebugFlags := names.foldl enable f

def enableAll (f : DebugFlags) : DebugFlags := f.enableEach known

/-- An argument `--debug-all` or `--debug-` with a name; others do nothing. -/
def enableArgument (f : DebugFlags) (argument : String) : DebugFlags :=
  if argument = "--debug-all" then f.enableAll
  else
    match Text.after? "--debug-".toList argument.toList with
    | some name => f.enable (String.ofList name)
    | none => f

def ofArguments (arguments : List String) : DebugFlags := arguments.foldl enableArgument empty

/-- The word `all`, or names with commas between them, blanks apart. -/
def enableVariable (f : DebugFlags) (value : String) : DebugFlags :=
  if Text.trim value.toList = "all".toList then f.enableAll
  else
    let names := (Text.splitOn (· == ',') value.toList).map Text.trim
    f.enableEach ((names.filter (· ≠ [])).map String.ofList)

/-- The flags of arguments and of the environment. -/
def ofSurroundings (arguments : List String) (setting : Option String) : DebugFlags :=
  let f := ofArguments arguments
  match setting with
  | some value => f.enableVariable value
  | none => f

def isEnabled (f : DebugFlags) (name : String) : Bool := f.names.contains name

def anyEnabled (f : DebugFlags) : Bool := !f.names.isEmpty

/-- The level at which a part shows messages. -/
def level (f : DebugFlags) (name : String) : String :=
  if f.isEnabled name then "DEBUG" else "INFO"

/-- The directives that turn the flags on, and the level of all else. -/
def filterText (f : DebugFlags) (standard : String) : String :=
  String.intercalate "," (f.names.map (· ++ "=debug") ++ [standard])

def helpText : String :=
  String.intercalate "\n"
    ["Debug Flags:",
      "  --debug-all                    Enable debug logging for all crates",
      "  --debug-\x7bcrate-name\x7d          Enable debug logging for specific crate",
      "",
      "Available crates:",
      "  " ++ String.intercalate ", " known,
      "",
      "Environment Variable:",
      "  SPINN_DEBUG=\x7bcrate-name\x7d[,\x7bcrate-name\x7d]",
      "  SPINN_DEBUG=all",
      ""]

end DebugFlags

end Manycore
