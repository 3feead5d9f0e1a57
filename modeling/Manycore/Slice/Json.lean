import Manycore.Json.Reader
import Manycore.Slice.Split

/-! # Slices as JSON

An object with the fields `start` and `stop`.
-/

namespace Manycore.Slice

def json (s : Slice) : String :=
  "\x7b\"start\":" ++ toString s.start ++ ",\"stop\":" ++ toString s.stop ++ "\x7d"

/-- The slice that a text describes, unless its bounds are refused. -/
def ofJson? (text : String) : Option Slice := do
  let v ← Json.Value.ofText? text
  let bounds ← v.fields? ["start", "stop"]
  match ← bounds.mapM (Json.Value.natural? maxCount) with
  | [start, stop] => (ofBounds start stop).toOption
  | _ => none

end Manycore.Slice
