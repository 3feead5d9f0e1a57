import Manycore.Config.Document
import Manycore.Json.Value

/-! # Configurations in JSON

The sections and fields of a configuration as an object of objects.
-/

namespace Manycore.Config

/-- A field of a section. -/
def fieldOfJson : Json.Value → Toml.Value
  | .number n => (n.integer?.map Toml.Value.integer).getD (.float n.toBinary64)
  | .string s => .string (s.getD "")
  | .bool b => .boolean b
  | _ => .array []

/-- A section: an object of fields, of which those without a text for a name are left out, or an
array of the first fields. -/
def sectionOfJson : Json.Value → Toml.Value
  | .object members =>
    .table (members.filterMap fun (name, v) => name.map fun name => (name, fieldOfJson v))
  | .array items => .array (items.map fieldOfJson)
  | v => fieldOfJson v

/-- The configuration that an object describes. -/
def ofJson? : Json.Value → Option Config
  | .object members =>
    ofValue? (.table (members.filterMap fun (name, v) => name.map fun name => (name, sectionOfJson v)))
  | _ => none

end Manycore.Config
