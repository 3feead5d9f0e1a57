import Manycore.Json.Numeral
import Manycore.Text.Quoted

/-! # JSON values

Values as the library reads and writes them. A number is kept as it is written; a string whose
escapes pair up no surrogates has no text.
-/

namespace Manycore.Json

inductive Value where
  | null
  | bool (value : Bool)
  | number (numeral : Numeral)
  | string (content : Option String)
  | array (items : List Value)
  | object (members : List (Option String × Value))

/-- One character of a string: quotes, backslashes and control characters are escaped. -/
def escaped (c : Char) : String :=
  if c = '"' then "\\\""
  else if c = '\\' then "\\\\"
  else if c = '\n' then "\\n"
  else if c = '\r' then "\\r"
  else if c = '\t' then "\\t"
  else if c.toNat = 8 then "\\b"
  else if c.toNat = 12 then "\\f"
  else if c.toNat < 32 then "\\u00" ++ (if c.toNat < 16 then "0" else "") ++ Text.hex c.toNat
  else c.toString

/-- A string in quotes. -/
def quotedText (s : String) : String := "\"" ++ String.join (s.toList.map escaped) ++ "\""

/-- Two blanks for each level. -/
def indent (depth : Nat) : String := String.ofList (List.replicate (2 * depth) ' ')

namespace Value

def ofNat (n : Nat) : Value := .number (.ofNat n)

def ofString (s : String) : Value := .string (some s)

def ofFields (fields : List (String × Value)) : Value :=
  .object (fields.map fun (name, v) => (some name, v))

mutual

/-- One item or member per line, two blanks deeper than its container. -/
def pretty (depth : Nat) : Value → String
  | .null => "null"
  | .bool b => if b then "true" else "false"
  | .number n => n.text
  | .string s => quotedText (s.getD "")
  | .array [] => "[]"
  | .array items =>
    "[\n" ++ String.intercalate ",\n" (prettyItems (depth + 1) items) ++ "\n" ++ indent depth ++ "]"
  | .object [] => "\x7b\x7d"
  | .object members =>
    "\x7b\n" ++ String.intercalate ",\n" (prettyMembers (depth + 1) members) ++ "\n"
      ++ indent depth ++ "\x7d"

def prettyItems (depth : Nat) : List Value → List String
  | [] => []
  | v :: rest => (indent depth ++ pretty depth v) :: prettyItems depth rest

def prettyMembers (depth : Nat) : List (Option String × Value) → List String
  | [] => []
  | (name, v) :: rest =>
    (indent depth ++ quotedText (name.getD "") ++ ": " ++ pretty depth v)
      :: prettyMembers depth rest

end

/-- The natural number up to `limit`. -/
def natural? (limit : Nat) : Value → Option Nat
  | .number numeral => numeral.natural?.filter (decide <| · ≤ limit)
  | _ => none

def text? : Value → Option String
  | .string s => s
  | _ => none

def items? : Value → Option (List Value)
  | .array items => some items
  | _ => none

/-- The value of the one member of a name. -/
def only? (members : List (String × Value)) (name : String) : Option Value :=
  match members.filter (·.1 = name) with
  | [(_, v)] => some v
  | _ => none

/-- The values of the named fields, from an object that has each once, whatever else it holds, or
from an array of just these values. -/
def fields? (names : List String) : Value → Option (List Value)
  | .array items => if items.length = names.length then some items else none
  | .object members => do
    let members ← members.mapM fun (name, v) => name.map (·, v)
    names.mapM (only? members)
  | _ => none

end Value

end Manycore.Json
